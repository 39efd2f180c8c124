import Clausal.Source.Program
import Clausal.Proofs.ClauseForm.Matrix

/-!
# Clausal.Proofs.Source.Grammar — the grammar of programs

The grammar as a relation between a text, what is written at its start, and the text that follows.  Layout and words are
those of `Clausal.Source.Lexis`; a word that could start both a variable and a name is a variable.

* `Spells p s r`: the text `s` is the phrase `p` followed by `r`; `Spells.unique`: there is at most one such phrase of a
  kind.
* `Written s rules`: the text `s` is a program with these rules; `Written.unique`.
* `sound`, `written_of_parse`: what the readers accept is written as the grammar says.
* `Spells.isArgument`: what is written has no negation sign.
-/

namespace Clausal.Source

/-! ## Phrases -/

section Phrases

/-- The brackets around a list of arguments. -/
inductive Bracket where
  | round
  | square

/-- The closing bracket. -/
def Bracket.close : Bracket → Char
  | .round => ')'
  | .square => ']'

/-- A part of a statement. -/
inductive Phrase where
  /-- A name, or a name with its arguments. -/
  | compound (t : Term)
  /-- A compound, a variable or a list. -/
  | argument (t : Term)
  /-- At least one argument, and the closing bracket. -/
  | arguments (bracket : Bracket) (ts : List Term)

/-- The first text is the phrase followed by the second text. -/
inductive Spells : Phrase → List Char → List Char → Prop where
  | name {s r : List Char} {a : String} : word? startsName s = some (a, r) → r.head? ≠ some '(' →
      Spells (.compound (.lit false a)) s r
  | applied {s r r' : List Char} {a : String} {ts : List Term} : word? startsName s = some (a, '(' :: r) →
      Spells (.arguments .round ts) r r' → Spells (.compound (.rel false a ts)) s r'
  | var {s r : List Char} {x : String} : word? startsVariable (skipLayout s) = some (x, r) →
      Spells (.argument (.var false x)) s r
  | term {s r : List Char} {t : Term} : word? startsVariable (skipLayout s) = none →
      Spells (.compound t) (skipLayout s) r → Spells (.argument t) s r
  | empty {s r r' : List Char} : skipLayout s = '[' :: r → skipLayout r = ']' :: r' →
      Spells (.argument (.lit false listName)) s r'
  | list {s r r' : List Char} {ts : List Term} : skipLayout s = '[' :: r → Spells (.arguments .square ts) r r' →
      Spells (.argument (.rel false listName ts)) s r'
  | last {s r r' : List Char} {t : Term} {b : Bracket} : Spells (.argument t) s r → skipLayout r = b.close :: r' →
      Spells (.arguments b [t]) s r'
  | more {s r r' r'' : List Char} {t : Term} {ts : List Term} {b : Bracket} : Spells (.argument t) s r →
      skipLayout r = ',' :: r' → Spells (.arguments b ts) r' r'' → Spells (.arguments b (t :: ts)) s r''

variable {s r r' : List Char} {t : Term} {c : Char} {p p' : Phrase}

/-- Two phrases of one kind. -/
def Phrase.Alike : Phrase → Phrase → Prop
  | .compound _, .compound _ => True
  | .argument _, .argument _ => True
  | .arguments b _, .arguments c _ => b = c
  | _, _ => False

theorem starts_of_word? {starts : Char → Bool} {a : String} (h : word? starts (c :: s) = some (a, r)) :
    starts c = true := by
  by_contra hc
  rw [word?, if_neg hc] at h
  cases h

theorem Spells.starts_compound (h : Spells (.compound t) (c :: s) r) : startsName c = true := by
  cases h with
  | name hword _ => exact starts_of_word? hword
  | applied hword _ => exact starts_of_word? hword

theorem not_starts_open : startsName '[' = false ∧ startsVariable '[' = false := by
  decide

theorem not_starts_close : startsName ']' = false ∧ startsVariable ']' = false := by
  decide

theorem word?_variable_open (s : List Char) : word? startsVariable ('[' :: s) = none := by
  rw [word?, if_neg (by rw [not_starts_open.2]; decide)]

theorem Spells.not_compound_open : ¬ Spells (.compound t) ('[' :: s) r := by
  intro h
  have hstarts := h.starts_compound
  rw [not_starts_open.1] at hstarts
  cases hstarts

/-- No argument starts with a closing bracket. -/
theorem Spells.not_argument_close (hs : skipLayout s = ']' :: r) : ¬ Spells (.argument t) s r' := by
  intro h
  cases h with
  | var hword =>
    rw [hs] at hword
    have hstarts := starts_of_word? hword
    rw [not_starts_close.2] at hstarts
    cases hstarts
  | term _ ht =>
    rw [hs] at ht
    have hstarts := ht.starts_compound
    rw [not_starts_close.1] at hstarts
    cases hstarts
  | empty hopen _ =>
    rw [hs] at hopen
    cases hopen
  | list hopen _ =>
    rw [hs] at hopen
    cases hopen

theorem Spells.argument_of_arguments {b : Bracket} {ts : List Term} (h : Spells (.arguments b ts) s r) :
    ∃ t r', Spells (.argument t) s r' := by
  cases h with
  | last ht _ => exact ⟨_, _, ht⟩
  | more ht _ _ => exact ⟨_, _, ht⟩

/-- A compound that starts with a name is the name, or has its arguments in brackets. -/
theorem Spells.compound_of_word {a : String} (hs : word? startsName s = some (a, r)) (h : Spells (.compound t) s r') :
    (r.head? ≠ some '(' ∧ t = .lit false a ∧ r' = r) ∨
      ∃ r₀ ts, r = '(' :: r₀ ∧ t = .rel false a ts ∧ Spells (.arguments .round ts) r₀ r' := by
  cases h with
  | name hword hne =>
    rw [hs] at hword
    cases hword
    exact .inl ⟨hne, rfl, rfl⟩
  | applied hword hargs =>
    rw [hs] at hword
    cases hword
    exact .inr ⟨_, _, rfl, rfl, hargs⟩

/-- An argument that starts with a variable is the variable. -/
theorem Spells.variable_of_word {x : String} (hs : word? startsVariable (skipLayout s) = some (x, r))
    (h : Spells (.argument t) s r') : t = .var false x ∧ r' = r := by
  cases h with
  | var hword =>
    rw [hs] at hword
    cases hword
    exact ⟨rfl, rfl⟩
  | term hnone _ =>
    rw [hs] at hnone
    cases hnone
  | empty hopen _ | list hopen _ =>
    rw [hopen, word?_variable_open] at hs
    cases hs

/-- An argument that starts with an opening bracket is a list. -/
theorem Spells.list_of_open (hs : skipLayout s = '[' :: r) (h : Spells (.argument t) s r') :
    (t = .lit false listName ∧ skipLayout r = ']' :: r') ∨
      ∃ ts, t = .rel false listName ts ∧ Spells (.arguments .square ts) r r' := by
  cases h with
  | var hword =>
    rw [hs, word?_variable_open] at hword
    cases hword
  | term _ ht =>
    rw [hs] at ht
    exact absurd ht not_compound_open
  | empty hopen hclose =>
    rw [hs] at hopen
    cases hopen
    exact .inl ⟨rfl, hclose⟩
  | list hopen hargs =>
    rw [hs] at hopen
    cases hopen
    exact .inr ⟨_, rfl, hargs⟩

theorem Phrase.Alike.compound (h : (Phrase.compound t).Alike p') : ∃ t', p' = .compound t' := by
  cases p' with
  | compound t' => exact ⟨t', rfl⟩
  | argument t' | arguments b ts => cases h

theorem Phrase.Alike.argument (h : (Phrase.argument t).Alike p') : ∃ t', p' = .argument t' := by
  cases p' with
  | argument t' => exact ⟨t', rfl⟩
  | compound t' | arguments b ts => cases h

theorem Bracket.close_ne_comma (b : Bracket) : b.close ≠ ',' := by
  cases b <;> decide

/-- At most one phrase of a kind is written at a place. -/
theorem Spells.unique (h : Spells p s r) (h' : Spells p' s r') (halike : p.Alike p') : p = p' ∧ r = r' := by
  induction h generalizing p' r' with
  | name hword hne =>
    obtain ⟨t', rfl⟩ := halike.compound
    rcases h'.compound_of_word hword with ⟨-, rfl, rfl⟩ | ⟨r₀, ts, rfl, -, -⟩
    · exact ⟨rfl, rfl⟩
    · exact absurd rfl hne
  | applied hword _ ih =>
    obtain ⟨t', rfl⟩ := halike.compound
    rcases h'.compound_of_word hword with ⟨hne, -, -⟩ | ⟨r₀, ts, hopen, rfl, hargs⟩
    · exact absurd rfl hne
    · cases hopen
      obtain ⟨heq, rfl⟩ := ih hargs rfl
      cases heq
      exact ⟨rfl, rfl⟩
  | var hword =>
    obtain ⟨t', rfl⟩ := halike.argument
    obtain ⟨rfl, rfl⟩ := h'.variable_of_word hword
    exact ⟨rfl, rfl⟩
  | term hnone ht ih =>
    cases h' with
    | var hword =>
      rw [hword] at hnone
      cases hnone
    | term _ ht' =>
      obtain ⟨heq, rfl⟩ := ih ht' trivial
      cases heq
      exact ⟨rfl, rfl⟩
    | empty hopen _ | list hopen _ =>
      rw [hopen] at ht
      exact absurd ht not_compound_open
    | _ => cases halike
  | empty hopen hclose =>
    obtain ⟨t', rfl⟩ := halike.argument
    rcases h'.list_of_open hopen with ⟨rfl, hclose'⟩ | ⟨ts, rfl, hargs⟩
    · rw [hclose] at hclose'
      cases hclose'
      exact ⟨rfl, rfl⟩
    · obtain ⟨_, _, harg⟩ := hargs.argument_of_arguments
      exact absurd harg (not_argument_close hclose)
  | list hopen hargs ih =>
    obtain ⟨t', rfl⟩ := halike.argument
    rcases h'.list_of_open hopen with ⟨rfl, hclose⟩ | ⟨ts, rfl, hargs'⟩
    · obtain ⟨_, _, harg⟩ := hargs.argument_of_arguments
      exact absurd harg (not_argument_close hclose)
    · obtain ⟨heq, rfl⟩ := ih hargs' rfl
      cases heq
      exact ⟨rfl, rfl⟩
  | @last _ _ _ _ b _ hclose ih =>
    cases h' with
    | last ht' hclose' =>
      obtain ⟨heq, rfl⟩ := ih ht' trivial
      cases heq
      obtain rfl := halike
      rw [hclose] at hclose'
      cases hclose'
      exact ⟨rfl, rfl⟩
    | more ht' hcomma _ =>
      obtain ⟨-, rfl⟩ := ih ht' trivial
      rw [hclose] at hcomma
      exact absurd (List.cons.inj hcomma).1 b.close_ne_comma
    | _ => cases halike
  | more _ hcomma _ ih ihs =>
    cases h' with
    | @last _ _ _ _ b ht' hclose =>
      obtain ⟨-, rfl⟩ := ih ht' trivial
      rw [hcomma] at hclose
      exact absurd (List.cons.inj hclose).1.symm b.close_ne_comma
    | more ht' hcomma' hargs =>
      obtain ⟨heq, rfl⟩ := ih ht' trivial
      cases heq
      rw [hcomma] at hcomma'
      cases hcomma'
      obtain ⟨heq, rfl⟩ := ihs hargs halike
      cases heq
      exact ⟨rfl, rfl⟩
    | _ => cases halike

/-- Every term of the phrase is first-order and without negation signs. -/
def Phrase.IsArgument : Phrase → Prop
  | .compound t => t.isLiteral = true ∧ t.isArgument = true
  | .argument t => t.isArgument = true
  | .arguments _ ts => Term.areArguments ts = true

theorem Spells.isArgument (h : Spells p s r) : p.IsArgument := by
  induction h with
  | name _ _ => exact ⟨rfl, rfl⟩
  | applied _ _ ih => exact ⟨ih, ih⟩
  | var _ => rfl
  | term _ _ ih => exact ih.2
  | empty _ _ => rfl
  | list _ _ ih => exact ih
  | last _ _ ih => exact Bool.and_eq_true_iff.mpr ⟨ih, rfl⟩
  | more _ _ _ ih ihs => exact Bool.and_eq_true_iff.mpr ⟨ih, ihs⟩

end Phrases

/-! ## Programs -/

section Programs

/-- A fact or a rule. -/
structure Rule where
  head : Term
  goals : List Term

/-- The first text is goals, separated by commas, with a full stop, followed by the second text. -/
inductive SpellsGoals : List Char → List Term → List Char → Prop where
  | last {s r r' : List Char} {t : Term} : Spells (.compound t) (skipLayout s) r → skipLayout r = '.' :: r' →
      SpellsGoals s [t] r'
  | more {s r r' r'' : List Char} {t : Term} {ts : List Term} : Spells (.compound t) (skipLayout s) r →
      skipLayout r = ',' :: r' → SpellsGoals r' ts r'' → SpellsGoals s (t :: ts) r''

/-- The text is a program of the given rules: `head.`, or `head :- goal, …, goal.` -/
inductive Written : List Char → List Rule → Prop where
  | done {s : List Char} : skipLayout s = [] → Written s []
  | fact {s r r' : List Char} {h : Term} {rules : List Rule} : Spells (.compound h) (skipLayout s) r →
      skipLayout r = '.' :: r' → Written r' rules → Written s (⟨h, []⟩ :: rules)
  | rule {s r r' r'' : List Char} {h : Term} {gs : List Term} {rules : List Rule} :
      Spells (.compound h) (skipLayout s) r → skipLayout r = ':' :: '-' :: r' → SpellsGoals r' gs r'' →
      Written r'' rules → Written s (⟨h, gs⟩ :: rules)

variable {s r r' : List Char} {t h : Term} {ts ts' gs : List Term} {rules rules' : List Rule} {fuel n : Nat}

theorem SpellsGoals.unique (hs : SpellsGoals s ts r) (hs' : SpellsGoals s ts' r') : ts = ts' ∧ r = r' := by
  induction hs generalizing ts' r' with
  | last ht hstop =>
    cases hs' with
    | last ht' hstop' =>
      obtain ⟨heq, rfl⟩ := ht.unique ht' trivial
      cases heq
      rw [hstop] at hstop'
      cases hstop'
      exact ⟨rfl, rfl⟩
    | more ht' hcomma _ =>
      obtain ⟨-, rfl⟩ := ht.unique ht' trivial
      rw [hstop] at hcomma
      cases hcomma
  | more ht hcomma _ ih =>
    cases hs' with
    | last ht' hstop =>
      obtain ⟨-, rfl⟩ := ht.unique ht' trivial
      rw [hcomma] at hstop
      cases hstop
    | more ht' hcomma' hts =>
      obtain ⟨heq, rfl⟩ := ht.unique ht' trivial
      cases heq
      rw [hcomma] at hcomma'
      cases hcomma'
      obtain ⟨rfl, rfl⟩ := ih hts
      exact ⟨rfl, rfl⟩

theorem Spells.ne_nil (h : Spells (.compound t) s r) : s ≠ [] := by
  rintro rfl
  cases h with
  | name hword _ => cases hword
  | applied hword _ => cases hword

/-- A text is a program of one list of rules at most. -/
theorem Written.unique (hw : Written s rules) (hw' : Written s rules') : rules = rules' := by
  induction hw generalizing rules' with
  | done hend =>
    cases hw' with
    | done _ => rfl
    | fact hh _ _ | rule hh _ _ _ => exact absurd hend hh.ne_nil
  | fact hh hstop _ ih =>
    cases hw' with
    | done hend => exact absurd hend hh.ne_nil
    | fact hh' hstop' hrest =>
      obtain ⟨heq, rfl⟩ := hh.unique hh' trivial
      cases heq
      rw [hstop] at hstop'
      cases hstop'
      rw [ih hrest]
    | rule hh' hif _ _ =>
      obtain ⟨-, rfl⟩ := hh.unique hh' trivial
      rw [hstop] at hif
      cases hif
  | rule hh hif hgoals _ ih =>
    cases hw' with
    | done hend => exact absurd hend hh.ne_nil
    | fact hh' hstop _ =>
      obtain ⟨-, rfl⟩ := hh.unique hh' trivial
      rw [hif] at hstop
      cases hstop
    | rule hh' hif' hgoals' hrest =>
      obtain ⟨heq, rfl⟩ := hh.unique hh' trivial
      cases heq
      rw [hif] at hif'
      cases hif'
      obtain ⟨rfl, rfl⟩ := hgoals.unique hgoals'
      rw [ih hrest]

end Programs

/-! ## The readers -/

section Readers

variable {s r r' : List Char} {t : Term} {ts : List Term} {fuel n : Nat}

theorem andThen_eq_ok {α β : Type} {first : Reading α} {f : α → List Char → Reading β} {b : β} :
    first.andThen f = .ok b r ↔ ∃ a r', first = .ok a r' ∧ f a r' = .ok b r := by
  cases first with
  | ok a r' =>
    constructor
    · exact fun h => ⟨a, r', rfl, h⟩
    · rintro ⟨_, _, heq, h⟩
      cases heq
      exact h
  | miss | fail p => simp [Reading.andThen]

theorem required_eq_ok {α : Type} {expected : String} {first : Reading α} {a : α} :
    first.required expected s = .ok a r ↔ first = .ok a r := by
  cases first <;> simp [Reading.required]

theorem punctuation_eq_ok {c : Char} {u : Unit} : punctuation c s = .ok u r ↔ skipLayout s = c :: r := by
  unfold punctuation
  cases skipLayout s with
  | nil => simp
  | cons d s' =>
    by_cases hd : d = c
    · simp [hd]
    · simp [hd]

/-- What the readers of terms accept with a given fuel. -/
structure Sound (fuel : Nat) : Prop where
  compound : ∀ {s t r}, compound fuel s = .ok t r → Spells (.compound t) s r
  argument : ∀ {s t r}, argument fuel s = .ok t r → Spells (.argument t) s r
  arguments : ∀ {s₀ s t ts r r'} (b : Bracket), Spells (.argument t) s₀ s → furtherArguments fuel s = .ok ts r →
    skipLayout r = b.close :: r' → Spells (.arguments b (t :: ts)) s₀ r'

theorem sound_compound (ih : Sound fuel) (h : compound (fuel + 1) s = .ok t r) : Spells (.compound t) s r := by
  rw [compound] at h
  split at h
  · cases h
  · next name s' hword =>
    obtain ⟨u, s₁, hu, h⟩ := andThen_eq_ok.mp h
    obtain ⟨us, s₂, hus, h⟩ := andThen_eq_ok.mp h
    obtain ⟨_, s₃, hclose, h⟩ := andThen_eq_ok.mp h
    cases h
    have hfirst := ih.argument (required_eq_ok.mp hu)
    exact .applied hword (ih.arguments .round hfirst hus (punctuation_eq_ok.mp hclose))
  · next name s' hne hword =>
    cases h
    refine .name hword fun hopen => ?_
    obtain ⟨rest, rfl⟩ := List.head?_eq_some_iff.mp hopen
    exact hne rest rfl

theorem sound_argument (ih : Sound fuel) (h : argument (fuel + 1) s = .ok t r) : Spells (.argument t) s r := by
  rw [argument] at h
  split at h
  · next s' hopen =>
    split at h
    · cases h
    · obtain ⟨_, s₁, hclose, h⟩ := andThen_eq_ok.mp h
      cases h
      exact .empty hopen (punctuation_eq_ok.mp hclose)
    · next u s₁ hu =>
      obtain ⟨us, s₂, hus, h⟩ := andThen_eq_ok.mp h
      obtain ⟨_, s₃, hclose, h⟩ := andThen_eq_ok.mp h
      cases h
      exact .list hopen (ih.arguments .square (ih.argument hu) hus (punctuation_eq_ok.mp hclose))
  · split at h
    · next hword =>
      cases h
      exact .var hword
    · next hword => exact .term hword (ih.compound h)

theorem sound_arguments (ih : Sound fuel) {s₀ : List Char} (b : Bracket) (ht : Spells (.argument t) s₀ s)
    (h : furtherArguments (fuel + 1) s = .ok ts r) (hclose : skipLayout r = b.close :: r') :
    Spells (.arguments b (t :: ts)) s₀ r' := by
  rw [furtherArguments] at h
  split at h
  · next s' hcomma =>
    split at h
    · next u s₁ hu =>
      obtain ⟨us, s₂, hus, h⟩ := andThen_eq_ok.mp h
      cases h
      exact .more ht hcomma (ih.arguments b (ih.argument hu) hus hclose)
    · -- the comma is left, where the closing bracket should be
      cases h
      exact .last ht hclose
    · cases h
  · cases h
    exact .last ht hclose

/-- What is read is written. -/
theorem sound (fuel : Nat) : Sound fuel := by
  induction fuel with
  | zero =>
    refine ⟨fun h => (by cases h), fun h => (by cases h), fun b ht h hclose => ?_⟩
    cases h
    exact .last ht hclose
  | succ fuel ih => exact ⟨sound_compound ih, sound_argument ih, sound_arguments ih⟩

theorem spellsGoals_of_furtherGoals {s₀ : List Char} (ht : Spells (.compound t) (skipLayout s₀) s)
    (h : furtherGoals fuel n s = .ok ts r) (hstop : skipLayout r = '.' :: r') : SpellsGoals s₀ (t :: ts) r' := by
  induction n generalizing s₀ t s ts with
  | zero =>
    cases h
    exact .last ht hstop
  | succ n ih =>
    rw [furtherGoals] at h
    split at h
    · next s' hcomma =>
      split at h
      · next u s₁ hu =>
        obtain ⟨us, s₂, hus, h⟩ := andThen_eq_ok.mp h
        cases h
        exact .more ht hcomma (ih ((sound fuel).compound hu) hus)
      · cases h
        exact .last ht hstop
      · cases h
    · cases h
      exact .last ht hstop

/-- The formula of a rule. -/
def Rule.formula (rule : Rule) : Term :=
  Source.rule rule.head rule.goals

theorem written_of_statement (h : statement fuel s = .ok t r) :
    ∃ rule : Rule, t = rule.formula.close ∧ ∀ rules, Written r rules → Written s (rule :: rules) := by
  obtain ⟨head, s₁, hhead, h⟩ := andThen_eq_ok.mp h
  obtain ⟨goals, s₂, hbody, h⟩ := andThen_eq_ok.mp h
  obtain ⟨_, s₃, hstop, h⟩ := andThen_eq_ok.mp h
  cases h
  have hhead := (sound fuel).compound hhead
  have hstop := punctuation_eq_ok.mp hstop
  refine ⟨⟨head, goals⟩, rfl, fun rules hrest => ?_⟩
  unfold body at hbody
  split at hbody
  · next s' hif =>
    obtain ⟨g, s₄, hg, hbody⟩ := andThen_eq_ok.mp hbody
    obtain ⟨gs, s₅, hgs, hbody⟩ := andThen_eq_ok.mp hbody
    cases hbody
    have hgoals := spellsGoals_of_furtherGoals ((sound fuel).compound (required_eq_ok.mp hg)) hgs hstop
    exact .rule hhead hif hgoals hrest
  · cases hbody
    exact .fact hhead hstop hrest

theorem written_of_statements (h : statements fuel n s = .ok ts r) (hend : skipLayout r = []) :
    ∃ rules : List Rule, Written s rules ∧ ts = rules.map fun rule => rule.formula.close := by
  induction n generalizing s ts with
  | zero =>
    cases h
    exact ⟨[], .done hend, rfl⟩
  | succ n ih =>
    rw [statements] at h
    split at h
    · next t s₁ ht =>
      obtain ⟨us, s₂, hus, h⟩ := andThen_eq_ok.mp h
      cases h
      obtain ⟨rules, hrest, rfl⟩ := ih hus
      obtain ⟨rule, rfl, hrule⟩ := written_of_statement ht
      exact ⟨rule :: rules, hrule rules hrest, rfl⟩
    · cases h
      exact ⟨[], .done hend, rfl⟩
    · cases h

/-- A text that is read as a program is written as one, and the statements are those written. -/
theorem written_of_parse {text : String} {p : Program} (h : Program.parse text = .ok p) :
    ∃ rules, Written text.toList rules ∧ p.statements = rules.map fun rule => rule.formula.close := by
  obtain ⟨ts, hts, hp⟩ := bind_eq_ok.mp h
  cases hp
  unfold complete at hts
  split at hts
  · next us rest hus =>
    split at hts
    · next hend =>
      cases hts
      exact written_of_statements hus (List.isEmpty_iff.mp hend)
    · cases hts
  · cases hts
  · cases hts

end Readers

end Clausal.Source
