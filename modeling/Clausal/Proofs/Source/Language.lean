import Mathlib.Data.List.Sort
import Clausal.Proofs.Source.Loading
import Clausal.Proofs.Source.Reading

/-!
# Clausal.Proofs.Source.Language — the texts that are programs

The language of programs, and the formulas its statements stand for, as relations of their own.  Layout may stand before
every token, a name and the bracket of its arguments apart; nothing says which of two ways to read a text comes first.

* `Derives p s r`, `DerivesGoals`, `IsProgram s rules`: phrases, bodies and programs.  `Derives.spells` and
  `Spells.derives` compare them with `Spells`, where the layout is skipped and a name takes a bracket that follows.
* `Rule.States rule t`: the term of a statement, closed over its variables in the order in which they occur first;
  `Rule.states_iff` says that this is the term that is read.
* `parse_iff_isProgram`: `Program.parse` accepts just this language.
-/

namespace Clausal

/-! ## Order of occurrence -/

section Order

variable {xs ys : List String} {t : Term}

/-- The list has the variables of the term, each once, in the order of their first occurrences. -/
structure Term.Enumerates (t : Term) (xs : List String) : Prop where
  mem_iff : ∀ x, x ∈ xs ↔ x ∈ t.occurrences
  ordered : xs.Pairwise fun x y => t.occurrences.idxOf x < t.occurrences.idxOf y

theorem Term.Enumerates.unique (h : t.Enumerates xs) (h' : t.Enumerates ys) : xs = ys := by
  have hirrefl : Std.Irrefl fun x y => t.occurrences.idxOf x < t.occurrences.idxOf y :=
    ⟨fun _ => Nat.lt_irrefl _⟩
  have hantisymm : Std.Antisymm fun x y => t.occurrences.idxOf x < t.occurrences.idxOf y :=
    ⟨fun _ _ hxy hyx => absurd hyx hxy.asymm⟩
  exact h.ordered.eq_of_mem_iff h'.ordered fun x => (h.mem_iff x).trans (h'.mem_iff x).symm

/-- What comes first in a list comes first among its first elements. -/
theorem pairwise_idxOf_firsts (xs : List String) :
    (firsts (· = ·) xs).Pairwise fun x y => xs.idxOf x < xs.idxOf y := by
  induction xs with
  | nil => exact .nil
  | cons z xs ih =>
    have hne : ∀ {y}, z ≠ y → (z :: xs).idxOf y = xs.idxOf y + 1 := fun hy => List.idxOf_cons_ne xs hy
    rw [firsts]
    refine .cons (fun y hy => ?_) ((ih.filter _).imp_of_mem fun {x y} hx hy hxy => ?_)
    · have hy : z ≠ y := by simpa using (List.mem_filter.mp hy).2
      rw [hne hy, List.idxOf_cons_self]
      exact Nat.succ_pos _
    · have hx : z ≠ x := by simpa using (List.mem_filter.mp hx).2
      have hy : z ≠ y := by simpa using (List.mem_filter.mp hy).2
      rw [hne hx, hne hy]
      exact Nat.succ_lt_succ hxy

/-- Where nothing is bound, every occurrence is free. -/
theorem Term.freeOccurrences_of_no_binders (h : t.binderOccurrences = []) : t.freeOccurrences [] = t.occurrences := by
  induction t using Term.induct with
  | lit n a | var n x => rfl
  | rel n a ts ih | freeClause n ts ih =>
    rw [binderOccurrences] at h
    rw [freeOccurrences, occurrences]
    induction ts with
    | nil => rfl
    | cons t ts ihs =>
      rw [binderOccurrencesAll, List.append_eq_nil_iff] at h
      rw [freeOccurrencesAll, occurrencesAll, ih t List.mem_cons_self h.1,
        ihs (fun u hu => ih u (List.mem_cons_of_mem t hu)) h.2]
  | fn n a t ih => exact ih h
  | quant n q x t ih => cases h
  | conn n c l r ihl ihr =>
    rw [binderOccurrences, List.append_eq_nil_iff] at h
    rw [freeOccurrences, occurrences, ihl h.1, ihr h.2]

theorem Term.enumerates_freeVars (h : t.binderOccurrences = []) : t.Enumerates t.freeVars where
  mem_iff x := by rw [freeVars, Distinct.mem_ofList, freeOccurrences_of_no_binders h]
  ordered := by
    rw [freeVars_eq_firsts, freeOccurrences_of_no_binders h]
    exact pairwise_idxOf_firsts t.occurrences

end Order

namespace Source

/-! ## Statements -/

section Statements

variable {rule : Rule} {t b h : Term} {ts gs : List Term}

/-- The term is the conjunction of the given ones, nested to the right. -/
inductive Conjunction : List Term → Term → Prop where
  | last (t : Term) : Conjunction [t] t
  | more {t b : Term} {ts : List Term} : Conjunction ts b → Conjunction (t :: ts) (.conn false .and t b)

/-- The term of a statement: its head, or `(g₁ ∧ (g₂ ∧ …)) ⇒ head`, below `∀` over its variables. -/
inductive Rule.States : Rule → Term → Prop where
  | fact {h : Term} {xs : List String} : h.Enumerates xs → States ⟨h, []⟩ (.universal xs h)
  | rule {h b : Term} {gs : List Term} {xs : List String} : Conjunction gs b →
      (Term.conn false .implies b h).Enumerates xs → States ⟨h, gs⟩ (.universal xs (.conn false .implies b h))

theorem conjunction_cons_iff : Conjunction (t :: ts) b ↔ b = Term.joinRight .and t ts := by
  constructor
  · intro hb
    generalize hus : t :: ts = us at hb
    induction hb generalizing t ts with
    | last u =>
      cases hus
      rfl
    | @more u b us hb ih =>
      cases hus
      cases us with
      | nil => cases hb
      | cons t' us => rw [ih rfl]; rfl
  · rintro rfl
    induction ts generalizing t with
    | nil => exact .last t
    | cons u ts ih => exact .more ih

theorem binderOccurrences_joinRight (op : Connective) (t : Term) (ts : List Term) :
    (Term.joinRight op t ts).binderOccurrences = Term.binderOccurrencesAll (t :: ts) := by
  induction ts generalizing t with
  | nil => exact (List.append_nil _).symm
  | cons u us ih =>
    rw [Term.joinRight, Term.binderOccurrences, ih]
    rfl

theorem Rule.binderOccurrences_formula (hplain : rule.Plain) : rule.formula.binderOccurrences = [] := by
  have hnone : ∀ t ∈ rule.head :: rule.goals, t.binderOccurrences = [] := fun t ht =>
    Term.binderOccurrences_of_isFirstOrder (Term.firstOrder_of_isLiteral (hplain t ht).1).1
  obtain ⟨hhead, hgoals⟩ := List.forall_mem_cons.mp hnone
  unfold formula Source.rule
  cases hrule : rule.goals with
  | nil => exact hhead
  | cons g gs =>
    rw [Term.binderOccurrences, binderOccurrences_joinRight, hhead, List.append_nil,
      List.eq_nil_iff_forall_not_mem]
    intro x hx
    obtain ⟨t, ht, hx⟩ := Term.mem_binderOccurrencesAll.mp hx
    rw [hgoals t (hrule ▸ ht)] at hx
    cases hx

/-- The formula of a rule, below `∀` over its variables. -/
theorem Rule.states_iff_exists : rule.States t ↔ ∃ xs, rule.formula.Enumerates xs ∧ t = .universal xs rule.formula := by
  constructor
  · rintro (⟨hxs⟩ | ⟨hb, hxs⟩)
    · exact ⟨_, hxs, rfl⟩
    · rename_i h b gs xs
      cases gs with
      | nil => cases hb
      | cons g gs =>
        rw [conjunction_cons_iff] at hb
        subst hb
        exact ⟨xs, hxs, rfl⟩
  · rintro ⟨xs, hxs, rfl⟩
    obtain ⟨head, goals⟩ := rule
    cases goals with
    | nil => exact .fact hxs
    | cons g gs => exact .rule (conjunction_cons_iff.mpr rfl) hxs

/-- The term that is read is the one the statement stands for. -/
theorem Rule.states_iff (hplain : rule.Plain) : rule.States t ↔ t = rule.formula.close := by
  have hvars := Term.enumerates_freeVars (binderOccurrences_formula hplain)
  rw [states_iff_exists]
  constructor
  · rintro ⟨xs, hxs, rfl⟩
    rw [hxs.unique hvars]
    rfl
  · rintro rfl
    exact ⟨rule.formula.freeVars, hvars, rfl⟩

end Statements

/-! ## Phrases -/

section Phrases

variable {s s' r : List Char} {p : Phrase} {t : Term} {c : Char}

/-- The first text is the phrase, with layout before its tokens, followed by the second text. -/
inductive Derives : Phrase → List Char → List Char → Prop where
  | name {s s' r : List Char} {a : String} : Layout s s' → Word startsName a s' r →
      Derives (.compound (.lit false a)) s r
  | applied {s s' r r' : List Char} {a : String} {ts : List Term} : Layout s s' → Word startsName a s' ('(' :: r) →
      Derives (.arguments .round ts) r r' → Derives (.compound (.rel false a ts)) s r'
  | var {s s' r : List Char} {x : String} : Layout s s' → Word startsVariable x s' r →
      Derives (.argument (.var false x)) s r
  | term {s r : List Char} {t : Term} : Derives (.compound t) s r → Derives (.argument t) s r
  | empty {s r r' : List Char} : Layout s ('[' :: r) → Layout r (']' :: r') →
      Derives (.argument (.lit false "list")) s r'
  | list {s r r' : List Char} {ts : List Term} : Layout s ('[' :: r) → Derives (.arguments .square ts) r r' →
      Derives (.argument (.rel false "list" ts)) s r'
  | last {s r r' : List Char} {t : Term} {b : Bracket} : Derives (.argument t) s r → Layout r (b.close :: r') →
      Derives (.arguments b [t]) s r'
  | more {s r r' r'' : List Char} {t : Term} {ts : List Term} {b : Bracket} : Derives (.argument t) s r →
      Layout r (',' :: r') → Derives (.arguments b ts) r' r'' → Derives (.arguments b (t :: ts)) s r''

theorem Layout.trans (h : Layout s s') (h' : Layout s' r) : Layout s r := by
  induction h with
  | none s => exact h'
  | blank hc _ ih => exact .blank hc (ih h')
  | line htext hend _ ih => exact .line htext hend (ih h')
  | block htext _ ih => exact .block htext (ih h')

/-- Layout does not start with a bracket. -/
theorem Layout.head?_ne_open (h : Layout s (c :: r)) (hc : c ≠ '(') : s.head? ≠ some '(' := by
  intro hopen
  cases h with
  | none _ => exact hc (Option.some.inj hopen)
  | blank hmem _ =>
    rw [Option.some.inj hopen] at hmem
    exact absurd hmem (by decide)
  | line _ _ _ | block _ _ => cases hopen

/-- Where a word follows, the layout before it is all that is skipped. -/
theorem Layout.word?_eq {starts : Char → Bool} {a : String} (hs : Layout s s') (hword : Word starts a s' r)
    (hstarts : ∀ c, starts c = true → startsName c = true ∨ startsVariable c = true) :
    word? starts (skipLayout s) = some (a, r) := by
  have hskip : skipLayout s' = s' := by
    obtain ⟨hc, -, -⟩ := hword
    exact skipLayout_of_starts (hstarts _ hc) _
  rw [(layout_iff hskip).mp hs, word?_eq_some]
  exact hword

/-- Layout may stand before every phrase. -/
theorem Derives.after (h : Derives p s' r) (hlayout : Layout s s') : Derives p s r := by
  induction h with
  | name hs hword => exact .name (hlayout.trans hs) hword
  | applied hs hword hargs _ => exact .applied (hlayout.trans hs) hword hargs
  | var hs hword => exact .var (hlayout.trans hs) hword
  | term _ ih => exact .term (ih hlayout)
  | empty hopen hclose => exact .empty (hlayout.trans hopen) hclose
  | list hopen hargs _ => exact .list (hlayout.trans hopen) hargs
  | last _ hclose ih => exact .last (ih hlayout) hclose
  | more _ hcomma hargs ih _ => exact .more (ih hlayout) hcomma hargs

theorem Bracket.layout_iff (b : Bracket) : Layout s (b.close :: r) ↔ skipLayout s = b.close :: r := by
  cases b <;> exact layout_cons_iff (by decide)

theorem Bracket.close_ne_open (b : Bracket) : b.close ≠ '(' := by
  cases b <;> decide

theorem Spells.derives (h : Spells p s r) : Derives p s r := by
  induction h with
  | name hword _ => exact .name (.none _) (word?_eq_some.mp hword)
  | applied hword _ ih => exact .applied (.none _) (word?_eq_some.mp hword) ih
  | var hword => exact .var (layout_skipLayout _) (word?_eq_some.mp hword)
  | term _ _ ih => exact .term (ih.after (layout_skipLayout _))
  | empty hopen hclose =>
    exact .empty ((layout_cons_iff (by decide)).mpr hopen) ((layout_cons_iff (by decide)).mpr hclose)
  | list hopen _ ih => exact .list ((layout_cons_iff (by decide)).mpr hopen) ih
  | @last _ _ _ _ b _ hclose ih => exact .last ih (b.layout_iff.mpr hclose)
  | more _ hcomma _ ih ihs => exact .more ih ((layout_cons_iff (by decide)).mpr hcomma) ihs

/-- The text after a name is not the bracket of its arguments. -/
def Phrase.MayEnd : Phrase → List Char → Prop
  | .compound _, r | .argument _, r => r.head? ≠ some '('
  | .arguments _ _, _ => True

/-- Where a reader of the phrase starts: the layout before a compound is skipped by the one who asks for it. -/
def Phrase.start : Phrase → List Char → List Char
  | .compound _, s => skipLayout s
  | .argument _, s | .arguments _ _, s => s

theorem Spells.not_variable (h : Spells (.compound t) s r) : word? startsVariable s = none := by
  cases s with
  | nil => rfl
  | cons c s => rw [word?, if_neg (Bool.eq_false_iff.mp (not_startsVariable_of_startsName h.starts_compound))]

theorem Derives.spells (h : Derives p s r) (hend : p.MayEnd r) : Spells p (p.start s) r := by
  induction h with
  | name hs hword => exact .name (hs.word?_eq hword fun _ => .inl) hend
  | applied hs hword _ ih => exact .applied (hs.word?_eq hword fun _ => .inl) (ih trivial)
  | var hs hword => exact .var (hs.word?_eq hword fun _ => .inr)
  | term _ ih =>
    have ht := ih hend
    exact .term ht.not_variable ht
  | empty hopen hclose =>
    exact .empty ((layout_cons_iff (by decide)).mp hopen) ((layout_cons_iff (by decide)).mp hclose)
  | list hopen _ ih => exact .list ((layout_cons_iff (by decide)).mp hopen) (ih trivial)
  | @last _ _ _ _ b _ hclose ih => exact .last (ih (hclose.head?_ne_open b.close_ne_open)) (b.layout_iff.mp hclose)
  | more _ hcomma _ ih ihs =>
    exact .more (ih (hcomma.head?_ne_open (by decide))) ((layout_cons_iff (by decide)).mp hcomma) (ihs trivial)

/-- Where a token other than a bracket follows, a compound is written in one way. -/
theorem derives_compound_iff (hr : Layout r (c :: s')) (hc : c ≠ '(') :
    Derives (.compound t) s r ↔ Spells (.compound t) (skipLayout s) r := by
  constructor
  · exact fun h => h.spells (hr.head?_ne_open hc)
  · exact fun h => h.derives.after (layout_skipLayout s)

end Phrases

/-! ## Programs -/

section Programs

variable {s r : List Char} {ts : List Term} {rules : List Rule}

/-- The first text is goals, separated by commas, with a full stop, followed by the second text. -/
inductive DerivesGoals : List Char → List Term → List Char → Prop where
  | last {s r r' : List Char} {t : Term} : Derives (.compound t) s r → Layout r ('.' :: r') → DerivesGoals s [t] r'
  | more {s r r' r'' : List Char} {t : Term} {ts : List Term} : Derives (.compound t) s r → Layout r (',' :: r') →
      DerivesGoals r' ts r'' → DerivesGoals s (t :: ts) r''

/-- The text is a program of the given rules: `head.`, or `head :- goal, …, goal.`, with layout after the last one. -/
inductive IsProgram : List Char → List Rule → Prop where
  | done {s : List Char} : Layout s [] → IsProgram s []
  | fact {s r r' : List Char} {h : Term} {rules : List Rule} : Derives (.compound h) s r → Layout r ('.' :: r') →
      IsProgram r' rules → IsProgram s (⟨h, []⟩ :: rules)
  | rule {s r r' r'' : List Char} {h : Term} {gs : List Term} {rules : List Rule} : Derives (.compound h) s r →
      Layout r (':' :: '-' :: r') → DerivesGoals r' gs r'' → IsProgram r'' rules → IsProgram s (⟨h, gs⟩ :: rules)

theorem derivesGoals_iff : DerivesGoals s ts r ↔ SpellsGoals s ts r := by
  constructor
  · intro h
    induction h with
    | last ht hstop =>
      exact .last ((derives_compound_iff hstop (by decide)).mp ht) ((layout_cons_iff (by decide)).mp hstop)
    | more ht hcomma _ ih =>
      exact .more ((derives_compound_iff hcomma (by decide)).mp ht) ((layout_cons_iff (by decide)).mp hcomma) ih
  · intro h
    induction h with
    | last ht hstop =>
      have hstop := (layout_cons_iff (by decide)).mpr hstop
      exact .last ((derives_compound_iff hstop (by decide)).mpr ht) hstop
    | more ht hcomma _ ih =>
      have hcomma := (layout_cons_iff (by decide)).mpr hcomma
      exact .more ((derives_compound_iff hcomma (by decide)).mpr ht) hcomma ih

theorem isProgram_iff : IsProgram s rules ↔ Written s rules := by
  constructor
  · intro h
    induction h with
    | done hend => exact .done (layout_nil_iff.mp hend)
    | fact hh hstop _ ih =>
      exact .fact ((derives_compound_iff hstop (by decide)).mp hh) ((layout_cons_iff (by decide)).mp hstop) ih
    | rule hh hif hgoals _ ih =>
      exact .rule ((derives_compound_iff hif (by decide)).mp hh) ((layout_cons_iff (by decide)).mp hif)
        (derivesGoals_iff.mp hgoals) ih
  · intro h
    induction h with
    | done hend => exact .done (layout_nil_iff.mpr hend)
    | fact hh hstop _ ih =>
      have hstop := (layout_cons_iff (by decide)).mpr hstop
      exact .fact ((derives_compound_iff hstop (by decide)).mpr hh) hstop ih
    | rule hh hif hgoals _ ih =>
      have hif := (layout_cons_iff (by decide)).mpr hif
      exact .rule ((derives_compound_iff hif (by decide)).mpr hh) hif (derivesGoals_iff.mpr hgoals) ih

theorem forall₂_states_iff {statements : List Term} (hplain : ∀ rule ∈ rules, rule.Plain) :
    List.Forall₂ Rule.States rules statements ↔ statements = rules.map fun rule => rule.formula.close := by
  induction rules generalizing statements with
  | nil => simp
  | cons rule rules ih =>
    obtain ⟨hrule, hrules⟩ := List.forall_mem_cons.mp hplain
    rw [List.forall₂_cons_left_iff, List.map_cons]
    constructor
    · rintro ⟨t, ts, ht, hts, rfl⟩
      rw [(Rule.states_iff hrule).mp ht, (ih hrules).mp hts]
    · rintro rfl
      exact ⟨_, _, (Rule.states_iff hrule).mpr rfl, (ih hrules).mpr rfl, rfl⟩

/-- The texts that are read are the programs, and their statements stand for the terms that are read. -/
theorem parse_iff_isProgram (text : String) (statements : List Term) :
    Program.parse text = .ok ⟨statements⟩ ↔
      ∃ rules, IsProgram text.toList rules ∧ List.Forall₂ Rule.States rules statements := by
  rw [parse_eq_ok_iff]
  refine exists_congr fun rules => ?_
  rw [isProgram_iff]
  exact and_congr_right fun hwritten => (forall₂_states_iff hwritten.plain).symm

end Programs

end Source

end Clausal
