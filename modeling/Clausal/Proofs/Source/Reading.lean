import Clausal.Proofs.Source.Grammar
import Clausal.Proofs.Source.Lexis

/-!
# Clausal.Proofs.Source.Reading — what is written is read

The readers take the first alternative that fits and never come back to the others, and they have a bounded number of
steps.  Neither loses anything: a text that is written as the grammar says is read as what is written.

* `Spells.length_lt`: what is read gets shorter.
* `Reads`, `Spells.reads`: two steps for every character are enough to read a phrase.
* `Written.read`: and to read the statements of a program.
* `parse_eq_ok_iff`: the texts that are read as programs are those that are written as such.
-/

namespace Clausal.Source

variable {s r r' : List Char} {t : Term} {ts : List Term} {p : Phrase} {rules : List Rule} {fuel n : Nat}

/-! ## Lengths -/

section Lengths

theorem length_lt_of_word? {starts : Char → Bool} {a : String} (h : word? starts s = some (a, r)) :
    r.length < s.length := by
  cases word?_eq_some.mp h
  rw [List.length_cons, List.length_append]
  omega

theorem length_lt_of_skipLayout {c : Char} (h : skipLayout s = c :: r) : r.length < s.length := by
  have hle := length_skipLayout_le s
  rw [h, List.length_cons] at hle
  exact hle

/-- A phrase has at least one character. -/
theorem Spells.length_lt (h : Spells p s r) : r.length < s.length := by
  induction h with
  | name hword _ => exact length_lt_of_word? hword
  | applied hword _ ih =>
    have hname := length_lt_of_word? hword
    rw [List.length_cons] at hname
    omega
  | @var s r x hword => exact (length_lt_of_word? hword).trans_le (length_skipLayout_le s)
  | @term s r t _ _ ih => exact ih.trans_le (length_skipLayout_le s)
  | empty hopen hclose => exact (length_lt_of_skipLayout hclose).trans (length_lt_of_skipLayout hopen)
  | list hopen _ ih => exact ih.trans (length_lt_of_skipLayout hopen)
  | last _ hclose ih => exact (length_lt_of_skipLayout hclose).trans ih
  | more _ hcomma _ ih ihs => exact (ihs.trans (length_lt_of_skipLayout hcomma)).trans ih

theorem SpellsGoals.length_lt (h : SpellsGoals s ts r) : r.length < s.length := by
  induction h with
  | @last s _ _ _ ht hstop =>
    exact ((length_lt_of_skipLayout hstop).trans ht.length_lt).trans_le (length_skipLayout_le s)
  | @more s _ _ _ _ _ ht hcomma _ ih =>
    exact ((ih.trans (length_lt_of_skipLayout hcomma)).trans ht.length_lt).trans_le (length_skipLayout_le s)

end Lengths

/-! ## Phrases -/

section Phrases

/-- The readers find the phrase at the start of `s`, with `r` after it, if they have two steps for every character.  For
an argument they may need one step more, since a compound is as long as the argument that it is. -/
def Reads (s r : List Char) : Phrase → Prop
  | .compound t => ∀ fuel, 2 * s.length + 1 ≤ fuel → compound fuel s = .ok t r
  | .argument t => ∀ fuel, 2 * s.length + 2 ≤ fuel → argument fuel s = .ok t r
  | .arguments b ts => ∀ fuel, 2 * s.length + 2 ≤ fuel → ∃ t us r₁ r₂, ts = t :: us ∧ argument fuel s = .ok t r₁ ∧
      furtherArguments fuel r₁ = .ok us r₂ ∧ skipLayout r₂ = b.close :: r

/-- No argument starts with a closing bracket. -/
theorem argument_close (h : skipLayout s = ']' :: r) (fuel : Nat) : argument fuel s = .miss := by
  cases fuel with
  | zero => rfl
  | succ fuel =>
    have hvar : word? startsVariable (']' :: r) = none := by rw [word?, not_starts_close.2]; rfl
    have hname : word? startsName (']' :: r) = none := by rw [word?, not_starts_close.1]; rfl
    have hcompound : compound fuel (']' :: r) = .miss := by
      cases fuel with
      | zero => rfl
      | succ fuel => rw [compound, hname]
    rw [argument, h]
    split
    · next hopen => cases hopen
    · rw [hvar, hcompound]

/-- No further argument comes before a closing bracket. -/
theorem furtherArguments_close {b : Bracket} (h : skipLayout s = b.close :: r) (fuel : Nat) :
    furtherArguments fuel s = .ok [] s := by
  cases fuel with
  | zero => rfl
  | succ fuel =>
    rw [furtherArguments, h]
    cases b <;> rfl

theorem Spells.reads (h : Spells p s r) : Reads s r p := by
  induction h with
  | @name s r a hword hne =>
    intro fuel hfuel
    obtain ⟨fuel, rfl⟩ : ∃ k, fuel = k + 1 := ⟨fuel - 1, by omega⟩
    rw [compound, hword]
    split
    · next heq => cases heq
    · next r' heq =>
      cases heq
      exact absurd rfl hne
    · next heq =>
      cases heq
      rfl
  | @applied s r r' a ts hword _ ih =>
    intro fuel hfuel
    obtain ⟨fuel, rfl⟩ : ∃ k, fuel = k + 1 := ⟨fuel - 1, by omega⟩
    have hname := length_lt_of_word? hword
    rw [List.length_cons] at hname
    obtain ⟨t, us, r₁, r₂, rfl, hfirst, hfurther, hclose⟩ := ih fuel (by omega)
    have hround : punctuation ')' r₂ = .ok () r' := punctuation_eq_ok.mpr hclose
    simp only [compound, hword, hfirst, Reading.required, Reading.andThen, hfurther, hround]
  | @var s r x hword =>
    intro fuel hfuel
    obtain ⟨fuel, rfl⟩ : ∃ k, fuel = k + 1 := ⟨fuel - 1, by omega⟩
    rw [argument]
    split
    · next s' hopen =>
      rw [hopen, word?_variable_open] at hword
      cases hword
    · rw [hword]
  | @term s r t hnone ht ih =>
    intro fuel hfuel
    obtain ⟨fuel, rfl⟩ : ∃ k, fuel = k + 1 := ⟨fuel - 1, by omega⟩
    have hle := length_skipLayout_le s
    rw [argument]
    split
    · next s' hopen =>
      rw [hopen] at ht
      exact absurd ht Spells.not_compound_open
    · rw [hnone]
      exact ih fuel (by omega)
  | @empty s r r' hopen hclose =>
    intro fuel hfuel
    obtain ⟨fuel, rfl⟩ : ∃ k, fuel = k + 1 := ⟨fuel - 1, by omega⟩
    have hsquare : punctuation ']' r = .ok () r' := punctuation_eq_ok.mpr hclose
    simp only [argument, hopen, argument_close hclose, hsquare, Reading.andThen]
    rfl
  | @list s r r' ts hopen _ ih =>
    intro fuel hfuel
    obtain ⟨fuel, rfl⟩ : ∃ k, fuel = k + 1 := ⟨fuel - 1, by omega⟩
    have hlt := length_lt_of_skipLayout hopen
    obtain ⟨t, us, r₁, r₂, rfl, hfirst, hfurther, hclose⟩ := ih fuel (by omega)
    have hsquare : punctuation ']' r₂ = .ok () r' := punctuation_eq_ok.mpr hclose
    simp only [argument, hopen, hfirst, hfurther, hsquare, Reading.andThen]
    rfl
  | @last s r r' t b _ hclose ih =>
    intro fuel hfuel
    exact ⟨t, [], r, r, rfl, ih fuel hfuel, furtherArguments_close hclose fuel, hclose⟩
  | @more s r r' r'' t ts b ht hcomma _ ih ihs =>
    intro fuel hfuel
    have hlt := ht.length_lt
    have hlt' := length_lt_of_skipLayout hcomma
    refine ⟨t, ts, r, ?_⟩
    have hfirst := ih fuel hfuel
    -- the next argument is read with one step less
    obtain ⟨fuel, rfl⟩ : ∃ k, fuel = k + 1 := ⟨fuel - 1, by omega⟩
    obtain ⟨u, us, r₁, r₂, rfl, hnext, hfurther, hclose⟩ := ihs fuel (by omega)
    refine ⟨r₂, rfl, hfirst, ?_, hclose⟩
    simp only [furtherArguments, hcomma, hnext, hfurther, Reading.andThen]

end Phrases

/-! ## Programs -/

section Programs

/-- The reader of a term finds a compound after layout. -/
theorem Spells.compound_eq (h : Spells (.compound t) (skipLayout s) r) (hfuel : 2 * s.length + 1 ≤ fuel) :
    compound fuel (skipLayout s) = .ok t r := by
  have hle := length_skipLayout_le s
  exact h.reads fuel (by omega)

/-- The goals of a rule: the first one, the further ones, and the full stop. -/
theorem SpellsGoals.reads (h : SpellsGoals s ts r) (hfuel : 2 * s.length + 1 ≤ fuel) (hn : s.length ≤ n) :
    ∃ t us r₁ r₂, ts = t :: us ∧ compound fuel (skipLayout s) = .ok t r₁ ∧ furtherGoals fuel n r₁ = .ok us r₂ ∧
      skipLayout r₂ = '.' :: r := by
  induction h generalizing n with
  | @last s r r' t ht hstop =>
    refine ⟨t, [], r, r, rfl, ht.compound_eq hfuel, ?_, hstop⟩
    cases n with
    | zero => rfl
    | succ n =>
      rw [furtherGoals, hstop]
      rfl
  | @more s r r' r'' t ts ht hcomma hts ih =>
    have hlt := ht.length_lt.trans_le (length_skipLayout_le s)
    have hlt' := length_lt_of_skipLayout hcomma
    obtain ⟨n, rfl⟩ : ∃ k, n = k + 1 := ⟨n - 1, by omega⟩
    obtain ⟨u, us, r₁, r₂, rfl, hnext, hfurther, hstop⟩ := ih (n := n) (by omega) (by omega)
    refine ⟨t, u :: us, r, r₂, rfl, ht.compound_eq hfuel, ?_, hstop⟩
    simp only [furtherGoals, hcomma, hnext, hfurther, Reading.andThen]

theorem statement_of_fact {h : Term} (hhead : compound fuel (skipLayout s) = .ok h r)
    (hstop : skipLayout r = '.' :: r') : statement fuel s = .ok (Rule.formula ⟨h, []⟩).close r' := by
  have hbody : body fuel r = .ok [] r := by
    rw [body, hstop]
    rfl
  have hpoint : punctuation '.' r = .ok () r' := punctuation_eq_ok.mpr hstop
  simp only [statement, hhead, hbody, hpoint, Reading.andThen]
  rfl

theorem statement_of_rule {h : Term} {r'' : List Char} (hhead : compound fuel (skipLayout s) = .ok h r)
    (hif : skipLayout r = ':' :: '-' :: r') (hgoals : SpellsGoals r' ts r'') (hfuel : 2 * r'.length + 1 ≤ fuel) :
    statement fuel s = .ok (Rule.formula ⟨h, ts⟩).close r'' := by
  obtain ⟨t, us, r₁, r₂, rfl, hfirst, hfurther, hstop⟩ := hgoals.reads (n := fuel) hfuel (by omega)
  have hbody : body fuel r = .ok (t :: us) r₂ := by
    simp only [body, hif, hfirst, Reading.required, Reading.andThen, hfurther]
  have hpoint : punctuation '.' r₂ = .ok () r'' := punctuation_eq_ok.mpr hstop
  simp only [statement, hhead, hbody, hpoint, Reading.andThen]
  rfl

/-- Two steps for every character, and a statement for every character, are enough for a program. -/
theorem Written.read (h : Written s rules) (hfuel : 2 * s.length + 1 ≤ fuel) (hn : s.length ≤ n) :
    ∃ r, statements fuel n s = .ok (rules.map fun rule => rule.formula.close) r ∧ skipLayout r = [] := by
  -- a statement is read, and the rest of the text is shorter
  have step : ∀ {s r : List Char} {rule : Rule} {rules : List Rule} {n : Nat},
      statement fuel s = .ok rule.formula.close r → r.length < s.length → s.length ≤ n →
      (∀ n, r.length ≤ n → ∃ r', statements fuel n r = .ok (rules.map fun rule => rule.formula.close) r' ∧
        skipLayout r' = []) →
      ∃ r', statements fuel n s = .ok ((rule :: rules).map fun rule => rule.formula.close) r' ∧ skipLayout r' = [] := by
    intro s r rule rules n hstatement hlt hn hrest
    obtain ⟨n, rfl⟩ : ∃ k, n = k + 1 := ⟨n - 1, by omega⟩
    obtain ⟨r', hr', hend⟩ := hrest n (by omega)
    refine ⟨r', ?_, hend⟩
    simp only [statements, hstatement, hr', Reading.andThen, List.map_cons]
  induction h generalizing n with
  | @done s hend =>
    refine ⟨s, ?_, hend⟩
    cases n with
    | zero => rfl
    | succ n =>
      have hmiss : statement fuel s = .miss := by
        rw [statement, hend]
        cases fuel <;> rfl
      rw [statements, hmiss]
      rfl
  | @fact s r r' h rules hhead hstop _ ih =>
    have hlt := (length_lt_of_skipLayout hstop).trans (hhead.length_lt.trans_le (length_skipLayout_le s))
    exact step (statement_of_fact (hhead.compound_eq hfuel) hstop) hlt hn fun n hn => ih (by omega) hn
  | @rule s r r' r'' h gs rules hhead hif hgoals _ ih =>
    have hlt := hhead.length_lt.trans_le (length_skipLayout_le s)
    have hlt' := length_lt_of_skipLayout hif
    rw [List.length_cons] at hlt'
    have hlt'' := hgoals.length_lt
    have hstatement := statement_of_rule (hhead.compound_eq hfuel) hif hgoals (by omega)
    exact step hstatement (by omega) hn fun n hn => ih (by omega) hn

/-- The texts that are read as programs are those that are written as such. -/
theorem parse_eq_ok_iff {text : String} {p : Program} :
    Program.parse text = .ok p ↔
      ∃ rules, Written text.toList rules ∧ p.statements = rules.map fun rule => rule.formula.close := by
  constructor
  · exact written_of_parse
  · rintro ⟨rules, hwritten, hstatements⟩
    have hfuel : 2 * text.toList.length + 1 ≤ fuelFor text.toList := by rw [fuelFor]; omega
    have hcount : text.toList.length ≤ fuelFor text.toList := by omega
    obtain ⟨r, hread, hend⟩ := hwritten.read hfuel hcount
    obtain ⟨statements⟩ := p
    dsimp only at hstatements
    subst hstatements
    simp only [Program.parse, hread, complete, hend]
    rfl

end Programs

end Clausal.Source
