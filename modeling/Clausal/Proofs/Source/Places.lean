import Clausal.Proofs.Source.Reading

/-!
# Clausal.Proofs.Source.Places — places in a text

What the readers leave, and where they find a fault, is a part of the text they read, and neither depends on how many
steps they have, once there are enough of them.

* `Reading.collect`: the turn that the loops over arguments, goals and statements share.
* `Reading.Within s r`: the reading `r` leaves a part of `s`, or finds a fault in it; `within_statements`.
* `compound_eq_of_le`, `statements_eq_of_le`: more than two steps for every character make no difference.
* `Found.toError_append`: a text in front that ends a line moves a fault down by its lines and leaves its column.
-/

namespace Clausal.Source

variable {s s' r : List Char} {fuel fuel' n n' : Nat}

/-! ## Loops -/

section Loops

variable {α : Type}

/-- One turn of a loop that collects values: the first one, if there is one, and then as many as there are. -/
def Reading.collect (s : List Char) (more : List Char → Reading (List α)) : Reading α → Reading (List α)
  | .ok a r => (more r).andThen fun as r => .ok (a :: as) r
  | .miss => .ok [] s
  | .fail p => .fail p

theorem furtherArguments_comma (h : skipLayout s = ',' :: r) :
    furtherArguments (fuel + 1) s = (argument fuel r).collect s (furtherArguments fuel) := by
  simp only [furtherArguments, h]
  cases argument fuel r <;> rfl

theorem furtherGoals_comma (h : skipLayout s = ',' :: r) :
    furtherGoals fuel (n + 1) s = (compound fuel (skipLayout r)).collect s (furtherGoals fuel n) := by
  simp only [furtherGoals, h]
  cases compound fuel (skipLayout r) <;> rfl

theorem statements_succ (fuel n : Nat) (s : List Char) :
    statements fuel (n + 1) s = (statement fuel s).collect s (statements fuel n) := by
  rw [statements]
  cases statement fuel s <;> rfl

/-- A comma is the next token, or it is not. -/
theorem comma_or_not (s : List Char) : (∃ r, skipLayout s = ',' :: r) ∨ ∀ r, skipLayout s ≠ ',' :: r := by
  by_cases h : ∃ r, skipLayout s = ',' :: r
  · exact .inl h
  · exact .inr (not_exists.mp h)

theorem furtherArguments_none (h : ∀ r, skipLayout s ≠ ',' :: r) (fuel : Nat) : furtherArguments fuel s = .ok [] s := by
  cases fuel with
  | zero => rfl
  | succ fuel =>
    rw [furtherArguments]
    split
    · next r hcomma => exact absurd hcomma (h r)
    · rfl

theorem furtherGoals_none (h : ∀ r, skipLayout s ≠ ',' :: r) (fuel n : Nat) : furtherGoals fuel n s = .ok [] s := by
  cases n with
  | zero => rfl
  | succ n =>
    rw [furtherGoals]
    split
    · next r hcomma => exact absurd hcomma (h r)
    · rfl

end Loops

/-! ## Parts of a text -/

section Within

variable {α β : Type} {first : Reading α} {f : α → List Char → Reading β}

/-- What the reading leaves, or the place of its fault, is the rest of the text `s`. -/
def Reading.Within (s : List Char) : Reading α → Prop
  | .ok _ r => r <:+ s
  | .miss => True
  | .fail p => p.rest <:+ s

theorem Reading.Within.mono (h : first.Within s') (hs : s' <:+ s) : first.Within s := by
  cases first with
  | ok a r => exact List.IsSuffix.trans h hs
  | miss => trivial
  | fail p => exact List.IsSuffix.trans h hs

theorem Reading.Within.andThen (h : first.Within s) (hf : ∀ a r, (f a r).Within r) : (first.andThen f).Within s := by
  cases first with
  | ok a r => exact (hf a r).mono h
  | miss => trivial
  | fail p => exact h

theorem Reading.Within.collect {more : List Char → Reading (List α)} (h : first.Within s)
    (hmore : ∀ r, (more r).Within r) : (first.collect s more).Within s := by
  cases first with
  | ok a r => exact Within.mono ((hmore r).andThen fun _ _ => List.suffix_rfl) h
  | miss => exact List.suffix_rfl
  | fail p => exact h

theorem suffix_skipLayout (s : List Char) : skipLayout s <:+ s :=
  (layout_skipLayout s).suffix

theorem suffix_of_skipLayout {c : Char} (h : skipLayout s = c :: r) : r <:+ s :=
  (List.suffix_cons c r).trans (h ▸ suffix_skipLayout s)

theorem Reading.Within.required (h : first.Within s) (expected : String) : (first.required expected s).Within s := by
  cases first with
  | ok a r => exact h
  | miss => exact suffix_skipLayout s
  | fail p => exact h

theorem within_punctuation (c : Char) (s : List Char) : (punctuation c s).Within s := by
  unfold punctuation
  dsimp only
  split
  · exact (List.tail_suffix _).trans (suffix_skipLayout s)
  · exact suffix_skipLayout s

theorem suffix_of_word? {starts : Char → Bool} {a : String} (h : word? starts s = some (a, r)) : r <:+ s := by
  obtain ⟨-, -, -⟩ := word?_eq_some.mp h
  exact (List.suffix_append _ _).trans (List.suffix_cons _ _)

/-- A closing bracket or a full stop, and what is made of it. -/
theorem within_closed (c : Char) (a : β) (s : List Char) :
    ((punctuation c s).andThen fun _ r => .ok a r).Within s :=
  (within_punctuation c s).andThen fun _ _ => List.suffix_rfl

/-- The readers of terms stay within their texts. -/
theorem within_terms (fuel : Nat) (s : List Char) :
    (compound fuel s).Within s ∧ (argument fuel s).Within s ∧ (furtherArguments fuel s).Within s := by
  induction fuel generalizing s with
  | zero => exact ⟨trivial, trivial, List.suffix_rfl⟩
  | succ fuel ih =>
    refine ⟨?_, ?_, ?_⟩
    · rw [compound]
      split
      · trivial
      · next name s₁ hword =>
        have hrest : s₁ <:+ s := (List.suffix_cons _ _).trans (suffix_of_word? hword)
        refine Reading.Within.mono ?_ hrest
        refine ((ih s₁).2.1.required _).andThen fun t s₂ => (ih s₂).2.2.andThen fun ts s₃ => ?_
        exact within_closed ')' _ s₃
      · next hword => exact suffix_of_word? hword
    · rw [argument]
      split
      · next s₁ hopen =>
        refine Reading.Within.mono ?_ (suffix_of_skipLayout hopen)
        have hfirst := (ih s₁).2.1
        split
        · next p hp => exact hp ▸ hfirst
        · exact within_closed ']' _ s₁
        · next t s₂ ht =>
          rw [ht] at hfirst
          refine Reading.Within.mono ?_ hfirst
          exact (ih s₂).2.2.andThen fun ts s₃ => within_closed ']' _ s₃
      · refine Reading.Within.mono ?_ (suffix_skipLayout s)
        split
        · next hword => exact suffix_of_word? hword
        · exact (ih (skipLayout s)).1
    · rcases comma_or_not s with ⟨s₁, hcomma⟩ | hnone
      · rw [furtherArguments_comma hcomma]
        exact ((ih s₁).2.1.mono (suffix_of_skipLayout hcomma)).collect fun s₂ => (ih s₂).2.2
      · rw [furtherArguments_none hnone]
        exact List.suffix_rfl

theorem within_compound (fuel : Nat) (s : List Char) : (compound fuel (skipLayout s)).Within s :=
  (within_terms fuel (skipLayout s)).1.mono (suffix_skipLayout s)

theorem within_furtherGoals (fuel n : Nat) (s : List Char) : (furtherGoals fuel n s).Within s := by
  induction n generalizing s with
  | zero => exact List.suffix_rfl
  | succ n ih =>
    rcases comma_or_not s with ⟨s₁, hcomma⟩ | hnone
    · rw [furtherGoals_comma hcomma]
      exact ((within_compound fuel s₁).mono (suffix_of_skipLayout hcomma)).collect ih
    · rw [furtherGoals_none hnone]
      exact List.suffix_rfl

theorem within_body (fuel : Nat) (s : List Char) : (body fuel s).Within s := by
  unfold body
  split
  · next s₁ hif =>
    have hrest : s₁ <:+ s := (List.suffix_cons _ _).trans (suffix_of_skipLayout hif)
    refine Reading.Within.mono ?_ hrest
    refine ((within_compound fuel s₁).required _).andThen fun t s₂ => ?_
    exact (within_furtherGoals fuel fuel s₂).andThen fun _ _ => List.suffix_rfl
  · exact List.suffix_rfl

theorem within_statement (fuel : Nat) (s : List Char) : (statement fuel s).Within s :=
  (within_compound fuel s).andThen fun _ s₁ => (within_body fuel s₁).andThen fun _ s₂ => within_closed '.' _ s₂

/-- The reader of statements stays within its text. -/
theorem within_statements (fuel n : Nat) (s : List Char) : (statements fuel n s).Within s := by
  induction n generalizing s with
  | zero => exact List.suffix_rfl
  | succ n ih =>
    rw [statements_succ]
    exact (within_statement fuel s).collect ih

end Within

/-! ## Steps -/

section Steps

variable {α β : Type} {first : Reading α}

theorem andThen_congr {f g : α → List Char → Reading β} (h : ∀ a r, first = .ok a r → f a r = g a r) :
    first.andThen f = first.andThen g := by
  cases first with
  | ok a r => exact h a r rfl
  | miss | fail p => rfl

theorem collect_congr {more more' : List Char → Reading (List α)} (h : ∀ a r, first = .ok a r → more r = more' r) :
    first.collect s more = first.collect s more' := by
  cases first with
  | ok a r => rw [Reading.collect, h a r rfl]; rfl
  | miss | fail p => rfl

/-- One step more than enough makes no difference to the readers of terms. -/
structure Settled (fuel : Nat) : Prop where
  compound : ∀ {s}, 2 * s.length + 1 ≤ fuel → compound (fuel + 1) s = compound fuel s
  argument : ∀ {s}, 2 * s.length + 2 ≤ fuel → argument (fuel + 1) s = argument fuel s
  furtherArguments : ∀ {s}, 2 * s.length + 1 ≤ fuel → furtherArguments (fuel + 1) s = furtherArguments fuel s

theorem length_lt_of_argument {t : Term} (h : argument fuel s = .ok t r) : r.length < s.length :=
  ((sound fuel).argument h).length_lt

theorem length_lt_of_compound {t : Term} (h : compound fuel s = .ok t r) : r.length < s.length :=
  ((sound fuel).compound h).length_lt

theorem settled_compound (ih : Settled fuel) (hfuel : 2 * s.length + 1 ≤ fuel + 1) :
    compound (fuel + 2) s = compound (fuel + 1) s := by
  rw [compound, compound]
  split
  · rfl
  · next name s₁ hword =>
    have hlt := length_lt_of_word? hword
    rw [List.length_cons] at hlt
    rw [ih.argument (by omega)]
    refine andThen_congr fun t s₂ ht => ?_
    have hlt' := length_lt_of_argument (required_eq_ok.mp ht)
    rw [ih.furtherArguments (by omega)]
  · rfl

theorem settled_argument (ih : Settled fuel) (hfuel : 2 * s.length + 2 ≤ fuel + 1) :
    argument (fuel + 2) s = argument (fuel + 1) s := by
  have hle := length_skipLayout_le s
  rw [argument, argument]
  split
  · next s₁ hopen =>
    have hlt := length_lt_of_skipLayout hopen
    rw [ih.argument (by omega)]
    split
    · rfl
    · rfl
    · next t s₂ ht =>
      have hlt' := length_lt_of_argument ht
      rw [ih.furtherArguments (by omega)]
  · split
    · rfl
    · exact ih.compound (by omega)

theorem settled_furtherArguments (ih : Settled fuel) (hfuel : 2 * s.length + 1 ≤ fuel + 1) :
    furtherArguments (fuel + 2) s = furtherArguments (fuel + 1) s := by
  rcases comma_or_not s with ⟨s₁, hcomma⟩ | hnone
  · have hlt := length_lt_of_skipLayout hcomma
    rw [furtherArguments_comma hcomma, furtherArguments_comma hcomma, ih.argument (by omega)]
    refine collect_congr fun t s₂ ht => ?_
    have hlt' := length_lt_of_argument ht
    exact ih.furtherArguments (by omega)
  · rw [furtherArguments_none hnone, furtherArguments_none hnone]

theorem settled (fuel : Nat) : Settled fuel := by
  induction fuel with
  | zero => exact ⟨fun h => absurd h (by omega), fun h => absurd h (by omega), fun h => absurd h (by omega)⟩
  | succ fuel ih => exact ⟨settled_compound ih, settled_argument ih, settled_furtherArguments ih⟩

/-- Two steps for every character, and one, settle how a compound is read. -/
theorem compound_eq_of_le (hfuel : 2 * s.length + 1 ≤ fuel) (hle : fuel ≤ fuel') :
    compound fuel' s = compound fuel s := by
  induction hle with
  | refl => rfl
  | @step fuel' hle ih => rw [(settled fuel').compound (hfuel.trans hle), ih]

theorem compound_skipLayout_eq_of_le (hfuel : 2 * s.length + 1 ≤ fuel) (hle : fuel ≤ fuel') :
    compound fuel' (skipLayout s) = compound fuel (skipLayout s) := by
  have hskip := length_skipLayout_le s
  exact compound_eq_of_le (by omega) hle

theorem furtherGoals_eq_of_le (hfuel : 2 * s.length + 1 ≤ fuel) (hle : fuel ≤ fuel') (hn : s.length ≤ n)
    (hn' : s.length ≤ n') : furtherGoals fuel' n' s = furtherGoals fuel n s := by
  induction n generalizing s n' with
  | zero =>
    obtain rfl : s = [] := List.length_eq_zero_iff.mp (by omega)
    rw [furtherGoals_none (by simp [skipLayout]), furtherGoals_none (by simp [skipLayout])]
  | succ n ih =>
    rcases comma_or_not s with ⟨s₁, hcomma⟩ | hnone
    · have hlt := length_lt_of_skipLayout hcomma
      obtain ⟨n', rfl⟩ : ∃ k, n' = k + 1 := ⟨n' - 1, by omega⟩
      rw [furtherGoals_comma hcomma, furtherGoals_comma hcomma, compound_skipLayout_eq_of_le (by omega) hle]
      refine collect_congr fun t s₂ ht => ?_
      have hlt' := (length_lt_of_compound ht).trans_le (length_skipLayout_le s₁)
      exact ih (by omega) (by omega) (by omega)
    · rw [furtherGoals_none hnone, furtherGoals_none hnone]

theorem body_eq_of_le (hfuel : 2 * s.length + 1 ≤ fuel) (hle : fuel ≤ fuel') : body fuel' s = body fuel s := by
  unfold body
  split
  · next s₁ hif =>
    have hlt := length_lt_of_skipLayout hif
    rw [List.length_cons] at hlt
    rw [compound_skipLayout_eq_of_le (by omega) hle]
    refine andThen_congr fun t s₂ ht => ?_
    have hlt' := (length_lt_of_compound (required_eq_ok.mp ht)).trans_le (length_skipLayout_le s₁)
    have hgoals : furtherGoals fuel' fuel' s₂ = furtherGoals fuel fuel s₂ :=
      furtherGoals_eq_of_le (by omega) hle (by omega) (by omega)
    rw [hgoals]
  · rfl

theorem statement_eq_of_le (hfuel : 2 * s.length + 1 ≤ fuel) (hle : fuel ≤ fuel') :
    statement fuel' s = statement fuel s := by
  rw [statement, statement, compound_skipLayout_eq_of_le hfuel hle]
  refine andThen_congr fun t s₁ ht => ?_
  have hlt := (length_lt_of_compound ht).trans_le (length_skipLayout_le s)
  rw [body_eq_of_le (by omega) hle]

theorem statement_nil (fuel : Nat) : statement fuel [] = .miss := by
  cases fuel <;> rfl

theorem length_lt_of_statement {t : Term} (h : statement fuel s = .ok t r) : r.length < s.length := by
  obtain ⟨head, s₁, hhead, h⟩ := andThen_eq_ok.mp h
  obtain ⟨goals, s₂, hbody, h⟩ := andThen_eq_ok.mp h
  obtain ⟨_, s₃, hstop, h⟩ := andThen_eq_ok.mp h
  cases h
  have hfirst := (length_lt_of_compound hhead).trans_le (length_skipLayout_le s)
  have hgoals : s₂ <:+ s₁ := by simpa only [Reading.Within, hbody] using within_body fuel s₁
  have hlast := length_lt_of_skipLayout (punctuation_eq_ok.mp hstop)
  exact (hlast.trans_le hgoals.length_le).trans hfirst

/-- Two steps for every character, and one, and a statement for every character settle how a program is read. -/
theorem statements_eq_of_le (hfuel : 2 * s.length + 1 ≤ fuel) (hle : fuel ≤ fuel') (hn : s.length ≤ n)
    (hn' : s.length ≤ n') : statements fuel' n' s = statements fuel n s := by
  have hnil : ∀ fuel n, statements fuel n [] = .ok [] [] := by
    intro fuel n
    cases n with
    | zero => rfl
    | succ n => rw [statements_succ, statement_nil, Reading.collect]
  induction n generalizing s n' with
  | zero =>
    obtain rfl : s = [] := List.length_eq_zero_iff.mp (by omega)
    rw [hnil, hnil]
  | succ n ih =>
    cases s with
    | nil => rw [hnil, hnil]
    | cons c s =>
      obtain ⟨n', rfl⟩ : ∃ k, n' = k + 1 := ⟨n' - 1, by rw [List.length_cons] at hn'; omega⟩
      rw [statements_succ, statements_succ, statement_eq_of_le hfuel hle]
      refine collect_congr fun t s₁ ht => ?_
      have hlt := length_lt_of_statement ht
      exact ih (by omega) (by omega) (by omega)

end Steps

/-! ## Lines and columns -/

section Lines

variable {p q : List Char}

/-- No line of the text is left open: it is empty, or its last character is a line feed. -/
def EndsLine (s : List Char) : Prop :=
  ∀ c ∈ s.getLast?, c = '\n'

theorem EndsLine.of_suffix (h : EndsLine s) (hr : r <:+ s) : EndsLine r := by
  intro c hc
  obtain ⟨front, rfl⟩ := hr
  refine h c ?_
  rw [List.getLast?_append, Option.mem_def.mp hc]
  rfl

theorem lineAfter_append (p q : List Char) : lineAfter (p ++ q) = lineAfter q + p.count '\n' := by
  rw [lineAfter, lineAfter, List.count_append]
  omega

theorem columnAfter_append (hp : EndsLine p) (q : List Char) : columnAfter (p ++ q) = columnAfter q := by
  have hstop : p.reverse.takeWhile (· != '\n') = [] := by
    cases hlast : p.reverse with
    | nil => rfl
    | cons c cs =>
      have hc : c = '\n' := hp c (by rw [← List.head?_reverse, hlast]; rfl)
      rw [hc]
      rfl
  rw [columnAfter, columnAfter, List.reverse_append, List.takeWhile_append, hstop, List.append_nil]
  split
  · next hall => rw [hall]
  · rfl

/-- The error with its place further down by a number of lines. -/
def moveDown (lines : Nat) : SourceError → SourceError
  | .malformed line column message => .malformed (line + lines) column message
  | .unreadable path message => .unreadable path message

/-- Lines in front of a text move its faults down. -/
theorem Found.toError_append {place : Found} (hp : EndsLine p) (hplace : place.rest <:+ q) :
    place.toError (p ++ q) = moveDown (p.count '\n') (place.toError q) := by
  have hconsumed : (p ++ q).take ((p ++ q).length - place.rest.length) =
      p ++ q.take (q.length - place.rest.length) := by
    have hle := hplace.length_le
    rw [List.length_append, Nat.add_sub_assoc hle, List.take_length_add_append]
  simp only [Found.toError, hconsumed, lineAfter_append, columnAfter_append hp, moveDown]

end Lines

end Clausal.Source
