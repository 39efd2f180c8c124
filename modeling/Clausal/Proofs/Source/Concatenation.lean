import Clausal.Proofs.Source.Language
import Clausal.Proofs.Source.Places

/-!
# Clausal.Proofs.Source.Concatenation — one program after another

A program whose last line is closed can be put in front of any text: nothing of it reaches into the text, and the text
is read as it would be alone.

* `Layout.append`, `Spells.append`, `SpellsGoals.append`: a line feed closes a line comment, and a token closes the one
  before it, so neither goes on into what is put after it.
* `Reading.Alike`: the same outcome up to layout at the place where the reader stopped; `statements_of_layout`.
* `Written.statements_append`: the statements of the program come first, and the rest is what is read in the text.
* `parse_append_eq`: programs and faults of a concatenation.
-/

namespace Clausal.Source

variable {s r : List Char} {c : Char}

/-! ## Closed layout and closed phrases -/

section Closed

theorem ne_nil_of_skipLayout (h : skipLayout s = c :: r) : s ≠ [] := by
  rintro rfl
  cases h

/-- Layout does not reach into a text put after it if a token follows it or its last line is closed. -/
theorem Layout.append (h : Layout s r) (hend : r = [] → EndsLine s) (q : List Char) : Layout (s ++ q) (r ++ q) := by
  induction h with
  | none s => exact .none _
  | @blank c s r hc _ ih => exact .blank hc (ih fun hr => (hend hr).of_suffix (List.suffix_cons c s))
  | @line text s r htext hstop hrest ih =>
    rw [List.cons_append, List.append_assoc]
    rcases hstop with rfl | hstop
    · -- the comment would go on
      have hr : r = [] := List.suffix_nil.mp hrest.suffix
      have hlast : '\n' ∈ '%' :: text := by
        have hmem := List.getLast?_eq_some_getLast (List.cons_ne_nil '%' text)
        rw [← hend hr _ (by rw [List.append_nil]; exact hmem)]
        exact List.getLast_mem _
      rcases List.mem_cons.mp hlast with heq | hmem
      · cases heq
      · exact absurd hmem htext
    · refine .line htext (.inr ?_) (ih fun hr => (hend hr).of_suffix ⟨'%' :: text, rfl⟩)
      rw [List.head?_append, hstop]
      rfl
  | @block text s r htext _ ih =>
    have happ : '/' :: '*' :: (text ++ '*' :: '/' :: s) ++ q = '/' :: '*' :: (text ++ '*' :: '/' :: (s ++ q)) := by
      simp
    rw [happ]
    refine .block htext (ih fun hr => (hend hr).of_suffix ⟨'/' :: '*' :: (text ++ ['*', '/']), ?_⟩)
    simp

/-- A token stays where it is when a text is put after it. -/
theorem skipLayout_append (h : skipLayout s = c :: r) (hc : ∀ r, skipLayout (c :: r) = c :: r) (q : List Char) :
    skipLayout (s ++ q) = c :: (r ++ q) := by
  have hlayout : Layout s (c :: r) := h ▸ layout_skipLayout s
  have happend := hlayout.append (fun hr => absurd hr (List.cons_ne_nil c r)) q
  rw [happend.skipLayout_eq, List.cons_append, hc]

theorem word?_append {starts : Char → Bool} {a : String} (h : word? starts s = some (a, r)) (hr : r ≠ [])
    (q : List Char) : word? starts (s ++ q) = some (a, r ++ q) := by
  obtain ⟨hc, hw, hstop⟩ := word?_eq_some.mp h
  rw [List.cons_append, List.append_assoc, word?_eq_some]
  refine .intro hc hw ?_
  rw [List.head?_append_of_ne_nil _ hr]
  exact hstop

theorem skipLayout_append_of_word? {starts : Char → Bool} {a : String} (h : word? starts (skipLayout s) = some (a, r))
    (hstarts : ∀ c, starts c = true → startsName c = true ∨ startsVariable c = true) (q : List Char) :
    skipLayout (s ++ q) = skipLayout s ++ q := by
  cases hs : skipLayout s with
  | nil =>
    rw [hs] at h
    cases h
  | cons c s' =>
    rw [hs] at h
    exact skipLayout_append hs (skipLayout_of_starts (hstarts c (starts_of_word? h))) q

/-- A compound after layout stays where it is. -/
theorem Spells.skipLayout_append {t : Term} (h : Spells (.compound t) (skipLayout s) r) (q : List Char) :
    skipLayout (s ++ q) = skipLayout s ++ q := by
  cases h with
  | name hword _ => exact skipLayout_append_of_word? hword (fun _ => .inl) q
  | applied hword _ => exact skipLayout_append_of_word? hword (fun _ => .inl) q

/-- The last word of the phrase is closed by what follows it; a bracket closes itself. -/
def Phrase.Closed : Phrase → List Char → Prop
  | .compound _, r | .argument _, r => r ≠ []
  | .arguments _ _, _ => True

theorem Bracket.skipLayout_close (b : Bracket) (r : List Char) : skipLayout (b.close :: r) = b.close :: r := by
  cases b <;> exact skipLayout_cons (by decide) r

/-- A closed phrase does not reach into a text put after it. -/
theorem Spells.append {p : Phrase} (h : Spells p s r) (hclosed : p.Closed r) (q : List Char) :
    Spells p (s ++ q) (r ++ q) := by
  induction h with
  | name hword hne =>
    refine .name (word?_append hword hclosed q) ?_
    rw [List.head?_append_of_ne_nil _ hclosed]
    exact hne
  | applied hword _ ih => exact .applied (word?_append hword (List.cons_ne_nil _ _) q) (ih trivial)
  | var hword =>
    refine .var ?_
    rw [skipLayout_append_of_word? hword (fun _ => .inr)]
    exact word?_append hword hclosed q
  | term _ ht ih =>
    have hcompound := ih hclosed
    rw [← ht.skipLayout_append] at hcompound
    exact .term hcompound.not_variable hcompound
  | empty hopen hclose =>
    exact .empty (Source.skipLayout_append hopen (skipLayout_cons (by decide)) q)
      (Source.skipLayout_append hclose (skipLayout_cons (by decide)) q)
  | list hopen _ ih => exact .list (Source.skipLayout_append hopen (skipLayout_cons (by decide)) q) (ih trivial)
  | @last _ _ _ _ b _ hclose ih =>
    exact .last (ih (ne_nil_of_skipLayout hclose)) (Source.skipLayout_append hclose b.skipLayout_close q)
  | more _ hcomma _ ih ihs =>
    exact .more (ih (ne_nil_of_skipLayout hcomma))
      (Source.skipLayout_append hcomma (skipLayout_cons (by decide)) q) (ihs trivial)

/-- A compound that a token follows, with a text put after it. -/
theorem Spells.append_compound {t : Term} {r' : List Char} (h : Spells (.compound t) (skipLayout s) r)
    (hnext : skipLayout r = c :: r') (q : List Char) : Spells (.compound t) (skipLayout (s ++ q)) (r ++ q) := by
  rw [h.skipLayout_append]
  exact h.append (ne_nil_of_skipLayout hnext) q

theorem SpellsGoals.append {ts : List Term} (h : SpellsGoals s ts r) (q : List Char) :
    SpellsGoals (s ++ q) ts (r ++ q) := by
  induction h with
  | last ht hstop => exact .last (ht.append_compound hstop q) (skipLayout_append hstop (skipLayout_cons (by decide)) q)
  | more ht hcomma _ ih =>
    exact .more (ht.append_compound hcomma q) (skipLayout_append hcomma (skipLayout_cons (by decide)) q) ih

end Closed

/-! ## Readings up to layout -/

section Alike

variable {α β : Type} {first second : Reading α} {fuel n m : Nat}

/-- What is made of a value that was read. -/
def Reading.map (f : α → β) (first : Reading α) : Reading β :=
  first.andThen fun a r => .ok (f a) r

theorem Reading.Within.map (h : first.Within s) (f : α → β) : (first.map f).Within s :=
  h.andThen fun _ _ => List.suffix_rfl

theorem complete_map (source : List Char) (what : String) (f : α → β) (first : Reading α) :
    complete source what (first.map f) = (complete source what first).map f := by
  cases first with
  | ok a r =>
    simp only [Reading.map, Reading.andThen, complete]
    split <;> rfl
  | miss | fail p => rfl

/-- The readings are the same, or they are the same value, read up to places with only layout between them. -/
inductive Reading.Alike : Reading α → Reading α → Prop where
  | refl (first : Reading α) : Alike first first
  | ok (a : α) {s r : List Char} : skipLayout s = skipLayout r → Alike (.ok a s) (.ok a r)

theorem Reading.Alike.map (h : first.Alike second) (f : α → β) : (first.map f).Alike (second.map f) := by
  cases h with
  | refl => exact .refl _
  | ok a hs => exact .ok (f a) hs

theorem Reading.Alike.complete_eq (h : first.Alike second) (source : List Char) (what : String) :
    complete source what first = complete source what second := by
  cases h with
  | refl => rfl
  | ok a hs => rw [complete, complete, hs]

/-- Layout in front of a program makes no difference to its statements. -/
theorem statements_of_layout (h : Layout s r) (hfuel : 2 * s.length + 1 ≤ fuel) (hn : s.length ≤ n)
    (hm : r.length ≤ m) : (statements fuel n s).Alike (statements fuel m r) := by
  have hle := h.suffix.length_le
  have hs : statements fuel (s.length + 1) s = statements fuel n s :=
    statements_eq_of_le hfuel (Nat.le_refl fuel) hn (by omega)
  have hr : statements fuel (s.length + 1) r = statements fuel m r :=
    statements_eq_of_le (by omega) (Nat.le_refl fuel) hm (by omega)
  have hfirst : statement fuel s = statement fuel r := by rw [statement, statement, h.skipLayout_eq]
  rw [← hs, ← hr, statements_succ, statements_succ, hfirst]
  cases statement fuel r with
  | ok t r' => exact .refl _
  | miss => exact .ok [] h.skipLayout_eq
  | fail p => exact .refl _

theorem statements_ne_miss (fuel n : Nat) (s : List Char) : statements fuel n s ≠ .miss := by
  induction n generalizing s with
  | zero =>
    intro h
    cases h
  | succ n ih =>
    intro h
    rw [statements_succ] at h
    cases hfirst : statement fuel s with
    | ok t r =>
      rw [hfirst, Reading.collect] at h
      cases hrest : statements fuel n r with
      | miss => exact ih r hrest
      | ok ts r' | fail p =>
        rw [hrest] at h
        cases h
    | miss | fail p =>
      rw [hfirst] at h
      cases h

/-- Closed lines in front of a text move its faults down and leave its values. -/
theorem complete_append {p q : List Char} (hp : EndsLine p) (hwithin : first.Within q) (hmiss : first ≠ .miss)
    (what : String) :
    complete (p ++ q) what first = (complete q what first).mapError (moveDown (p.count '\n')) := by
  cases first with
  | ok a r =>
    rw [complete, complete]
    split
    · rfl
    · have hplace : (⟨what, skipLayout r⟩ : Found).rest <:+ q := (suffix_skipLayout r).trans hwithin
      rw [Found.toError_append hp hplace]
      rfl
  | miss => exact absurd rfl hmiss
  | fail place =>
    rw [complete, complete, Found.toError_append hp hwithin]
    rfl

end Alike

/-! ## Programs -/

section Programs

variable {q : List Char} {rules : List Rule} {fuel n m : Nat}

theorem suffix_of_statement {t : Term} (h : statement fuel (s ++ q) = .ok t (r ++ q)) : r <:+ s := by
  have hwithin := within_statement fuel (s ++ q)
  rw [h] at hwithin
  obtain ⟨front, hfront⟩ := hwithin
  rw [← List.append_assoc] at hfront
  exact ⟨front, List.append_cancel_right hfront⟩

/-- One statement more in front. -/
theorem statements_append_cons {t : Term} {ts : List Term} (h : statement fuel (s ++ q) = .ok t (r ++ q))
    (hs : EndsLine s) (hfuel : 2 * (s ++ q).length + 1 ≤ fuel) (hn : (s ++ q).length ≤ n)
    (ih : ∀ {n}, EndsLine r → 2 * (r ++ q).length + 1 ≤ fuel → (r ++ q).length ≤ n →
      (statements fuel n (r ++ q)).Alike ((statements fuel m q).map (ts ++ ·))) :
    (statements fuel n (s ++ q)).Alike ((statements fuel m q).map (t :: ts ++ ·)) := by
  have hlt := length_lt_of_statement h
  obtain ⟨n, rfl⟩ : ∃ k, n = k + 1 := ⟨n - 1, by omega⟩
  have hstep : statements fuel (n + 1) (s ++ q) = (statements fuel n (r ++ q)).map (t :: ·) := by
    rw [statements_succ, h]
    rfl
  have hmap : (statements fuel m q).map (t :: ts ++ ·) = ((statements fuel m q).map (ts ++ ·)).map (t :: ·) := by
    cases statements fuel m q <;> rfl
  rw [hstep, hmap]
  exact (ih (hs.of_suffix (suffix_of_statement h)) (by omega) (by omega)).map (t :: ·)

/-- The statements of a program with a text put after it: its own, and then those of the text. -/
theorem Written.statements_append (h : Written s rules) (hs : EndsLine s) (hfuel : 2 * (s ++ q).length + 1 ≤ fuel)
    (hn : (s ++ q).length ≤ n) (hm : q.length ≤ m) :
    (statements fuel n (s ++ q)).Alike
      ((statements fuel m q).map ((rules.map fun rule => rule.formula.close) ++ ·)) := by
  induction h generalizing n with
  | @done s hend =>
    have hlayout : Layout (s ++ q) q := (layout_nil_iff.mpr hend).append (fun _ => hs) q
    have hmap : (statements fuel m q).map ([] ++ ·) = statements fuel m q := by
      cases statements fuel m q <;> rfl
    rw [List.map_nil, hmap]
    exact statements_of_layout hlayout hfuel hn hm
  | fact hhead hstop _ ih =>
    have hhead' := (hhead.append_compound hstop q).compound_eq hfuel
    have hstop' := skipLayout_append hstop (skipLayout_cons (by decide)) q
    exact statements_append_cons (statement_of_fact hhead' hstop') hs hfuel hn ih
  | @rule s r r' r'' h gs rules hhead hif hgoals _ ih =>
    have hhead' := (hhead.append_compound hif q).compound_eq hfuel
    have hif' : skipLayout (r ++ q) = ':' :: '-' :: (r' ++ q) :=
      skipLayout_append hif (skipLayout_cons (by decide)) q
    have hlt := (length_lt_of_compound hhead').trans_le (length_skipLayout_le (s ++ q))
    have hlt' := length_lt_of_skipLayout hif'
    rw [List.length_cons] at hlt'
    exact statements_append_cons (statement_of_rule hhead' hif' (hgoals.append q) (by omega)) hs hfuel hn ih

/-- What is read in a program with a closed last line and a text after it. -/
theorem parse_append_eq {P : String} {p : Program} (hp : Program.parse P = .ok p) (hend : EndsLine P.toList)
    (Q : String) :
    Program.parse (P ++ Q) = ((Program.parse Q).map fun q => ⟨p.statements ++ q.statements⟩).mapError
      (moveDown (P.toList.count '\n')) := by
  obtain ⟨rules, hwritten, hstatements⟩ := written_of_parse hp
  have hlength : (P.toList ++ Q.toList).length = P.toList.length + Q.toList.length := List.length_append
  have hfuel : fuelFor (P.toList ++ Q.toList) = 2 * (P.toList ++ Q.toList).length + 2 := rfl
  have hfuel' : fuelFor Q.toList = 2 * Q.toList.length + 2 := rfl
  -- the fuel for both texts is more than enough for the second one
  have hmore : statements (fuelFor (P.toList ++ Q.toList)) (fuelFor Q.toList) Q.toList =
      statements (fuelFor Q.toList) (fuelFor Q.toList) Q.toList :=
    statements_eq_of_le (by omega) (by omega) (by omega) (by omega)
  have halike : (statements (fuelFor (P.toList ++ Q.toList)) (fuelFor (P.toList ++ Q.toList))
      (P.toList ++ Q.toList)).Alike ((statements (fuelFor (P.toList ++ Q.toList)) (fuelFor Q.toList) Q.toList).map
        ((rules.map fun rule => rule.formula.close) ++ ·)) :=
    hwritten.statements_append hend (by omega) (by omega) (by omega)
  rw [hmore, ← hstatements] at halike
  have hwithin := within_statements (fuelFor Q.toList) (fuelFor Q.toList) Q.toList
  have hmiss := statements_ne_miss (fuelFor Q.toList) (fuelFor Q.toList) Q.toList
  simp only [Program.parse, String.toList_append]
  rw [halike.complete_eq, complete_map, complete_append hend hwithin hmiss]
  cases complete Q.toList "end of input" (statements (fuelFor Q.toList) (fuelFor Q.toList) Q.toList) <;> rfl

/-- Reading is compositional: a program whose last character is a line feed, put in front of a text, adds its statements
to those of the text, and moves the place of a fault in the text down by its lines. -/
theorem parse_append {P Q : String} {p : Program} (hp : Program.parse P = .ok p)
    (hend : P.toList.getLast? = some '\n') :
    (∀ q, Program.parse Q = .ok q → Program.parse (P ++ Q) = .ok ⟨p.statements ++ q.statements⟩) ∧
      ∀ line column message, Program.parse Q = .error (.malformed line column message) →
        Program.parse (P ++ Q) = .error (.malformed (line + P.toList.count '\n') column message) := by
  have hline : EndsLine P.toList := by
    intro c hc
    rw [hend] at hc
    exact (Option.mem_some_iff.mp hc).symm
  constructor
  · intro q hq
    rw [parse_append_eq hp hline, hq]
    rfl
  · intro line column message herror
    rw [parse_append_eq hp hline, herror]
    rfl

/-- A comment at the end of the first text does not reach into the second one. -/
theorem parse_append_commented :
    Program.parse ("p(a). % one fact\n" ++ "q(b).") =
        .ok ⟨[.rel false "p" [.lit false "a"], .rel false "q" [.lit false "b"]]⟩ ∧
      Program.parse ("p(a). % one fact\n" ++ "q\nr.") = .error (.malformed 3 1 "expected `.`, found `r`") := by
  have hfirst : Program.parse "p(a). % one fact\n" = .ok ⟨[.rel false "p" [.lit false "a"]]⟩ :=
    parse_of_reads (by decide +kernel)
  have hsecond : Program.parse "q(b)." = .ok ⟨[.rel false "q" [.lit false "b"]]⟩ :=
    parse_of_reads (by decide +kernel)
  have hfault : Program.parse "q\nr." = .error (.malformed 2 1 "expected `.`, found `r`") := by rfl
  exact ⟨(parse_append hfirst rfl).1 _ hsecond, (parse_append hfirst rfl).2 _ _ _ hfault⟩

end Programs

end Clausal.Source
