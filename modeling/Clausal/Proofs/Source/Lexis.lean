import Mathlib.Data.List.Infix
import Mathlib.Data.List.TakeWhile
import Clausal.Source.Lexis

/-!
# Clausal.Proofs.Source.Lexis — what layout and words are

Layout and words as relations between a text and the text that follows, without a reader in them.

* `Layout s r`: the text `s` is layout followed by `r`; `layout_iff` says that `skipLayout` skips just that, up to where
  no more layout can start.
* `Word starts a s r`: the text `s` is the word `a` followed by `r`, and the word goes as far as it can; `word?_eq_some`
  says that `word?` reads just that.
* `not_startsVariable_of_startsName`: no character starts both a name and a variable, for no character is of both cases.
-/

namespace Clausal

/-! ## Cases -/

namespace Text

/-- No code point is in both spans: they do not overlap, or their points alternate. -/
def Span.apart (a b : Span) : Bool :=
  !(Nat.ble b.lo a.hi && Nat.ble a.lo b.hi) ||
    (List.range' a.lo (a.hi + 1 - a.lo)).all fun n => !(a.contains n && b.contains n)

theorem Span.not_contains_of_apart {a b : Span} (h : a.apart b = true) {n : Nat} (ha : a.contains n = true) :
    b.contains n = false := by
  by_contra hb
  rw [Bool.not_eq_false] at hb
  have hbounds : (a.lo ≤ n ∧ n ≤ a.hi) ∧ b.lo ≤ n ∧ n ≤ b.hi := by
    simp only [contains, Bool.and_eq_true, decide_eq_true_eq] at ha hb
    exact ⟨ha.1, hb.1⟩
  have hoverlap : (Nat.ble b.lo a.hi && Nat.ble a.lo b.hi) = true := by
    rw [Bool.and_eq_true, Nat.ble_eq, Nat.ble_eq]
    omega
  rw [apart, hoverlap, Bool.not_true, Bool.false_or, List.all_eq_true] at h
  have hn := h n (by rw [List.mem_range'_1]; omega)
  rw [ha, hb] at hn
  cases hn

theorem exists_span_of_inTable {table : List Span} {c : Char} (h : inTable table c = true) :
    ∃ s ∈ table, s.contains c.toNat = true := by
  unfold inTable at h
  split at h
  · next s hs => exact ⟨s, List.mem_of_find?_eq_some hs, h⟩
  · cases h

theorem apart_cases : uppercaseSpans.all (fun a => lowercaseSpans.all a.apart) = true := by
  decide +kernel

theorem bounds_of_isUpper {c : Char} (h : c.isUpper = true) : 'A'.val ≤ c.val ∧ c.val ≤ 'Z'.val :=
  of_decide_eq_true h

theorem not_isLower_of_isUpper {c : Char} (h : c.isUpper = true) : c.isLower = false := by
  rw [Bool.eq_false_iff]
  intro hlower
  have hle : 'a'.val ≤ c.val := of_decide_eq_true (Bool.and_eq_true_iff.mp hlower).1
  exact absurd (UInt32.le_trans hle (bounds_of_isUpper h).2) (by decide)

/-- No character is both upper-case and lower-case. -/
theorem not_isLowercase_of_isUppercase {c : Char} (h : isUppercase c = true) : isLowercase c = false := by
  unfold isUppercase at h
  unfold isLowercase
  split at h
  · next hascii =>
    rw [if_pos hascii]
    exact not_isLower_of_isUpper h
  · next hascii =>
    rw [if_neg hascii]
    obtain ⟨a, ha, hac⟩ := exists_span_of_inTable h
    by_contra hlower
    obtain ⟨b, hb, hbc⟩ := exists_span_of_inTable ((Bool.not_eq_false _).mp hlower)
    have hapart : a.apart b = true := List.all_eq_true.mp (List.all_eq_true.mp apart_cases a ha) b hb
    rw [Span.not_contains_of_apart hapart hac] at hbc
    cases hbc

theorem not_isUppercase_of_isDigit {c : Char} (h : c.isDigit = true) : isUppercase c = false := by
  have hle : c.val ≤ '9'.val := of_decide_eq_true (Bool.and_eq_true_iff.mp h).2
  have hascii : c.toNat < 128 := Nat.lt_of_le_of_lt hle (by decide)
  rw [isUppercase, if_pos hascii, Bool.eq_false_iff]
  intro hupper
  exact absurd (UInt32.le_trans (bounds_of_isUpper hupper).1 hle) (by decide)

end Text

namespace Source

variable {s r : List Char} {c : Char}

/-! ## Layout -/

section Layout

/-- The first text is layout followed by the second one. -/
inductive Layout : List Char → List Char → Prop where
  | none (s : List Char) : Layout s s
  | blank {c : Char} {s r : List Char} : c ∈ [' ', '\t', '\r', '\n'] → Layout s r → Layout (c :: s) r
  /-- From `%` up to the next line feed or the end of the text. -/
  | line {text s r : List Char} : '\n' ∉ text → (s = [] ∨ s.head? = some '\n') → Layout s r →
      Layout ('%' :: (text ++ s)) r
  /-- From `/*` up to the first `*/` after it. -/
  | block {text s r : List Char} : ¬ ['*', '/'] <:+: text ++ ['*'] → Layout s r →
      Layout ('/' :: '*' :: (text ++ '*' :: '/' :: s)) r

theorem isSpace_iff : isSpace c = true ↔ c ∈ [' ', '\t', '\r', '\n'] := by
  simp [isSpace, or_assoc]

/-- What a reader of layout skips is layout. -/
theorem layout_skipLayout (s : List Char) : Layout s (skipLayout s) := by
  -- inside a comment, `text` is the part of it that was skipped
  refine skipLayout.induct (fun s => Layout s (skipLayout s))
    (fun s => ∀ text, '\n' ∉ text → Layout ('%' :: (text ++ s)) (skipLine s))
    (fun start s => ∀ text, start = '/' :: '*' :: (text ++ s) → ¬ ['*', '/'] <:+: text ++ s.head?.toList →
      Layout start (skipBlock start s)) ?_ ?_ ?_ ?_ ?_ ?_ ?_ ?_ ?_ ?_ ?_ s
  · exact .none _
  · intro s ih
    rw [skipLayout]
    refine ih [] rfl fun hinfix => ?_
    have hlen := hinfix.length_le
    cases s <;> simp at hlen
  · intro c s hblock hspace ih
    rw [skipLayout.eq_3 c s hblock, if_pos hspace]
    exact .blank (isSpace_iff.mp hspace) ih
  · intro c s hblock hspace hline ih
    rw [skipLayout.eq_3 c s hblock, if_neg hspace, if_pos hline]
    obtain rfl : c = '%' := by simpa using hline
    exact ih [] List.not_mem_nil
  · intro c s hblock hspace hline
    rw [skipLayout.eq_3 c s hblock, if_neg hspace, if_neg hline]
    exact .none _
  · intro text htext
    exact .line htext (.inl rfl) (.none [])
  · intro c s hend ih text htext
    obtain rfl : c = '\n' := by simpa using hend
    rw [skipLine, if_pos hend]
    exact .line htext (.inr rfl) (.blank (by decide) ih)
  · intro c s hne ih text htext
    rw [skipLine, if_neg hne, List.append_cons]
    refine ih (text ++ [c]) fun hmem => ?_
    rcases List.mem_append.mp hmem with hmem | hmem
    · exact htext hmem
    · exact hne (by simpa using (List.mem_singleton.mp hmem).symm)
  · intro start text _ _
    rw [skipBlock]
    exact .none _
  · intro start s ih text hstart hfirst
    rw [skipBlock, hstart]
    exact .block hfirst ih
  · intro start c s hne ih text hstart hfirst
    rw [skipBlock.eq_3 start c s hne]
    refine ih (text ++ [c]) (by rw [hstart, List.append_cons]) fun hinfix => ?_
    -- a `*/` that ends at the next character starts at this one
    cases s with
    | nil => exact hfirst (by simpa using hinfix)
    | cons d s =>
      rcases List.infix_concat_iff.mp hinfix with hsuffix | hinfix
      · have hlast : [c, d] <:+ text ++ [c] ++ [d] := ⟨text, by rw [List.append_assoc]; rfl⟩
        have hpair : ['*', '/'] = [c, d] :=
          (List.suffix_of_suffix_length_le hsuffix hlast (Nat.le_refl 2)).eq_of_length rfl
        cases hpair
        exact hne s rfl rfl
      · exact hfirst hinfix

theorem skipLine_append {text : List Char} (htext : '\n' ∉ text) (hend : s = [] ∨ s.head? = some '\n') :
    skipLine (text ++ s) = skipLayout s := by
  induction text with
  | nil =>
    rcases hend with rfl | hend
    · rfl
    · obtain ⟨s, rfl⟩ := List.head?_eq_some_iff.mp hend
      rfl
  | cons c text ih =>
    obtain ⟨hc, htext⟩ := not_or.mp (mt List.mem_cons.mpr htext)
    rw [List.cons_append, skipLine, if_neg (by simpa using Ne.symm hc), ih htext]

theorem skipBlock_append {text : List Char} (htext : ¬ ['*', '/'] <:+: text ++ ['*']) (start s : List Char) :
    skipBlock start (text ++ '*' :: '/' :: s) = skipLayout s := by
  induction text with
  | nil => rw [List.nil_append, skipBlock]
  | cons c text ih =>
    rw [List.cons_append, skipBlock.eq_3, ih fun hinfix => htext (List.infix_cons hinfix)]
    -- were this the end of the comment, the text would have one before its end
    rintro s' rfl heq
    cases text with
    | nil => cases heq
    | cons d text =>
      obtain rfl : d = '/' := (List.cons.inj heq).1
      exact htext ⟨[], text ++ ['*'], rfl⟩

theorem Layout.skipLayout_eq (h : Layout s r) : skipLayout s = skipLayout r := by
  induction h with
  | none s => rfl
  | @blank c s r hc _ ih =>
    have hblock : ∀ s', c = '/' → s = '*' :: s' → False := by
      rintro s' rfl _
      exact absurd hc (by decide)
    rw [skipLayout.eq_3 c s hblock, if_pos (isSpace_iff.mpr hc), ih]
  | line htext hend _ ih =>
    rw [skipLayout.eq_3 _ _ (by rintro s' ⟨⟩), if_neg (by decide), if_pos (by decide), skipLine_append htext hend, ih]
  | block htext _ ih => rw [skipLayout, skipBlock_append htext, ih]

/-- The reader skips all layout up to where no more can start. -/
theorem layout_iff (hr : skipLayout r = r) : Layout s r ↔ skipLayout s = r := by
  constructor
  · intro h
    rw [h.skipLayout_eq, hr]
  · rintro rfl
    exact layout_skipLayout s

theorem layout_nil_iff : Layout s [] ↔ skipLayout s = [] :=
  layout_iff rfl

/-- Characters with which no layout starts. -/
theorem skipLayout_cons (hc : c ∉ [' ', '\t', '\r', '\n', '%', '/']) (s : List Char) :
    skipLayout (c :: s) = c :: s := by
  have hspace : isSpace c = false := by
    rw [Bool.eq_false_iff, ne_eq, isSpace_iff]
    exact fun hmem => hc (List.mem_append_left ['%', '/'] hmem)
  have hblock : ∀ s', c = '/' → s = '*' :: s' → False := by
    rintro s' rfl _
    exact hc (by decide)
  have hline : ¬ (c == '%') = true := by
    rw [beq_iff_eq]
    rintro rfl
    exact hc (by decide)
  rw [skipLayout.eq_3 c s hblock, hspace, if_neg Bool.false_ne_true, if_neg hline]

theorem layout_cons_iff (hc : c ∉ [' ', '\t', '\r', '\n', '%', '/']) : Layout s (c :: r) ↔ skipLayout s = c :: r :=
  layout_iff (skipLayout_cons hc r)

theorem Layout.suffix (h : Layout s r) : r <:+ s := by
  induction h with
  | none s => exact List.suffix_rfl
  | blank _ _ ih => exact ih.trans (List.suffix_cons _ _)
  | line _ _ _ ih => exact ih.trans ((List.suffix_append _ _).trans (List.suffix_cons _ _))
  | @block text s r _ _ ih =>
    refine ih.trans ⟨'/' :: '*' :: (text ++ ['*', '/']), ?_⟩
    simp

theorem length_skipLayout_le (s : List Char) : (skipLayout s).length ≤ s.length :=
  (layout_skipLayout s).suffix.length_le

end Layout

/-! ## Words -/

section Words

variable {starts : Char → Bool} {a : String}

/-- The first text is the word `a` followed by the second one: a character that starts it, and as many letters, numbers
and `_` as there are. -/
inductive Word (starts : Char → Bool) : String → List Char → List Char → Prop where
  | intro {c : Char} {w r : List Char} : starts c = true → (∀ d ∈ w, isWordChar d = true) →
      (∀ d ∈ r.head?, isWordChar d = false) → Word starts (String.ofList (c :: w)) (c :: (w ++ r)) r

theorem word?_eq_some : word? starts s = some (a, r) ↔ Word starts a s r := by
  constructor
  · intro h
    cases s with
    | nil => cases h
    | cons c s =>
      rw [word?] at h
      split at h
      · next hc =>
        cases h
        have hword : Word starts (String.ofList (c :: s.takeWhile isWordChar))
            (c :: (s.takeWhile isWordChar ++ s.dropWhile isWordChar)) (s.dropWhile isWordChar) := by
          refine .intro hc (fun d hd => List.mem_takeWhile_imp hd) fun d hd => ?_
          have hnot := List.head?_dropWhile_not isWordChar s
          rw [Option.mem_def.mp hd] at hnot
          exact hnot
        rwa [List.takeWhile_append_dropWhile] at hword
      · cases h
  · rintro ⟨hc, hw, hr⟩
    have hrest : r.takeWhile isWordChar = [] ∧ r.dropWhile isWordChar = r := by
      cases r with
      | nil => exact ⟨rfl, rfl⟩
      | cons d r =>
        have hd : isWordChar d = false := hr d rfl
        simp [hd]
    rw [word?, if_pos hc, List.takeWhile_append_of_pos hw, List.dropWhile_append_of_pos hw, hrest.1, hrest.2,
      List.append_nil]

/-- No character starts both a name and a variable. -/
theorem not_startsVariable_of_startsName (h : startsName c = true) : startsVariable c = false := by
  by_contra hvar
  rw [Bool.not_eq_false, startsVariable, Bool.or_eq_true, beq_iff_eq] at hvar
  rcases hvar with hupper | rfl
  · rw [startsName, Text.not_isLowercase_of_isUppercase hupper, Bool.false_or] at h
    rw [Text.not_isUppercase_of_isDigit h] at hupper
    cases hupper
  · exact absurd h (by decide)

theorem skipLayout_of_starts (h : startsName c = true ∨ startsVariable c = true) (s : List Char) :
    skipLayout (c :: s) = c :: s := by
  refine skipLayout_cons (fun hmem => ?_) s
  have hnone : [' ', '\t', '\r', '\n', '%', '/'].all (fun d => !(startsName d || startsVariable d)) = true := by decide
  have hc := List.all_eq_true.mp hnone c hmem
  rw [Bool.or_eq_true_iff.mpr h] at hc
  cases hc

end Words

end Source

end Clausal
