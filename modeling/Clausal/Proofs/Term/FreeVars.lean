import Clausal.Proofs.Distinct
import Clausal.Proofs.Term.FirstOrder

/-!
# Clausal.Proofs.Term.FreeVars — free variables

* `Distinct.mem_of_mem_union`, `Distinct.exists_mem_union`: a union up to a test has only members of the two lists,
  and one that passes for each of them; with equality as the test it is the union (`Distinct.mem_union`).
* `Term.mem_freeVars`, `Term.nodup_freeVars`: `freeVars` lists the variables with a free occurrence, each once.
* `Term.mem_variableNames`: the names in a term are those of its variables and its binders.
* `Term.mem_freeVars_of_isFirstOrder`, `Term.binderOccurrences_of_isFirstOrder`: in a first-order term every variable
  that occurs is free, and there are no binders.
-/

namespace Clausal

/-! ## Lists without repetition -/

namespace Distinct

variable {α : Type} {eq : α → α → Bool} {xs ys : List α} {x y : α}

theorem mem_of_mem_insert (h : y ∈ insert eq xs x) : y ∈ xs ∨ y = x := by
  unfold insert at h
  split at h
  · exact .inl h
  · simpa using h

theorem mem_insert_of_mem (h : y ∈ xs) : y ∈ insert eq xs x := by
  unfold insert
  split
  · exact h
  · exact List.mem_append_left [x] h

/-- The new element, or one that passes for it, is there. -/
theorem exists_mem_insert (eq : α → α → Bool) (xs : List α) (x : α) :
    ∃ z ∈ insert eq xs x, z = x ∨ eq z x = true := by
  unfold insert
  split
  · next h =>
    obtain ⟨z, hz, heq⟩ := List.any_eq_true.mp h
    exact ⟨z, hz, .inr heq⟩
  · exact ⟨x, List.mem_append_right xs List.mem_cons_self, .inl rfl⟩

theorem mem_union_of_mem_left (h : x ∈ xs) : x ∈ union eq xs ys := by
  induction ys generalizing xs with
  | nil => exact h
  | cons y ys ih => exact ih (mem_insert_of_mem h)

theorem mem_of_mem_union (h : x ∈ union eq xs ys) : x ∈ xs ∨ x ∈ ys := by
  induction ys generalizing xs with
  | nil => exact .inl h
  | cons y ys ih =>
    rcases ih h with h | h
    · rcases mem_of_mem_insert h with h | rfl
      · exact .inl h
      · exact .inr List.mem_cons_self
    · exact .inr (List.mem_cons_of_mem y h)

theorem exists_mem_union (eq : α → α → Bool) (xs : List α) (h : y ∈ ys) :
    ∃ z ∈ union eq xs ys, z = y ∨ eq z y = true := by
  induction ys generalizing xs with
  | nil => cases h
  | cons y' ys ih =>
    rcases List.mem_cons.mp h with rfl | h
    · obtain ⟨z, hz, heq⟩ := exists_mem_insert eq xs y
      have hleft : z ∈ union eq (insert eq xs y) ys := mem_union_of_mem_left hz
      exact ⟨z, hleft, heq⟩
    · exact ih (insert eq xs y') h

@[simp] theorem mem_union [BEq α] [LawfulBEq α] : x ∈ union (· == ·) xs ys ↔ x ∈ xs ∨ x ∈ ys := by
  constructor
  · exact mem_of_mem_union
  · rintro (h | h)
    · exact mem_union_of_mem_left h
    · obtain ⟨z, hz, rfl | heq⟩ := exists_mem_union (· == ·) xs h
      · exact hz
      · obtain rfl : z = x := by simpa using heq
        exact hz

@[simp] theorem mem_ofList [BEq α] [LawfulBEq α] : x ∈ ofList (· == ·) xs ↔ x ∈ xs := by
  simp [ofList]

end Distinct

/-! ## Free occurrences -/

namespace Term

variable {x : String} {t : Term}

@[simp] theorem occursFreeAny_eq_true {ts : List Term} :
    occursFreeAny x ts = true ↔ ∃ t ∈ ts, t.occursFree x = true := by
  induction ts with
  | nil => simp [occursFreeAny]
  | cons t ts ih => simp [occursFreeAny, ih]

theorem occursFreeAny_eq_false {ts : List Term} : occursFreeAny x ts = false ↔ ∀ t ∈ ts, t.occursFree x = false := by
  induction ts with
  | nil => simp [occursFreeAny]
  | cons t ts ih => simp [occursFreeAny, ih]

@[simp] theorem mem_freeOccurrencesAll {bound : List String} {ts : List Term} :
    x ∈ freeOccurrencesAll bound ts ↔ ∃ t ∈ ts, x ∈ t.freeOccurrences bound := by
  induction ts with
  | nil => simp [freeOccurrencesAll]
  | cons t ts ih => simp [freeOccurrencesAll, ih]

theorem mem_freeOccurrences {bound : List String} :
    x ∈ t.freeOccurrences bound ↔ x ∉ bound ∧ t.occursFree x = true := by
  induction t using induct generalizing bound with
  | lit n a => simp [freeOccurrences, occursFree]
  | var n y =>
    by_cases hxy : x = y
    · subst hxy
      by_cases hb : x ∈ bound <;> simp [freeOccurrences, occursFree, hb]
    · by_cases hb : y ∈ bound <;> simp [freeOccurrences, occursFree, hb, hxy]
  | rel n a ts ih | freeClause n ts ih =>
    simp only [freeOccurrences, occursFree, mem_freeOccurrencesAll, occursFreeAny_eq_true]
    constructor
    · rintro ⟨t, ht, hx⟩
      obtain ⟨h1, h2⟩ := (ih t ht).mp hx
      exact ⟨h1, t, ht, h2⟩
    · rintro ⟨h1, t, ht, h2⟩
      exact ⟨t, ht, (ih t ht).mpr ⟨h1, h2⟩⟩
  | fn n a t ih => exact ih
  | quant n q y t ih =>
    rw [freeOccurrences, ih, occursFree]
    by_cases hxy : x = y <;> simp [hxy]
  | conn n c l r ihl ihr =>
    simp only [freeOccurrences, occursFree, List.mem_append, ihl, ihr, Bool.or_eq_true, and_or_left]

/-- The free variables are those with a free occurrence. -/
@[simp] theorem mem_freeVars : x ∈ t.freeVars ↔ t.occursFree x = true := by
  rw [freeVars, Distinct.mem_ofList, mem_freeOccurrences]
  simp

theorem freeVars_eq_firsts (t : Term) : t.freeVars = firsts (· = ·) (t.freeOccurrences []) := by
  have hdecides : Distinct.Decides (α := String) (· == ·) (· = ·) fun _ => True :=
    ⟨fun _ _ => beq_iff_eq, Eq.trans⟩
  exact Distinct.ofList_eq_firsts hdecides fun _ _ => trivial

theorem nodup_freeVars (t : Term) : t.freeVars.Nodup := by
  rw [freeVars_eq_firsts]
  exact pairwise_firsts _ _

@[simp] theorem occursFree_positive (t : Term) (x : String) : t.positive.occursFree x = t.occursFree x := by
  cases t <;> rfl

theorem mentions_of_occursFree (h : t.occursFree x = true) : t.mentions x = true := by
  induction t using induct with
  | lit n a => cases h
  | var n y => exact h
  | rel n a ts ih | freeClause n ts ih =>
    rw [occursFree, occursFreeAny_eq_true] at h
    obtain ⟨t, ht, hx⟩ := h
    rw [mentions, mentionsAny_eq_true]
    exact ⟨t, ht, ih t ht hx⟩
  | fn n a t ih => exact ih h
  | quant n q y t ih =>
    rw [occursFree] at h
    split at h
    · cases h
    · exact ih h
  | conn n c l r ihl ihr =>
    rw [occursFree, Bool.or_eq_true] at h
    rw [mentions, Bool.or_eq_true]
    exact h.imp ihl ihr

/-! ## Names -/

/-- The names in a term are those of its variables and its binders. -/
theorem mem_variableNames : x ∈ t.variableNames ↔ t.mentions x = true ∨ x ∈ t.binderOccurrences := by
  induction t using induct with
  | lit n a => simp [variableNames, mentions, binderOccurrences]
  | var n y => simp [variableNames, mentions, binderOccurrences]
  | rel n a ts ih | freeClause n ts ih =>
    simp only [variableNames, mentions, binderOccurrences, mem_variableNamesAll, mentionsAny_eq_true,
      mem_binderOccurrencesAll]
    constructor
    · rintro ⟨t, ht, hx⟩
      rcases (ih t ht).mp hx with h | h
      · exact .inl ⟨t, ht, h⟩
      · exact .inr ⟨t, ht, h⟩
    · rintro (⟨t, ht, h⟩ | ⟨t, ht, h⟩)
      · exact ⟨t, ht, (ih t ht).mpr (.inl h)⟩
      · exact ⟨t, ht, (ih t ht).mpr (.inr h)⟩
  | fn n a t ih => exact ih
  | quant n q y t ih =>
    simp only [variableNames, mentions, binderOccurrences, List.mem_cons, ih]
    exact or_left_comm
  | conn n c l r ihl ihr =>
    simp only [variableNames, mentions, binderOccurrences, List.mem_append, Bool.or_eq_true, ihl, ihr]
    exact or_or_or_comm

/-- What is not free is bound. -/
theorem occursFree_or_mem_binderOccurrences (h : t.mentions x = true) :
    t.occursFree x = true ∨ x ∈ t.binderOccurrences := by
  induction t using induct with
  | lit n a => cases h
  | var n y => exact .inl h
  | rel n a ts ih | freeClause n ts ih =>
    rw [mentions, mentionsAny_eq_true] at h
    obtain ⟨t, ht, hx⟩ := h
    rw [occursFree, occursFreeAny_eq_true, binderOccurrences, mem_binderOccurrencesAll]
    exact (ih t ht hx).imp (fun h => ⟨t, ht, h⟩) fun h => ⟨t, ht, h⟩
  | fn n a t ih => exact ih h
  | quant n q y t ih =>
    rw [occursFree, binderOccurrences, List.mem_cons]
    by_cases hxy : x = y
    · exact .inr (.inl hxy)
    · rw [if_neg (by simpa using hxy)]
      exact (ih h).imp_right .inr
  | conn n c l r ihl ihr =>
    rw [mentions, Bool.or_eq_true] at h
    rw [occursFree, Bool.or_eq_true, binderOccurrences, List.mem_append]
    rcases h with h | h
    · exact (ihl h).imp .inl .inl
    · exact (ihr h).imp .inr .inr

theorem mem_freeVars_of_isFirstOrder (ht : t.isFirstOrder = true) (hx : t.mentions x = true) : x ∈ t.freeVars := by
  rw [mem_freeVars]
  induction t using induct with
  | lit n a => cases hx
  | var n y => exact hx
  | rel n a ts ih =>
    rw [isFirstOrder, areFirstOrder_eq_true] at ht
    rw [mentions, mentionsAny_eq_true] at hx
    obtain ⟨t, hmem, hx⟩ := hx
    rw [occursFree, occursFreeAny_eq_true]
    exact ⟨t, hmem, ih t hmem (ht t hmem) hx⟩
  | fn n a t ih => exact ih ht hx
  | quant n q y t ih | conn n c l r ihl ihr | freeClause n ts ih => cases ht

theorem binderOccurrences_of_isFirstOrder (ht : t.isFirstOrder = true) : t.binderOccurrences = [] := by
  induction t using induct with
  | lit n a | var n y => rfl
  | rel n a ts ih =>
    rw [isFirstOrder, areFirstOrder_eq_true] at ht
    refine List.eq_nil_iff_forall_not_mem.mpr fun x hx => ?_
    rw [binderOccurrences, mem_binderOccurrencesAll] at hx
    obtain ⟨t, hmem, hx⟩ := hx
    rw [ih t hmem (ht t hmem)] at hx
    cases hx
  | fn n a t ih => exact ih ht
  | quant n q y t ih | conn n c l r ihl ihr | freeClause n ts ih => cases ht

end Term

end Clausal
