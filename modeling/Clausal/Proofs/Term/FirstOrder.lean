import Clausal.Proofs.Term.Replacement

/-!
# Clausal.Proofs.Term.FirstOrder — first-order terms

* `Term.isFirstOrder`: constants, variables, relations and functions only, the terms that can unify.
* `Term.same_equivalence`: equality up to the signs of variables is an equivalence.
* `Term.isUnsigned`: no occurrence of a variable is negated.  On such terms it is equality (`eq_of_same`).
* `Term.isGround`: no variables at all, so that replacement changes nothing (`mapVars_of_isGround`).
* `Term.occurrences`: the variables of a term with repetitions, `varCount` many.
-/

namespace Clausal.Term

/-! ## The two classes -/

mutual

/-- Built from constants, variables, relations and functions. -/
def isFirstOrder : Term → Bool
  | .lit .. | .var .. => true
  | .rel _ _ ts => areFirstOrder ts
  | .fn _ _ t => isFirstOrder t
  | .quant .. | .conn .. | .freeClause .. => false

/-- All terms are first-order. -/
def areFirstOrder : List Term → Bool
  | [] => true
  | t :: ts => isFirstOrder t && areFirstOrder ts

end

mutual

/-- No occurrence of a variable is negated. -/
def isUnsigned : Term → Bool
  | .lit .. => true
  | .var n _ => !n
  | .rel _ _ ts | .freeClause _ ts => areUnsigned ts
  | .fn _ _ t | .quant _ _ _ t => isUnsigned t
  | .conn _ _ l r => isUnsigned l && isUnsigned r

/-- No occurrence of a variable in the terms is negated. -/
def areUnsigned : List Term → Bool
  | [] => true
  | t :: ts => isUnsigned t && areUnsigned ts

end

@[simp] theorem areFirstOrder_eq_true {ts : List Term} : areFirstOrder ts = true ↔ ∀ t ∈ ts, t.isFirstOrder = true := by
  induction ts with
  | nil => simp [areFirstOrder]
  | cons t ts ih => simp [areFirstOrder, ih]

@[simp] theorem areUnsigned_eq_true {ts : List Term} : areUnsigned ts = true ↔ ∀ t ∈ ts, t.isUnsigned = true := by
  induction ts with
  | nil => simp [areUnsigned]
  | cons t ts ih => simp [areUnsigned, ih]

@[simp] theorem isFirstOrder_signed (n : Bool) (t : Term) : (signed n t).isFirstOrder = t.isFirstOrder := by
  cases n
  · rfl
  · cases t <;> rfl

theorem isFirstOrder_mapVars {f : String → Term} {t : Term} (ht : t.isFirstOrder = true)
    (hf : ∀ x, t.mentions x = true → (f x).isFirstOrder = true) : (t.mapVars f).isFirstOrder = true := by
  induction t using induct with
  | lit n a => rfl
  | var n x =>
    rw [mapVars, isFirstOrder_signed]
    exact hf x (by simp [mentions])
  | rel n a ts ih =>
    simp only [mapVars, mapVarsAll_eq_map, isFirstOrder, areFirstOrder_eq_true, List.mem_map] at ht ⊢
    rintro _ ⟨t, hmem, rfl⟩
    refine ih t hmem (ht t hmem) fun x hx => hf x ?_
    rw [mentions, mentionsAny_eq_true]
    exact ⟨t, hmem, hx⟩
  | fn n a t ih => exact ih ht hf
  | quant n q x t ih | conn n c l r ihl ihr | freeClause n ts ih => cases ht

theorem isUnsigned_mapVars {f : String → Term} {t : Term} (ht : t.isUnsigned = true)
    (hf : ∀ x, t.mentions x = true → (f x).isUnsigned = true) : (t.mapVars f).isUnsigned = true := by
  induction t using induct with
  | lit n a => rfl
  | var n x =>
    cases n with
    | true => cases ht
    | false => exact hf x (by simp [mentions])
  | rel n a ts ih | freeClause n ts ih =>
    simp only [mapVars, mapVarsAll_eq_map, isUnsigned, areUnsigned_eq_true, List.mem_map] at ht ⊢
    rintro _ ⟨t, hmem, rfl⟩
    refine ih t hmem (ht t hmem) fun x hx => hf x ?_
    rw [mentions, mentionsAny_eq_true]
    exact ⟨t, hmem, hx⟩
  | fn n a t ih | quant n q x t ih => exact ih ht hf
  | conn n c l r ihl ihr =>
    simp only [mapVars, isUnsigned, Bool.and_eq_true] at ht ⊢
    exact ⟨ihl ht.1 fun x hx => hf x (by simp [mentions, hx]), ihr ht.2 fun x hx => hf x (by simp [mentions, hx])⟩

/-! ## Equality -/

theorem same_refl (t : Term) : t.same t = true := by
  induction t using induct with
  | lit n a | var n x => simp [same]
  | rel n a ts ih | freeClause n ts ih =>
    have hall : sameAll ts ts = true := by
      induction ts with
      | nil => rfl
      | cons t ts ihts =>
        rw [sameAll, ih t List.mem_cons_self, ihts fun u hu => ih u (List.mem_cons_of_mem _ hu)]
        rfl
    simp [same, hall]
  | fn n a t ih | quant n q x t ih => simp [same, ih]
  | conn n c l r ihl ihr => simp [same, ihl, ihr]

theorem sameAll_comm {ts : List Term} (ih : ∀ t ∈ ts, ∀ u : Term, t.same u = u.same t) (us : List Term) :
    sameAll ts us = sameAll us ts := by
  induction ts generalizing us with
  | nil => cases us <;> rfl
  | cons t ts ihts =>
    cases us with
    | nil => rfl
    | cons u us =>
      rw [sameAll, sameAll, ih t List.mem_cons_self, ihts fun t' h' => ih t' (List.mem_cons_of_mem _ h')]

theorem same_comm (t u : Term) : t.same u = u.same t := by
  induction t using induct generalizing u with
  | lit n a | var n a => cases u <;> simp [same, BEq.comm]
  | rel n a ts ih | freeClause n ts ih => cases u <;> simp [same, sameAll_comm ih, BEq.comm]
  | fn n a t ih | quant n q x t ih => cases u <;> simp [same, ih, BEq.comm]
  | conn n c l r ihl ihr => cases u <;> simp [same, ihl, ihr, BEq.comm]

theorem sameAll_trans {ts us ws : List Term}
    (ih : ∀ t ∈ ts, ∀ {u w : Term}, t.same u = true → u.same w = true → t.same w = true)
    (h : sameAll ts us = true) (h' : sameAll us ws = true) : sameAll ts ws = true := by
  induction ts generalizing us ws with
  | nil =>
    cases us with
    | nil => exact h'
    | cons u us => cases h
  | cons t ts ihts =>
    cases us with
    | nil => cases h
    | cons u us =>
      cases ws with
      | nil => cases h'
      | cons w ws =>
        rw [sameAll, Bool.and_eq_true] at h h' ⊢
        exact ⟨ih t List.mem_cons_self h.1 h'.1, ihts (fun t' ht => ih t' (List.mem_cons_of_mem _ ht)) h.2 h'.2⟩

theorem same_trans {t u w : Term} (h : t.same u = true) (h' : u.same w = true) : t.same w = true := by
  induction t using induct generalizing u w with
  | lit n a =>
    cases u with
    | lit m b => cases w <;> simp_all [same]
    | _ => cases h
  | var n x =>
    cases u with
    | var m y => cases w <;> simp_all [same]
    | _ => cases h
  | rel n a ts ih =>
    cases u with
    | rel m b us =>
      cases w with
      | rel k c ws =>
        simp only [same, Bool.and_eq_true, beq_iff_eq] at h h' ⊢
        exact ⟨⟨h.1.1.trans h'.1.1, h.1.2.trans h'.1.2⟩, sameAll_trans ih h.2 h'.2⟩
      | _ => cases h'
    | _ => cases h
  | fn n a t ih =>
    cases u with
    | fn m b u =>
      cases w with
      | fn k c w =>
        simp only [same, Bool.and_eq_true, beq_iff_eq] at h h' ⊢
        exact ⟨⟨h.1.1.trans h'.1.1, h.1.2.trans h'.1.2⟩, ih h.2 h'.2⟩
      | _ => cases h'
    | _ => cases h
  | quant n q x t ih =>
    cases u with
    | quant m r y u =>
      cases w with
      | quant k p z w =>
        simp only [same, Bool.and_eq_true, beq_iff_eq] at h h' ⊢
        exact ⟨⟨⟨h.1.1.1.trans h'.1.1.1, h.1.1.2.trans h'.1.1.2⟩, h.1.2.trans h'.1.2⟩, ih h.2 h'.2⟩
      | _ => cases h'
    | _ => cases h
  | conn n c l r ihl ihr =>
    cases u with
    | conn m d l' r' =>
      cases w with
      | conn k e l'' r'' =>
        simp only [same, Bool.and_eq_true, beq_iff_eq] at h h' ⊢
        exact ⟨⟨⟨h.1.1.1.trans h'.1.1.1, h.1.1.2.trans h'.1.1.2⟩, ihl h.1.2 h'.1.2⟩, ihr h.2 h'.2⟩
      | _ => cases h'
    | _ => cases h
  | freeClause n ts ih =>
    cases u with
    | freeClause m us =>
      cases w with
      | freeClause k ws =>
        simp only [same, Bool.and_eq_true, beq_iff_eq] at h h' ⊢
        exact ⟨h.1.trans h'.1, sameAll_trans ih h.2 h'.2⟩
      | _ => cases h'
    | _ => cases h

/-- Being the same is an equivalence. -/
theorem same_equivalence : Equivalence fun t u : Term => t.same u = true where
  refl := same_refl
  symm {t u} h := by rwa [same_comm]
  trans := same_trans

theorem eq_of_sameAll {ts us : List Term}
    (ih : ∀ t ∈ ts, ∀ {u : Term}, t.isUnsigned = true → u.isUnsigned = true → t.same u = true → t = u)
    (hts : ∀ t ∈ ts, t.isUnsigned = true) (hus : ∀ u ∈ us, u.isUnsigned = true) (h : sameAll ts us = true) :
    ts = us := by
  induction ts generalizing us with
  | nil =>
    cases us with
    | nil => rfl
    | cons u us => cases h
  | cons t ts ihts =>
    cases us with
    | nil => cases h
    | cons u us =>
      rw [sameAll, Bool.and_eq_true] at h
      obtain ⟨ht, hts⟩ := List.forall_mem_cons.mp hts
      obtain ⟨hu, hus⟩ := List.forall_mem_cons.mp hus
      rw [ih t List.mem_cons_self ht hu h.1, ihts (fun t' h' => ih t' (List.mem_cons_of_mem _ h')) hts hus h.2]

/-- Without negated variables, terms that are the same are equal. -/
theorem eq_of_same {t u : Term} (ht : t.isUnsigned = true) (hu : u.isUnsigned = true) (h : t.same u = true) :
    t = u := by
  induction t using induct generalizing u with
  | lit n a => cases u <;> simp_all [same]
  | var n x => cases u <;> simp_all [same, isUnsigned]
  | rel n a ts ih =>
    cases u with
    | rel m b us =>
      simp only [same, Bool.and_eq_true, beq_iff_eq] at h
      simp only [isUnsigned, areUnsigned_eq_true] at ht hu
      rw [h.1.1, h.1.2, eq_of_sameAll ih ht hu h.2]
    | _ => cases h
  | freeClause n ts ih =>
    cases u with
    | freeClause m us =>
      simp only [same, Bool.and_eq_true, beq_iff_eq] at h
      simp only [isUnsigned, areUnsigned_eq_true] at ht hu
      rw [h.1, eq_of_sameAll ih ht hu h.2]
    | _ => cases h
  | fn n a t ih =>
    cases u with
    | fn m b u =>
      simp only [same, Bool.and_eq_true, beq_iff_eq] at h
      simp only [isUnsigned] at ht hu
      rw [h.1.1, h.1.2, ih ht hu h.2]
    | _ => cases h
  | quant n q x t ih =>
    cases u with
    | quant m r y u =>
      simp only [same, Bool.and_eq_true, beq_iff_eq] at h
      simp only [isUnsigned] at ht hu
      rw [h.1.1.1, h.1.1.2, h.1.2, ih ht hu h.2]
    | _ => cases h
  | conn n c l r ihl ihr =>
    cases u with
    | conn m d k s =>
      simp only [same, Bool.and_eq_true, beq_iff_eq] at h
      simp only [isUnsigned, Bool.and_eq_true] at ht hu
      rw [h.1.1.1, h.1.1.2, ihl ht.1 hu.1 h.1.2, ihr ht.2 hu.2 h.2]
    | _ => cases h

/-! ## Ground terms -/

@[simp] theorem isGroundAll_eq_true {ts : List Term} : isGroundAll ts = true ↔ ∀ t ∈ ts, t.isGround = true := by
  induction ts with
  | nil => simp [isGroundAll]
  | cons t ts ih => simp [isGroundAll, ih]

theorem not_mentions_of_isGround {t : Term} (ht : t.isGround = true) (x : String) : t.mentions x ≠ true := by
  induction t using induct with
  | lit n a => nofun
  | var n y => cases ht
  | rel n a ts ih | freeClause n ts ih =>
    rw [isGround, isGroundAll_eq_true] at ht
    rw [mentions, ne_eq, mentionsAny_eq_true]
    rintro ⟨t, hmem, hx⟩
    exact ih t hmem (ht t hmem) hx
  | fn n a t ih | quant n q y t ih => exact ih ht
  | conn n c l r ihl ihr =>
    rw [isGround, Bool.and_eq_true] at ht
    rw [mentions, ne_eq, Bool.or_eq_true, not_or]
    exact ⟨ihl ht.1, ihr ht.2⟩

theorem isUnsigned_of_isGround {t : Term} (ht : t.isGround = true) : t.isUnsigned = true := by
  induction t using induct with
  | lit n a => rfl
  | var n x => cases ht
  | rel n a ts ih | freeClause n ts ih =>
    rw [isGround, isGroundAll_eq_true] at ht
    rw [isUnsigned, areUnsigned_eq_true]
    exact fun t hmem => ih t hmem (ht t hmem)
  | fn n a t ih | quant n q x t ih => exact ih ht
  | conn n c l r ihl ihr =>
    rw [isGround, Bool.and_eq_true] at ht
    rw [isUnsigned, Bool.and_eq_true]
    exact ⟨ihl ht.1, ihr ht.2⟩

theorem mapVars_of_isGround {t : Term} (ht : t.isGround = true) (f : String → Term) : t.mapVars f = t := by
  have hcongr : t.mapVars f = t.mapVars (.var false) :=
    mapVars_congr fun x hx => absurd hx (not_mentions_of_isGround ht x)
  rw [hcongr, mapVars_var]

/-! ## Occurrences of variables -/

mutual

/-- The variables of a term from left to right, with repetitions. -/
def occurrences : Term → List String
  | .lit .. => []
  | .var _ x => [x]
  | .rel _ _ ts | .freeClause _ ts => occurrencesAll ts
  | .fn _ _ t | .quant _ _ _ t => occurrences t
  | .conn _ _ l r => occurrences l ++ occurrences r

/-- The variables of a list of terms. -/
def occurrencesAll : List Term → List String
  | [] => []
  | t :: ts => occurrences t ++ occurrencesAll ts

end

@[simp] theorem mem_occurrencesAll {x : String} {ts : List Term} :
    x ∈ occurrencesAll ts ↔ ∃ t ∈ ts, x ∈ t.occurrences := by
  induction ts with
  | nil => simp [occurrencesAll]
  | cons t ts ih => simp [occurrencesAll, ih]

@[simp] theorem mem_occurrences {x : String} {t : Term} : x ∈ t.occurrences ↔ t.mentions x = true := by
  induction t using induct with
  | lit n a => simp [occurrences, mentions]
  | var n y => simp [occurrences, mentions]
  | rel n a ts ih | freeClause n ts ih =>
    simp only [occurrences, mentions, mem_occurrencesAll, mentionsAny_eq_true]
    exact exists_congr fun t => and_congr_right fun ht => ih t ht
  | fn n a t ih | quant n q y t ih => exact ih
  | conn n c l r ihl ihr => simp [occurrences, mentions, ihl, ihr]

theorem length_occurrences (t : Term) : t.occurrences.length = t.varCount := by
  induction t using induct with
  | lit n a | var n x => rfl
  | rel n a ts ih | freeClause n ts ih =>
    rw [occurrences, varCount]
    induction ts with
    | nil => rfl
    | cons t ts ihts =>
      rw [occurrencesAll, varCountAll, List.length_append, ih t List.mem_cons_self,
        ihts fun u hu => ih u (List.mem_cons_of_mem _ hu)]
  | fn n a t ih | quant n q x t ih => exact ih
  | conn n c l r ihl ihr => rw [occurrences, varCount, List.length_append, ihl, ihr]

end Clausal.Term
