import Mathlib.Data.List.Nodup
import Std.Data.String.ToNat
import Clausal.ClauseForm.Apart
import Clausal.Proofs.ClauseForm.Negation

/-!
# Clausal.Proofs.ClauseForm.Renaming — fresh names and renamed binders

* `Names.Issued names x`: `x` is reserved or was handed out; `not_issued_freshVariable` says that the next variable is
  neither, and `Names.Later` that the series only moves on.
* `holds_renameAll`: a new name for `x` everywhere says what the formula says of the value of the new name.
* `holds_renameBound`: a new name for the binders `x` says the same.
* `binderOccurrences_renameAll`, `mem_variableNames_renameBound` and their like: the names after a renaming.
-/

universe u

namespace Clausal

/-! ## Fresh names -/

namespace Names

/-- `x` is reserved, or was handed out. -/
def Issued (names : Names) (x : String) : Prop :=
  x ∈ names.reserved ∨ ∃ n < names.nextVariable, x = variableName n

/-- `b` comes after `a` in the series of variables. -/
structure Later (a b : Names) : Prop where
  reserved : b.reserved = a.reserved
  le : a.nextVariable ≤ b.nextVariable

variable {names : Names} {a b c : Names} {x : String}

theorem Later.refl (a : Names) : a.Later a := ⟨rfl, Nat.le_refl _⟩

theorem Later.trans (h : a.Later b) (h' : b.Later c) : a.Later c :=
  ⟨h'.reserved.trans h.reserved, Nat.le_trans h.le h'.le⟩

theorem Issued.later (hx : a.Issued x) (h : a.Later b) : b.Issued x := by
  rcases hx with hx | ⟨n, hn, rfl⟩
  · exact .inl (by rwa [h.reserved])
  · exact .inr ⟨n, Nat.lt_of_lt_of_le hn h.le, rfl⟩

theorem issued_avoiding {t : Term} (hx : x ∈ t.variableNames) : (avoiding t).Issued x :=
  .inl (Distinct.mem_ofList.mpr hx)

theorem variableName_inj {n m : Nat} : variableName n = variableName m ↔ n = m := by
  constructor
  · intro h
    have hlist := congrArg String.toList h
    simp only [variableName, String.toList_append, List.append_cancel_left_eq] at hlist
    exact Nat.repr_inj.mp (String.toList_injective hlist)
  · rintro rfl
    rfl

theorem le_skipReserved (reserved : List String) (tries n : Nat) : n ≤ skipReserved reserved tries n := by
  induction tries generalizing n with
  | zero => exact Nat.le_refl n
  | succ tries ih =>
    rw [skipReserved]
    split
    · exact Nat.le_trans (Nat.le_succ n) (ih (n + 1))
    · exact Nat.le_refl n

/-- If the search for a name fails, all its candidates are reserved. -/
theorem mem_of_skipReserved {reserved : List String} {tries n : Nat}
    (h : variableName (skipReserved reserved tries n) ∈ reserved) :
    ∀ i ≤ tries, variableName (n + i) ∈ reserved := by
  induction tries generalizing n with
  | zero =>
    intro i hi
    obtain rfl : i = 0 := Nat.le_zero.mp hi
    exact h
  | succ tries ih =>
    rw [skipReserved] at h
    split at h
    · next hn =>
      intro i hi
      cases i with
      | zero => simpa using hn
      | succ i =>
        have hi' := ih h i (Nat.le_of_succ_le_succ hi)
        rwa [Nat.add_assoc, Nat.add_comm 1 i] at hi'
    · next hn => exact absurd (by simpa using h) hn

/-- There are more candidates than reserved names. -/
theorem skipReserved_notMem (reserved : List String) (n : Nat) :
    variableName (skipReserved reserved reserved.length n) ∉ reserved := by
  intro h
  have hall := mem_of_skipReserved h
  have hnodup : ((List.range (reserved.length + 1)).map fun i => variableName (n + i)).Nodup := by
    refine List.nodup_range.map fun i j hij => ?_
    have := variableName_inj.mp hij
    omega
  have hsub : (List.range (reserved.length + 1)).map (fun i => variableName (n + i)) ⊆ reserved := by
    intro x hx
    obtain ⟨i, hi, rfl⟩ := List.mem_map.mp hx
    exact hall i (by simpa [Nat.lt_succ_iff] using hi)
  have hlen := hnodup.length_le_of_subset hsub
  rw [List.length_map, List.length_range] at hlen
  omega

theorem later_freshVariable (names : Names) : names.Later names.freshVariable.2 :=
  ⟨rfl, Nat.le_trans (le_skipReserved _ _ _) (Nat.le_succ _)⟩

/-- The next variable is new. -/
theorem not_issued_freshVariable (names : Names) : ¬ names.Issued names.freshVariable.1 := by
  rintro (hx | ⟨n, hn, heq⟩)
  · exact skipReserved_notMem _ _ hx
  · have hle := le_skipReserved names.reserved names.reserved.length names.nextVariable
    have := variableName_inj.mp heq
    omega

theorem issued_freshVariable (names : Names) : names.freshVariable.2.Issued names.freshVariable.1 :=
  .inr ⟨_, Nat.lt_succ_self _, rfl⟩

end Names

/-! ## Renaming -/

namespace Term

variable {D : Type u} {I : Interpretation D} {x y z : String} {t : Term}

@[simp] theorem renameAllIn_eq_map (x y : String) (ts : List Term) : renameAllIn x y ts = ts.map (renameAll x y) := by
  induction ts with
  | nil => rfl
  | cons t ts ih => rw [renameAllIn, ih, List.map_cons]

@[simp] theorem renameBoundIn_eq_map (x y : String) (ts : List Term) :
    renameBoundIn x y ts = ts.map (renameBound x y) := by
  induction ts with
  | nil => rfl
  | cons t ts ih => rw [renameBoundIn, ih, List.map_cons]

/-- On a quantifier, a new name for its binder. -/
theorem renameBound_quant_self (n : Bool) (q : Quant) (x y : String) (t : Term) :
    (quant n q x t).renameBound x y = .quant n q y (t.renameAll x y) := by
  rw [renameBound, if_pos (beq_self_eq_true x)]

section Holds

theorem value_renameAll (x y : String) (v : String → D) (t : Term) :
    I.value v (t.renameAll x y) = I.value (Function.update v x (v y)) t := by
  induction t using induct with
  | lit n a => rfl
  | var n z =>
    by_cases hz : x = z
    · subst hz
      simp [renameAll, Interpretation.value]
    · simp [renameAll, Interpretation.value, hz, Function.update_of_ne (Ne.symm hz)]
  | rel n a ts ih =>
    simp only [renameAll, renameAllIn_eq_map, Interpretation.value, Interpretation.values_eq_map, List.map_map]
    congr 1
    exact List.map_congr_left ih
  | fn n a t ih => rw [renameAll, Interpretation.value, ih, Interpretation.value]
  | quant n q z t ih | conn n c l r ihl ihr | freeClause n ts ih => rfl

/-- Two assignments that differ at a name that is not in the formula. -/
theorem holds_update_of_notMem (hy : y ∉ t.variableNames) (v : String → D) (d : D) :
    t.Holds I (Function.update v y d) ↔ t.Holds I v := by
  refine holds_congr fun z hz => Function.update_of_ne ?_ d v
  rintro rfl
  exact hy (mem_variableNames.mpr (.inl (mentions_of_occursFree hz)))

/-- A formula under a new binder, with the new name put for the old one. -/
theorem holds_rebind (hy : y ∉ t.variableNames) {t' : Term} (v : String → D) (d : D)
    (h : ∀ w : String → D, t'.Holds I w ↔ t.Holds I (Function.update w x (w y))) :
    t'.Holds I (Function.update v y d) ↔ t.Holds I (Function.update v x d) := by
  rw [h, Function.update_self]
  by_cases hxy : x = y
  · subst hxy
    rw [Function.update_idem]
  · rw [Function.update_comm (Ne.symm hxy), holds_update_of_notMem hy]

/-- The new name everywhere: the formula says of the value of `y` what it said of that of `x`. -/
theorem holds_renameAll (hy : y ∉ t.variableNames) (v : String → D) :
    (t.renameAll x y).Holds I v ↔ t.Holds I (Function.update v x (v y)) := by
  induction t using induct generalizing v with
  | lit n a | var n z => exact Iff.rfl
  | rel n a ts ih =>
    refine polar_congr n (Iff.of_eq ?_)
    rw [renameAllIn_eq_map, I.values_eq_map, I.values_eq_map, List.map_map]
    congr 1
    exact List.map_congr_left fun t _ => value_renameAll x y v t
  | fn n a t ih => exact polar_congr n (Iff.of_eq (congrArg (I.property a) (value_renameAll x y v t)))
  | quant n q z t ih =>
    rw [variableNames, List.mem_cons, not_or] at hy
    obtain ⟨hyz, hyt⟩ := hy
    refine polar_congr n (quantHolds_congr q fun d => ?_)
    by_cases hxz : x = z
    · subst hxz
      rw [if_pos (beq_self_eq_true x), holds_rebind hyt v d (ih hyt), Function.update_idem]
    · rw [if_neg (by simpa using hxz), ih hyt, Function.update_of_ne hyz, Function.update_comm (Ne.symm hxz)]
  | conn n c l r ihl ihr =>
    rw [variableNames, List.mem_append, not_or] at hy
    simp only [renameAll, Holds, ihl hy.1, ihr hy.2]
  | freeClause n ts ih =>
    rw [variableNames, mem_variableNamesAll] at hy
    refine polar_congr n ?_
    rw [renameAllIn_eq_map, holdAll_iff, holdAll_iff, List.forall_mem_map]
    exact forall₂_congr fun t ht => ih t ht (fun hyt => hy ⟨t, ht, hyt⟩) v

theorem value_renameBound (x y : String) (v : String → D) (t : Term) : I.value v (t.renameBound x y) = I.value v t := by
  induction t using induct with
  | lit n a | var n z => rfl
  | rel n a ts ih =>
    simp only [renameBound, renameBoundIn_eq_map, Interpretation.value, Interpretation.values_eq_map, List.map_map]
    congr 1
    exact List.map_congr_left ih
  | fn n a t ih => rw [renameBound, Interpretation.value, ih, Interpretation.value]
  | quant n q z t ih =>
    rw [renameBound]
    split <;> rfl
  | conn n c l r ihl ihr | freeClause n ts ih => rfl

/-- New names for binders say the same. -/
theorem holds_renameBound (hy : y ∉ t.variableNames) (v : String → D) :
    (t.renameBound x y).Holds I v ↔ t.Holds I v := by
  induction t using induct generalizing v with
  | lit n a | var n z => exact Iff.rfl
  | rel n a ts ih =>
    refine polar_congr n (Iff.of_eq ?_)
    rw [renameBoundIn_eq_map, I.values_eq_map, I.values_eq_map, List.map_map]
    congr 1
    exact List.map_congr_left fun t _ => value_renameBound x y v t
  | fn n a t ih => exact polar_congr n (Iff.of_eq (congrArg (I.property a) (value_renameBound x y v t)))
  | quant n q z t ih =>
    rw [variableNames, List.mem_cons, not_or] at hy
    rw [renameBound]
    split
    · next hxz =>
      obtain rfl : x = z := by simpa using hxz
      exact polar_congr n (quantHolds_congr q fun d => holds_rebind hy.2 v d (holds_renameAll hy.2))
    · exact polar_congr n (quantHolds_congr q fun d => ih hy.2 _)
  | conn n c l r ihl ihr =>
    rw [variableNames, List.mem_append, not_or] at hy
    simp only [renameBound, Holds, ihl hy.1, ihr hy.2]
  | freeClause n ts ih =>
    rw [variableNames, mem_variableNamesAll] at hy
    refine polar_congr n ?_
    rw [renameBoundIn_eq_map, holdAll_iff, holdAll_iff, List.forall_mem_map]
    exact forall₂_congr fun t ht => ih t ht (fun hyt => hy ⟨t, ht, hyt⟩) v

end Holds

section Names

/-- `x` renamed to `y`. -/
def rename (x y z : String) : String :=
  if x == z then y else z

theorem rename_self (x y : String) : rename x y x = y := by
  simp [rename]

theorem rename_of_ne (h : x ≠ z) (y : String) : rename x y z = z := by
  simp [rename, h]

theorem variableNames_renameAll (x y : String) (t : Term) :
    (t.renameAll x y).variableNames = t.variableNames.map (rename x y) := by
  induction t using induct with
  | lit n a | var n z => rfl
  | rel n a ts ih | freeClause n ts ih =>
    rw [renameAll, variableNames, variableNames]
    induction ts with
    | nil => rfl
    | cons t ts ihts =>
      obtain ⟨ht, hts⟩ := List.forall_mem_cons.mp ih
      rw [renameAllIn, variableNamesAll, variableNamesAll, List.map_append, ht, ihts hts]
  | fn n a t ih => exact ih
  | quant n q z t ih =>
    rw [renameAll, variableNames, variableNames, List.map_cons, ih]
    rfl
  | conn n c l r ihl ihr => rw [renameAll, variableNames, variableNames, List.map_append, ihl, ihr]

theorem binderOccurrences_renameAll (x y : String) (t : Term) :
    (t.renameAll x y).binderOccurrences = t.binderOccurrences.map (rename x y) := by
  induction t using induct with
  | lit n a | var n z => rfl
  | rel n a ts ih | freeClause n ts ih =>
    rw [renameAll, binderOccurrences, binderOccurrences]
    induction ts with
    | nil => rfl
    | cons t ts ihts =>
      obtain ⟨ht, hts⟩ := List.forall_mem_cons.mp ih
      rw [renameAllIn, binderOccurrencesAll, binderOccurrencesAll, List.map_append, ht, ihts hts]
  | fn n a t ih => exact ih
  | quant n q z t ih =>
    rw [renameAll, binderOccurrences, binderOccurrences, List.map_cons, ih]
    rfl
  | conn n c l r ihl ihr => rw [renameAll, binderOccurrences, binderOccurrences, List.map_append, ihl, ihr]

theorem binderOccurrences_renameBound (x y : String) (t : Term) :
    (t.renameBound x y).binderOccurrences = t.binderOccurrences.map (rename x y) := by
  induction t using induct with
  | lit n a | var n z => rfl
  | rel n a ts ih | freeClause n ts ih =>
    rw [renameBound, binderOccurrences, binderOccurrences]
    induction ts with
    | nil => rfl
    | cons t ts ihts =>
      obtain ⟨ht, hts⟩ := List.forall_mem_cons.mp ih
      rw [renameBoundIn, binderOccurrencesAll, binderOccurrencesAll, List.map_append, ht, ihts hts]
  | fn n a t ih => exact ih
  | quant n q z t ih =>
    rw [renameBound, binderOccurrences, List.map_cons]
    split
    · next hxz =>
      obtain rfl : x = z := by simpa using hxz
      rw [binderOccurrences, binderOccurrences_renameAll, rename_self]
    · next hxz => rw [binderOccurrences, ih, rename_of_ne (by simpa using hxz)]
  | conn n c l r ihl ihr => rw [renameBound, binderOccurrences, binderOccurrences, List.map_append, ihl, ihr]

/-- A renaming brings no name but the new one. -/
theorem mem_map_rename {names : List String} (h : z ∈ names.map (rename x y)) : z = y ∨ z ∈ names ∧ z ≠ x := by
  obtain ⟨w, hw, rfl⟩ := List.mem_map.mp h
  by_cases hxw : x = w
  · subst hxw
    exact .inl (rename_self x y)
  · rw [rename_of_ne hxw]
    exact .inr ⟨hw, Ne.symm hxw⟩

theorem mem_variableNames_renameBound (h : z ∈ (t.renameBound x y).variableNames) :
    z = y ∨ z ∈ t.variableNames := by
  induction t using induct with
  | lit n a | var n w => exact .inr h
  | rel n a ts ih | freeClause n ts ih =>
    rw [renameBound, variableNames, renameBoundIn_eq_map, mem_variableNamesAll] at h
    obtain ⟨_, hmem, hz⟩ := h
    obtain ⟨t, ht, rfl⟩ := List.mem_map.mp hmem
    refine (ih t ht hz).imp_right fun h => ?_
    rw [variableNames, mem_variableNamesAll]
    exact ⟨t, ht, h⟩
  | fn n a t ih => exact ih h
  | quant n q w t ih =>
    rw [renameBound] at h
    split at h
    · rw [variableNames, List.mem_cons, variableNames_renameAll] at h
      rcases h with rfl | h
      · exact .inl rfl
      · exact (mem_map_rename h).imp_right fun h => List.mem_cons_of_mem _ h.1
    · rw [variableNames, List.mem_cons] at h
      rcases h with rfl | h
      · exact .inr List.mem_cons_self
      · exact (ih h).imp_right fun h => List.mem_cons_of_mem _ h
  | conn n c l r ihl ihr =>
    rw [renameBound, variableNames, List.mem_append] at h
    rw [variableNames, List.mem_append]
    rcases h with h | h
    · exact (ihl h).imp_right .inl
    · exact (ihr h).imp_right .inr

theorem occursFree_quant {n : Bool} {q : Quant} :
    (quant n q x t).occursFree z = true ↔ z ≠ x ∧ t.occursFree z = true := by
  by_cases hzx : z = x <;> simp [occursFree, hzx]

theorem occursFree_renameAll (h : (t.renameAll x y).occursFree z = true) : z = y ∨ z ≠ x ∧ t.occursFree z = true := by
  induction t using induct with
  | lit n a => cases h
  | var n w =>
    by_cases hxw : x = w
    · exact .inl (by simpa [renameAll, occursFree, hxw] using h)
    · obtain rfl : z = w := by simpa [renameAll, occursFree, hxw] using h
      exact .inr ⟨Ne.symm hxw, by simp [occursFree]⟩
  | rel n a ts ih | freeClause n ts ih =>
    rw [renameAll, occursFree, renameAllIn_eq_map, occursFreeAny_eq_true] at h
    obtain ⟨_, hmem, hz⟩ := h
    obtain ⟨t, ht, rfl⟩ := List.mem_map.mp hmem
    rw [occursFree, occursFreeAny_eq_true]
    exact (ih t ht hz).imp_right fun h => ⟨h.1, t, ht, h.2⟩
  | fn n a t ih => exact ih h
  | quant n q w t ih =>
    obtain ⟨hzw, hz⟩ := occursFree_quant.mp h
    rcases ih hz with rfl | ⟨hzx, hz⟩
    · exact .inl rfl
    · refine .inr ⟨hzx, occursFree_quant.mpr ⟨fun hzw' => ?_, hz⟩⟩
      subst hzw'
      exact hzw (by simp [Ne.symm hzx])
  | conn n c l r ihl ihr =>
    rw [renameAll, occursFree, Bool.or_eq_true] at h
    rw [occursFree, Bool.or_eq_true]
    rcases h with h | h
    · exact (ihl h).imp_right fun h => ⟨h.1, .inl h.2⟩
    · exact (ihr h).imp_right fun h => ⟨h.1, .inr h.2⟩

theorem occursFree_renameBound (h : (t.renameBound x y).occursFree z = true) : t.occursFree z = true := by
  induction t using induct with
  | lit n a | var n w => exact h
  | rel n a ts ih | freeClause n ts ih =>
    rw [renameBound, occursFree, renameBoundIn_eq_map, occursFreeAny_eq_true] at h
    obtain ⟨_, hmem, hz⟩ := h
    obtain ⟨t, ht, rfl⟩ := List.mem_map.mp hmem
    rw [occursFree, occursFreeAny_eq_true]
    exact ⟨t, ht, ih t ht hz⟩
  | fn n a t ih => exact ih h
  | quant n q w t ih =>
    rw [renameBound] at h
    split at h
    · next hxw =>
      obtain rfl : x = w := by simpa using hxw
      obtain ⟨hzy, hz⟩ := occursFree_quant.mp h
      rcases occursFree_renameAll hz with rfl | hz
      · exact absurd rfl hzy
      · exact occursFree_quant.mpr hz
    · obtain ⟨hzw, hz⟩ := occursFree_quant.mp h
      exact occursFree_quant.mpr ⟨hzw, ih hz⟩
  | conn n c l r ihl ihr =>
    rw [renameBound, occursFree, Bool.or_eq_true] at h
    rw [occursFree, Bool.or_eq_true]
    exact h.imp ihl ihr

end Names

section Shape

theorem areArguments_map {f : Term → Term} {ts : List Term} (h : ∀ t ∈ ts, (f t).isArgument = t.isArgument) :
    areArguments (ts.map f) = areArguments ts := by
  rw [Bool.eq_iff_iff, areArguments_eq_true, areArguments_eq_true, List.forall_mem_map]
  exact forall₂_congr fun t ht => by rw [h t ht]

theorem areSettled_map {f : Term → Term} {ts : List Term} (h : ∀ t ∈ ts, (f t).isSettled = t.isSettled) :
    areSettled (ts.map f) = areSettled ts := by
  rw [Bool.eq_iff_iff, areSettled_eq_true, areSettled_eq_true, List.forall_mem_map]
  exact forall₂_congr fun t ht => by rw [h t ht]

theorem isArgument_renameAll (x y : String) (t : Term) : (t.renameAll x y).isArgument = t.isArgument := by
  induction t using induct with
  | lit n a | var n z => rfl
  | rel n a ts ih => rw [renameAll, isArgument, isArgument, renameAllIn_eq_map, areArguments_map ih]
  | fn n a t ih => rw [renameAll, isArgument, isArgument, ih]
  | quant n q z t ih | conn n c l r ihl ihr | freeClause n ts ih => rfl

theorem isArgument_renameBound (x y : String) (t : Term) : (t.renameBound x y).isArgument = t.isArgument := by
  induction t using induct with
  | lit n a | var n z => rfl
  | rel n a ts ih => rw [renameBound, isArgument, isArgument, renameBoundIn_eq_map, areArguments_map ih]
  | fn n a t ih => rw [renameBound, isArgument, isArgument, ih]
  | quant n q z t ih =>
    rw [renameBound]
    split <;> rfl
  | conn n c l r ihl ihr | freeClause n ts ih => rfl

theorem isSettled_renameAll (x y : String) (t : Term) : (t.renameAll x y).isSettled = t.isSettled := by
  induction t using induct with
  | lit n a | var n z => rfl
  | rel n a ts ih =>
    rw [renameAll, renameAllIn_eq_map]
    exact areArguments_map fun t _ => isArgument_renameAll x y t
  | fn n a t ih => exact isArgument_renameAll x y t
  | quant n q z t ih => rw [renameAll, isSettled, isSettled, ih]
  | conn n c l r ihl ihr => cases c <;> simp only [renameAll, isSettled, ihl, ihr]
  | freeClause n ts ih => rw [renameAll, isSettled, isSettled, renameAllIn_eq_map, areSettled_map ih, List.isEmpty_map]

theorem isSettled_renameBound (x y : String) (t : Term) : (t.renameBound x y).isSettled = t.isSettled := by
  induction t using induct with
  | lit n a | var n z => rfl
  | rel n a ts ih =>
    rw [renameBound, renameBoundIn_eq_map]
    exact areArguments_map fun t _ => isArgument_renameBound x y t
  | fn n a t ih => exact isArgument_renameBound x y t
  | quant n q z t ih =>
    rw [renameBound]
    split
    · rw [isSettled, isSettled, isSettled_renameAll]
    · rw [isSettled, isSettled, ih]
  | conn n c l r ihl ihr => cases c <;> simp only [renameBound, isSettled, ihl, ihr]
  | freeClause n ts ih =>
    rw [renameBound, isSettled, isSettled, renameBoundIn_eq_map, areSettled_map ih, List.isEmpty_map]

end Shape

end Term

end Clausal
