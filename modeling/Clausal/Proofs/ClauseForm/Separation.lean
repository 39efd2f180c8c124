import Clausal.Proofs.ClauseForm.Apart

/-!
# Clausal.Proofs.ClauseForm.Separation — which binders keep their names

What the pass that takes binders apart does to the names of any formula, whether it is settled or not and with variables
free in it or not.

* `Term.formulaBinders`: the binders outside of arguments.
* `Term.keepsBinder x t`: a binder `x` of `t` is not renamed.
* `Refreshed`: what a series of renamings with fresh names does to free variables and to binders.
* `Separates`, `separable`: the pass keeps the free variables, gives the quantifiers different names outside of the
  scope, and leaves a name that is not in scope as a binder just where `keepsBinder` says so.
-/

universe u

namespace Clausal

namespace Term

variable {x y z : String} {t s : Term}

/-! ## Binders that keep their names -/

section Binders

mutual

/-- The binders outside of arguments, from left to right, outer before inner. -/
def formulaBinders : Term → List String
  | .quant _ _ x t => x :: formulaBinders t
  | .conn _ _ l r => formulaBinders l ++ formulaBinders r
  | .freeClause _ ts => formulaBindersAll ts
  | _ => []

/-- The binders of a list of formulas, outside of arguments. -/
def formulaBindersAll : List Term → List String
  | [] => []
  | t :: ts => formulaBinders t ++ formulaBindersAll ts

end

mutual

/-- Some binder `x` of the formula keeps its name, if `x` is not in scope: of nested ones the outermost, on the sides of
a connective that of the only one, and in arguments every one. -/
def keepsBinder (x : String) : Term → Bool
  | .quant _ _ y t => x == y || keepsBinder x t
  | .conn _ _ l r =>
    !(l.binderOccurrences.contains x && r.binderOccurrences.contains x) && (keepsBinder x l || keepsBinder x r)
  | .freeClause _ ts => firstKeepsBinder x ts
  | t => t.binderOccurrences.contains x

/-- The first of the formulas that binds `x` keeps it; the others give way. -/
def firstKeepsBinder (x : String) : List Term → Bool
  | [] => false
  | t :: ts => if t.binderOccurrences.contains x then keepsBinder x t else firstKeepsBinder x ts

end

theorem mem_binderOccurrences_of_mem_formulaBinders (h : x ∈ t.formulaBinders) : x ∈ t.binderOccurrences := by
  induction t using induct with
  | lit n a | var n y | rel n a ts ih | fn n a t ih => cases h
  | quant n q y t ih =>
    rcases List.mem_cons.mp h with rfl | h
    · exact List.mem_cons_self
    · exact List.mem_cons_of_mem y (ih h)
  | conn n c l r ihl ihr =>
    rcases List.mem_append.mp h with h | h
    · exact List.mem_append_left _ (ihl h)
    · exact List.mem_append_right _ (ihr h)
  | freeClause n ts ih =>
    rw [formulaBinders] at h
    rw [binderOccurrences]
    induction ts with
    | nil => cases h
    | cons t ts ihs =>
      obtain ⟨iht, ihts⟩ := List.forall_mem_cons.mp ih
      rcases List.mem_append.mp h with h | h
      · exact List.mem_append_left _ (iht h)
      · exact List.mem_append_right _ (ihs ihts h)

theorem mem_of_keepsBinder (h : t.keepsBinder x = true) : x ∈ t.binderOccurrences := by
  induction t using induct with
  | lit n a | var n y | rel n a ts ih | fn n a t ih => exact List.contains_iff_mem.mp h
  | quant n q y t ih =>
    rw [keepsBinder, Bool.or_eq_true, beq_iff_eq] at h
    rw [binderOccurrences, List.mem_cons]
    exact h.imp_right ih
  | conn n c l r ihl ihr =>
    rw [keepsBinder, Bool.and_eq_true, Bool.or_eq_true] at h
    rw [binderOccurrences, List.mem_append]
    exact h.2.imp ihl ihr
  | freeClause n ts ih =>
    rw [keepsBinder] at h
    rw [binderOccurrences]
    induction ts with
    | nil => cases h
    | cons t ts ihs =>
      obtain ⟨iht, ihts⟩ := List.forall_mem_cons.mp ih
      rw [firstKeepsBinder] at h
      rw [binderOccurrencesAll, List.mem_append]
      split at h
      · exact .inl (iht h)
      · exact .inr (ihs ihts h)

theorem keepsBinder_conn {n : Bool} {c : Connective} {l r : Term} :
    (conn n c l r).keepsBinder x = true ↔
      (l.keepsBinder x = true ∨ r.keepsBinder x = true) ∧ ¬ (x ∈ l.binderOccurrences ∧ x ∈ r.binderOccurrences) := by
  rw [keepsBinder, Bool.and_eq_true, Bool.or_eq_true, Bool.not_eq_true', Bool.eq_false_iff, ne_eq, Bool.and_eq_true,
    List.contains_iff_mem, List.contains_iff_mem, and_comm]

/-- A renaming of other names does not touch `z`. -/
theorem mem_map_rename_iff {names : List String} (hx : z ≠ x) (hy : z ≠ y) :
    z ∈ names.map (rename x y) ↔ z ∈ names := by
  constructor
  · intro h
    rcases mem_map_rename h with rfl | h
    · exact absurd rfl hy
    · exact h.1
  · intro h
    rw [← rename_of_ne (Ne.symm hx) y]
    exact List.mem_map_of_mem h

theorem contains_map_rename {names : List String} (hx : z ≠ x) (hy : z ≠ y) :
    (names.map (rename x y)).contains z = names.contains z := by
  rw [Bool.eq_iff_iff, List.contains_iff_mem, List.contains_iff_mem]
  exact mem_map_rename_iff hx hy

theorem firstKeepsBinder_map {f : Term → Term} {ts : List Term}
    (hkeeps : ∀ t ∈ ts, (f t).keepsBinder z = t.keepsBinder z)
    (hbinds : ∀ t ∈ ts, (f t).binderOccurrences.contains z = t.binderOccurrences.contains z) :
    firstKeepsBinder z (ts.map f) = firstKeepsBinder z ts := by
  induction ts with
  | nil => rfl
  | cons t ts ih =>
    obtain ⟨ht, hts⟩ := List.forall_mem_cons.mp hkeeps
    obtain ⟨ht', hts'⟩ := List.forall_mem_cons.mp hbinds
    rw [List.map_cons, firstKeepsBinder, firstKeepsBinder, ht, ht', ih hts hts']

theorem keepsBinder_renameAll (hx : z ≠ x) (hy : z ≠ y) (t : Term) :
    (t.renameAll x y).keepsBinder z = t.keepsBinder z := by
  have hbinds : ∀ t : Term, (t.renameAll x y).binderOccurrences.contains z = t.binderOccurrences.contains z :=
    fun t => by rw [binderOccurrences_renameAll, contains_map_rename hx hy]
  induction t using induct with
  | lit n a | var n w | rel n a ts ih | fn n a t ih => exact hbinds _
  | quant n q w t ih =>
    have hbinder : (z == if x == w then y else w) = (z == w) := by
      by_cases hxw : x = w
      · subst hxw
        simp [hx, hy]
      · simp [hxw]
    rw [renameAll, keepsBinder, keepsBinder, ih, hbinder]
  | conn n c l r ihl ihr => rw [renameAll, keepsBinder, keepsBinder, hbinds, hbinds, ihl, ihr]
  | freeClause n ts ih =>
    rw [renameAll, keepsBinder, keepsBinder, renameAllIn_eq_map, firstKeepsBinder_map ih fun t _ => hbinds t]

theorem keepsBinder_renameBound (hx : z ≠ x) (hy : z ≠ y) (t : Term) :
    (t.renameBound x y).keepsBinder z = t.keepsBinder z := by
  have hbinds : ∀ t : Term, (t.renameBound x y).binderOccurrences.contains z = t.binderOccurrences.contains z :=
    fun t => by rw [binderOccurrences_renameBound, contains_map_rename hx hy]
  induction t using induct with
  | lit n a | var n w | rel n a ts ih | fn n a t ih => exact hbinds _
  | quant n q w t ih =>
    rw [renameBound]
    split
    · next hxw =>
      obtain rfl : x = w := by simpa using hxw
      rw [keepsBinder, keepsBinder, keepsBinder_renameAll hx hy, beq_eq_false_iff_ne.mpr hx,
        beq_eq_false_iff_ne.mpr hy]
    · rw [keepsBinder, keepsBinder, ih]
  | conn n c l r ihl ihr => rw [renameBound, keepsBinder, keepsBinder, hbinds, hbinds, ihl, ihr]
  | freeClause n ts ih =>
    rw [renameBound, keepsBinder, keepsBinder, renameBoundIn_eq_map, firstKeepsBinder_map ih fun t _ => hbinds t]

end Binders

/-! ## Renaming keeps the free variables -/

section Free

theorem occursFree_renameAll_of_ne (hy : y ∉ t.variableNames) (hx : z ≠ x) (h : t.occursFree z = true) :
    (t.renameAll x y).occursFree z = true := by
  induction t using induct with
  | lit n a => cases h
  | var n w =>
    obtain rfl : z = w := by simpa [occursFree] using h
    simp [renameAll, occursFree, Ne.symm hx]
  | rel n a ts ih | freeClause n ts ih =>
    rw [variableNames, mem_variableNamesAll] at hy
    rw [occursFree, occursFreeAny_eq_true] at h
    obtain ⟨t, ht, h⟩ := h
    rw [renameAll, occursFree, renameAllIn_eq_map, occursFreeAny_eq_true]
    exact ⟨_, List.mem_map_of_mem ht, ih t ht (fun hyt => hy ⟨t, ht, hyt⟩) h⟩
  | fn n a t ih => exact ih hy h
  | quant n q w t ih =>
    rw [variableNames, List.mem_cons, not_or] at hy
    obtain ⟨hzw, h⟩ := occursFree_quant.mp h
    rw [renameAll, occursFree_quant]
    refine ⟨?_, ih hy.2 h⟩
    split
    · rintro rfl
      exact hy.2 (mem_variableNames.mpr (.inl (mentions_of_occursFree h)))
    · exact hzw
  | conn n c l r ihl ihr =>
    rw [variableNames, List.mem_append, not_or] at hy
    rw [occursFree, Bool.or_eq_true] at h
    rw [renameAll, occursFree, Bool.or_eq_true]
    exact h.imp (ihl hy.1) (ihr hy.2)

/-- A new name for a binder changes no free variable. -/
theorem occursFree_renameBound_iff (hy : y ∉ t.variableNames) :
    (t.renameBound x y).occursFree z = true ↔ t.occursFree z = true := by
  refine ⟨occursFree_renameBound, fun h => ?_⟩
  induction t using induct with
  | lit n a | var n w => exact h
  | rel n a ts ih | freeClause n ts ih =>
    rw [variableNames, mem_variableNamesAll] at hy
    rw [occursFree, occursFreeAny_eq_true] at h
    obtain ⟨t, ht, h⟩ := h
    rw [renameBound, occursFree, renameBoundIn_eq_map, occursFreeAny_eq_true]
    exact ⟨_, List.mem_map_of_mem ht, ih t ht (fun hyt => hy ⟨t, ht, hyt⟩) h⟩
  | fn n a t ih => exact ih hy h
  | quant n q w t ih =>
    rw [variableNames, List.mem_cons, not_or] at hy
    obtain ⟨hzw, hz⟩ := occursFree_quant.mp h
    rw [renameBound]
    split
    · next hxw =>
      obtain rfl : x = w := by simpa using hxw
      refine occursFree_quant.mpr ⟨?_, occursFree_renameAll_of_ne hy.2 hzw hz⟩
      rintro rfl
      exact hy.2 (mem_variableNames.mpr (.inl (mentions_of_occursFree hz)))
    · exact occursFree_quant.mpr ⟨hzw, ih hy.2 hz⟩
  | conn n c l r ihl ihr =>
    rw [variableNames, List.mem_append, not_or] at hy
    rw [occursFree, Bool.or_eq_true] at h
    rw [renameBound, occursFree, Bool.or_eq_true]
    exact h.imp (ihl hy.1) (ihr hy.2)

end Free

end Term

/-! ## Renaming with fresh names -/

section Refreshed

variable {names names' : Names} {x y z : String} {xs : List String} {t t' : Term}

/-- The binders `xs` of `t` were renamed one after the other, each with a name that is neither issued nor in use. -/
inductive Refreshed (names : Names) : List String → Term → Term → Prop where
  | nil (t : Term) : Refreshed names [] t t
  | cons {x y : String} {xs : List String} {t t' : Term} : ¬ names.Issued y → y ∉ t.variableNames →
      Refreshed names xs (t.renameBound x y) t' → Refreshed names (x :: xs) t t'

theorem Refreshed.free (h : Refreshed names xs t t') : t'.occursFree z = true ↔ t.occursFree z = true := by
  induction h with
  | nil t => exact Iff.rfl
  | cons _ hy _ ih => rw [ih, Term.occursFree_renameBound_iff hy]

theorem Refreshed.mem_binderOccurrences (h : Refreshed names xs t t') (hz : names.Issued z) :
    z ∈ t'.binderOccurrences ↔ z ∈ t.binderOccurrences ∧ z ∉ xs := by
  induction h with
  | nil t => simp
  | @cons x y xs t t' hy _ _ ih =>
    have hzy : z ≠ y := by
      rintro rfl
      exact hy hz
    rw [ih, Term.binderOccurrences_renameBound, List.mem_cons, not_or]
    by_cases hzx : z = x
    · subst hzx
      refine iff_of_false (fun h => ?_) fun h => h.2.1 rfl
      rcases Term.mem_map_rename h.1 with h | h
      · exact hzy h
      · exact h.2 rfl
    · rw [Term.mem_map_rename_iff hzx hzy]
      exact and_congr_right fun _ => (and_iff_right hzx).symm

/-- A binder that is not renamed is kept as before. -/
theorem Refreshed.keepsBinder (h : Refreshed names xs t t') (hz : names.Issued z) :
    t'.keepsBinder z = true ↔ t.keepsBinder z = true ∧ z ∉ xs := by
  by_cases hxs : z ∈ xs
  · refine iff_of_false (fun hkeeps => ?_) fun h => h.2 hxs
    exact ((h.mem_binderOccurrences hz).mp (Term.mem_of_keepsBinder hkeeps)).2 hxs
  · suffices heq : t'.keepsBinder z = t.keepsBinder z by rw [heq, and_iff_left hxs]
    induction h with
    | nil t => rfl
    | @cons x y xs t t' hy _ _ ih =>
      obtain ⟨hzx, hxs⟩ := not_or.mp (mt List.mem_cons.mpr hxs)
      have hzy : z ≠ y := by
        rintro rfl
        exact hy hz
      rw [ih hxs, Term.keepsBinder_renameBound hzx hzy]

theorem refreshed_freshen (h : AllIssued names' t) (hlater : names.Later names') (xs : List String) :
    Refreshed names xs t (names'.freshen xs t).1 := by
  induction xs generalizing names' t with
  | nil => exact .nil t
  | cons x xs ih =>
    exact .cons (fun hi => names'.not_issued_freshVariable (hi.later hlater)) (not_mem_of_allIssued h)
      (ih (allIssued_renameBound h x) (hlater.trans names'.later_freshVariable))

theorem refreshed_freshenBoth {l r : Term} (hl : AllIssued names' l) (hr : AllIssued names' r)
    (hlater : names.Later names') (xs : List String) :
    Refreshed names xs l (names'.freshenBoth xs l r).1.1 ∧ Refreshed names xs r (names'.freshenBoth xs l r).1.2 := by
  induction xs generalizing names' l r with
  | nil => exact ⟨.nil l, .nil r⟩
  | cons x xs ih =>
    have ha := names'.later_freshVariable
    have hb := names'.freshVariable.2.later_freshVariable
    have hra : AllIssued names'.freshVariable.2 r := fun z hz => (hr z hz).later ha
    have hl' : AllIssued names'.freshVariable.2.freshVariable.2 (l.renameBound x names'.freshVariable.1) :=
      fun z hz => (allIssued_renameBound hl x z hz).later hb
    obtain ⟨hleft, hright⟩ := ih hl' (allIssued_renameBound hra x) (hlater.trans (ha.trans hb))
    refine ⟨.cons (fun hi => ?_) (not_mem_of_allIssued hl) hleft,
      .cons (fun hi => ?_) (not_mem_of_allIssued hra) hright⟩
    · exact names'.not_issued_freshVariable (hi.later hlater)
    · exact names'.freshVariable.2.not_issued_freshVariable (hi.later (hlater.trans ha))

end Refreshed

/-! ## The pass -/

section Pass

open Term

variable {D : Type u} {I : Interpretation D} {names names' : Names} {scope seen : List String} {x z : String}
  {t t' l r : Term} {ts : List Term} {n : Bool} {q : Quant} {c : Connective}

/-- What the pass makes of a formula inside a scope. -/
structure Separates (I : Interpretation D) (scope : List String) (names : Names) (t : Term) (names' : Names)
    (t' : Term) : Prop where
  recast : Recast I names t names' t'
  free : ∀ z, t.occursFree z = true → t'.occursFree z = true
  nodup : t'.formulaBinders.Nodup
  outside : ∀ z ∈ t'.formulaBinders, z ∉ scope
  kept : ∀ z, names.Issued z → z ∉ scope → (z ∈ t'.binderOccurrences ↔ t.keepsBinder z = true)

/-- What the pass makes of the members of a free clause, where earlier ones have the binders `seen`. -/
structure SeparatesAll (I : Interpretation D) (scope seen : List String) (names : Names) (ts : List Term)
    (names' : Names) (ts' : List Term) : Prop where
  recast : ∀ n, Recast I names (.freeClause n ts) names' (.freeClause n ts')
  free : ∀ z, occursFreeAny z ts = true → occursFreeAny z ts' = true
  nodup : (formulaBindersAll ts').Nodup
  outside : ∀ z ∈ formulaBindersAll ts', z ∉ scope
  unseen : ∀ z ∈ binderOccurrencesAll ts', z ∉ seen
  kept : ∀ z, names.Issued z → z ∉ scope →
    (z ∈ binderOccurrencesAll ts' ↔ z ∉ seen ∧ firstKeepsBinder z ts = true)

/-- The pass separates the formula if the names in it and in scope are issued. -/
def Separable (I : Interpretation D) (scope : List String) (names : Names) (t : Term) : Prop :=
  AllIssued names t → (∀ z ∈ scope, names.Issued z) →
    Separates I scope names t (apartIn scope names t).2 (apartIn scope names t).1

/-- The pass separates the members if the names in them, in scope and seen before are issued. -/
def SeparableAll (I : Interpretation D) (scope seen : List String) (names : Names) (ts : List Term) : Prop :=
  (∀ t ∈ ts, AllIssued names t) → (∀ z ∈ scope, names.Issued z) → (∀ z ∈ seen, names.Issued z) →
    SeparatesAll I scope seen names ts (apartAll scope seen names ts).2 (apartAll scope seen names ts).1

theorem mem_sharedNames : z ∈ sharedNames t.binders seen ↔ z ∈ t.binderOccurrences ∧ z ∈ seen := by
  simp [sharedNames, binders]

theorem separable_conn {both : (Term × Term) × Names} {left : Term × Names}
    (hboth : names.freshenBoth (sharedNames l.binders r.binders) l r = both)
    (hleft : apartIn scope both.2 both.1.1 = left) (ihl : Separable I scope both.2 both.1.1)
    (ihr : Separable I scope left.2 both.1.2) : Separable I scope names (.conn n c l r) := by
  intro h hscope
  have hli : AllIssued names l := fun z hz => h z (List.mem_append_left _ hz)
  have hri : AllIssued names r := fun z hz => h z (List.mem_append_right _ hz)
  have hshared : ∀ z, z ∈ sharedNames l.binders r.binders ↔ z ∈ l.binderOccurrences ∧ z ∈ r.binderOccurrences :=
    fun z => by rw [mem_sharedNames, binders, Distinct.mem_ofList]
  have hrecast := recast_freshenBoth (I := I) hli hri _ fun z hzl hzr => (hshared z).mpr ⟨hzl, hzr⟩
  have hfresh := refreshed_freshenBoth hli hri (.refl names) (sharedNames l.binders r.binders)
  rw [hboth] at hrecast hfresh
  obtain ⟨hl, hr, hdisj⟩ := hrecast
  obtain ⟨hfl, hfr⟩ := hfresh
  have hl' := ihl hl.issued fun z hz => (hscope z hz).later hl.later
  rw [hleft] at hl'
  have hlater := hl.later.trans hl'.recast.later
  have hr' := ihr (fun z hz => (hr.issued z hz).later hl'.recast.later) fun z hz => (hscope z hz).later hlater
  have hapart := hl'.recast.binders_apart hr'.recast hr.issued fun z hzl hzr => absurd hzr (hdisj z hzl)
  rw [apartIn]
  simp only [hboth, hleft]
  have hleft' := (hl.trans hl'.recast).widen (.refl _) hr'.recast.later
  have hright' := (hr.widen (.refl _) hl'.recast.later).trans hr'.recast
  refine ⟨hleft'.conn hright' n c, fun z hz => ?_, ?_, fun z hz => ?_, fun z hz hzs => ?_⟩
  · rw [occursFree, Bool.or_eq_true] at hz ⊢
    exact hz.imp (fun hz => hl'.free z (hfl.free.mpr hz)) fun hz => hr'.free z (hfr.free.mpr hz)
  · rw [formulaBinders, List.nodup_append']
    refine ⟨hl'.nodup, hr'.nodup, fun z hzl hzr => ?_⟩
    exact hapart z (mem_binderOccurrences_of_mem_formulaBinders hzl) (mem_binderOccurrences_of_mem_formulaBinders hzr)
  · rw [formulaBinders, List.mem_append] at hz
    exact hz.elim (hl'.outside z) (hr'.outside z)
  · -- `z` was renamed on both sides if both bind it, and on neither side otherwise
    rw [binderOccurrences, List.mem_append, hl'.kept z (hz.later hl.later) hzs, hr'.kept z (hz.later hlater) hzs,
      hfl.keepsBinder hz, hfr.keepsBinder hz, ← or_and_right, hshared, keepsBinder_conn]

/-- Leaving the scope keeps the free variables, and does not touch the binders that are not in scope. -/
theorem leaveScope_keeps (h : AllIssued names (.quant n q x t)) (hscope : ∀ y ∈ scope, names.Issued y) {x' : String}
    (heq : names.leaveScope scope (scope.length + 1) x t = ((x', t'), names')) :
    (∀ z, (quant n q x t).occursFree z = true → (quant n q x' t').occursFree z = true) ∧
      ∀ z, names.Issued z → z ∉ scope → (z = x' ↔ z = x) ∧ t'.keepsBinder z = t.keepsBinder z := by
  rw [leaveScope_eq hscope] at heq
  split at heq
  · next hx =>
    cases heq
    refine ⟨fun z hz => ?_, fun z hz hzs => ?_⟩
    · rw [← renameBound_quant_self, occursFree_renameBound_iff (not_mem_of_allIssued h)]
      exact hz
    · have hnew : z ≠ names.freshVariable.1 := by
        rintro rfl
        exact names.not_issued_freshVariable hz
      have hold : z ≠ x := by
        rintro rfl
        exact hzs (by simpa using hx)
      exact ⟨iff_of_false hnew hold, keepsBinder_renameAll hold hnew t⟩
  · cases heq
    exact ⟨fun _ => id, fun _ _ _ => ⟨Iff.rfl, rfl⟩⟩

theorem separable_quant {x' : String}
    (heq : names.leaveScope scope (scope.length + 1) x t = ((x', t'), names'))
    (ih : Separable I (x' :: scope) names' t') : Separable I scope names (.quant n q x t) := by
  intro h hscope
  obtain ⟨hnew, hbound⟩ := recast_leaveScope (I := I) h hscope heq
  obtain ⟨hfree, hkeeps⟩ := leaveScope_keeps h hscope heq
  have hbinder : names'.Issued x' := hbound.issued _ List.mem_cons_self
  have hbody := ih (fun z hz => hbound.issued z (List.mem_cons_of_mem _ hz)) <| by
    intro z hz
    rcases List.mem_cons.mp hz with rfl | hz
    · exact hbinder
    · exact (hscope z hz).later hbound.later
  rw [apartIn]
  simp only [heq]
  refine ⟨hbound.trans (hbody.recast.quant n q (hbinder.later hbody.recast.later)), fun z hz => ?_, ?_, fun z hz => ?_,
    fun z hz hzs => ?_⟩
  · obtain ⟨hzx, hz⟩ := occursFree_quant.mp (hfree z hz)
    exact occursFree_quant.mpr ⟨hzx, hbody.free z hz⟩
  · rw [formulaBinders, List.nodup_cons]
    exact ⟨fun hmem => hbody.outside _ hmem List.mem_cons_self, hbody.nodup⟩
  · rw [formulaBinders, List.mem_cons] at hz
    rcases hz with rfl | hz
    · exact hnew
    · exact fun hzs => hbody.outside z hz (List.mem_cons_of_mem _ hzs)
  · obtain ⟨hzx, hkeeps⟩ := hkeeps z hz hzs
    rw [binderOccurrences, List.mem_cons, keepsBinder, Bool.or_eq_true, beq_iff_eq, hzx]
    -- a binder `z` outside of the scope stays; below any other one, `z` is still outside of the scope
    by_cases hx : z = x
    · exact iff_of_true (.inl hx) (.inl hx)
    · have hzs' : z ∉ x' :: scope := by
        rw [List.mem_cons, hzx]
        exact not_or.mpr ⟨hx, hzs⟩
      rw [hbody.kept z (hz.later hbound.later) hzs', hkeeps]

theorem separable_literal (hconn : ∀ n c l r, t = .conn n c l r → False)
    (hquant : ∀ n q x u, t = .quant n q x u → False) (hfree : ∀ n ts, t = .freeClause n ts → False) :
    Separable I scope names t := by
  intro h _
  have hself : apartIn scope names t = (t, names) := by rw [apartIn] <;> assumption
  have hnone : t.formulaBinders = [] ∧ ∀ z, t.keepsBinder z = t.binderOccurrences.contains z := by
    cases t with
    | conn n c l r => exact absurd rfl (hconn n c l r)
    | quant n q x u => exact absurd rfl (hquant n q x u)
    | freeClause n ts => exact absurd rfl (hfree n ts)
    | _ => exact ⟨rfl, fun _ => rfl⟩
  rw [hself]
  refine ⟨.refl h, fun _ => id, ?_, ?_, fun z _ _ => ?_⟩
  · rw [hnone.1]
    exact .nil
  · rw [hnone.1]
    exact List.forall_mem_nil _
  · rw [hnone.2, List.contains_iff_mem]

theorem separable_freeClause (ih : SeparableAll I scope [] names ts) : Separable I scope names (.freeClause n ts) := by
  intro h hscope
  have hall := ih (fun t ht z hz => h z (by rw [variableNames, mem_variableNamesAll]; exact ⟨t, ht, hz⟩)) hscope
    (List.forall_mem_nil _)
  rw [apartIn]
  refine ⟨hall.recast n, hall.free, hall.nodup, hall.outside, fun z hz hzs => ?_⟩
  rw [binderOccurrences, hall.kept z hz hzs, keepsBinder]
  exact and_iff_right List.not_mem_nil

theorem separableAll_nil (seen : List String) : SeparableAll I scope seen names [] := by
  intro _ _ _
  have hissued : ∀ n, AllIssued names (.freeClause n []) := by
    intro n z hz
    cases hz
  rw [apartAll]
  exact ⟨fun n => .refl (hissued n), fun _ => id, .nil, List.forall_mem_nil _, List.forall_mem_nil _,
    fun z _ _ => iff_of_false List.not_mem_nil fun h => Bool.false_ne_true h.2⟩

theorem separableAll_cons {seen' : List String} {own first : Term × Names}
    (hown : names.freshen (sharedNames t.binders seen) t = own) (hfirst : apartIn scope own.2 own.1 = first)
    (hseen : Distinct.union (· == ·) seen own.1.binders = seen') (ih : Separable I scope own.2 own.1)
    (ihts : SeparableAll I scope seen' first.2 ts) : SeparableAll I scope seen names (t :: ts) := by
  intro h hscope hseenIssued
  obtain ⟨ht, hts⟩ := List.forall_mem_cons.mp h
  have hrecast : Recast I names t _ _ := recast_freshen ht (sharedNames t.binders seen)
  have hfresh := refreshed_freshen ht (.refl names) (sharedNames t.binders seen)
  rw [hown] at hrecast hfresh
  have hbody := ih hrecast.issued fun z hz => (hscope z hz).later hrecast.later
  rw [hfirst] at hbody
  have hlater := hrecast.later.trans hbody.recast.later
  -- what was seen before, and the binders of the first member before the pass
  have hseen' : ∀ z, z ∈ seen' ↔ z ∈ seen ∨ z ∈ own.1.binderOccurrences := fun z => by
    simp [← hseen, binders]
  have hown' : ∀ z, names.Issued z → (z ∈ own.1.binderOccurrences ↔ z ∈ t.binderOccurrences ∧ z ∉ seen) := by
    intro z hz
    rw [hfresh.mem_binderOccurrences hz, mem_sharedNames, not_and]
    exact and_congr_right fun hzt => ⟨fun h => h hzt, fun h _ => h⟩
  have hrest := ihts (fun u hu z hz => (hts u hu z hz).later hlater) (fun z hz => (hscope z hz).later hlater) <| by
    intro z hz
    rcases (hseen' z).mp hz with hz | hz
    · exact (hseenIssued z hz).later hlater
    · exact (hrecast.issued z (mem_variableNames.mpr (.inr hz))).later hbody.recast.later
  have hapart : ∀ z ∈ first.1.binderOccurrences, z ∉ binderOccurrencesAll (apartAll scope seen' first.2 ts).1 := by
    refine hbody.recast.binders_apart (hrest.recast false) (fun z hz => ?_) fun z hz _ hzr => ?_
    · rw [variableNames, mem_variableNamesAll] at hz
      obtain ⟨u, hu, hz⟩ := hz
      exact (hts u hu z hz).later hrecast.later
    · exact hrest.unseen z hzr ((hseen' z).mpr (.inr hz))
  rw [apartAll]
  simp only [hown, hfirst, hseen]
  refine ⟨fun n => ((hrecast.trans hbody.recast).widen (.refl _) (hrest.recast n).later).cons fun m => ?_,
    fun z hz => ?_, ?_, fun z hz => ?_, fun z hz => ?_, fun z hz hzs => ?_⟩
  · exact (hrest.recast m).widen hlater (.refl _)
  · rw [occursFreeAny, Bool.or_eq_true] at hz ⊢
    exact hz.imp (fun hz => hbody.free z (hfresh.free.mpr hz)) (hrest.free z)
  · rw [formulaBindersAll, List.nodup_append']
    refine ⟨hbody.nodup, hrest.nodup, fun z hzl hzr => ?_⟩
    exact hapart z (mem_binderOccurrences_of_mem_formulaBinders hzl)
      (mem_binderOccurrences_of_mem_formulaBinders (t := .freeClause false _) hzr)
  · rw [formulaBindersAll, List.mem_append] at hz
    exact hz.elim (hbody.outside z) (hrest.outside z)
  · rw [binderOccurrencesAll, List.mem_append] at hz
    intro hzs
    rcases hz with hz | hz
    · have hzi := hseenIssued z hzs
      rcases hbody.recast.binders z hz with hz | hz
      · exact ((hown' z hzi).mp hz).2 hzs
      · exact hz (hzi.later hrecast.later)
    · exact hrest.unseen z hz ((hseen' z).mpr (.inl hzs))
  · rw [binderOccurrencesAll, List.mem_append, hbody.kept z (hz.later hrecast.later) hzs,
      hrest.kept z (hz.later hlater) hzs, hfresh.keepsBinder hz, hseen', hown' z hz, mem_sharedNames, firstKeepsBinder]
    -- if this member binds `z`, it is the last one that may keep it
    by_cases hbinds : z ∈ t.binderOccurrences
    · rw [if_pos (List.contains_iff_mem.mpr hbinds)]
      tauto
    · rw [if_neg (mt List.contains_iff_mem.mp hbinds)]
      have hkeeps : ¬ t.keepsBinder z = true := mt mem_of_keepsBinder hbinds
      tauto

/-- The pass separates every formula whose names are issued. -/
theorem separable (scope : List String) (names : Names) (t : Term) : Separable I scope names t := by
  refine apartIn.induct (Separable I) (SeparableAll I) ?_ ?_ ?_ ?_ ?_ ?_ scope names t
  · intro scope names n c l r _ _ ihl _ ihr
    exact separable_conn rfl rfl ihl ihr
  · intro scope names n q x t _ ih
    exact separable_quant rfl ih
  · intro scope names n ts ih
    exact separable_freeClause ih
  · intro scope names t hconn hquant hfree
    exact separable_literal hconn hquant hfree
  · intro scope seen names
    exact separableAll_nil seen
  · intro scope seen names t ts _ _ ih _ ihts
    exact separableAll_cons rfl rfl rfl ih ihts

end Pass

end Clausal
