import Clausal.Proofs.Subst.Resolved
import Clausal.Proofs.Unify.Evaluation

/-!
# Clausal.Proofs.Subst.Restriction — the bindings of some variables alone

A restriction binds the given variables to what they stand for, so it has no chains left to follow, and a term with no
other variables stands for the same thing under it.

* `Subst.keep`: one turn of the loop of `restrict`.
* `get?_restrict`, `toList_restrict`: what a restriction binds, and in which order.
* `Resolved`: no binding mentions a bound variable.  Such a substitution is acyclic (`Resolved.acyclic`), and a bound
  variable stands for its binding (`Resolved.value_eq`).
* `apply_restrict`: a restriction to the variables of a term makes no difference to it.
-/

namespace Clausal.Subst

open Relation

variable {s r : Subst} {xs : List String} {x y : String} {t : Term}

theorem contains_eq_true : s.contains x = true ↔ ∃ b, s.get? x = some b := by
  rw [contains, Option.isSome_iff_exists]

theorem contains_eq_false : s.contains x = false ↔ s.get? x = none := by
  rw [contains, Option.isSome_eq_false_iff, Option.isNone_iff_eq_none]

/-! ## What is bound -/

section Bindings

/-- The bindings `r`, and that of `x` under `s` if it has one. -/
def keep (s r : Subst) (x : String) : Subst :=
  if s.contains x then r.insert x (s.value x) else r

theorem restrict_eq_foldl (s : Subst) (xs : List String) : s.restrict xs = xs.foldl s.keep empty := rfl

theorem get?_keep (s r : Subst) (x y : String) :
    (s.keep r x).get? y = if x = y ∧ s.contains y = true then some (s.value y) else r.get? y := by
  unfold keep
  by_cases hxy : x = y
  · subst hxy
    cases s.contains x <;> simp [get?_insert]
  · cases s.contains x <;> simp [get?_insert, hxy]

theorem get?_foldl_keep (s r : Subst) (xs : List String) (y : String) :
    (xs.foldl s.keep r).get? y = if y ∈ xs ∧ s.contains y = true then some (s.value y) else r.get? y := by
  induction xs generalizing r with
  | nil => simp
  | cons x xs ih =>
    simp only [List.foldl_cons, ih, get?_keep, List.mem_cons]
    by_cases hxy : x = y
    · cases s.contains y <;> simp [hxy]
    · simp [hxy, Ne.symm hxy]

/-- A restriction binds the given variables that `s` binds, each to what it stands for. -/
theorem get?_restrict (s : Subst) (xs : List String) (y : String) :
    (s.restrict xs).get? y = if y ∈ xs ∧ s.contains y = true then some (s.value y) else none := by
  rw [restrict_eq_foldl, get?_foldl_keep, get?_empty]

theorem get?_restrict_eq_none (h : s.get? y = none) (xs : List String) : (s.restrict xs).get? y = none := by
  rw [get?_restrict, contains_eq_false.mpr h]
  simp

theorem toList_foldl_keep (s : Subst) (hxs : xs.Nodup) (hr : ∀ x ∈ xs, r.get? x = none) :
    (xs.foldl s.keep r).toList = r.toList ++ (xs.filter s.contains).map fun x => (x, s.value x) := by
  induction xs generalizing r with
  | nil => simp
  | cons x xs ih =>
    obtain ⟨hx, hxs⟩ := List.nodup_cons.mp hxs
    obtain ⟨hrx, hr⟩ := List.forall_mem_cons.mp hr
    have hkept : ∀ y ∈ xs, (s.keep r x).get? y = none := by
      intro y hy
      have hxy : x ≠ y := fun heq => hx (heq ▸ hy)
      rw [get?_keep, if_neg fun h => hxy h.1, hr y hy]
    rw [List.foldl_cons, ih hxs hkept, keep]
    by_cases hc : s.contains x = true
    · rw [if_pos hc, Unify.toList_insert hrx, List.filter_cons_of_pos hc, List.map_cons, List.append_assoc,
        List.singleton_append]
    · rw [if_neg hc, List.filter_cons_of_neg hc]

/-- The bindings of a restriction stand in the order of the variables it was given. -/
theorem toList_restrict (s : Subst) (hxs : xs.Nodup) :
    (s.restrict xs).toList = (xs.filter s.contains).map fun x => (x, s.value x) := by
  rw [restrict_eq_foldl, toList_foldl_keep s hxs fun x _ => get?_empty x]
  rfl

end Bindings

/-! ## Bindings without chains -/

section Resolved

/-- No binding mentions a bound variable. -/
def Resolved (s : Subst) : Prop :=
  ∀ x b, s.get? x = some b → ∀ y, b.mentions y = true → s.get? y = none

theorem Resolved.acyclic (h : s.Resolved) : s.Acyclic := by
  intro x hcycle
  obtain ⟨y, ⟨b, hb, hy⟩, hyx⟩ := TransGen.head'_iff.mp hcycle
  obtain rfl := eq_of_reaches_unbound (h x b hb y hy) hyx
  rw [h y b hb y hy] at hb
  cases hb

theorem Resolved.value_eq (h : s.Resolved) {b : Term} (hb : s.get? x = some b) : s.value x = b := by
  rw [value_of_get? h.acyclic hb, apply_of_unbound (h x b hb)]

theorem resolved_restrict (hs : s.Acyclic) (xs : List String) : (s.restrict xs).Resolved := by
  intro x b hb y hy
  rw [get?_restrict] at hb
  split at hb
  · cases hb
    exact get?_restrict_eq_none (unbound_of_mentions_value hs hy) xs
  · cases hb

/-- A variable that the restriction was given stands for the same thing under it. -/
theorem value_restrict (hs : s.Acyclic) (hx : x ∈ xs) : (s.restrict xs).value x = s.value x := by
  cases hb : s.get? x with
  | none => rw [value_of_unbound hb, value_of_unbound (get?_restrict_eq_none hb xs)]
  | some b =>
    refine (resolved_restrict hs xs).value_eq ?_
    rw [get?_restrict, if_pos ⟨hx, contains_eq_true.mpr ⟨b, hb⟩⟩]

/-- A restriction to the variables of a term makes no difference to it. -/
theorem apply_restrict (hs : s.Acyclic) (h : ∀ x, t.mentions x = true → x ∈ xs) :
    (s.restrict xs).apply t = s.apply t := by
  rw [apply_eq_mapVars, apply_eq_mapVars]
  exact Term.mapVars_congr fun x hx => value_restrict hs (h x hx)

end Resolved

end Clausal.Subst
