import Mathlib.Data.List.Forall2
import Clausal.Proofs.ClauseForm.Renaming

/-!
# Clausal.Proofs.ClauseForm.Nameless — formulas up to the names of their binders

* `Nameless`: terms whose bound variables count the binders between them and their own.
* `Term.nameless scope t`: `t` without the names that it binds or that `scope` binds, innermost first.
* `Term.AlphaEquiv`: the same tree with the same flags, in which only bound names differ.  Such terms have the same free
  variables in the same order (`AlphaEquiv.freeVars_eq`).
* `alphaEquiv_renameBound`: a name that is not in the term may be given to a binder, and to all binders of its name at
  once.
-/

namespace Clausal

/-- A term without bound names.  A bound variable has the number of binders between it and its own. -/
inductive Nameless where
  | lit (neg : Bool) (name : String)
  | free (neg : Bool) (name : String)
  | bound (neg : Bool) (distance : Nat)
  | rel (neg : Bool) (name : String) (args : List Nameless)
  | fn (neg : Bool) (name : String) (arg : Nameless)
  | quant (neg : Bool) (kind : Quant) (body : Nameless)
  | conn (neg : Bool) (op : Connective) (left right : Nameless)
  | freeClause (neg : Bool) (members : List Nameless)

mutual

/-- The names of the free variables from left to right, with repetitions. -/
def Nameless.freeNames : Nameless → List String
  | .lit .. | .bound .. => []
  | .free _ x => [x]
  | .rel _ _ ts | .freeClause _ ts => freeNamesAll ts
  | .fn _ _ t | .quant _ _ t => freeNames t
  | .conn _ _ l r => freeNames l ++ freeNames r

/-- The names of the free variables of a list. -/
def Nameless.freeNamesAll : List Nameless → List String
  | [] => []
  | t :: ts => freeNames t ++ freeNamesAll ts

end

namespace Term

/-! ## Forgetting bound names -/

section Forget

/-- What an occurrence of `x` refers to, where `scope` holds the enclosing binders, innermost first. -/
def refer (scope : List String) (neg : Bool) (x : String) : Nameless :=
  match scope.idxOf? x with
  | some i => .bound neg i
  | none => .free neg x

mutual

/-- The term without the names that it binds or that `scope` binds. -/
def nameless (scope : List String) : Term → Nameless
  | .lit n a => .lit n a
  | .var n x => refer scope n x
  | .rel n a ts => .rel n a (namelessAll scope ts)
  | .fn n a t => .fn n a (nameless scope t)
  | .quant n q x t => .quant n q (nameless (x :: scope) t)
  | .conn n c l r => .conn n c (nameless scope l) (nameless scope r)
  | .freeClause n ts => .freeClause n (namelessAll scope ts)

/-- `nameless` member by member. -/
def namelessAll (scope : List String) : List Term → List Nameless
  | [] => []
  | t :: ts => nameless scope t :: namelessAll scope ts

end

@[simp] theorem namelessAll_eq_map (scope : List String) (ts : List Term) :
    namelessAll scope ts = ts.map (nameless scope) := by
  induction ts with
  | nil => rfl
  | cons t ts ih => rw [namelessAll, ih, List.map_cons]

/-- The terms differ in the names of their binders only, whatever binders enclose them. -/
def AlphaEquiv (t u : Term) : Prop :=
  ∀ scope : List String, t.nameless scope = u.nameless scope

variable {t u w : Term}

theorem AlphaEquiv.refl (t : Term) : t.AlphaEquiv t := fun _ => rfl

theorem AlphaEquiv.trans (h : t.AlphaEquiv u) (h' : u.AlphaEquiv w) : t.AlphaEquiv w :=
  fun scope => (h scope).trans (h' scope)

theorem AlphaEquiv.quant (h : t.AlphaEquiv u) (n : Bool) (q : Quant) (x : String) :
    (Term.quant n q x t).AlphaEquiv (.quant n q x u) :=
  fun scope => congrArg (Nameless.quant n q) (h (x :: scope))

theorem AlphaEquiv.conn {l r l' r' : Term} (hl : l.AlphaEquiv l') (hr : r.AlphaEquiv r') (n : Bool) (c : Connective) :
    (Term.conn n c l r).AlphaEquiv (.conn n c l' r') :=
  fun scope => congrArg₂ (Nameless.conn n c) (hl scope) (hr scope)

theorem AlphaEquiv.freeClause {ts us : List Term} (h : List.Forall₂ AlphaEquiv ts us) (n : Bool) :
    (Term.freeClause n ts).AlphaEquiv (.freeClause n us) := by
  intro scope
  rw [nameless, nameless]
  congr 1
  induction h with
  | nil => rfl
  | cons ht _ ih => rw [namelessAll, namelessAll, ht scope, ih]

theorem freeNames_nameless (scope : List String) (t : Term) :
    (t.nameless scope).freeNames = t.freeOccurrences scope := by
  induction t using induct generalizing scope with
  | lit n a => rfl
  | var n x =>
    rw [nameless, refer, freeOccurrences]
    by_cases hx : x ∈ scope
    · obtain ⟨i, hi⟩ := Option.ne_none_iff_exists'.mp fun hnone => List.idxOf?_eq_none_iff.mp hnone hx
      simp [hi, hx, Nameless.freeNames]
    · simp [List.idxOf?_eq_none_iff.mpr hx, hx, Nameless.freeNames]
  | rel n a ts ih | freeClause n ts ih =>
    rw [nameless, Nameless.freeNames, freeOccurrences]
    induction ts with
    | nil => rfl
    | cons t ts ihts =>
      obtain ⟨ht, hts⟩ := List.forall_mem_cons.mp ih
      rw [namelessAll, Nameless.freeNamesAll, freeOccurrencesAll, ht, ihts hts]
  | fn n a t ih => exact ih scope
  | quant n q x t ih => exact ih (x :: scope)
  | conn n c l r ihl ihr => rw [nameless, Nameless.freeNames, ihl, ihr, freeOccurrences]

/-- The free variables and their order do not depend on the names of binders. -/
theorem AlphaEquiv.freeVars_eq (h : t.AlphaEquiv u) : t.freeVars = u.freeVars := by
  rw [freeVars, freeVars, ← freeNames_nameless, ← freeNames_nameless, h]

end Forget

/-! ## Renaming -/

section Rename

variable {x y z w : String} {t : Term} {scope scope' : List String}

theorem rename_inj (hz : z ≠ y) (hw : w ≠ y) : rename x y z = rename x y w ↔ z = w := by
  unfold rename
  grind

/-- Once `x` is renamed to `y`, the names refer under `scope'` to what they referred to under `scope`. -/
def Tracks (x y : String) (scope scope' : List String) : Prop :=
  ∀ z, z ≠ y → scope'.idxOf? (rename x y z) = scope.idxOf? z ∧ (z ∉ scope → rename x y z = z)

/-- A binder and all it binds take the new name. -/
theorem tracks_cons_self (x y : String) (scope : List String) : Tracks x y (x :: scope) (y :: scope) := by
  intro z hz
  rw [List.idxOf?_cons, List.idxOf?_cons]
  by_cases hxz : x = z
  · subst hxz
    simp [rename_self]
  · simp [rename_of_ne hxz, hxz, Ne.symm hz]

/-- Binders further in are renamed alike. -/
theorem Tracks.cons (h : Tracks x y scope scope') (hw : w ≠ y) : Tracks x y (w :: scope) (rename x y w :: scope') := by
  intro z hz
  obtain ⟨hplace, hfree⟩ := h z hz
  rw [List.idxOf?_cons, List.idxOf?_cons]
  by_cases hwz : w = z
  · subst hwz
    simp
  · have hne : rename x y w ≠ rename x y z := mt (rename_inj hw hz).mp hwz
    simp only [beq_iff_eq, hne, hwz, hplace, if_false, true_and, List.mem_cons, not_or]
    exact fun hout => hfree hout.2

theorem nameless_renameAll (hy : y ∉ t.variableNames) (h : Tracks x y scope scope') :
    (t.renameAll x y).nameless scope' = t.nameless scope := by
  induction t using induct generalizing scope scope' with
  | lit n a => rfl
  | var n z =>
    obtain ⟨hplace, hfree⟩ := h z fun hzy => hy (hzy ▸ List.mem_singleton_self z)
    change refer scope' n (rename x y z) = refer scope n z
    rw [refer, hplace, refer]
    split
    · rfl
    · next hnone => rw [hfree (List.idxOf?_eq_none_iff.mp hnone)]
  | rel n a ts ih | freeClause n ts ih =>
    rw [variableNames, mem_variableNamesAll] at hy
    rw [renameAll, nameless, nameless, renameAllIn_eq_map, namelessAll_eq_map, namelessAll_eq_map, List.map_map]
    congr 1
    exact List.map_congr_left fun t ht => ih t ht (fun hyt => hy ⟨t, ht, hyt⟩) h
  | fn n a t ih => rw [renameAll, nameless, ih hy h, nameless]
  | quant n q z t ih =>
    rw [variableNames, List.mem_cons, not_or] at hy
    exact congrArg (Nameless.quant n q) (ih hy.2 (h.cons (Ne.symm hy.1)))
  | conn n c l r ihl ihr =>
    rw [variableNames, List.mem_append, not_or] at hy
    rw [renameAll, nameless, ihl hy.1 h, ihr hy.2 h, nameless]

/-- New names for binders change nothing else. -/
theorem alphaEquiv_renameBound (hy : y ∉ t.variableNames) (x : String) : (t.renameBound x y).AlphaEquiv t := by
  induction t using induct with
  | lit n a | var n z => exact .refl _
  | rel n a ts ih | freeClause n ts ih =>
    rw [variableNames, mem_variableNamesAll] at hy
    intro scope
    rw [renameBound, nameless, nameless, renameBoundIn_eq_map, namelessAll_eq_map, namelessAll_eq_map, List.map_map]
    congr 1
    exact List.map_congr_left fun t ht => ih t ht (fun hyt => hy ⟨t, ht, hyt⟩) scope
  | fn n a t ih => exact fun scope => congrArg (Nameless.fn n a) (ih hy scope)
  | quant n q z t ih =>
    rw [variableNames, List.mem_cons, not_or] at hy
    intro scope
    rw [renameBound]
    split
    · next hxz =>
      obtain rfl : x = z := by simpa using hxz
      exact congrArg (Nameless.quant n q) (nameless_renameAll hy.2 (tracks_cons_self x y scope))
    · exact congrArg (Nameless.quant n q) (ih hy.2 (z :: scope))
  | conn n c l r ihl ihr =>
    rw [variableNames, List.mem_append, not_or] at hy
    intro scope
    rw [renameBound, nameless, ihl hy.1, ihr hy.2, nameless]

end Rename

end Term

end Clausal
