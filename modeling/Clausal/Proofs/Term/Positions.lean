import Mathlib.Data.List.Forall2
import Mathlib.Data.List.Lex
import Mathlib.Order.Bounds.Defs
import Clausal.Proofs.Term.FreeVars

/-!
# Clausal.Proofs.Term.Positions — where variables stand free

A position in a term is the list of the numbers of the children on the way down from the root, counted from zero.  A
walk from left to right meets the positions in lexicographic order.

* `Term.part?`: the part of a term at a position; `Term.FreeAt`: a variable stands at a position, and no quantifier on
  the way down binds it.  Neither refers to a test or to a list of free variables.
* `Term.freePositions`: the walk that carries the enclosing binders along, with the position of each free occurrence;
  `map_snd_freePositions`, `pairwise_freePositions` and `mem_freePositions` say that it has the names that
  `freeOccurrences` lists, goes from left to right, and meets just the free occurrences.
* `occursFree_iff_exists_freeAt`, `exists_first_positions`: the test finds a free occurrence wherever there is one, and
  the list of free variables goes by the positions of the first ones.
-/

namespace Clausal.Term

variable {t : Term} {x : String} {p : List Nat} {bound : List String} {ts : List Term} {i : Nat}

/-! ## Parts below the root -/

section Children

/-- The variable that the root binds. -/
def binder? : Term → Option String
  | .quant _ _ x _ => some x
  | _ => none

/-- Induction over terms, one step for all that have children. -/
theorem induct_children {P : Term → Prop} (var : ∀ n x, P (.var n x))
    (node : ∀ t, (∀ n x, t ≠ .var n x) → (∀ u ∈ t.children, P u) → P t) (t : Term) : P t := by
  induction t using induct with
  | lit n a => exact node _ nofun nofun
  | var n x => exact var n x
  | rel n a ts ih | freeClause n ts ih => exact node _ nofun ih
  | fn n a t ih | quant n q x t ih => exact node _ nofun (List.forall_mem_singleton.mpr ih)
  | conn n c l r ihl ihr =>
    exact node _ nofun (List.forall_mem_cons.mpr ⟨ihl, List.forall_mem_singleton.mpr ihr⟩)

/-- The part of a term at a position. -/
def part? : Term → List Nat → Option Term
  | t, [] => some t
  | t, i :: p => t.children[i]?.bind fun u => part? u p

/-- An occurrence of `x` stands at the position, and no quantifier on the way down binds `x`. -/
structure FreeAt (t : Term) (x : String) (p : List Nat) : Prop where
  occurs : ∃ n, t.part? p = some (.var n x)
  unbound : ∀ q u, q <+: p → t.part? q = some u → u.binder? ≠ some x

theorem freeAt_nil : t.FreeAt x [] ↔ ∃ n, t = .var n x := by
  constructor
  · rintro ⟨⟨n, h⟩, -⟩
    exact ⟨n, Option.some.inj h⟩
  · rintro ⟨n, rfl⟩
    refine ⟨⟨n, rfl⟩, fun q u hq hu => ?_⟩
    obtain rfl := List.prefix_nil.mp hq
    obtain rfl := Option.some.inj hu
    nofun

/-- What is free in a child and not bound by the root is free. -/
theorem freeAt_cons : t.FreeAt x (i :: p) ↔ t.binder? ≠ some x ∧ ∃ u, t.children[i]? = some u ∧ u.FreeAt x p := by
  constructor
  · rintro ⟨⟨n, h⟩, hunbound⟩
    obtain ⟨u, hu, hp⟩ := Option.bind_eq_some_iff.mp h
    refine ⟨hunbound [] t List.nil_prefix rfl, u, hu, ⟨n, hp⟩, fun q w hq hw => ?_⟩
    have hpart : t.part? (i :: q) = some w := Option.bind_eq_some_iff.mpr ⟨u, hu, hw⟩
    exact hunbound (i :: q) w (List.cons_prefix_cons.mpr ⟨rfl, hq⟩) hpart
  · rintro ⟨hroot, u, hu, ⟨n, hp⟩, hunbound⟩
    refine ⟨⟨n, Option.bind_eq_some_iff.mpr ⟨u, hu, hp⟩⟩, fun q w hq hw => ?_⟩
    cases q with
    | nil =>
      obtain rfl := Option.some.inj hw
      exact hroot
    | cons j q =>
      obtain ⟨rfl, htail⟩ := List.cons_prefix_cons.mp hq
      obtain ⟨u', hu', hw⟩ := Option.bind_eq_some_iff.mp hw
      obtain rfl := Option.some.inj (hu.symm.trans hu')
      exact hunbound q w htail hw

theorem freeAt_var {n : Bool} {y : String} : (Term.var n y).FreeAt x p ↔ p = [] ∧ y = x := by
  cases p with
  | nil => simp [freeAt_nil]
  | cons i p => simp [freeAt_cons, children]

end Children

/-! ## The walk -/

section Walk

/-- An occurrence in the child with the number `i`, seen from the root. -/
def inChild (i : Nat) (e : List Nat × String) : List Nat × String :=
  (i :: e.1, e.2)

mutual

/-- The free occurrences from left to right, with their positions; `bound` holds the enclosing binders. -/
def freePositions (bound : List String) : Term → List (List Nat × String)
  | .lit .. => []
  | .var _ x => if bound.contains x then [] else [([], x)]
  | .rel _ _ ts | .freeClause _ ts => freePositionsAll bound 0 ts
  | .fn _ _ t => (freePositions bound t).map (inChild 0)
  | .quant _ _ x t => (freePositions (x :: bound) t).map (inChild 0)
  | .conn _ _ l r => (freePositions bound l).map (inChild 0) ++ (freePositions bound r).map (inChild 1)

/-- The free occurrences in a list of terms, the first of which has the number `i`. -/
def freePositionsAll (bound : List String) (i : Nat) : List Term → List (List Nat × String)
  | [] => []
  | t :: ts => (freePositions bound t).map (inChild i) ++ freePositionsAll bound (i + 1) ts

end

/-- Below the root the walk goes through the children, with one more binder below a quantifier. -/
theorem freePositions_of_not_var (h : ∀ n x, t ≠ .var n x) (bound : List String) :
    t.freePositions bound = freePositionsAll (t.binder?.toList ++ bound) 0 t.children := by
  cases t with
  | lit n a | rel n a ts | freeClause n ts => rfl
  | var n x => exact absurd rfl (h n x)
  | fn n a t | quant n q x t => exact (List.append_nil _).symm
  | conn n c l r => exact congrArg ((l.freePositions bound).map (inChild 0) ++ ·) (List.append_nil _).symm

theorem mem_freePositionsAll : (p, x) ∈ freePositionsAll bound i ts ↔
    ∃ j q u, p = (i + j) :: q ∧ ts[j]? = some u ∧ (q, x) ∈ u.freePositions bound := by
  induction ts generalizing i with
  | nil => simp [freePositionsAll]
  | cons t ts ih =>
    rw [freePositionsAll, List.mem_append, List.mem_map, ih]
    constructor
    · rintro (⟨⟨q, y⟩, hmem, heq⟩ | ⟨j, q, u, rfl, hu, hmem⟩)
      · obtain ⟨rfl, rfl⟩ := Prod.mk.inj heq
        exact ⟨0, q, t, rfl, rfl, hmem⟩
      · exact ⟨j + 1, q, u, by rw [Nat.add_right_comm, Nat.add_assoc], hu, hmem⟩
    · rintro ⟨j, q, u, rfl, hu, hmem⟩
      cases j with
      | zero =>
        obtain rfl := Option.some.inj hu
        exact .inl ⟨(q, x), hmem, rfl⟩
      | succ j => exact .inr ⟨j, q, u, by rw [Nat.add_right_comm, Nat.add_assoc], hu, hmem⟩

/-- The walk meets the free occurrences that no enclosing binder captures, and no others. -/
theorem mem_freePositions : (p, x) ∈ t.freePositions bound ↔ x ∉ bound ∧ t.FreeAt x p := by
  induction t using induct_children generalizing bound p with
  | var n y =>
    rw [freeAt_var, freePositions]
    by_cases hy : y ∈ bound
    · rw [if_pos (by simpa using hy)]
      refine ⟨nofun, ?_⟩
      rintro ⟨hx, -, rfl⟩
      exact absurd hy hx
    · rw [if_neg (by simpa using hy), List.mem_singleton, Prod.mk.injEq]
      refine ⟨?_, fun h => ⟨h.2.1, h.2.2.symm⟩⟩
      rintro ⟨hp, rfl⟩
      exact ⟨hy, hp, rfl⟩
  | node t hnode ih =>
    have hscope : x ∉ t.binder?.toList ++ bound ↔ t.binder? ≠ some x ∧ x ∉ bound := by
      rw [List.mem_append, not_or, Option.mem_toList]
    rw [freePositions_of_not_var hnode, mem_freePositionsAll]
    constructor
    · rintro ⟨j, q, u, rfl, hu, hmem⟩
      obtain ⟨hx, hfree⟩ := (ih u (List.mem_of_getElem? hu)).mp hmem
      obtain ⟨hroot, hx⟩ := hscope.mp hx
      rw [Nat.zero_add]
      exact ⟨hx, freeAt_cons.mpr ⟨hroot, u, hu, hfree⟩⟩
    · rintro ⟨hx, hfree⟩
      cases p with
      | nil =>
        obtain ⟨n, rfl⟩ := freeAt_nil.mp hfree
        exact absurd rfl (hnode n x)
      | cons j q =>
        obtain ⟨hroot, u, hu, hfree⟩ := freeAt_cons.mp hfree
        refine ⟨j, q, u, by rw [Nat.zero_add], hu, ?_⟩
        exact (ih u (List.mem_of_getElem? hu)).mpr ⟨hscope.mpr ⟨hroot, hx⟩, hfree⟩

theorem pairwise_freePositionsAll (h : ∀ u ∈ ts, (u.freePositions bound).Pairwise fun a b => a.1 < b.1) (i : Nat) :
    (freePositionsAll bound i ts).Pairwise fun a b => a.1 < b.1 := by
  induction ts generalizing i with
  | nil => exact .nil
  | cons t ts ih =>
    obtain ⟨ht, hts⟩ := List.forall_mem_cons.mp h
    have hfirst : ((t.freePositions bound).map (inChild i)).Pairwise fun a b => a.1 < b.1 :=
      ht.map _ fun a b hab => List.cons_lt_cons_iff.mpr (.inr ⟨rfl, hab⟩)
    rw [freePositionsAll, List.pairwise_append]
    refine ⟨hfirst, ih hts (i + 1), ?_⟩
    -- what comes from `t` starts with `i`, the rest with a larger number
    rintro a ha ⟨q, y⟩ hb
    obtain ⟨e, -, rfl⟩ := List.mem_map.mp ha
    obtain ⟨j, q', -, rfl, -⟩ := mem_freePositionsAll.mp hb
    exact List.cons_lt_cons_iff.mpr (.inl (by omega))

/-- The walk goes from left to right. -/
theorem pairwise_freePositions (bound : List String) (t : Term) :
    (t.freePositions bound).Pairwise fun a b => a.1 < b.1 := by
  induction t using induct_children generalizing bound with
  | var n x =>
    rw [freePositions]
    split
    · exact .nil
    · exact List.pairwise_singleton _ _
  | node t hnode ih =>
    rw [freePositions_of_not_var hnode]
    exact pairwise_freePositionsAll (fun u hu => ih u hu _) 0

theorem map_snd_inChild (i : Nat) (es : List (List Nat × String)) :
    (es.map (inChild i)).map Prod.snd = es.map Prod.snd :=
  List.map_map

theorem map_snd_freePositionsAll (h : ∀ u ∈ ts, (u.freePositions bound).map Prod.snd = u.freeOccurrences bound)
    (i : Nat) : (freePositionsAll bound i ts).map Prod.snd = freeOccurrencesAll bound ts := by
  induction ts generalizing i with
  | nil => rfl
  | cons t ts ih =>
    obtain ⟨ht, hts⟩ := List.forall_mem_cons.mp h
    rw [freePositionsAll, List.map_append, map_snd_inChild, ht, ih hts, freeOccurrencesAll]

/-- The names on the walk are the free occurrences. -/
theorem map_snd_freePositions (bound : List String) (t : Term) :
    (t.freePositions bound).map Prod.snd = t.freeOccurrences bound := by
  induction t using induct generalizing bound with
  | lit n a => rfl
  | var n x =>
    rw [freePositions, freeOccurrences]
    split <;> rfl
  | rel n a ts ih | freeClause n ts ih => exact map_snd_freePositionsAll (fun u hu => ih u hu bound) 0
  | fn n a t ih | quant n q x t ih => rw [freePositions, map_snd_inChild, ih, freeOccurrences]
  | conn n c l r ihl ihr =>
    rw [freePositions, List.map_append, map_snd_inChild, map_snd_inChild, ihl, ihr, freeOccurrences]

end Walk

/-! ## First free occurrences -/

section First

/-- A variable passes the test just if it stands free somewhere. -/
theorem occursFree_iff_exists_freeAt : t.occursFree x = true ↔ ∃ p, t.FreeAt x p := by
  have hmem : x ∈ (t.freePositions []).map Prod.snd ↔ ∃ p, (p, x) ∈ t.freePositions [] := by
    simp [List.mem_map]
  rw [map_snd_freePositions, mem_freeOccurrences] at hmem
  simpa [mem_freePositions] using hmem

/-- The free variables are listed by the positions of their first free occurrences. -/
theorem exists_first_positions (t : Term) :
    ∃ ps : List (List Nat), List.Forall₂ (fun x p => IsLeast {q | t.FreeAt x q} p) t.freeVars ps ∧
      ps.Pairwise (· < ·) := by
  let walk := t.freePositions []
  let first := firsts (fun a b => a.2 = b.2) walk
  have hwalk : walk.Pairwise fun a b => a.1 < b.1 := pairwise_freePositions [] t
  have hnames : t.freeVars = first.map Prod.snd := by
    rw [freeVars_eq_firsts, ← map_snd_freePositions, firsts_map]
  refine ⟨first.map Prod.fst, ?_, ?_⟩
  · rw [hnames, List.forall₂_map_left_iff, List.forall₂_map_right_iff, List.forall₂_same]
    rintro ⟨p, x⟩ hfirst
    have hmem := mem_freePositions.mp (mem_of_mem_firsts hfirst)
    refine ⟨hmem.2, fun q hq => ?_⟩
    have hlater := rel_of_mem_firsts (fun _ _ => Eq.symm) hwalk hfirst (y := (q, x))
      (mem_freePositions.mpr ⟨hmem.1, hq⟩) rfl
    rcases hlater with heq | hlt
    · exact (Prod.mk.inj heq).1.le
    · exact le_of_lt hlt
  · exact (hwalk.sublist (firsts_sublist _ _)).map _ fun _ _ h => h

end First

end Clausal.Term
