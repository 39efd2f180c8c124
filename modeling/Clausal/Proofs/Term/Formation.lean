import Clausal.Formation
import Clausal.Proofs.Term.Replacement

/-!
# Clausal.Proofs.Term.Formation — what it takes to be well formed

The check of a term against the list of its parts, and against the checked constructors.

* `Term.parts`: a term and all that is inside it, from left to right, each part after its own parts.
* `Term.flaw?`: what is wrong with the root of a term; `check_eq` says that the check reports the first flaw of a part.
* `Term.WellFormed`: every relation has an argument, and every binder occurs free in its body; `check_eq_ok_iff` says
  that these are the terms that pass, and `wellFormed_rel`, `wellFormed_quant`, … what it takes for each kind of term.
* `Term.rebuild`: the term built anew by the checked constructors; `rebuild_eq` says that this is what the check stands
  for, and that nothing else comes out of it.
-/

namespace Clausal.Term

/-! ## Parts and their flaws -/

section Parts

mutual

/-- The term and all that is inside it, from left to right, each part after its own parts. -/
def parts : Term → List Term
  | .lit n a => [.lit n a]
  | .var n x => [.var n x]
  | .rel n a ts => partsAll ts ++ [.rel n a ts]
  | .fn n a t => parts t ++ [.fn n a t]
  | .quant n q x t => parts t ++ [.quant n q x t]
  | .conn n c l r => parts l ++ (parts r ++ [.conn n c l r])
  | .freeClause n ts => partsAll ts ++ [.freeClause n ts]

/-- The parts of a list of terms. -/
def partsAll : List Term → List Term
  | [] => []
  | t :: ts => parts t ++ partsAll ts

end

/-- What is wrong with the root of a term. -/
def flaw? : Term → Option FormationError
  | .rel _ a [] => some (.arity a "at least 1" 0)
  | .quant _ _ x t => if t.occursFree x then none else some (.unboundQuantifier x t.render)
  | _ => none

/-- The outcome of a check that has found a flaw, or none. -/
def verdict : Option FormationError → Except FormationError Unit
  | none => .ok ()
  | some e => .error e

theorem verdict_append (us ws : List Term) :
    verdict ((us ++ ws).findSome? flaw?) = (do verdict (us.findSome? flaw?); verdict (ws.findSome? flaw?)) := by
  rw [List.findSome?_append]
  cases us.findSome? flaw? with
  | none => rfl
  | some e => rfl

theorem verdict_concat (us : List Term) (t : Term) :
    verdict ((us ++ [t]).findSome? flaw?) = (do verdict (us.findSome? flaw?); verdict t.flaw?) := by
  rw [verdict_append, List.findSome?_singleton]

theorem bind_ok (x : Except FormationError Unit) : (do x; .ok ()) = x := by
  cases x with
  | ok _ => rfl
  | error e => rfl

theorem checkAll_eq {ts : List Term} (h : ∀ t ∈ ts, t.check = verdict (t.parts.findSome? flaw?)) :
    checkAll ts = verdict ((partsAll ts).findSome? flaw?) := by
  induction ts with
  | nil => rfl
  | cons t ts ih =>
    obtain ⟨ht, hts⟩ := List.forall_mem_cons.mp h
    rw [checkAll, ht, ih hts, partsAll, verdict_append]

/-- The check reports the first flaw, parts before the whole and left before right. -/
theorem check_eq (t : Term) : t.check = verdict (t.parts.findSome? flaw?) := by
  induction t using induct with
  | lit n a | var n x => rfl
  | rel n a ts ih =>
    rw [check, checkAll_eq ih, parts, verdict_concat]
    cases ts with
    | nil => rfl
    | cons t ts => rfl
  | fn n a t ih =>
    rw [check, ih, parts, verdict_concat]
    exact (bind_ok _).symm
  | quant n q x t ih =>
    rw [check, ih, parts, verdict_concat, flaw?]
    cases t.occursFree x with
    | true => rfl
    | false => rfl
  | conn n c l r ihl ihr =>
    rw [check, ihl, ihr, parts, verdict_append, verdict_concat]
    exact congrArg _ (funext fun _ => (bind_ok _).symm)
  | freeClause n ts ih =>
    rw [check, checkAll_eq ih, parts, verdict_concat]
    exact (bind_ok _).symm

end Parts

/-! ## Well-formed terms -/

section WellFormed

/-- Every relation has an argument, and every binder occurs free in its body. -/
structure WellFormed (t : Term) : Prop where
  applied : ∀ n a ts, .rel n a ts ∈ t.parts → ts ≠ []
  bound : ∀ n q x b, .quant n q x b ∈ t.parts → b.occursFree x = true

variable {t : Term}

theorem mem_parts_self (t : Term) : t ∈ t.parts := by
  cases t <;> simp [parts]

/-- A term is well formed if no part of it has a flaw. -/
theorem wellFormed_iff : t.WellFormed ↔ t.parts.findSome? flaw? = none := by
  rw [List.findSome?_eq_none_iff]
  constructor
  · intro h u hu
    cases u with
    | rel n a ts =>
      cases ts with
      | nil => exact absurd rfl (h.applied n a [] hu)
      | cons t ts => rfl
    | quant n q x b => rw [flaw?, if_pos (h.bound n q x b hu)]
    | _ => rfl
  · intro h
    constructor
    · rintro n a ts hmem rfl
      have hnone := h _ hmem
      simp [flaw?] at hnone
    · intro n q x b hmem
      have hnone := h _ hmem
      simpa [flaw?] using hnone

theorem check_eq_ok_iff : t.check = .ok () ↔ t.WellFormed := by
  rw [check_eq, wellFormed_iff]
  cases t.parts.findSome? flaw? with
  | none => simp [verdict]
  | some e => simp [verdict]

theorem check_eq_error_iff {e : FormationError} : t.check = .error e ↔ t.parts.findSome? flaw? = some e := by
  rw [check_eq]
  cases t.parts.findSome? flaw? with
  | none => simp [verdict]
  | some e => simp [verdict]

theorem wellFormed_iff_parts : t.WellFormed ↔ ∀ u ∈ t.parts, u.flaw? = none := by
  rw [wellFormed_iff, List.findSome?_eq_none_iff]

theorem forall_mem_partsAll {P : Term → Prop} {ts : List Term} :
    (∀ u ∈ partsAll ts, P u) ↔ ∀ t ∈ ts, ∀ u ∈ t.parts, P u := by
  induction ts with
  | nil => simp [partsAll]
  | cons t ts ih => rw [partsAll, List.forall_mem_append, ih, List.forall_mem_cons]

variable {n : Bool} {a x : String} {q : Quant} {c : Connective} {l r b : Term} {ts : List Term}

@[simp] theorem wellFormed_lit : (Term.lit n a).WellFormed := by
  simp [wellFormed_iff_parts, parts, flaw?]

@[simp] theorem wellFormed_var : (Term.var n x).WellFormed := by
  simp [wellFormed_iff_parts, parts, flaw?]

@[simp] theorem wellFormed_rel : (Term.rel n a ts).WellFormed ↔ ts ≠ [] ∧ ∀ t ∈ ts, t.WellFormed := by
  simp only [wellFormed_iff_parts, parts, List.forall_mem_append, forall_mem_partsAll, List.forall_mem_singleton]
  rw [and_comm]
  cases ts <;> simp [flaw?]

@[simp] theorem wellFormed_fn : (Term.fn n a b).WellFormed ↔ b.WellFormed := by
  simp only [wellFormed_iff_parts, parts, List.forall_mem_append, List.forall_mem_singleton, flaw?, and_true]

@[simp] theorem wellFormed_quant :
    (Term.quant n q x b).WellFormed ↔ b.occursFree x = true ∧ b.WellFormed := by
  simp only [wellFormed_iff_parts, parts, List.forall_mem_append, List.forall_mem_singleton]
  rw [and_comm]
  simp [flaw?]

@[simp] theorem wellFormed_conn : (Term.conn n c l r).WellFormed ↔ l.WellFormed ∧ r.WellFormed := by
  simp only [wellFormed_iff_parts, parts, List.forall_mem_append, List.forall_mem_singleton, flaw?, and_true]

@[simp] theorem wellFormed_freeClause : (Term.freeClause n ts).WellFormed ↔ ∀ t ∈ ts, t.WellFormed := by
  simp only [wellFormed_iff_parts, parts, List.forall_mem_append, forall_mem_partsAll, List.forall_mem_singleton,
    flaw?, and_true]

@[simp] theorem wellFormed_negate : t.negate.WellFormed ↔ t.WellFormed := by
  cases t <;> simp [negate, withFlag]

@[simp] theorem wellFormed_signed : (signed n t).WellFormed ↔ t.WellFormed := by
  cases n <;> simp [signed]

end WellFormed

/-! ## Checked construction -/

section Rebuild

mutual

/-- The term built anew, from its leaves on, by the checked constructors. -/
def rebuild : Term → Except FormationError Term
  | .lit n a => .ok (.lit n a)
  | .var n x => .ok (.var n x)
  | .rel n a ts => do return (← relation a (← rebuildAll ts)).withFlag n
  | .fn n a t => do return .fn n a (← rebuild t)
  | .quant n q x t => do return (← quantified q (.var false x) (← rebuild t)).withFlag n
  | .conn n c l r => do return .conn n c (← rebuild l) (← rebuild r)
  | .freeClause n ts => do return .freeClause n (← rebuildAll ts)

/-- `rebuild` member by member. -/
def rebuildAll : List Term → Except FormationError (List Term)
  | [] => .ok []
  | t :: ts => do return (← rebuild t) :: (← rebuildAll ts)

end

theorem rebuildAll_eq {ts : List Term} (h : ∀ t ∈ ts, t.rebuild = (do t.check; .ok t)) :
    rebuildAll ts = (do checkAll ts; .ok ts) := by
  induction ts with
  | nil => rfl
  | cons t ts ih =>
    obtain ⟨ht, hts⟩ := List.forall_mem_cons.mp h
    rw [rebuildAll, ht, ih hts, checkAll]
    cases t.check with
    | error e => rfl
    | ok _ =>
      cases checkAll ts with
      | error e => rfl
      | ok _ => rfl

/-- Building a term anew gives the term if it passes the check, and the error of the check otherwise. -/
theorem rebuild_eq (t : Term) : t.rebuild = (do t.check; .ok t) := by
  induction t using induct with
  | lit n a | var n x => rfl
  | rel n a ts ih =>
    rw [rebuild, rebuildAll_eq ih, check]
    cases checkAll ts with
    | error e => rfl
    | ok _ =>
      cases ts with
      | nil => rfl
      | cons t ts => rfl
  | fn n a t ih =>
    rw [rebuild, ih, check]
    cases t.check with
    | error e => rfl
    | ok _ => rfl
  | quant n q x t ih =>
    rw [rebuild, ih, check]
    cases t.check with
    | error e => rfl
    | ok _ =>
      change (do return (← quantified q (.var false x) t).withFlag n) = _
      rw [quantified]
      cases t.occursFree x with
      | true => rfl
      | false => rfl
  | conn n c l r ihl ihr =>
    rw [rebuild, ihl, ihr, check]
    cases l.check with
    | error e => rfl
    | ok _ =>
      cases r.check with
      | error e => rfl
      | ok _ => rfl
  | freeClause n ts ih =>
    rw [rebuild, rebuildAll_eq ih, check]
    cases checkAll ts with
    | error e => rfl
    | ok _ => rfl

end Rebuild

end Clausal.Term
