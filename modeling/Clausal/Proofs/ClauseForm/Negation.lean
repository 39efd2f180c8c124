import Mathlib.Tactic.Tauto
import Clausal.ClauseForm.Negation
import Clausal.Proofs.ClauseForm.Valuation

/-!
# Clausal.Proofs.ClauseForm.Negation — implications out, negation inwards

* `isTrue_eliminate`: the formula without implications says the same, whatever its atomic terms mean.
* `isTrue_nnf`: the normal form says the same as the formula, or as its negation.
* `holds_eliminate`, `holds_nnf`: so it is in an interpretation.
* `isSettled_nnf`: it has the shape that the later passes need.
* `occursFree_nnf`, `mem_variableNames_nnf`: it has the same variables.
* `toNnf_eq`: the loop over two stacks computes the normal form by recursion; `Visits` says what it does to a formula
  on top of its tasks, and `settles` that the cost of a formula pays for it.
-/

universe u

namespace Clausal.Term

variable {D : Type u} {V : Valuation D} {I : Interpretation D}

/-! ## Implications -/

section Eliminate

@[simp] theorem eliminateAll_eq_map (ts : List Term) : eliminateAll ts = ts.map eliminate := by
  induction ts with
  | nil => rfl
  | cons t ts ih => rw [eliminateAll, ih, List.map_cons]

theorem isTrue_eliminate (t : Term) (v : String → D) : t.eliminate.IsTrue V v ↔ t.IsTrue V v := by
  induction t using induct generalizing v with
  | lit n a | var n x | rel n a ts ih | fn n a t ih => exact Iff.rfl
  | quant n q x t ih => exact polar_congr n (quantHolds_congr q fun d => ih _)
  | conn n c l r ihl ihr =>
    cases c with
    | and | or => exact polar_congr n (by simp only [Connective.Holds, ihl, ihr])
    | implies =>
      refine polar_congr n ?_
      simp only [Connective.Holds, isTrue_negate, ihl, ihr]
      exact imp_iff_not_or.symm
    | iff =>
      refine polar_congr n ?_
      simp only [Connective.Holds, IsTrue, isTrue_negate, ihl, ihr, polar_false]
      tauto
  | freeClause n ts ih =>
    refine polar_congr n ?_
    rw [eliminateAll_eq_map, areTrue_iff, areTrue_iff, List.forall_mem_map]
    exact forall₂_congr fun t ht => ih t ht v

theorem holds_eliminate (t : Term) (v : String → D) : t.eliminate.Holds I v ↔ t.Holds I v := by
  rw [holds_iff_isTrue, holds_iff_isTrue, isTrue_eliminate]

@[simp] theorem isFormula_negate (t : Term) : t.negate.isFormula = t.isFormula := by
  cases t <;> rfl

theorem isFormula_eliminate {t : Term} (ht : t.isFormula = true) : t.eliminate.isFormula = true := by
  induction t using induct with
  | lit n a | var n x | rel n a ts ih | fn n a t ih => exact ht
  | quant n q x t ih => exact ih ht
  | conn n c l r ihl ihr =>
    rw [isFormula, Bool.and_eq_true] at ht
    cases c <;> simp [eliminate, isFormula, ihl ht.1, ihr ht.2]
  | freeClause n ts ih =>
    rw [isFormula, areFormulas_eq_true] at ht
    rw [eliminate, eliminateAll_eq_map, isFormula, areFormulas_eq_true, List.forall_mem_map]
    exact fun t hmem => ih t hmem (ht t hmem)

@[simp] theorem occursFree_negate (t : Term) (x : String) : t.negate.occursFree x = t.occursFree x := by
  cases t <;> rfl

theorem occursFree_eliminate (t : Term) (x : String) : t.eliminate.occursFree x = t.occursFree x := by
  induction t using induct with
  | lit n a | var n y | rel n a ts ih | fn n a t ih => rfl
  | quant n q y t ih => simp only [eliminate, occursFree, ih]
  | conn n c l r ihl ihr =>
    cases c with
    | and | or | implies => simp [eliminate, occursFree, ihl, ihr]
    | iff =>
      simp only [eliminate, occursFree, occursFree_negate, ihl, ihr]
      cases l.occursFree x <;> cases r.occursFree x <;> rfl
  | freeClause n ts ih =>
    rw [Bool.eq_iff_iff]
    simp only [eliminate, occursFree, eliminateAll_eq_map, occursFreeAny_eq_true, List.mem_map,
      exists_exists_and_eq_and]
    exact exists_congr fun t => and_congr_right fun ht => by rw [ih t ht]

theorem mem_variableNames_eliminate {t : Term} {x : String} :
    x ∈ t.eliminate.variableNames ↔ x ∈ t.variableNames := by
  induction t using induct with
  | lit n a | var n y | rel n a ts ih | fn n a t ih => exact Iff.rfl
  | quant n q y t ih => simp only [eliminate, variableNames, List.mem_cons, ih]
  | conn n c l r ihl ihr =>
    cases c with
    | and | or | implies => simp [eliminate, variableNames, ihl, ihr]
    | iff =>
      simp only [eliminate, variableNames, variableNames_negate, List.mem_append, ihl, ihr]
      tauto
  | freeClause n ts ih =>
    simp only [eliminate, variableNames, eliminateAll_eq_map, mem_variableNamesAll, List.mem_map,
      exists_exists_and_eq_and]
    exact exists_congr fun t => and_congr_right fun ht => ih t ht

end Eliminate

/-! ## Joined formulas -/

section Join

/-- What is true of each part is true of the joined formula, if it is kept when two formulas are joined. -/
theorem joinRight_of_forall {P : Term → Prop} {op : Connective} (hop : ∀ l r, P l → P r → P (.conn false op l r))
    {t : Term} {ts : List Term} (h : ∀ u ∈ t :: ts, P u) : P (joinRight op t ts) := by
  induction ts generalizing t with
  | nil => exact h t List.mem_cons_self
  | cons u us ih =>
    obtain ⟨ht, hus⟩ := List.forall_mem_cons.mp h
    exact hop t _ ht (ih hus)

/-- What is listed side by side for two joined formulas is listed part by part. -/
theorem joinRight_eq_flatMap {α : Type} {f : Term → List α} {op : Connective}
    (hop : ∀ l r, f (.conn false op l r) = f l ++ f r) (t : Term) (ts : List Term) :
    f (joinRight op t ts) = (t :: ts).flatMap f := by
  induction ts generalizing t with
  | nil => simp [joinRight]
  | cons u us ih => rw [joinRight, hop, ih, List.flatMap_cons (x := t)]

theorem isTrue_joinRight_and (t : Term) (ts : List Term) (v : String → D) :
    (joinRight .and t ts).IsTrue V v ↔ ∀ u ∈ t :: ts, u.IsTrue V v := by
  induction ts generalizing t with
  | nil => simp [joinRight]
  | cons u us ih =>
    rw [joinRight, IsTrue, polar_false, Connective.Holds, ih, List.forall_mem_cons (a := t)]

theorem holds_joinRight_and (t : Term) (ts : List Term) (v : String → D) :
    (joinRight .and t ts).Holds I v ↔ ∀ u ∈ t :: ts, u.Holds I v := by
  simp only [holds_iff_isTrue, isTrue_joinRight_and]

theorem isTrue_joinRight_or (t : Term) (ts : List Term) (v : String → D) :
    (joinRight .or t ts).IsTrue V v ↔ ∃ u ∈ t :: ts, u.IsTrue V v := by
  induction ts generalizing t with
  | nil => simp [joinRight]
  | cons u us ih =>
    rw [joinRight, IsTrue, polar_false, Connective.Holds, ih]
    simp only [List.mem_cons, exists_eq_or_imp]

theorem occursFree_joinRight (op : Connective) (t : Term) (ts : List Term) (x : String) :
    (joinRight op t ts).occursFree x = occursFreeAny x (t :: ts) := by
  induction ts generalizing t with
  | nil => simp [joinRight, occursFreeAny]
  | cons u us ih =>
    rw [joinRight, occursFree, ih]
    rfl

theorem variableNames_joinRight (op : Connective) (t : Term) (ts : List Term) :
    (joinRight op t ts).variableNames = variableNamesAll (t :: ts) := by
  induction ts generalizing t with
  | nil => simp [joinRight, variableNamesAll]
  | cons u us ih =>
    rw [joinRight, variableNames, ih]
    rfl

end Join

/-! ## The normal form -/

section NormalForm

@[simp] theorem nnfAll_eq_map (flip : Bool) (ts : List Term) : nnfAll flip ts = ts.map (nnf flip) := by
  induction ts with
  | nil => rfl
  | cons t ts ih => rw [nnfAll, ih, List.map_cons]

theorem isTrue_nnf_conn {l r : Term} {v : String → D}
    (ihl : ∀ flip, (l.nnf flip).IsTrue V v ↔ polar flip (l.IsTrue V v))
    (ihr : ∀ flip, (r.nnf flip).IsTrue V v ↔ polar flip (r.IsTrue V v)) (n flip : Bool) (c : Connective) :
    ((conn n c l r).nnf flip).IsTrue V v ↔ polar (n != flip) (c.Holds (l.IsTrue V v) (r.IsTrue V v)) := by
  cases c <;> rw [nnf] <;> cases n != flip <;>
    simp only [Bool.false_eq_true, if_true, if_false, IsTrue, Connective.Holds, ihl, ihr, polar_true, polar_false] <;>
    tauto

/-- The normal form says the same as the formula, or as its negation. -/
theorem isTrue_nnf (t : Term) (flip : Bool) (v : String → D) :
    (t.nnf flip).IsTrue V v ↔ polar flip (t.IsTrue V v) := by
  induction t using induct generalizing flip v with
  | lit n a | var n x | rel n a ts ih | fn n a t ih => exact isTrue_signed flip _ v
  | conn n c l r ihl ihr => rw [isTrue_nnf_conn (ihl · v) (ihr · v), IsTrue, ← polar_bne]
  | quant n q x t ih =>
    rw [nnf, IsTrue, ← polar_bne]
    cases n != flip with
    | false =>
      simp only [Bool.false_eq_true, if_false, IsTrue, polar_false]
      exact quantHolds_congr q fun d => ih false _
    | true =>
      -- the dual quantifier denies
      simp only [if_true, IsTrue, polar_false, polar_true]
      cases q with
      | «exists» => simp only [Quant.dual, Quant.Holds, ih, polar_true, not_exists]
      | «forall» => simp only [Quant.dual, Quant.Holds, ih, polar_true, not_forall]
  | freeClause n ts ih =>
    rw [IsTrue, ← polar_bne]
    cases ts with
    | nil => rw [nnf, IsTrue]
    | cons t ts =>
      rw [nnf]
      cases n != flip with
      | false =>
        simp only [Bool.false_eq_true, if_false, IsTrue, polar_false, nnfAll_eq_map, ← List.map_cons, areTrue_iff,
          List.forall_mem_map]
        exact forall₂_congr fun u hu => ih u hu false v
      | true =>
        simp only [if_true, IsTrue, polar_false, polar_true, nnfAll_eq_map, areTrue_iff, List.forall_mem_singleton,
          isTrue_joinRight_or, ← List.map_cons, List.mem_map, exists_exists_and_eq_and, not_forall, exists_prop]
        exact exists_congr fun u => and_congr_right fun hu => ih u hu true v

theorem holds_nnf (t : Term) (flip : Bool) (v : String → D) :
    (t.nnf flip).Holds I v ↔ polar flip (t.Holds I v) := by
  rw [holds_iff_isTrue, holds_iff_isTrue, isTrue_nnf]

/-- The normal form has the same free variables. -/
theorem occursFree_nnf (t : Term) (flip : Bool) (x : String) : (t.nnf flip).occursFree x = t.occursFree x := by
  induction t using induct generalizing flip with
  | lit n a | var n y | rel n a ts ih | fn n a t ih => cases flip <;> rfl
  | quant n q y t ih =>
    rw [nnf]
    split <;> simp only [occursFree, ih]
  | conn n c l r ihl ihr =>
    cases c <;> rw [nnf] <;> split <;> simp only [occursFree, ihl, ihr] <;>
      cases l.occursFree x <;> cases r.occursFree x <;> rfl
  | freeClause n ts ih =>
    cases ts with
    | nil => rfl
    | cons t ts =>
      have hall : ∀ flip, occursFreeAny x ((t :: ts).map (nnf flip)) = occursFreeAny x (t :: ts) := by
        intro flip
        rw [Bool.eq_iff_iff]
        simp only [occursFreeAny_eq_true, List.mem_map, exists_exists_and_eq_and]
        exact exists_congr fun u => and_congr_right fun hu => by rw [ih u hu]
      rw [nnf]
      split
      · rw [occursFree, occursFreeAny, occursFree_joinRight, nnfAll_eq_map, ← List.map_cons, hall, occursFreeAny,
          Bool.or_false, occursFree]
      · rw [occursFree, nnfAll_eq_map, ← List.map_cons, hall, occursFree]

/-- The normal form has the same names. -/
theorem mem_variableNames_nnf {t : Term} {flip : Bool} {x : String} :
    x ∈ (t.nnf flip).variableNames ↔ x ∈ t.variableNames := by
  induction t using induct generalizing flip with
  | lit n a | var n y | rel n a ts ih | fn n a t ih => cases flip <;> exact Iff.rfl
  | quant n q y t ih =>
    rw [nnf]
    split <;> simp only [variableNames, List.mem_cons, ih]
  | conn n c l r ihl ihr =>
    cases c <;> rw [nnf] <;> split <;> simp only [variableNames, List.mem_append, ihl, ihr] <;> tauto
  | freeClause n ts ih =>
    cases ts with
    | nil => exact Iff.rfl
    | cons t ts =>
      have hall : ∀ flip, x ∈ variableNamesAll ((t :: ts).map (nnf flip)) ↔ x ∈ variableNamesAll (t :: ts) := by
        intro flip
        simp only [mem_variableNamesAll, List.mem_map, exists_exists_and_eq_and]
        exact exists_congr fun u => and_congr_right fun hu => ih u hu
      rw [nnf]
      split
      · rw [variableNames, variableNamesAll, variableNames_joinRight, nnfAll_eq_map, ← List.map_cons, variableNamesAll,
          List.append_nil, hall, variableNames]
      · rw [variableNames, nnfAll_eq_map, ← List.map_cons, hall, variableNames]

mutual

/-- A formula of literals, `∧`, `∨`, quantifiers and free clauses, negated at its literals only; the denial of an empty
free clause is left as it is. -/
def isSettled : Term → Bool
  | .quant n _ _ t => !n && isSettled t
  | .conn n .and l r | .conn n .or l r => !n && isSettled l && isSettled r
  | .conn .. => false
  | .freeClause n ts => (!n || ts.isEmpty) && areSettled ts
  | t => isLiteral t

/-- All formulas are settled. -/
def areSettled : List Term → Bool
  | [] => true
  | t :: ts => isSettled t && areSettled ts

end

@[simp] theorem areSettled_eq_true {ts : List Term} : areSettled ts = true ↔ ∀ t ∈ ts, t.isSettled = true := by
  induction ts with
  | nil => simp [areSettled]
  | cons t ts ih => simp [areSettled, ih]

theorem isSettled_conn {n : Bool} {c : Connective} {l r : Term} :
    (Term.conn n c l r).isSettled = true ↔
      n = false ∧ (c = .and ∨ c = .or) ∧ l.isSettled = true ∧ r.isSettled = true := by
  cases c <;> simp [isSettled, and_assoc]

theorem isSettled_quant {n : Bool} {q : Quant} {x : String} {t : Term} :
    (Term.quant n q x t).isSettled = true ↔ n = false ∧ t.isSettled = true := by
  simp [isSettled]

theorem isSettled_freeClause {n : Bool} {ts : List Term} :
    (Term.freeClause n ts).isSettled = true ↔ (n = false ∨ ts = []) ∧ ∀ t ∈ ts, t.isSettled = true := by
  simp [isSettled]

theorem isSettled_joinRight {op : Connective} (hop : op = .and ∨ op = .or) {t : Term} {ts : List Term}
    (h : ∀ u ∈ t :: ts, u.isSettled = true) : (joinRight op t ts).isSettled = true :=
  joinRight_of_forall (P := fun u => u.isSettled = true) (fun _ _ hl hr => isSettled_conn.mpr ⟨rfl, hop, hl, hr⟩) h

/-- The normal form of a formula is settled. -/
theorem isSettled_nnf {t : Term} (ht : t.isFormula = true) (flip : Bool) : (t.nnf flip).isSettled = true := by
  induction t using induct generalizing flip with
  | lit n a | rel n a ts ih | fn n a t ih => cases flip <;> exact ht
  | var n x => cases ht
  | quant n q x t ih =>
    rw [nnf]
    split <;> exact ih ht _
  | conn n c l r ihl ihr =>
    rw [isFormula, Bool.and_eq_true] at ht
    cases c <;> rw [nnf] <;> split <;> simp [isSettled, ihl ht.1, ihr ht.2]
  | freeClause n ts ih =>
    rw [isFormula, areFormulas_eq_true] at ht
    cases ts with
    | nil => simp [nnf, isSettled, areSettled]
    | cons t ts =>
      have hall : ∀ flip, ∀ u ∈ (t :: ts).map (nnf flip), u.isSettled = true := by
        intro flip u hu
        obtain ⟨w, hw, rfl⟩ := List.mem_map.mp hu
        exact ih w hw (ht w hw) flip
      rw [nnf]
      split
      · have hjoin := isSettled_joinRight (.inr rfl) (hall true)
        simp [isSettled, areSettled, hjoin]
      · have hsome := areSettled_eq_true.mpr (hall false)
        rw [nnfAll_eq_map, ← List.map_cons, isSettled, hsome]
        rfl

end NormalForm

/-! ## The loop -/

section Loop

theorem nnf_negate (t : Term) (flip : Bool) : t.negate.nnf flip = t.nnf (!flip) := by
  cases t with
  | lit n a | var n x | rel n a ts | fn n a t => cases n <;> cases flip <;> rfl
  | quant n q x t => cases n <;> cases flip <;> rfl
  | conn n c l r => cases c <;> cases n <;> cases flip <;> rfl
  | freeClause n ts => cases ts <;> cases n <;> cases flip <;> rfl

theorem nnf_eliminate (t : Term) (flip : Bool) : t.eliminate.nnf flip = t.nnf flip := by
  induction t using induct generalizing flip with
  | lit n a | var n x | rel n a ts ih | fn n a t ih => rfl
  | quant n q x t ih => simp only [eliminate, nnf, ih]
  | conn n c l r ihl ihr =>
    cases c with
    | and | or => simp only [eliminate, nnf, ihl, ihr]
    | implies => simp only [eliminate, nnf, nnf_negate, ihl, ihr, Bool.not_true, Bool.not_false]
    | iff =>
      simp only [eliminate, nnf, nnf_negate, ihl, ihr]
      cases n != flip <;> rfl
  | freeClause n ts ih =>
    cases ts with
    | nil => rfl
    | cons t ts =>
      obtain ⟨ht, hts⟩ := List.forall_mem_cons.mp ih
      have hmap : ∀ flip, (ts.map eliminate).map (nnf flip) = ts.map (nnf flip) := by
        intro flip
        rw [List.map_map]
        exact List.map_congr_left fun u hu => hts u hu flip
      simp only [eliminate, eliminateAll, eliminateAll_eq_map, nnf, nnfAll_eq_map, hmap, ht]

theorem nnf_joinRight (t : Term) (ts : List Term) :
    (joinRight .or t.negate (ts.map negate)).nnf false = joinRight .or (t.nnf true) (ts.map (nnf true)) := by
  induction ts generalizing t with
  | nil => exact nnf_negate t false
  | cons u us ih =>
    rw [List.map_cons, joinRight, List.map_cons, joinRight, nnf, if_neg (by decide), ih, nnf_negate]
    rfl

@[simp] theorem nnfCost_negate (t : Term) : t.negate.nnfCost = t.nnfCost := by
  cases t with
  | conn n c l r => cases c <;> rfl
  | _ => rfl

theorem nnfCost_eliminate_le (t : Term) : t.eliminate.nnfCost ≤ t.nnfCost := by
  induction t using induct with
  | lit n a | var n x | rel n a ts ih | fn n a t ih => exact Nat.le_refl _
  | quant n q x t ih =>
    simp only [eliminate, nnfCost]
    omega
  | conn n c l r ihl ihr =>
    cases c <;> simp only [eliminate, nnfCost, nnfCost_negate] <;> omega
  | freeClause n ts ih =>
    have hall : nnfCostAll (eliminateAll ts) ≤ nnfCostAll ts := by
      induction ts with
      | nil => exact Nat.le_refl _
      | cons t ts ihts =>
        obtain ⟨ht, hts⟩ := List.forall_mem_cons.mp ih
        have := ihts hts
        simp only [eliminateAll, nnfCostAll]
        omega
    simp only [eliminate, nnfCost]
    omega

theorem nnfCost_joinRight_le (t : Term) (ts : List Term) :
    (joinRight .or t.negate (ts.map negate)).nnfCost ≤ t.nnfCost + nnfCostAll ts := by
  induction ts generalizing t with
  | nil => simp [joinRight, nnfCostAll]
  | cons u us ih =>
    have := ih u
    simp only [List.map_cons, joinRight, nnfCost, nnfCost_negate, nnfCostAll] at this ⊢
    omega

theorem nnfCost_le_all {u : Term} {ts : List Term} (hu : u ∈ ts) : u.nnfCost ≤ nnfCostAll ts := by
  induction ts with
  | nil => cases hu
  | cons t ts ih =>
    rw [nnfCostAll]
    rcases List.mem_cons.mp hu with rfl | hu
    · omega
    · have := ih hu
      omega

/-- From the task of visiting `t` the loop comes in `c` turns to the normal form of `t` as a result. -/
def Visits (t : Term) (c : Nat) : Prop :=
  ∀ fuel tasks results,
    NnfTask.run (fuel + c) (.visit t :: tasks) results = NnfTask.run fuel tasks (t.nnf false :: results)

/-- The loop settles a formula within its cost. -/
def Settles (t : Term) : Prop :=
  ∃ c ≤ t.nnfCost, Visits t c

theorem visits_of_done {t : Term} (hopen : NnfTask.open t = .inr t) (hnnf : t.nnf false = t) : Visits t 1 := by
  intro fuel tasks results
  rw [NnfTask.run, NnfTask.step, hopen, hnnf]

theorem visits_of_more {t : Term} {more : List NnfTask} (hopen : NnfTask.open t = .inl more) {c : Nat}
    (h : ∀ fuel tasks results,
      NnfTask.run (fuel + c) (more ++ tasks) results = NnfTask.run fuel tasks (t.nnf false :: results)) :
    Visits t (c + 1) := by
  intro fuel tasks results
  rw [← Nat.add_assoc, NnfTask.run, NnfTask.step, hopen]
  exact h fuel tasks results

theorem Visits.then {t : Term} {c d : Nat} (ht : Visits t c) (fuel : Nat) (tasks : List NnfTask) (results : List Term) :
    NnfTask.run (fuel + (c + d)) (.visit t :: tasks) results =
      NnfTask.run (fuel + d) tasks (t.nnf false :: results) := by
  rw [Nat.add_comm c d, ← Nat.add_assoc]
  exact ht (fuel + d) tasks results

theorem settles_join {t l r : Term} {op : Connective} (hopen : NnfTask.open t = .inl [.visit l, .visit r, .join op])
    (hnnf : t.nnf false = .conn false op (l.nnf false) (r.nnf false)) (hcost : l.nnfCost + r.nnfCost + 2 ≤ t.nnfCost)
    (hl : Settles l) (hr : Settles r) : Settles t := by
  obtain ⟨c, hc, hl⟩ := hl
  obtain ⟨d, hd, hr⟩ := hr
  refine ⟨c + (d + 1) + 1, by omega, visits_of_more hopen fun fuel tasks results => ?_⟩
  rw [List.cons_append, hl.then, List.cons_append, hr.then, hnnf]
  rfl

theorem settles_bind {t u : Term} {q : Quant} {x : String} (hopen : NnfTask.open t = .inl [.visit u, .bind q x])
    (hnnf : t.nnf false = .quant false q x (u.nnf false)) (hcost : u.nnfCost + 2 ≤ t.nnfCost) (hu : Settles u) :
    Settles t := by
  obtain ⟨c, hc, hu⟩ := hu
  refine ⟨c + 1 + 1, by omega, visits_of_more hopen fun fuel tasks results => ?_⟩
  rw [List.cons_append, hu.then, hnnf]
  rfl

/-- A formula that is replaced by one with the same normal form. -/
theorem settles_replace {t u : Term} (hopen : NnfTask.open t = .inl [.visit u]) (hnnf : t.nnf false = u.nnf false)
    (hcost : u.nnfCost + 1 ≤ t.nnfCost) (hu : Settles u) : Settles t := by
  obtain ⟨c, hc, hu⟩ := hu
  refine ⟨c + 1, by omega, visits_of_more hopen fun fuel tasks results => ?_⟩
  rw [hnnf]
  exact hu fuel tasks results

/-- Visiting the members of a list leaves their normal forms, last one first. -/
theorem visit_all {ts : List Term} (h : ∀ t ∈ ts, Settles t) :
    ∃ c ≤ nnfCostAll ts, ∀ fuel tasks results, NnfTask.run (fuel + c) (ts.map .visit ++ tasks) results =
      NnfTask.run fuel tasks ((ts.map (nnf false)).reverse ++ results) := by
  induction ts with
  | nil => exact ⟨0, Nat.le_refl 0, fun fuel tasks results => rfl⟩
  | cons t ts ih =>
    obtain ⟨⟨c, hc, ht⟩, hts⟩ := List.forall_mem_cons.mp h
    obtain ⟨d, hd, hall⟩ := ih hts
    refine ⟨c + d, by simp only [nnfCostAll]; omega, fun fuel tasks results => ?_⟩
    rw [List.map_cons, List.cons_append, ht.then, hall]
    simp

theorem step_gather (us : List Term) (tasks : List NnfTask) (results : List Term) :
    NnfTask.step (.gather us.length) tasks (us.reverse ++ results) =
      some (tasks, .freeClause false us :: results) := by
  have htake : (us.reverse ++ results).take us.length = us.reverse := by
    rw [← List.length_reverse, List.take_left]
  have hdrop : (us.reverse ++ results).drop us.length = results := by
    rw [← List.length_reverse, List.drop_left]
  rw [NnfTask.step, if_pos (by simp), htake, hdrop, List.reverse_reverse]

theorem settles_freeClause {t : Term} {ts : List Term}
    (ih : ∀ u : Term, u.nnfCost < nnfCostAll (t :: ts) + 2 → Settles u)
    (n : Bool) : Settles (.freeClause n (t :: ts)) := by
  cases n with
  | true =>
    -- the disjunction of the denials is visited, and gathered alone
    have hcost := nnfCost_joinRight_le t ts
    obtain ⟨c, hc, hu⟩ := ih (joinRight .or t.negate (ts.map negate)) (by simp only [nnfCostAll]; omega)
    refine ⟨c + 1 + 1, by simp only [nnfCost, nnfCostAll]; omega, visits_of_more rfl fun fuel tasks results => ?_⟩
    rw [List.cons_append, hu.then, nnf_joinRight, nnf, nnfAll_eq_map, if_pos (by decide)]
    rfl
  | false =>
    have hmem : ∀ u ∈ t :: ts, Settles u := by
      intro u hu
      refine ih u (Nat.lt_of_le_of_lt ?_ (Nat.lt_add_of_pos_right (by decide)))
      exact nnfCost_le_all hu
    obtain ⟨c, hc, hall⟩ := visit_all hmem
    refine ⟨c + 1 + 1, by simp only [nnfCost]; omega, visits_of_more rfl fun fuel tasks results => ?_⟩
    have hlen : ts.length + 1 = ((t :: ts).map (nnf false)).length := by simp
    rw [List.append_assoc, Nat.add_comm c 1, ← Nat.add_assoc, hall, List.cons_append, NnfTask.run, hlen, step_gather,
      nnf, if_neg (by decide), nnfAll_eq_map]
    rfl

theorem settles (t : Term) : Settles t := by
  induction hn : t.nnfCost using Nat.strongRecOn generalizing t with
  | ind n ih =>
    subst hn
    have hlt : ∀ u : Term, u.nnfCost < t.nnfCost → Settles u := fun u hu => ih _ hu u rfl
    cases t with
    | lit n a | var n x | rel n a ts | fn n a t => exact ⟨1, by simp [nnfCost], visits_of_done rfl rfl⟩
    | quant n q x t =>
      have ht : Settles t := hlt t (by simp [nnfCost])
      have ht' : Settles t.negate := hlt _ (by simp [nnfCost])
      cases n with
      | false => exact settles_bind rfl rfl (by simp [nnfCost]) ht
      | true => exact settles_bind rfl (by rw [nnf_negate]; rfl) (by simp [nnfCost]) ht'
    | conn n c l r =>
      cases c with
      | and | or =>
        have hl : Settles l := hlt l (by simp only [nnfCost]; omega)
        have hr : Settles r := hlt r (by simp only [nnfCost]; omega)
        have hl' : Settles l.negate := hlt _ (by simp only [nnfCost, nnfCost_negate]; omega)
        have hr' : Settles r.negate := hlt _ (by simp only [nnfCost, nnfCost_negate]; omega)
        cases n with
        | false => exact settles_join rfl rfl (Nat.le_refl _) hl hr
        | true => exact settles_join rfl (by rw [nnf_negate, nnf_negate]; rfl) (by simp [nnfCost]) hl' hr'
      | implies | iff =>
        have hl := nnfCost_eliminate_le l
        have hr := nnfCost_eliminate_le r
        refine settles_replace rfl (nnf_eliminate _ false).symm ?_ (hlt _ ?_) <;>
          simp only [eliminate, nnfCost, nnfCost_negate] <;> omega
    | freeClause n ts =>
      cases ts with
      | nil => exact ⟨1, by simp [nnfCost, nnfCostAll], visits_of_done rfl (by cases n <;> rfl)⟩
      | cons t ts => exact settles_freeClause hlt n

/-- The loop ends with the normal form as its only result. -/
theorem run_nnfCost (t : Term) : NnfTask.run t.nnfCost [.visit t] [] = some [t.nnf false] := by
  obtain ⟨c, hc, ht⟩ := settles t
  obtain ⟨more, hmore⟩ := Nat.exists_eq_add_of_le' hc
  rw [hmore, ht, NnfTask.run]

/-- The loop computes the normal form. -/
theorem toNnf_eq (t : Term) : t.toNnf = t.nnf false := by
  rw [toNnf, run_nnfCost]

end Loop

end Clausal.Term
