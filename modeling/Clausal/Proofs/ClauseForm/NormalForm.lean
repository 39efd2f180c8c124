import Clausal.Proofs.ClauseForm.Outline

/-!
# Clausal.Proofs.ClauseForm.NormalForm — the normal form and the loop that computes it

* `Term.hasImplication`: `⇒` or `⇔` stands in the formula; `hasImplication_eliminate` says that none is left.
* `normal_form_keeps_truth`: both passes say what the formula says, whatever its atomic terms mean, and have the shape
  they are made for.
* `Term.isReduced`: the normal forms, with denials of empty free clauses among them; `normal_form_stable` says that they
  are what normalization leaves as it is, and all that it makes.
* `NnfTask.needs`: how many results a task takes from the stack; `step_eq_none_iff` says that a turn fails just if there
  are fewer.
* `NnfTask.Turns`: the turns of the loop one after the other, without a bound on their number.
* `loop_computes_nnf`: from a single visit the loop never lacks a result, ends, and ends with the normal form alone.
-/

universe u

namespace Clausal

namespace Term

/-! ## Implications out -/

section Implications

mutual

/-- `⇒` or `⇔` stands in the formula; arguments do not count. -/
def hasImplication : Term → Bool
  | .quant _ _ _ t => hasImplication t
  | .conn _ c l r => c == .implies || c == .iff || hasImplication l || hasImplication r
  | .freeClause _ ts => anyImplication ts
  | _ => false

/-- `⇒` or `⇔` stands in one of the formulas. -/
def anyImplication : List Term → Bool
  | [] => false
  | t :: ts => hasImplication t || anyImplication ts

end

theorem anyImplication_eq_any (ts : List Term) : anyImplication ts = ts.any hasImplication := by
  induction ts with
  | nil => rfl
  | cons t ts ih => rw [anyImplication, ih, List.any_cons]

theorem hasImplication_negate (t : Term) : t.negate.hasImplication = t.hasImplication := by
  cases t <;> rfl

theorem hasImplication_eliminate (t : Term) : t.eliminate.hasImplication = false := by
  induction t using induct with
  | lit n a | var n x | rel n a ts ih | fn n a t ih => rfl
  | quant n q x t ih => exact ih
  | conn n c l r ihl ihr =>
    cases c <;> simp [eliminate, hasImplication, hasImplication_negate, ihl, ihr]
  | freeClause n ts ih =>
    have hall : ∀ u ∈ ts.map eliminate, ¬ u.hasImplication = true := by
      intro u hu
      obtain ⟨t, ht, rfl⟩ := List.mem_map.mp hu
      simp [ih t ht]
    rw [eliminate, eliminateAll_eq_map, hasImplication, anyImplication_eq_any]
    exact List.any_eq_false.mpr hall

end Implications

/-- Taking implications out and moving negation inwards change no truth value, whatever the atomic terms mean.  No
implication is left, and where every free clause has a member the result is a normal form. -/
theorem normal_form_keeps_truth (t : Term) :
    (∀ (D : Type u) (V : Valuation D) (v : String → D),
      (t.eliminate.IsTrue V v ↔ t.IsTrue V v) ∧ (t.toNnf.IsTrue V v ↔ t.IsTrue V v)) ∧
    t.eliminate.hasImplication = false ∧
    (t.hasEmptyFreeClause = false → t.toNnf.isNnf = true) := by
  rw [toNnf_eq]
  refine ⟨fun D V v => ⟨isTrue_eliminate t v, ?_⟩, hasImplication_eliminate t, fun h => isNnf_nnf h false⟩
  rw [isTrue_nnf, polar_false]

/-- A negated `⇔` between a negated free clause and a negated quantifier over an implication. -/
def tangled : Term :=
  .conn true .iff (.freeClause true [.lit false "a", .var true "P"])
    (.quant true .forall "X" (.conn false .implies (.rel false "p" [.var false "X"]) (.lit true "a")))

theorem isNnf_tangled : tangled.hasEmptyFreeClause = false ∧ tangled.isNnf = false ∧ tangled.toNnf.isNnf = true :=
  ⟨rfl, rfl, (normal_form_keeps_truth.{0} tangled).2.2 rfl⟩

/-! ## Normal forms again -/

section Stable

variable {t : Term}

mutual

/-- A normal form in which the denial of an empty free clause may stand, for it has no other form. -/
def isReduced : Term → Bool
  | .quant n _ _ t => !n && isReduced t
  | .conn n .and l r | .conn n .or l r => !n && isReduced l && isReduced r
  | .conn .. => false
  | .freeClause n ts => (!n || ts.isEmpty) && areReduced ts
  | _ => true

/-- All formulas are such normal forms. -/
def areReduced : List Term → Bool
  | [] => true
  | t :: ts => isReduced t && areReduced ts

end

theorem areReduced_eq_true {ts : List Term} : areReduced ts = true ↔ ∀ t ∈ ts, t.isReduced = true := by
  induction ts with
  | nil => simp [areReduced]
  | cons t ts ih => simp [areReduced, ih]

theorem isReduced_conn {n : Bool} {c : Connective} {l r : Term} :
    (Term.conn n c l r).isReduced = true ↔
      n = false ∧ (c = .and ∨ c = .or) ∧ l.isReduced = true ∧ r.isReduced = true := by
  cases c <;> simp [isReduced, and_assoc]

theorem isReduced_quant {n : Bool} {q : Quant} {x : String} :
    (Term.quant n q x t).isReduced = true ↔ n = false ∧ t.isReduced = true := by
  simp [isReduced]

theorem isReduced_freeClause {n : Bool} {ts : List Term} :
    (Term.freeClause n ts).isReduced = true ↔ (n = false ∨ ts = []) ∧ ∀ t ∈ ts, t.isReduced = true := by
  simp [isReduced, areReduced_eq_true]

theorem isReduced_of_isNnf (h : t.isNnf = true) : t.isReduced = true := by
  induction t using induct with
  | lit n a | var n x | rel n a ts ih | fn n a t ih => rfl
  | quant n q x t ih =>
    rw [isNnf, Bool.and_eq_true, Bool.not_eq_true'] at h
    exact isReduced_quant.mpr ⟨h.1, ih h.2⟩
  | conn n c l r ihl ihr =>
    obtain ⟨hn, hc, hl, hr⟩ := isNnf_conn.mp h
    exact isReduced_conn.mpr ⟨hn, hc, ihl hl, ihr hr⟩
  | freeClause n ts ih =>
    obtain ⟨hn, hts⟩ := isNnf_freeClause.mp h
    exact isReduced_freeClause.mpr ⟨.inl hn, fun t ht => ih t ht (hts t ht)⟩

/-- Normalization leaves nothing to do, empty free clauses or not. -/
theorem isReduced_nnf (t : Term) (flip : Bool) : (t.nnf flip).isReduced = true := by
  induction t using induct generalizing flip with
  | lit n a | var n x | rel n a ts ih | fn n a t ih => cases flip <;> rfl
  | quant n q x t ih =>
    rw [nnf]
    split <;> exact isReduced_quant.mpr ⟨rfl, ih _⟩
  | conn n c l r ihl ihr => cases c <;> rw [nnf] <;> split <;> simp [isReduced, ihl, ihr]
  | freeClause n ts ih =>
    cases ts with
    | nil => exact isReduced_freeClause.mpr ⟨.inr rfl, List.forall_mem_nil _⟩
    | cons t ts =>
      have hall : ∀ flip, ∀ u ∈ (t :: ts).map (nnf flip), u.isReduced = true :=
        fun flip => List.forall_mem_map.mpr fun u hu => ih u hu flip
      rw [nnf, nnfAll_eq_map, nnfAll_eq_map]
      split
      · -- the denial: one member, the disjunction of the denials
        refine isReduced_freeClause.mpr ⟨.inl rfl, List.forall_mem_singleton.mpr ?_⟩
        exact joinRight_of_forall (P := fun u => u.isReduced = true)
          (fun _ _ hl hr => isReduced_conn.mpr ⟨rfl, .inr rfl, hl, hr⟩) (hall true)
      · exact isReduced_freeClause.mpr ⟨.inl rfl, hall false⟩

theorem nnf_of_isReduced (h : t.isReduced = true) : t.nnf false = t := by
  induction t using induct with
  | lit n a | var n x | rel n a ts ih | fn n a t ih => rfl
  | quant n q x t ih =>
    obtain ⟨rfl, ht⟩ := isReduced_quant.mp h
    rw [nnf, if_neg (by decide), ih ht]
  | conn n c l r ihl ihr =>
    obtain ⟨rfl, hc, hl, hr⟩ := isReduced_conn.mp h
    rcases hc with rfl | rfl <;> rw [nnf, if_neg (by decide), ihl hl, ihr hr]
  | freeClause n ts ih =>
    obtain ⟨hn, hts⟩ := isReduced_freeClause.mp h
    cases ts with
    | nil => cases n <;> rfl
    | cons t ts =>
      obtain rfl : n = false := by simpa using hn
      have hmap : (t :: ts).map (nnf false) = t :: ts :=
        (List.map_congr_left fun u hu => ih u hu (hts u hu)).trans (List.map_id' _)
      rw [nnf, if_neg (by decide), nnfAll_eq_map, ← List.map_cons, hmap]

theorem eliminate_of_isReduced (h : t.isReduced = true) : t.eliminate = t := by
  induction t using induct with
  | lit n a | var n x | rel n a ts ih | fn n a t ih => rfl
  | quant n q x t ih => rw [eliminate, ih (isReduced_quant.mp h).2]
  | conn n c l r ihl ihr =>
    obtain ⟨-, hc, hl, hr⟩ := isReduced_conn.mp h
    rcases hc with rfl | rfl <;> simp only [eliminate, ihl hl, ihr hr]
  | freeClause n ts ih =>
    have hts := (isReduced_freeClause.mp h).2
    have hmap : ts.map eliminate = ts :=
      (List.map_congr_left fun u hu => ih u hu (hts u hu)).trans (List.map_id' _)
    rw [eliminate, eliminateAll_eq_map, hmap]

/-- Normalization is idempotent, absorbs the removal of implications on both sides and leaves every normal form as it
is.  Besides normal forms, it keeps the denials of empty free clauses that stand in them, and nothing else. -/
theorem normal_form_stable (t : Term) :
    t.toNnf.toNnf = t.toNnf ∧ t.eliminate.toNnf = t.toNnf ∧ t.toNnf.eliminate = t.toNnf ∧
    (t.isNnf = true → t.toNnf = t) ∧ (t.toNnf = t ↔ t.isReduced = true) := by
  simp only [toNnf_eq]
  have hreduced := isReduced_nnf t false
  refine ⟨nnf_of_isReduced hreduced, nnf_eliminate t false, eliminate_of_isReduced hreduced,
    fun h => nnf_of_isReduced (isReduced_of_isNnf h), fun h => ?_, nnf_of_isReduced⟩
  rw [← h]
  exact hreduced

/-- The normal form of `tangled`. -/
def untangled : Term :=
  .or (.and (.freeClause false [.or (.lit true "a") (.var false "P")])
      (.quant false .forall "X" (.or (.rel true "p" [.var false "X"]) (.lit true "a"))))
    (.and (.quant false .exists "X" (.and (.rel false "p" [.var false "X"]) (.lit false "a")))
      (.freeClause false [.lit false "a", .var true "P"]))

theorem untangled_stable : tangled.toNnf = untangled ∧ untangled.isNnf = true ∧ untangled.toNnf = untangled :=
  ⟨rfl, rfl, (normal_form_stable untangled).2.2.2.1 rfl⟩

end Stable

/-! ## The loop -/

section Loop

namespace NnfTask

variable {n fuel : Nat} {task : NnfTask} {tasks tasks' tasks'' : List NnfTask} {results results' results'' : List Term}
  {out : List Term}

/-- The number of results that a task takes from the stack. -/
def needs : NnfTask → Nat
  | .visit _ => 0
  | .join _ => 2
  | .bind .. => 1
  | .gather n => n

/-- A turn fails just if results are missing. -/
theorem step_eq_none_iff : NnfTask.step task tasks results = none ↔ results.length < task.needs := by
  cases task with
  | visit t =>
    simp only [NnfTask.step, needs, Nat.not_lt_zero, iff_false]
    split <;> simp
  | join op =>
    rcases results with _ | ⟨right, _ | ⟨left, results⟩⟩
    · simp [NnfTask.step, needs]
    · simp [NnfTask.step, needs]
    · simp [NnfTask.step, needs]
  | bind q x =>
    cases results with
    | nil => simp [NnfTask.step, needs]
    | cons body results => simp [NnfTask.step, needs]
  | gather k => simp [NnfTask.step, needs]

/-- So many turns lead from the tasks and results to others. -/
inductive Turns : Nat → List NnfTask → List Term → List NnfTask → List Term → Prop where
  | refl (tasks : List NnfTask) (results : List Term) : Turns 0 tasks results tasks results
  | turn {n : Nat} {task : NnfTask} {tasks tasks' tasks'' : List NnfTask} {results results' results'' : List Term} :
      NnfTask.step task tasks results = some (tasks', results') → Turns n tasks' results' tasks'' results'' →
      Turns (n + 1) (task :: tasks) results tasks'' results''

/-- A loop that comes to its end does so from every state on its way. -/
theorem run_of_turns (h : Turns n tasks results tasks' results') (hrun : NnfTask.run fuel tasks results = some out) :
    ∃ rest, fuel = rest + n ∧ NnfTask.run rest tasks' results' = some out := by
  induction h generalizing fuel with
  | refl tasks results => exact ⟨fuel, rfl, hrun⟩
  | @turn n task tasks _ _ results _ _ hstep _ ih =>
    cases fuel with
    | zero => cases hrun
    | succ fuel =>
      rw [NnfTask.run, hstep] at hrun
      obtain ⟨rest, hfuel, hrest⟩ := ih hrun
      exact ⟨rest, by omega, hrest⟩

/-- A loop that comes to its end has the results for its next task. -/
theorem needs_le_of_run (hrun : NnfTask.run fuel (task :: tasks) results = some out) :
    task.needs ≤ results.length := by
  by_contra hmissing
  have hstuck : NnfTask.step task tasks results = none := step_eq_none_iff.mpr (Nat.lt_of_not_le hmissing)
  cases fuel with
  | zero => cases hrun
  | succ fuel =>
    rw [NnfTask.run, hstuck] at hrun
    cases hrun

theorem turns_of_run (hrun : NnfTask.run fuel tasks results = some out) : ∃ n, Turns n tasks results [] out := by
  induction fuel generalizing tasks results with
  | zero =>
    cases tasks with
    | nil =>
      cases hrun
      exact ⟨0, .refl [] _⟩
    | cons task tasks => cases hrun
  | succ fuel ih =>
    cases tasks with
    | nil =>
      cases hrun
      exact ⟨0, .refl [] _⟩
    | cons task tasks =>
      rw [NnfTask.run] at hrun
      split at hrun
      · next hstep =>
        obtain ⟨n, hn⟩ := ih hrun
        exact ⟨n + 1, .turn hstep hn⟩
      · cases hrun

end NnfTask

open NnfTask

/-- The loop that starts with a visit to the formula never lacks a result and makes a bounded number of turns.  It ends
with one result, the normal form by recursion on the formula without implications. -/
theorem loop_computes_nnf (t : Term) :
    (∀ n task tasks results, Turns n [.visit t] [] (task :: tasks) results → task.needs ≤ results.length) ∧
    (∀ n tasks results, Turns n [.visit t] [] tasks results → n ≤ t.nnfCost) ∧
    (∀ results, (∃ n, Turns n [.visit t] [] [] results) ↔ results = [t.toNnf]) ∧
    t.toNnf = t.eliminate.nnf false := by
  have hrun := run_nnfCost t
  rw [toNnf_eq]
  refine ⟨?_, ?_, fun results => ⟨?_, ?_⟩, (nnf_eliminate t false).symm⟩
  · intro n task tasks results hturns
    obtain ⟨rest, -, hrest⟩ := run_of_turns hturns hrun
    exact needs_le_of_run hrest
  · intro n tasks results hturns
    obtain ⟨rest, hcost, -⟩ := run_of_turns hturns hrun
    omega
  · rintro ⟨n, hturns⟩
    obtain ⟨rest, -, hrest⟩ := run_of_turns hturns hrun
    rw [NnfTask.run] at hrest
    exact Option.some.inj hrest
  · rintro rfl
    exact turns_of_run hrun

end Loop

end Term

end Clausal
