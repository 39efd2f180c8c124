import Clausal.Proofs.ClauseForm.Truth

/-!
# Clausal.Proofs.ClauseForm.Valuation — formulas under any reading of their atoms

* `Valuation D`: says of every atomic term without its sign, a variable included, under which assignments it is true.
* `Term.IsTrue`, `Clause.IsTrue`, `KnowledgeBase.IsTrue`: what connectives, quantifiers, free clauses and signs make of
  that.
* `holds_iff_isTrue`: an interpretation is one such reading.
-/

universe u

namespace Clausal

variable {D : Type u}

/-- The truth of the atomic terms without their signs, under each assignment. -/
abbrev Valuation (D : Type u) := Term → (String → D) → Prop

namespace Term

mutual

/-- The truth of a formula whose atomic terms are read by `V`. -/
def IsTrue (V : Valuation D) : Term → (String → D) → Prop
  | .quant n q x t, v => polar n (q.Holds fun d => IsTrue V t (Function.update v x d))
  | .conn n c l r, v => polar n (c.Holds (IsTrue V l v) (IsTrue V r v))
  | .freeClause n ts, v => polar n (AreTrue V ts v)
  | t, v => polar t.isNegated (V t.positive v)

/-- The truth of all formulas of a list. -/
def AreTrue (V : Valuation D) : List Term → (String → D) → Prop
  | [], _ => True
  | t :: ts, v => IsTrue V t v ∧ AreTrue V ts v

end

variable {V : Valuation D}

@[simp] theorem areTrue_iff {ts : List Term} {v : String → D} : AreTrue V ts v ↔ ∀ t ∈ ts, t.IsTrue V v := by
  induction ts with
  | nil => simp [AreTrue]
  | cons t ts ih => simp [AreTrue, ih]

theorem isTrue_of_isAtomic {t : Term} (ht : t.isAtomic = true) (v : String → D) :
    t.IsTrue V v ↔ polar t.isNegated (V t.positive v) := by
  cases t with
  | lit n a | var n x | rel n a ts | fn n a t => exact Iff.rfl
  | _ => cases ht

/-- The negation sign negates. -/
theorem isTrue_negate (t : Term) (v : String → D) : t.negate.IsTrue V v ↔ ¬ t.IsTrue V v := by
  cases t with
  | _ n => exact polar_not n _

theorem isTrue_signed (n : Bool) (t : Term) (v : String → D) : (signed n t).IsTrue V v ↔ polar n (t.IsTrue V v) := by
  cases n with
  | false => exact Iff.rfl
  | true => exact isTrue_negate t v

end Term

/-- The truth of a clause: one of its members is true, or none of them if the clause is negated. -/
def Clause.IsTrue (V : Valuation D) (c : Clause) (v : String → D) : Prop :=
  polar c.negated (∃ t ∈ c.members, t.IsTrue V v)

/-- The truth of all clauses. -/
def KnowledgeBase.IsTrue (V : Valuation D) (kb : KnowledgeBase) (v : String → D) : Prop :=
  ∀ c ∈ kb.clauses, c.IsTrue V v

/-! ## Interpretations -/

/-- What an interpretation says of the atomic terms. -/
def Interpretation.valuation (I : Interpretation D) : Valuation D :=
  fun t v => t.Holds I v

theorem Term.holds_iff_isTrue (I : Interpretation D) (t : Term) (v : String → D) :
    t.Holds I v ↔ t.IsTrue I.valuation v := by
  induction t using Term.induct generalizing v with
  | lit n a | var n x | rel n a ts ih | fn n a t ih => exact Iff.rfl
  | quant n q x t ih => exact polar_congr n (quantHolds_congr q fun d => ih _)
  | conn n c l r ihl ihr => simp only [Holds, IsTrue, ihl, ihr]
  | freeClause n ts ih =>
    refine polar_congr n ?_
    rw [holdAll_iff, areTrue_iff]
    exact forall₂_congr fun t ht => ih t ht v

end Clausal
