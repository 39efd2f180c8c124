import Mathlib.Logic.Function.Basic
import Clausal.Clause
import Clausal.Proofs.Term.FreeVars

/-!
# Clausal.Proofs.ClauseForm.Truth — formulas in an interpretation

* `Interpretation D`: what the symbols mean over the domain `D`.  A name means one thing as a formula and another one
  as an argument; a relation in an argument is a compound term.
* `Interpretation.value`, `Term.Holds`, `Clause.Holds`, `KnowledgeBase.Holds`: the value of an argument, the truth of a
  formula, of a clause and of clauses together, under an assignment of values to the variables.
* `Term.isFormula`, `Term.isLiteral`: no variable stands for a formula, and arguments are un-negated first-order terms.
* `holds_congr`: truth depends on the free variables.
-/

universe u

namespace Clausal

/-- The meaning of the symbols over a domain, which has at least the element `point`. -/
structure Interpretation (D : Type u) where
  point : D
  constant : String → D
  function : String → D → D
  compound : String → List D → D
  proposition : String → Prop
  property : String → D → Prop
  relation : String → List D → Prop

variable {D : Type u} (I : Interpretation D)

/-! ## Values -/

namespace Interpretation

mutual

/-- The value of an argument; a formula as an argument has none of its own. -/
def value (v : String → D) : Term → D
  | .lit _ a => I.constant a
  | .var _ x => v x
  | .rel _ a ts => I.compound a (values v ts)
  | .fn _ a t => I.function a (value v t)
  | .quant .. | .conn .. | .freeClause .. => I.point

/-- The values of a list of arguments. -/
def values (v : String → D) : List Term → List D
  | [] => []
  | t :: ts => value v t :: values v ts

end

@[simp] theorem values_eq_map (v : String → D) (ts : List Term) : I.values v ts = ts.map (I.value v) := by
  induction ts with
  | nil => rfl
  | cons t ts ih => rw [values, ih, List.map_cons]

theorem value_congr {v w : String → D} {t : Term} (h : ∀ x, t.occursFree x = true → v x = w x) :
    I.value v t = I.value w t := by
  induction t using Term.induct with
  | lit n a => rfl
  | var n x => exact h x (by simp [Term.occursFree])
  | rel n a ts ih =>
    simp only [value, values_eq_map]
    congr 1
    refine List.map_congr_left fun t ht => ih t ht fun x hx => h x ?_
    rw [Term.occursFree, Term.occursFreeAny_eq_true]
    exact ⟨t, ht, hx⟩
  | fn n a t ih => rw [value, value, ih h]
  | quant n q x t ih | conn n c l r ihl ihr | freeClause n ts ih => rfl

end Interpretation

/-! ## Truth -/

/-- `p`, or its negation if the sign is set. -/
def polar (neg : Bool) (p : Prop) : Prop :=
  if neg then ¬ p else p

@[simp] theorem polar_false (p : Prop) : polar false p ↔ p := Iff.rfl

@[simp] theorem polar_true (p : Prop) : polar true p ↔ ¬ p := Iff.rfl

theorem polar_congr {p q : Prop} (n : Bool) (h : p ↔ q) : polar n p ↔ polar n q := by
  rw [h]

theorem polar_not (n : Bool) (p : Prop) : polar (!n) p ↔ ¬ polar n p := by
  cases n <;> simp

theorem polar_bne (n m : Bool) (p : Prop) : polar (n != m) p ↔ polar m (polar n p) := by
  cases n <;> cases m <;> simp

/-- What a connective says of two formulas. -/
def Connective.Holds : Connective → Prop → Prop → Prop
  | .and, p, q => p ∧ q
  | .or, p, q => p ∨ q
  | .implies, p, q => p → q
  | .iff, p, q => p ↔ q

/-- What a quantifier says of a property. -/
def Quant.Holds : Quant → (D → Prop) → Prop
  | .exists, p => ∃ d, p d
  | .forall, p => ∀ d, p d

namespace Term

mutual

/-- The truth of a formula under an assignment.  A variable is not a formula. -/
def Holds : Term → (String → D) → Prop
  | .lit n a, _ => polar n (I.proposition a)
  | .var n _, _ => polar n False
  | .rel n a ts, v => polar n (I.relation a (I.values v ts))
  | .fn n a t, v => polar n (I.property a (I.value v t))
  | .quant n q x t, v => polar n (q.Holds fun d => Holds t (Function.update v x d))
  | .conn n c l r, v => polar n (c.Holds (Holds l v) (Holds r v))
  | .freeClause n ts, v => polar n (HoldAll ts v)

/-- The truth of all formulas of a list. -/
def HoldAll : List Term → (String → D) → Prop
  | [], _ => True
  | t :: ts, v => Holds t v ∧ HoldAll ts v

end

variable {I}

@[simp] theorem holdAll_iff {ts : List Term} {v : String → D} : HoldAll I ts v ↔ ∀ t ∈ ts, t.Holds I v := by
  induction ts with
  | nil => simp [HoldAll]
  | cons t ts ih => simp [HoldAll, ih]

theorem update_agree {x : String} {t : Term} {v w : String → D}
    (h : ∀ y, (if y == x then false else t.occursFree y) = true → v y = w y) (d : D) :
    ∀ y, t.occursFree y = true → Function.update v x d y = Function.update w x d y := by
  intro y hy
  by_cases hyx : y = x
  · rw [hyx, Function.update_self, Function.update_self]
  · rw [Function.update_of_ne hyx, Function.update_of_ne hyx]
    exact h y (by simpa [hyx] using hy)

theorem quantHolds_congr (q : Quant) {p p' : D → Prop} (h : ∀ d, p d ↔ p' d) : q.Holds p ↔ q.Holds p' := by
  cases q with
  | «exists» => exact exists_congr h
  | «forall» => exact forall_congr' h

/-- Truth depends on the free variables. -/
theorem holds_congr {t : Term} {v w : String → D} (h : ∀ x, t.occursFree x = true → v x = w x) :
    t.Holds I v ↔ t.Holds I w := by
  induction t using induct generalizing v w with
  | lit n a | var n x => exact Iff.rfl
  | rel n a ts ih =>
    have hvals : I.values v ts = I.values w ts := by
      rw [I.values_eq_map, I.values_eq_map]
      refine List.map_congr_left fun t ht => I.value_congr fun x hx => h x ?_
      rw [occursFree, occursFreeAny_eq_true]
      exact ⟨t, ht, hx⟩
    simp only [Holds, hvals]
  | fn n a t ih =>
    have hval : I.value v t = I.value w t := I.value_congr h
    rw [Holds, Holds, hval]
  | quant n q x t ih => exact polar_congr n (quantHolds_congr q fun d => ih (update_agree h d))
  | conn n c l r ihl ihr =>
    have hl : l.Holds I v ↔ l.Holds I w := ihl fun x hx => h x (by simp [occursFree, hx])
    have hr : r.Holds I v ↔ r.Holds I w := ihr fun x hx => h x (by simp [occursFree, hx])
    simp only [Holds, hl, hr]
  | freeClause n ts ih =>
    refine polar_congr n ?_
    rw [holdAll_iff, holdAll_iff]
    refine forall₂_congr fun t ht => ih t ht fun x hx => h x ?_
    rw [occursFree, occursFreeAny_eq_true]
    exact ⟨t, ht, hx⟩

/-! ## Formulas -/

mutual

/-- A first-order term without negation signs. -/
def isArgument : Term → Bool
  | .lit n _ | .var n _ => !n
  | .rel n _ ts => !n && areArguments ts
  | .fn n _ t => !n && isArgument t
  | .quant .. | .conn .. | .freeClause .. => false

/-- All terms are first-order and without negation signs. -/
def areArguments : List Term → Bool
  | [] => true
  | t :: ts => isArgument t && areArguments ts

end

/-- An atomic formula, negated or not. -/
def isLiteral : Term → Bool
  | .lit .. => true
  | .rel _ _ ts => areArguments ts
  | .fn _ _ t => isArgument t
  | _ => false

mutual

/-- A formula whose atomic formulas have arguments without negation signs. -/
def isFormula : Term → Bool
  | .quant _ _ _ t => isFormula t
  | .conn _ _ l r => isFormula l && isFormula r
  | .freeClause _ ts => areFormulas ts
  | t => isLiteral t

/-- All terms are formulas. -/
def areFormulas : List Term → Bool
  | [] => true
  | t :: ts => isFormula t && areFormulas ts

end

@[simp] theorem areArguments_eq_true {ts : List Term} : areArguments ts = true ↔ ∀ t ∈ ts, t.isArgument = true := by
  induction ts with
  | nil => simp [areArguments]
  | cons t ts ih => simp [areArguments, ih]

@[simp] theorem areFormulas_eq_true {ts : List Term} : areFormulas ts = true ↔ ∀ t ∈ ts, t.isFormula = true := by
  induction ts with
  | nil => simp [areFormulas]
  | cons t ts ih => simp [areFormulas, ih]

/-- An argument is a first-order term without negated variables. -/
theorem firstOrder_of_isArgument {t : Term} (h : t.isArgument = true) :
    t.isFirstOrder = true ∧ t.isUnsigned = true := by
  induction t using induct with
  | lit n a => exact ⟨rfl, rfl⟩
  | var n x => exact ⟨rfl, h⟩
  | rel n a ts ih =>
    rw [isArgument, Bool.and_eq_true, areArguments_eq_true] at h
    rw [isFirstOrder, areFirstOrder_eq_true, isUnsigned, areUnsigned_eq_true]
    exact ⟨fun t ht => (ih t ht (h.2 t ht)).1, fun t ht => (ih t ht (h.2 t ht)).2⟩
  | fn n a t ih =>
    rw [isArgument, Bool.and_eq_true] at h
    exact ih h.2
  | quant n q x t ih | conn n c l r ihl ihr | freeClause n ts ih => cases h

theorem firstOrder_of_isLiteral {t : Term} (h : t.isLiteral = true) : t.isFirstOrder = true ∧ t.isUnsigned = true := by
  cases t with
  | lit n a => exact ⟨rfl, rfl⟩
  | rel n a ts =>
    rw [isLiteral, areArguments_eq_true] at h
    rw [isFirstOrder, areFirstOrder_eq_true, isUnsigned, areUnsigned_eq_true]
    exact ⟨fun t ht => (firstOrder_of_isArgument (h t ht)).1, fun t ht => (firstOrder_of_isArgument (h t ht)).2⟩
  | fn n a t =>
    have ht := firstOrder_of_isArgument (t := t) h
    exact ht
  | _ => cases h

end Term

/-- The truth of a clause: one of its members holds, or none of them if the clause is negated. -/
def Clause.Holds (c : Clause) (v : String → D) : Prop :=
  polar c.negated (∃ t ∈ c.members, t.Holds I v)

/-- The truth of all clauses. -/
def KnowledgeBase.Holds (kb : KnowledgeBase) (v : String → D) : Prop :=
  ∀ c ∈ kb.clauses, c.Holds I v

end Clausal
