/-!
# Clausal.Term.Basic — terms and formulas

One tree type covers first-order terms (constants, variables, applications) and the formulas built over them.

* `Term`: every node carries its own negation flag; negating a node never touches its children.
* `Term.same`: equality of terms.  The flag of a variable occurrence is its polarity, not part of its identity, so
  `X` and `¬X` are the same term; every other flag counts.
* `Term.negate`, `Term.positive`, `Term.signed`: the flag operations.
-/

namespace Clausal

/-- The two quantifiers. -/
inductive Quant where
  | exists
  | forall
  deriving DecidableEq, Repr, Inhabited

/-- The quantifier that negation turns `q` into. -/
def Quant.dual : Quant → Quant
  | .exists => .forall
  | .forall => .exists

/-- The binary connectives. -/
inductive Connective where
  | and
  | or
  | implies
  | iff
  deriving DecidableEq, Repr, Inhabited

/-- A term or formula.  `neg` is the negation flag of the node itself. -/
inductive Term where
  /-- A proposition, or a constant in argument position. -/
  | lit (neg : Bool) (name : String)
  /-- An occurrence of a variable. -/
  | var (neg : Bool) (name : String)
  /-- A relation applied to its arguments. -/
  | rel (neg : Bool) (name : String) (args : List Term)
  /-- A function of one argument. -/
  | fn (neg : Bool) (name : String) (arg : Term)
  /-- A quantified formula. -/
  | quant (neg : Bool) (kind : Quant) (binder : String) (body : Term)
  /-- Two formulas joined by a connective. -/
  | conn (neg : Bool) (op : Connective) (left right : Term)
  /-- An ordered conjunction of separately stated formulas. -/
  | freeClause (neg : Bool) (members : List Term)
  deriving Repr, Inhabited

namespace Term

/-! ## Plain constructors -/

/-- The un-negated constant `name`. -/
abbrev const (name : String) : Term := .lit false name

/-- `a ∧ b`. -/
abbrev and (a b : Term) : Term := .conn false .and a b

/-- `a ∨ b`. -/
abbrev or (a b : Term) : Term := .conn false .or a b

/-- `a ⇒ b`. -/
abbrev implies (a b : Term) : Term := .conn false .implies a b

/-- `a ⇔ b`. -/
abbrev iff (a b : Term) : Term := .conn false .iff a b

/-! ## Negation flags -/

/-- The negation flag of the root. -/
def isNegated : Term → Bool
  | .lit n _ | .var n _ | .rel n _ _ | .fn n _ _ | .quant n _ _ _ | .conn n _ _ _ | .freeClause n _ => n

/-- The same node with the given flag. -/
def withFlag (flag : Bool) : Term → Term
  | .lit _ a => .lit flag a
  | .var _ a => .var flag a
  | .rel _ a ts => .rel flag a ts
  | .fn _ a t => .fn flag a t
  | .quant _ q x t => .quant flag q x t
  | .conn _ c l r => .conn flag c l r
  | .freeClause _ ts => .freeClause flag ts

/-- The root with its flag flipped. -/
def negate (t : Term) : Term :=
  t.withFlag (!t.isNegated)

/-- The root with its flag cleared. -/
def positive (t : Term) : Term :=
  t.withFlag false

/-- What an occurrence of sign `neg` of a variable stands for when the variable stands for `t`. -/
def signed (neg : Bool) (t : Term) : Term :=
  if neg then t.negate else t

/-! ## Shape -/

/-- Atomic terms are the members a clause is made of. -/
def isAtomic : Term → Bool
  | .lit .. | .var .. | .rel .. | .fn .. => true
  | .quant .. | .conn .. | .freeClause .. => false

/-- The symbol of an atomic term. -/
def symbol? : Term → Option String
  | .lit _ a | .var _ a | .rel _ a _ | .fn _ a _ => some a
  | .quant .. | .conn .. | .freeClause .. => none

/-- The parts directly below the root, left to right. -/
def children : Term → List Term
  | .lit .. | .var .. => []
  | .rel _ _ ts | .freeClause _ ts => ts
  | .fn _ _ t | .quant _ _ _ t => [t]
  | .conn _ _ l r => [l, r]

/-! ## Equality -/

mutual

/-- Equality of terms: as trees, but blind to the flags of variable occurrences. -/
def same : Term → Term → Bool
  | .lit n a, .lit m b => n == m && a == b
  | .var _ a, .var _ b => a == b
  | .rel n a ts, .rel m b us => n == m && a == b && sameAll ts us
  | .fn n a t, .fn m b u => n == m && a == b && same t u
  | .quant n q x t, .quant m r y u => n == m && q == r && x == y && same t u
  | .conn n c l r, .conn m d k s => n == m && c == d && same l k && same r s
  | .freeClause n ts, .freeClause m us => n == m && sameAll ts us
  | _, _ => false

/-- `same` member by member. -/
def sameAll : List Term → List Term → Bool
  | [], [] => true
  | t :: ts, u :: us => same t u && sameAll ts us
  | _, _ => false

end

/-- A sign moves from one side to the other. -/
theorem same_signed (neg : Bool) (t u : Term) : (signed neg t).same u = t.same (signed neg u) := by
  have flip : ∀ a b : Bool, ((!a) == b) = (a == !b) := by decide
  cases neg with
  | false => rfl
  | true => cases t <;> cases u <;> simp [signed, negate, withFlag, isNegated, same, flip]

mutual

/-- `item` is `t` or lies inside it. -/
def isPartOf (item : Term) : Term → Bool
  | .lit n a => same (.lit n a) item
  | .var n a => same (.var n a) item
  | .rel n a ts => same (.rel n a ts) item || isPartOfAny item ts
  | .fn n a t => same (.fn n a t) item || isPartOf item t
  | .quant n q x t => same (.quant n q x t) item || isPartOf item t
  | .conn n c l r => same (.conn n c l r) item || isPartOf item l || isPartOf item r
  | .freeClause n ts => same (.freeClause n ts) item || isPartOfAny item ts

/-- `item` lies in one of the terms. -/
def isPartOfAny (item : Term) : List Term → Bool
  | [] => false
  | t :: ts => isPartOf item t || isPartOfAny item ts

end

end Term

end Clausal
