import Clausal.Term.Basic

/-!
# Clausal.Term.Display — the text of a term

`Term.render` writes a term with logical signs: `p(X, a)`, `(a ∧ ¬b)`, `(∀ X p(X))`, `[a; b]`.  The sign of a
negated node stands before it, except that a quantifier has it inside its bracket: `(¬∀ X p(X))`.
-/

namespace Clausal

/-- `∃` or `∀`. -/
def Quant.glyph : Quant → String
  | .exists => "∃"
  | .forall => "∀"

/-- The sign between two operands. -/
def Connective.glyph : Connective → String
  | .and => "∧"
  | .or => "∨"
  | .implies => "⇒"
  | .iff => "⇔"

/-- The negation sign, or nothing. -/
def sign (neg : Bool) : String :=
  if neg then "¬" else ""

namespace Term

mutual

/-- The text of a term. -/
def render : Term → String
  | .lit n a => sign n ++ a
  | .var n a => sign n ++ a
  | .rel n a ts => sign n ++ a ++ "(" ++ ", ".intercalate (renderAll ts) ++ ")"
  | .fn n a t => sign n ++ a ++ "(" ++ render t ++ ")"
  | .quant n q x t => "(" ++ sign n ++ q.glyph ++ " " ++ x ++ " " ++ render t ++ ")"
  | .conn n c l r => sign n ++ "(" ++ render l ++ " " ++ c.glyph ++ " " ++ render r ++ ")"
  | .freeClause n ts => sign n ++ "[" ++ "; ".intercalate (renderAll ts) ++ "]"

/-- The texts of a list of terms. -/
def renderAll : List Term → List String
  | [] => []
  | t :: ts => render t :: renderAll ts

end

end Term

end Clausal
