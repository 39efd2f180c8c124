/-!
# Clausal.Text.Span — tables of characters

A table lists code points by spans: from `lo` to `hi` in steps of one, or of two where members and non-members
alternate.
-/

namespace Clausal.Text

/-- The code points `lo, lo + step, …` up to `hi`. -/
structure Span where
  lo : Nat
  hi : Nat
  step : Nat
  deriving Repr

/-- `n` is one of the code points of the span. -/
def Span.contains (s : Span) (n : Nat) : Bool :=
  s.lo ≤ n && n ≤ s.hi && (n - s.lo) % s.step == 0

/-- `c` is in the table.  Spans are in ascending order, so the first that ends at `c` or after it decides. -/
def inTable (table : List Span) (c : Char) : Bool :=
  match table.find? (fun s => c.toNat ≤ s.hi) with
  | some s => s.contains c.toNat
  | none => false

end Clausal.Text
