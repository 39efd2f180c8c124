import Clausal.Text.Span

/-!
# Clausal.Text.Blank — white space

The characters with the Unicode property White_Space, and the text of a line without them at either end.
-/

namespace Clausal.Text

/-- The white space characters. -/
def blankSpans : List Span := [
  ⟨0x9, 0xd, 1⟩, ⟨0x20, 0x20, 1⟩, ⟨0x85, 0x85, 1⟩, ⟨0xa0, 0xa0, 1⟩, ⟨0x1680, 0x1680, 1⟩, ⟨0x2000, 0x200a, 1⟩,
  ⟨0x2028, 0x2029, 1⟩, ⟨0x202f, 0x202f, 1⟩, ⟨0x205f, 0x205f, 1⟩, ⟨0x3000, 0x3000, 1⟩]

/-- The character has the property White_Space. -/
def isBlank (c : Char) : Bool :=
  inTable blankSpans c

/-- The characters between the first and the last one that is not white space. -/
def trim (s : List Char) : List Char :=
  ((s.dropWhile isBlank).reverse.dropWhile isBlank).reverse

end Clausal.Text
