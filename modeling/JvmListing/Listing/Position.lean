/-
# Positions

Where something stands in a text: the line and column of its first character,
counted from 1, and the range of its characters.  What does not come from a text
stands at position zero.
-/

namespace JvmListing

/-- A range `[start, stop)` of characters with the line and column of its start. -/
structure Position where
  line : Nat := 0
  column : Nat := 0
  start : Nat := 0
  stop : Nat := 0
  deriving DecidableEq, Repr, Inhabited

/-- A value with the place it was written at. -/
structure Located (α : Type) where
  value : α
  position : Position := {}
  deriving DecidableEq, Repr

namespace Position

/-- The least range over both, with the line and column of the earlier one. -/
def merge (a b : Position) : Position :=
  let first := if a.start ≤ b.start then a else b
  ⟨first.line, first.column, min a.start b.start, max a.stop b.stop⟩

/-- `line:column`. -/
def text (p : Position) : String := toString p.line ++ ":" ++ toString p.column

end Position

end JvmListing
