/-
# Cursors

A place in a text, with the characters that follow it.  A cursor moves on by
`step`, which counts lines and columns as it goes, so the position of everything
that is read follows from how many characters were passed.
-/
import JvmListing.Listing.Position

namespace JvmListing

/-- A place in a text. -/
structure Cursor where
  /-- The characters from here on. -/
  rest : List Char
  /-- The number of characters before. -/
  offset : Nat := 0
  line : Nat := 1
  column : Nat := 1
  deriving DecidableEq, Repr

namespace Cursor

/-- The start of a text. -/
def start (text : String) : Cursor := ⟨text.toList, 0, 1, 1⟩

/-- One character on.  At the end of the text the cursor stays. -/
def step (c : Cursor) : Cursor :=
  match c.rest with
  | [] => c
  | x :: rest =>
    if x = '\n' then ⟨rest, c.offset + 1, c.line + 1, 1⟩
    else ⟨rest, c.offset + 1, c.line, c.column + 1⟩

/-- A number of characters on. -/
def advance : Nat → Cursor → Cursor
  | 0, c => c
  | n + 1, c => advance n c.step

/-- The characters from an earlier cursor to a later one. -/
def textTo (first last : Cursor) : String :=
  String.ofList (first.rest.take (last.offset - first.offset))

/-- The range from an earlier cursor to a later one. -/
def span (first last : Cursor) : Position := ⟨first.line, first.column, first.offset, last.offset⟩

/-- The empty range at a cursor. -/
def here (c : Cursor) : Position := span c c

@[simp] theorem rest_step (c : Cursor) : c.step.rest = c.rest.drop 1 := by
  unfold step
  split
  · simp_all
  · split <;> simp_all

@[simp] theorem rest_advance (n : Nat) (c : Cursor) : (c.advance n).rest = c.rest.drop n := by
  induction n generalizing c with
  | zero => simp [advance]
  | succ n ih => simp [advance, ih]

@[simp] theorem advance_zero (c : Cursor) : c.advance 0 = c := rfl

theorem advance_add (m n : Nat) (c : Cursor) : c.advance (m + n) = (c.advance m).advance n := by
  induction m generalizing c with
  | zero => simp
  | succ m ih => rw [Nat.add_right_comm]; exact ih c.step

theorem offset_step (c : Cursor) : c.step.offset = c.offset + min 1 c.rest.length := by
  unfold Cursor.step
  cases hrest : c.rest with
  | nil => simp
  | cons x rest =>
      dsimp only
      split <;> simp

theorem offset_advance (n : Nat) : ∀ c : Cursor,
    (c.advance n).offset = c.offset + min n c.rest.length := by
  induction n with
  | zero =>
      intro c
      simp
  | succ n ih =>
      intro c
      show (c.step.advance n).offset = _
      rw [ih, offset_step, rest_step, List.length_drop]
      omega

end Cursor

end JvmListing
