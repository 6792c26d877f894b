/-
# Generated label names

The labels of a stored method have no names, so they are called `A` to `Z`, `AA`,
`AB` and so on: every non-empty word over the capital letters once, short words
first and words of one length in alphabetical order.
-/

namespace JvmListing

/-- The capital letter with an index below 26. -/
def capitalLetter (i : Nat) : Char := Char.ofNat ('A'.toNat + i)

/-- The letters of the name with an index, at most `fuel + 1` of them. -/
def labelLetters : Nat → Nat → List Char
  | 0, index => [capitalLetter (index % 26)]
  | fuel + 1, index =>
    if index < 26 then [capitalLetter index]
    else labelLetters fuel (index / 26 - 1) ++ [capitalLetter (index % 26)]

/-- The label name with an index. -/
def labelName (index : Nat) : String := String.ofList (labelLetters index index)

end JvmListing
