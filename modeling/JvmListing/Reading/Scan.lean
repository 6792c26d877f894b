/-
# Scans

A scan reads a construct at a cursor: it gives what was read and the cursor after
it, or a fault.  This module has the scans that both dialects are made of, down to
single words.  Blanks and comments between the parts of a construct are trivia and
are skipped; comments between constructs are entries and are not.
-/
import JvmListing.Reading.Cursor
import JvmListing.Reading.Lexeme
import JvmListing.Ty.Descriptor

namespace JvmListing

/-- Reads an `α` at a cursor. -/
abbrev Scan := StateT Cursor (Except ReadError)

namespace Scan

variable {α : Type}

/-- Fails at the cursor. -/
def fail (fault : Fault) : Scan α := fun c => .error ⟨fault, c.here⟩

/-- Fails with the range from an earlier cursor to this one. -/
def failSince (mark : Cursor) (fault : Fault) : Scan α := fun c => .error ⟨fault, mark.span c⟩

/-- The range from an earlier cursor to this one. -/
def since (mark : Cursor) : Scan Position := do return mark.span (← get)

/-- Moves on by a number of characters and gives them. -/
def take (n : Nat) : Scan String := fun c => .ok (String.ofList (c.rest.take n), c.advance n)

def atEnd : Scan Bool := do return (← get).rest.isEmpty

def peek? : Scan (Option Char) := do return (← get).rest.head?

def skipBlanks : Scan Unit := modify fun c => c.advance (Lexeme.blanksLength c.rest)

def skipTrivia : Scan Unit := modify fun c => c.advance (Lexeme.triviaLength c.rest)

/-- Moves over a character if it is next. -/
def eat (x : Char) : Scan Bool := fun c =>
  if c.rest.head? = some x then .ok (true, c.advance 1) else .ok (false, c)

/-- Moves over a character that has to be next. -/
def expect (x : Char) : Scan Unit := do
  if !(← eat x) then fail (.expectedChar x)

/-- The comment here, its markers included. -/
def comment? : Scan (Option String) := do
  match Lexeme.commentLength? (← get).rest with
  | some n => return some (← take n)
  | none => return none

/-- The characters up to a blank or a character of `stop`, possibly none. -/
def upTo (stop : Char → Bool) : Scan String := do
  take (Lexeme.wordLength stop (← get).rest)

/-- The characters up to a blank, possibly none. -/
def word : Scan String := upTo fun _ => false

/-- The word here, without moving. -/
def peekWord : Scan String := do
  let c ← get
  return String.ofList (c.rest.take (Lexeme.wordLength (fun _ => false) c.rest))

/-- Moves over a keyword in any case if it is next.  A keyword ends before a blank or `(`. -/
def eatKeyword (keyword : String) : Scan Bool := do
  let mark ← get
  let found ← upTo (· = '(')
  if sameFolded found keyword then return true
  set mark
  return false

/-- Moves over a keyword that has to be next; `what` says what is missing otherwise. -/
def expectKeyword (keyword what : String) : Scan Unit := do
  if !(← eatKeyword keyword) then fail (.expected what)

/-- The next word, which may not be missing. -/
def requiredWord (what : String) : Scan String := do
  skipTrivia
  let found ← word
  if found.isEmpty then fail (.missing what) else return found

/-- The characters up to a blank or a character of `stop`, which may not be none. -/
def requiredUpTo (stop : Char → Bool) (what : String) : Scan String := do
  let found ← upTo stop
  if found.isEmpty then fail (.missing what) else return found

/-! ## Descriptors

A descriptor is read character by character.  The scans of its parts say whether
the part is there; if it is not, they stop behind the character that shows it,
and the scan of the whole goes back to where it began. -/

/-- Moves over a class name and the `;` after it, in the characters at the cursor.
`named` says whether some of the name has been passed already. -/
def passClassName : Bool → List Char → Scan Bool
  | _, [] => return false
  | named, x :: cs => do
    modify Cursor.step
    if x = ';' then return named
    else if isBlank x then return false
    else passClassName true cs

/-- Moves over one type, which may be `void` if `voids` says so, in the characters
at the cursor. -/
def passTypeIn : Bool → List Char → Scan Bool
  | _, [] => return false
  | voids, x :: cs => do
    modify Cursor.step
    if x = 'V' then return voids
    else if x = '[' then passTypeIn false cs
    else if x = 'L' then passClassName false cs
    else return (Prim.ofLetter? x).isSome

def passType (voids : Bool) : Scan Bool := do passTypeIn voids (← get).rest

/-- Moves over parameter types and the `)` after them, at most `fuel` of them. -/
def passParams : Nat → Scan Bool
  | 0 => eat ')'
  | fuel + 1 => do
    if ← eat ')' then return true
    else if ← passType false then passParams fuel
    else return false

/-- Moves over a field or method descriptor. -/
def passDescriptor : Scan Bool := do
  if ← eat '(' then
    -- every type has a character, so these are enough
    if ← passParams (← get).rest.length then passType true else return false
  else passType false

/-- The text that `part` moves over.  If the part is not there the cursor is set back. -/
def passed? (part : Scan Bool) : Scan (Option String) := do
  let mark ← get
  if ← part then return some (mark.textTo (← get))
  else
    set mark
    return none

/-- The field or method descriptor here. -/
def descriptor? : Scan (Option String) := passed? passDescriptor

/-- The type here, which may be `void`. -/
def resultType? : Scan (Option String) := passed? (passType true)

/-! ## Literals and lists -/

/-- Runs a reader of a quoted literal; a fault spans what was read of the literal,
and a missing quote is a fault at the cursor. -/
def quoted (read : List Char → Except (Fault × Nat) (α × Nat)) : Scan α := fun c =>
  match read c.rest with
  | .ok (a, n) => .ok (a, c.advance n)
  | .error (fault, n) => .error ⟨fault, c.span (c.advance n)⟩

def stringLiteral : Scan String := quoted Lexeme.readString

def charLiteral : Scan Char := quoted Lexeme.readChar

/-- The text up to a closing word, without the blanks around it.  The word is passed. -/
def textUpToWord (closing : String) : Scan String := do
  let mark ← get
  match Lexeme.upToWord? closing (mark.rest.length + 1) mark.rest with
  | some (before, through) =>
    let _ ← take through
    return String.ofList (trimBlanks (mark.rest.take before))
  | none =>
    let _ ← take mark.rest.length
    failSince mark (.unclosed closing)

/-! ## Repetition -/

/-- What `item` gives until it gives nothing, at most `fuel` times. -/
def repeatUntil (item : Scan (Option α)) : Nat → Scan (List α)
  | 0 => return []
  | fuel + 1 => do
    match ← item with
    | none => return []
    | some a => return a :: (← repeatUntil item fuel)

/-- What `item` gives until it gives nothing.  An item that gives something moves
on, so there are no more items than characters. -/
def collect (item : Scan (Option α)) : Scan (List α) := do
  repeatUntil item ((← get).rest.length + 1)

/-- Items up to a closing character, with commas between or after them. -/
def delimited (close : Char) (item : Scan α) : Scan (List α) :=
  collect do
    skipTrivia
    if ← eat close then return none
    let a ← item
    skipTrivia
    let _ ← eat ','
    return some a

end Scan

end JvmListing
