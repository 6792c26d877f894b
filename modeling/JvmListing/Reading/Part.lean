/-
# Parts of constructs

The parts that both dialects spell alike: literals, labels, descriptors, member
references, modifiers and parameter lists.
-/
import JvmListing.Access
import JvmListing.Reading.Scan
import JvmListing.Reading.Clause

namespace JvmListing

namespace Scan

/-- Does the character end a literal or a name inside brackets? -/
def listStop (c : Char) : Bool := c = ',' || c = ')' || c = ']' || c = ':' || c = '='

/-! ## Literals, labels and types -/

/-- Is a literal next, trivia apart?  Skips the trivia. -/
def atLiteral : Scan Bool := do
  skipTrivia
  let c ← get
  match c.rest with
  | '"' :: _ => return true
  | '\'' :: _ => return true
  | [] => return false
  | cs => return looksNumeric (String.ofList (cs.take (Lexeme.wordLength listStop cs)))

/-- A literal, which has to be next. -/
def literal : Scan (Located RawLiteral) := do
  skipTrivia
  let mark ← get
  match mark.rest with
  | '"' :: _ =>
    let text ← stringLiteral
    return ⟨.string text, ← since mark⟩
  | '\'' :: _ =>
    let c ← charLiteral
    return ⟨.char c, ← since mark⟩
  | _ =>
    let token ← upTo listStop
    if looksNumeric token then return ⟨.number token, ← since mark⟩
    else failSince mark (.literalExpected token)

/-- The name of a label inside brackets. -/
def labelRef : Scan String := do
  skipTrivia
  requiredUpTo listStop "label name"

/-- A descriptor that stands for a type constant. -/
def typeConstant : Scan (Located String) := do
  skipTrivia
  let mark ← get
  match ← descriptor? with
  | some desc => return ⟨desc, ← since mark⟩
  | none =>
    let found ← upTo listStop
    failSince mark (.invalidDescriptor found)

/-! ## Members -/

/-- `owner.name`, up to a blank or a bracket. -/
def member : Scan (Located String) := do
  skipTrivia
  let mark ← get
  let text ← requiredUpTo (fun c => c = '(' || c = ')') "member reference"
  return ⟨text, ← since mark⟩

/-- The descriptor after a member reference. -/
def memberDesc : Scan String := do
  skipTrivia
  let mark ← get
  match ← descriptor? with
  | some desc => return desc
  | none =>
    let found ← upTo (· = ')')
    failSince mark (.invalidDescriptor found)

/-- The tag, member and descriptor of a handle. -/
def handleBody : Scan RawHandle := do
  skipTrivia
  let mark ← get
  let tag ← requiredUpTo (· = ')') "handle tag"
  let position ← since mark
  let found ← member
  let desc ← memberDesc
  return ⟨⟨tag, position⟩, found, desc⟩

/-! ## Headers -/

/-- Is the word a modifier of a method or a field? -/
def isModifier (word : String) : Bool :=
  (Access.ofModifier? .method word).isSome || (Access.ofModifier? .field word).isSome

/-- A modifier and the blanks after it.  A word that a bracket or the end follows is a name. -/
def modifier? : Scan (Option (Located String)) := do
  let mark ← get
  let found ← upTo (· = '(')
  let position ← since mark
  if isModifier found && (((← peek?).map isBlank).getD false) then
    skipBlanks
    return some ⟨found, position⟩
  set mark
  return none

/-- The modifiers in front of a name. -/
def modifiers : Scan (List (Located String)) := collect modifier?

/-- One parameter of a parameter list, or nothing after the closing bracket.  A
descriptor that is none is kept as it is written. -/
def param? : Scan (Option RawParam) := do
  skipBlanks
  if ← eat ')' then return none
  if ← atEnd then fail .unterminatedParams
  let mark ← get
  let stop := fun c : Char => decide (c = ',' ∨ c = ')')
  let desc ← match ← descriptor? with
    | some desc => pure desc
    | none => upTo stop
  skipBlanks
  let name ← upTo stop
  if name.isEmpty then failSince mark (.missing "parameter name")
  let position ← since mark
  skipBlanks
  let _ ← eat ','
  return some ⟨desc, name, position⟩

/-- The parameters in brackets and the result type after them. -/
def methodSignature : Scan (List RawParam × Option String) := do
  expect '('
  let params ← collect param?
  return (params, ← resultType?)

end Scan

/-- The name of the label that a word declares by a final colon. -/
def declaredLabel? (word : String) : Option String :=
  match word.toList.reverse with
  | ':' :: c :: cs => some (String.ofList (c :: cs).reverse)
  | _ => none

end JvmListing
