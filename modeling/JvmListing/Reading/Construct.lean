/-
# Constructs

A whole text as a sequence of clauses, in either dialect.  At each place the
constructs are tried in a fixed order, and a word that starts none of them is
kept as unmatched, so only a construct that breaks off makes a text unreadable.

* A word may introduce a construct of its own (`Head`).
* The keyword dialect then tries a definition, until there is one; the directive
  dialect has the words `method` and `field` for that, and `end` for a body.
* A word that ends in a colon declares a label, and a mnemonic starts an
  instruction.
-/
import JvmListing.Reading.Operand

namespace JvmListing

/-- The constructs that a word of their own introduces. -/
inductive Head where
  | signature | throws | value | deprecated
  | annot (visible : Bool)
  | tryCatch | line | expression
  deriving DecidableEq, Repr

/-- The construct that a word introduces, in any case. -/
def Head.ofWord? (d : Dialect) (word : String) : Option Head :=
  match lowerCase word, d with
  | "signature", _ => some .signature
  | "throws", _ => some .throws
  | "value", _ => some .value
  | "deprecated", _ => some .deprecated
  | "visible_annotation", .keyword => some (.annot true)
  | "invisible_annotation", .keyword => some (.annot false)
  | "annotation", .directive => some (.annot true)
  | "invisible-annotation", .directive => some (.annot false)
  | "try", .keyword => some .tryCatch
  | "catch", .directive => some .tryCatch
  | "line", _ => some .line
  | "expr", _ => some .expression
  | _, _ => none

namespace Scan

/-- The type a handler catches; `*` is any. -/
def caughtType (word : String) : Option String := if word = "*" then none else some word

/-- The parts of an exception handler. -/
def tryCatch (d : Dialect) (mark : Cursor) : Scan Clause := do
  match d with
  | .keyword =>
    let start ← requiredWord "try start label"
    let stop ← requiredWord "try end label"
    skipTrivia
    expectKeyword "CATCH" "CATCH"
    expect '('
    skipTrivia
    let caught ← upTo (· = ')')
    expect ')'
    let handler ← requiredWord "handler label"
    return .tryCatch start stop handler (caughtType caught) (← since mark)
  | .directive =>
    let caught ← requiredWord "exception type"
    let start ← requiredWord "try start label"
    let stop ← requiredWord "try end label"
    let handler ← requiredWord "handler label"
    return .tryCatch start stop handler (caughtType caught) (← since mark)

/-- The word that closes an embedded expression. -/
def expressionEnd : Dialect → String
  | .keyword => "END"
  | .directive => "end"

/-- A construct that a word of its own introduces; the word is still to be passed. -/
def construct (d : Dialect) (head : Head) : Scan Clause := do
  let mark ← get
  let _ ← word
  match head with
  | .signature =>
    let value ← requiredWord "signature"
    return .signature ⟨value, ← since mark⟩
  | .throws =>
    let type ← requiredWord "exception type"
    return .throws ⟨type, ← since mark⟩
  | .value => return .value (← literal)
  | .deprecated => return .deprecated
  | .annot visible =>
    let a ← annot d visible
    return .annot (a.at (← since mark))
  | .tryCatch => tryCatch d mark
  | .line =>
    let label ← requiredWord "line label"
    let number ← literal
    return .line label number (← since mark)
  | .expression =>
    let code ← textUpToWord (expressionEnd d)
    return .expression ⟨code, ← since mark⟩

/-! ## Definitions -/

/-- Is the descriptor that of a field? -/
def isFieldDesc (desc : String) : Bool := desc.toList.head? ≠ some '('

/-- A definition of the keyword dialect: modifiers and a name, then parameters
and a result or, after blanks, a descriptor.  Anything else is no definition. -/
def keywordDefinition? : Scan (Option Clause) := do
  let mark ← get
  let found ← modifiers
  let name ← upTo (· = '(')
  if name.isEmpty || (declaredLabel? name).isSome then
    set mark
    return none
  if (← peek?) = some '(' then
    let (params, result) ← methodSignature
    return some (.method found name params result (← since mark))
  skipBlanks
  match ← descriptor? with
  | some desc =>
    if isFieldDesc desc && (((← peek?).map isBlank).getD true) then
      return some (.field found name desc none (← since mark))
    set mark
    return none
  | none =>
    set mark
    return none

/-- The header of a method after the word `method`, which stands at `mark`. -/
def directiveMethod (mark : Cursor) : Scan Clause := do
  skipTrivia
  let found ← modifiers
  let name ← upTo (· = '(')
  if name.isEmpty then failSince mark (.missing "method name")
  skipBlanks
  if (← peek?) ≠ some '(' then fail .openParenExpected
  let (params, result) ← methodSignature
  return .method found name params result (← since mark)

/-- The header of a field after the word `field`, which stands at `mark`. -/
def directiveField (mark : Cursor) : Scan Clause := do
  skipTrivia
  let found ← modifiers
  let name ← requiredWord "field name"
  skipTrivia
  match ← descriptor? with
  | none => fail (.invalidFieldDescriptor (← peekWord))
  | some desc =>
    if !isFieldDesc desc then fail (.invalidFieldDescriptor (← peekWord))
    let afterDesc ← get
    if ← atLiteral then
      let value ← literal
      return .field found name desc (some value) (← since mark)
    set afterDesc
    return .field found name desc none (← since mark)

/-! ## Whole texts -/

/-- A label, an instruction or an unmatched word; the word is still to be passed. -/
def wordClause (d : Dialect) (found : String) : Scan Clause := do
  let mark ← get
  let _ ← word
  match declaredLabel? found, Opcode.ofMnemonic? found with
  | some name, _ => return .label ⟨name, ← since mark⟩
  | none, some op =>
    let parts ← operands d op
    return .instruction op parts (← since mark)
  | none, none => return .unmatched ⟨found, ← since mark⟩

/-- How far a text has been read: is there a definition yet, and which method
header still waits for its `end`? -/
structure Progress where
  defined : Bool := false
  openMethod : Option Position := none

/-- The clause at a word of the keyword dialect. -/
def keywordClause (progress : Progress) : Scan (Clause × Progress) := do
  let found ← peekWord
  match Head.ofWord? .keyword found with
  | some head => return (← construct .keyword head, progress)
  | none =>
    match ← if progress.defined then pure none else keywordDefinition? with
    | some clause => return (clause, { progress with defined := true })
    | none => return (← wordClause .keyword found, progress)

/-- The clause at a word of the directive dialect. -/
def directiveClause (progress : Progress) : Scan (Clause × Progress) := do
  let mark ← get
  let found ← peekWord
  let lower := lowerCase found
  if lower = "method" && !progress.defined then
    let _ ← word
    let clause ← directiveMethod mark
    return (clause, ⟨true, some (← since mark)⟩)
  if lower = "field" && !progress.defined then
    let _ ← word
    return (← directiveField mark, { progress with defined := true })
  if lower = "end" && progress.openMethod.isSome then
    let _ ← word
    return (.bodyEnd, { progress with openMethod := none })
  match Head.ofWord? .directive found with
  | some head => return (← construct .directive head, progress)
  | none => return (← wordClause .directive found, progress)

/-- The clauses up to the end of the text, at most `fuel` of them. -/
def clausesIn (d : Dialect) : Nat → Progress → Scan (List Clause)
  | 0, _ => return []
  | fuel + 1, progress => do
    skipBlanks
    let mark ← get
    match ← comment? with
    | some text =>
      let clause := .comment ⟨text, ← since mark⟩
      return clause :: (← clausesIn d fuel progress)
    | none =>
      if ← atEnd then
        match progress.openMethod with
        | some position => throw ⟨.unclosedMethod, position⟩
        | none => return []
      else
        let (clause, next) ← match d with
          | .keyword => keywordClause progress
          | .directive => directiveClause progress
        return clause :: (← clausesIn d fuel next)

/-- The clauses of a text.  Every clause takes a character. -/
def clauses (d : Dialect) : Scan (List Clause) := do
  clausesIn d ((← get).rest.length + 1) {}

end Scan

end JvmListing
