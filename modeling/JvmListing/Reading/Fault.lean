/-
# Reading faults

Why a text is no listing.  A fault has a cause and a position; `Fault.message`
is the only place that knows the wording.
-/
import JvmListing.Text.Quoted
import JvmListing.Number.Literal
import JvmListing.Listing.Position

namespace JvmListing

/-- Why a text could not be read. -/
inductive Fault where
  /-- A certain character had to follow. -/
  | expectedChar (c : Char)
  /-- A certain construct had to follow. -/
  | expected (what : String)
  /-- A word had to follow, and the text ends or a delimiter stands there. -/
  | missing (what : String)
  /-- The text ends before a closing word. -/
  | unclosed (word : String)
  | openParenExpected
  | unterminatedString
  | invalidEscape
  | invalidUnicodeEscape
  | unterminatedChar
  | unclosedChar
  | unterminatedParams
  | unterminatedAnnot
  | unterminatedAnnotList
  | unclosedMethod
  | literalExpected (found : String)
  | constantExpected (found : String)
  | caseExpected (found : String)
  | unknownAnnotArg (found : String)
  | invalidDescriptor (text : String)
  | invalidFieldDescriptor (text : String)
  | noDefinition
  | secondDefinition
  | noResultType
  | inapplicableModifier (word : String)
  | inconvertible (kind : NumberKind) (text : String)
  | stringForNumber (text : String)
  | invalidLine (number : Int)
  | invalidDimensions (count : Int)
  | memberExpected (found : String)
  | unknownHandleTag (tag : String)
  | unknownArrayType (text : String)
  | unnamedAnnotArg
  /-- A table switch has another number of targets than its range asks for. -/
  | switchSize (min max : Int) (found : Nat)
  deriving DecidableEq, Repr

namespace Fault

def message : Fault → String
  | .expectedChar c => "Expected '" ++ String.singleton c ++ "'"
  | .expected what => "Expected " ++ what
  | .missing what => "Missing " ++ what
  | .unclosed word => "Missing '" ++ word ++ "'"
  | .openParenExpected => "Expected '(' after method name"
  | .unterminatedString => "Unterminated string literal"
  | .invalidEscape => "Invalid escape sequence"
  | .invalidUnicodeEscape => "Invalid unicode escape"
  | .unterminatedChar => "Unterminated char literal"
  | .unclosedChar => "Expected closing ' in char literal"
  | .unterminatedParams => "Unterminated parameter list"
  | .unterminatedAnnot => "Unterminated annotation"
  | .unterminatedAnnotList => "Unterminated annotation list"
  | .unclosedMethod => "Method body is missing 'end'"
  | .literalExpected found => "Expected literal, found '" ++ found ++ "'"
  | .constantExpected found => "Expected constant, found '" ++ found ++ "'"
  | .caseExpected found => "Expected case or default, found '" ++ found ++ "'"
  | .unknownAnnotArg found => "Unknown annotation argument: '" ++ found ++ "'"
  | .invalidDescriptor text => "Invalid descriptor: '" ++ text ++ "'"
  | .invalidFieldDescriptor text => "Invalid field descriptor: '" ++ text ++ "'"
  | .noDefinition => "No definition found!"
  | .secondDefinition => "Only one definition is allowed"
  | .noResultType => "Could not locate return type"
  | .inapplicableModifier word => "Modifier '" ++ word ++ "' does not apply here"
  | .inconvertible kind text => "Could not parse " ++ kind.name ++ " from: '" ++ text ++ "'"
  | .stringForNumber text => "Expected number, found string \"" ++ escapeVisible text ++ "\""
  | .invalidLine number => "Invalid line number: " ++ toString number
  | .invalidDimensions count => "Invalid array dimensions: " ++ toString count
  | .memberExpected found => "Expected owner.name, found '" ++ found ++ "'"
  | .unknownHandleTag tag => "Unknown handle tag '" ++ tag ++ "'"
  | .unknownArrayType text => "Unknown array type: '" ++ text ++ "'"
  | .unnamedAnnotArg => "Annotation argument did not contain name!"
  | .switchSize min max found =>
    "Table switch range " ++ toString min ++ ":" ++ toString max ++ " needs "
      ++ toString (max - min + 1).toNat ++ " offsets, found " ++ toString found

end Fault

/-- A fault with the place it was found at. -/
abbrev ReadError := Located Fault

/-- `line:column: message`. -/
def ReadError.text (e : ReadError) : String := e.position.text ++ ": " ++ e.value.message

end JvmListing
