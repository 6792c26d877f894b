/-
# Assembly faults

Why a listing cannot be assembled.  Every fault belongs to a kind, and
`AssemblyFault.message` is the only place that knows the wording.
-/
import JvmListing.Text.Quoted
import JvmListing.Ty.Descriptor
import JvmListing.Listing.Position

namespace JvmListing

/-- What a fault is about. -/
inductive AssemblyFaultKind where
  /-- A label or a variable that nothing defines, or that is defined twice. -/
  | resolution
  /-- A local variable read as a type it does not hold. -/
  | typeConsistency
  /-- A slot that the upper half of a long or double takes. -/
  | wideSlot
  /-- A listing of the wrong shape. -/
  | structural
  /-- An embedded expression that does not compile. -/
  | expression
  deriving DecidableEq, Repr

/-- Why a listing could not be assembled. -/
inductive AssemblyFault where
  | unknownLabel (name : String)
  | repeatedLabel (name : String)
  | unknownVariable (name : String)
  | updateOfNonInt (name : String) (held : Ty)
  | incompatibleLoad (slot : Nat) (name : String) (loaded held : TypeKind)
  | reservedSlot
  | tooManySlots
  | illegalParam (name desc : String)
  | notMethod
  | notField
  | missingCode (name : String)
  | forbiddenCode (name : String)
  | illegalFieldDesc (name desc : String)
  | illegalArrayType (t : Ty)
  | noLabels
  | noStartLabel (name : String)
  | noEndLabel (name : String)
  | noClassSupplier
  | noExpressionCompiler
  | expressionFailed (reason : String)
  /-- There is no listing to assemble yet. -/
  | notGenerated
  deriving DecidableEq, Repr

namespace AssemblyFault

def kind : AssemblyFault → AssemblyFaultKind
  | .unknownLabel _ | .repeatedLabel _ | .unknownVariable _ => .resolution
  | .updateOfNonInt .. | .incompatibleLoad .. => .typeConsistency
  | .reservedSlot => .wideSlot
  | .expressionFailed _ => .expression
  | _ => .structural

def message : AssemblyFault → String
  | .unknownLabel name => "No identifier mapping to label instance for '" ++ name ++ "'"
  | .repeatedLabel name => "Label '" ++ name ++ "' is declared more than once"
  | .unknownVariable name => "No identifier mapping to variable slot for '" ++ name ++ "'"
  | .updateOfNonInt name held =>
    "Tried to update 'int' at '" ++ name ++ "', but type was: " ++ held.descriptor
  | .incompatibleLoad slot name loaded held =>
    "Incompatible variable type usage [" ++ toString slot ++ ":" ++ name ++ "] '" ++ loaded.name
      ++ "' with prior '" ++ held.name ++ "' value"
  | .reservedSlot => "Illegal usage of reserved wide slot!"
  | .tooManySlots => "Too many local variable slots"
  | .illegalParam name desc =>
    "Illegal parameter descriptor for '" ++ escapeVisible name ++ "': " ++ escapeVisible desc
  | .notMethod => "Unit does not define a method"
  | .notField => "Unit does not define a field"
  | .missingCode name => "Method '" ++ name ++ "' must have code"
  | .forbiddenCode name => "Method '" ++ name ++ "' is abstract or native and cannot have code"
  | .illegalFieldDesc name desc =>
    "Illegal field descriptor for '" ++ escapeVisible name ++ "': " ++ escapeVisible desc
  | .illegalArrayType t => "Illegal newarray type: " ++ t.descriptor
  | .noLabels => "Cannot compute variable ranges, the method declares no labels"
  | .noStartLabel name => "Failed to find start label for variable: " ++ name
  | .noEndLabel name => "Failed to find end label for variable: " ++ name
  | .noClassSupplier => "Expression not supported, translator not given class supplier!"
  | .noExpressionCompiler => "Expression not supported, no expression compiler given!"
  | .expressionFailed _ => "Failed to compile expression"
  | .notGenerated => "The instructions have not been successfully generated!"

/-- What another compiler said, as it is added to the message. -/
def reason : AssemblyFault → String
  | .expressionFailed reason => ": " ++ reason
  | _ => ""

end AssemblyFault

/-- A fault with the place it was found at. -/
abbrev AssemblyError := Located AssemblyFault

/-- `line:column: message`, with the reason of another compiler where there is one. -/
def AssemblyError.text (e : AssemblyError) : String :=
  e.position.text ++ ": " ++ e.value.message ++ e.value.reason

abbrev AssemblyResult := Except AssemblyError

end JvmListing
