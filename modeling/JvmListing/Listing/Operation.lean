/-
# Written instructions

What an instruction of a listing says: labels and local variables go by name.
-/
import JvmListing.Opcode
import JvmListing.Constant

namespace JvmListing

/-- One case of a lookup switch. -/
structure SwitchCase where
  key : Int32
  label : String
  deriving DecidableEq

/-- A written instruction. -/
inductive Operation where
  | plain (op : Opcode)
  /-- `bipush` and `sipush`. -/
  | int (op : Opcode) (value : Int32)
  /-- `newarray` with the type of its elements. -/
  | newArray (element : Ty)
  | var (op : Opcode) (name : String)
  | type (op : Opcode) (desc : String)
  | field (op : Opcode) (owner name desc : String)
  | method (op : Opcode) (owner name desc : String) (itf : Bool)
  | invokeDynamic (name desc : String) (bootstrap : HandleRef) (args : List (Const HandleRef))
  | ldc (value : Const HandleRef)
  | jump (op : Opcode) (label : String)
  | iinc (name : String) (increment : Int32)
  | multiArray (desc : String) (dims : UInt8)
  | lookupSwitch (cases : List SwitchCase) (default : String)
  | tableSwitch (min max : Int32) (labels : List String) (default : String)
  | line (label : String) (number : Nat)
  deriving DecidableEq

/-- A local variable named by an instruction. -/
structure VarRef where
  name : String
  /-- The type that the opcode implies. -/
  type : Ty
  use : VarUse
  deriving DecidableEq

namespace Operation

/-- The opcode, which a line marker does not have. -/
def opcode? : Operation → Option Opcode
  | .plain op | .int op _ | .var op _ | .type op _ | .field op .. | .method op .. | .jump op _ =>
    some op
  | .newArray _ => some .newarray
  | .invokeDynamic .. => some .invokedynamic
  | .ldc _ => some .ldc
  | .iinc .. => some .iinc
  | .multiArray .. => some .multianewarray
  | .lookupSwitch .. => some .lookupswitch
  | .tableSwitch .. => some .tableswitch
  | .line .. => none

/-- The reference to a local variable.  An instruction that is written with a variable but
has an opcode of another kind is none: it is stored with the slot that the name has, but the
variable is not used by it. -/
def varRef? : Operation → Option VarRef
  | .var op name =>
    match op.varType?, op.varUse? with
    | some t, some use => some ⟨name, t, use⟩
    | _, _ => none
  | .iinc name _ => some ⟨name, .int, .update⟩
  | _ => none

/-- The labels the instruction names, the default of a switch last. -/
def labelRefs : Operation → List String
  | .jump _ label => [label]
  | .line label _ => [label]
  | .lookupSwitch cases default => cases.map (·.label) ++ [default]
  | .tableSwitch _ _ labels default => labels ++ [default]
  | _ => []

end Operation

end JvmListing
