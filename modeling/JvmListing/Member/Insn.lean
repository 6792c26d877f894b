/-
# Stored instructions

The instructions of a method as a class stores them: labels are numbers that are
unique within the method, local variables are slot numbers, and a label stands in
the list as an instruction of its own.
-/
import JvmListing.Opcode
import JvmListing.Constant

namespace JvmListing

/-- The identity of a label within one method.  A stored label has 32 bits.  The numbers here
have no bound, so they are the stored ones of a method as long as its labels, those of
fragments shifted behind the others, stay below `2 ^ 32`. -/
abbrev LabelId := Nat

/-- A stored instruction. -/
inductive Insn where
  | plain (op : Opcode)
  /-- `bipush`, `sipush` and `newarray`. -/
  | int (op : Opcode) (operand : Int32)
  | var (op : Opcode) (slot : UInt16)
  | type (op : Opcode) (desc : String)
  | field (op : Opcode) (owner name desc : String)
  | method (op : Opcode) (owner name desc : String) (itf : Bool)
  | invokeDynamic (name desc : String) (bootstrap : Handle) (args : List (Const Handle))
  | jump (op : Opcode) (target : LabelId)
  | label (id : LabelId)
  | ldc (value : Const Handle)
  | iinc (slot : UInt16) (increment : Int32)
  | tableSwitch (min max : Int32) (default : LabelId) (targets : List LabelId)
  | lookupSwitch (default : LabelId) (keys : List Int32) (targets : List LabelId)
  | multiArray (desc : String) (dims : UInt8)
  | line (number : Nat) (start : LabelId)
  deriving DecidableEq

namespace Insn

/-- The opcode, which labels and line markers do not have. -/
def opcode? : Insn → Option Opcode
  | .plain op | .int op _ | .var op _ | .type op _ | .field op .. | .method op .. | .jump op _ =>
    some op
  | .invokeDynamic .. => some .invokedynamic
  | .ldc _ => some .ldc
  | .iinc .. => some .iinc
  | .tableSwitch .. => some .tableswitch
  | .lookupSwitch .. => some .lookupswitch
  | .multiArray .. => some .multianewarray
  | .label _ | .line .. => none

/-- The label an instruction declares. -/
def label? : Insn → Option LabelId
  | .label id => some id
  | _ => none

def isLabel (insn : Insn) : Bool := insn.label?.isSome

/-- The labels an instruction refers to, the default of a switch last. -/
def labelRefs : Insn → List LabelId
  | .jump _ target => [target]
  | .line _ start => [start]
  | .tableSwitch _ _ default targets => targets ++ [default]
  | .lookupSwitch default _ targets => targets ++ [default]
  | _ => []

/-- The instruction with every label renamed, declared and referred to alike. -/
def mapLabels (f : LabelId → LabelId) : Insn → Insn
  | .jump op target => .jump op (f target)
  | .label id => .label (f id)
  | .tableSwitch min max default targets => .tableSwitch min max (f default) (targets.map f)
  | .lookupSwitch default keys targets => .lookupSwitch (f default) keys (targets.map f)
  | .line number start => .line number (f start)
  | insn => insn

end Insn

end JvmListing
