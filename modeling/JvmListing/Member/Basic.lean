/-
# Members

Methods, fields and classes as a class file holds them, already decoded: what
assembling a listing produces and what disassembling consumes.
-/
import JvmListing.Access
import JvmListing.Member.Insn
import JvmListing.Member.Annot

namespace JvmListing

/-- A range of instructions whose exceptions of one type go to a handler. -/
structure TryBlock where
  start : LabelId
  stop : LabelId
  handler : LabelId
  /-- Without a type the block catches everything. -/
  caught : Option String
  deriving DecidableEq

/-- An entry of the local variable table. -/
structure LocalVariable where
  name : String
  desc : String
  signature : Option String
  start : LabelId
  stop : LabelId
  slot : UInt16
  deriving DecidableEq

/-- A stored method. -/
structure MethodNode where
  access : Access := 0
  name : String
  desc : String
  signature : Option String := none
  exceptions : List String := []
  insns : List Insn := []
  blocks : List TryBlock := []
  locals : List LocalVariable := []
  maxStack : UInt16 := 0
  maxLocals : UInt16 := 0
  visible : List AnnotNode := []
  invisible : List AnnotNode := []

/-- A stored field. -/
structure FieldNode where
  access : Access := 0
  name : String
  desc : String
  signature : Option String := none
  value : Option (Const Handle) := none
  visible : List AnnotNode := []
  invisible : List AnnotNode := []

/-- A class named by the class that holds it. -/
structure InnerClass where
  name : String
  outerName : Option String
  innerName : Option String
  access : Access
  deriving DecidableEq

/-- A module that a module requires. -/
structure ModuleRequire where
  module : String
  access : Access
  version : Option String
  deriving DecidableEq

/-- A package that a module exports or opens. -/
structure ModulePackage where
  package : String
  access : Access
  modules : List String
  deriving DecidableEq

/-- A service that a module provides. -/
structure ModuleProvide where
  service : String
  providers : List String
  deriving DecidableEq

/-- A module declaration. -/
structure ModuleDecl where
  name : String
  access : Access
  version : Option String
  mainClass : Option String
  packages : List String
  requires : List ModuleRequire
  exported : List ModulePackage
  opened : List ModulePackage
  uses : List String
  provides : List ModuleProvide
  deriving DecidableEq

/-- A component of a stored record class. -/
structure ComponentNode where
  name : String
  desc : String
  signature : Option String
  visible : List AnnotNode
  invisible : List AnnotNode

/-- A stored class. -/
structure ClassNode where
  version : Nat
  access : Access
  name : String
  superName : Option String
  interfaces : List String
  signature : Option String
  sourceFile : Option String
  innerClasses : List InnerClass
  nestHost : Option String
  nestMembers : List String
  permitted : List String
  module : Option ModuleDecl
  /-- The components, if the class is a record. -/
  record : Option (List ComponentNode)
  fields : List FieldNode
  methods : List MethodNode
  visible : List AnnotNode
  invisible : List AnnotNode

namespace MethodNode

/-- The index of the instruction that declares a label. -/
def labelPosition? (m : MethodNode) (id : LabelId) : Option Nat :=
  m.insns.findIdx? fun insn => insn.label? == some id

/-- The labels that an instruction list declares or refers to. -/
def usedLabels (m : MethodNode) : List LabelId :=
  m.insns.flatMap fun insn => insn.label?.toList ++ insn.labelRefs

/-- A label above every label of the method, and 0 if it has none. -/
def freshLabel (m : MethodNode) : LabelId :=
  match m.usedLabels.max? with
  | some id => id + 1
  | none => 0

end MethodNode

end JvmListing
