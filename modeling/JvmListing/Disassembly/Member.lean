/-
# Disassembly

Stored members become listings.  The labels of a method get generated names in
the order they appear, its slots get names from `Namer`, and a body always has a
label before its first load or store and a label at its end.
-/
import JvmListing.Listing.Stored
import JvmListing.Disassembly.LabelName
import JvmListing.Disassembly.Naming

namespace JvmListing

/-- Why a stored method has no listing. -/
inductive DisassemblyFault where
  | invalidDescriptor (desc : String)
  | unknownLabel (id : LabelId)
  | invalidArrayType (code : Int32)
  | notAVariable (op : Opcode)
  deriving DecidableEq, Repr

def DisassemblyFault.message : DisassemblyFault → String
  | .invalidDescriptor desc => "Invalid method descriptor: " ++ desc
  | .unknownLabel id => "Unmapped label instance to name! (L" ++ toString id ++ ")"
  | .invalidArrayType code => "Invalid newarray type: " ++ toString code.toInt
  | .notAVariable op => "Opcode " ++ op.title ++ " does not take a variable"

abbrev DisassemblyResult := Except DisassemblyFault

/-! ## Labels -/

/-- The names of the labels of a method. -/
structure LabelNames where
  /-- What every name begins with. -/
  stem : String
  names : List (LabelId × String) := []
  /-- How many names there are. -/
  count : Nat := 0
  /-- The name of a label to put in front of the body. -/
  leading : Option String := none

namespace LabelNames

/-- The next name. -/
def next (l : LabelNames) : String := l.stem ++ labelName l.count

/-- Names a label, unless it has a name. -/
def add (l : LabelNames) (id : LabelId) : LabelNames :=
  if (l.names.lookup id).isSome then l
  else { l with names := l.names ++ [(id, l.next)], count := l.count + 1 }

/-- Takes a name for a label in front, unless there is any label. -/
def lead (l : LabelNames) : LabelNames :=
  if l.count = 0 then { l with leading := some l.next, count := 1 } else l

/-- Goes over an instruction: a declared label gets a name, and a variable that is
touched before any label asks for one in front. -/
def visit (l : LabelNames) : Insn → LabelNames
  | .label id => l.add id
  | .var .. => l.lead
  | _ => l

/-- The names of the labels of an instruction list. -/
def ofInsns (stem : String) (insns : List Insn) : LabelNames :=
  let named := insns.foldl visit { stem := stem }
  if insns.isEmpty then named else named.lead

/-- The name of a label. -/
def get (l : LabelNames) (id : LabelId) : DisassemblyResult String :=
  match l.names.lookup id with
  | some name => .ok name
  | none => .error (.unknownLabel id)

end LabelNames

/-! ## Instructions -/

/-- The names of variables at a place in a method. -/
structure VarNames where
  namer : Namer
  replay : SlotReplay := {}

namespace VarNames

/-- Names a parameter. -/
def declare (v : VarNames) (t : Ty) (slot : Nat) : String × VarNames :=
  let (name, namer) := v.namer.name .param t slot
  (name, ⟨namer.addParam slot name, v.replay.declare name slot t.size⟩)

/-- Names the variable of an instruction. -/
def use (v : VarNames) (index : Nat) (t : Ty) (slot : Nat) : String × VarNames :=
  let (name, namer) := v.namer.name (.insn index) t slot
  let (text, replay) := v.replay.resolve name slot t.size
  (text, ⟨namer, replay⟩)

end VarNames

/-- The written form of an instruction other than a label, at an index. -/
def liftInsn (labels : LabelNames) (index : Nat) (vars : VarNames) :
    Insn → DisassemblyResult (Operation × VarNames)
  | .plain op => .ok (.plain op, vars)
  | .int op operand =>
    if op = .newarray then
      match Prim.ofArrayCode? operand.toInt with
      | some p => .ok (.newArray (.prim p), vars)
      | none => .error (.invalidArrayType operand)
    else .ok (.int op operand, vars)
  | .var op slot =>
    match op.varType? with
    | none => .error (.notAVariable op)
    | some t =>
      let (name, vars) := vars.use index t slot.toNat
      .ok (.var op name, vars)
  | .iinc slot increment =>
    let (name, vars) := vars.use index .int slot.toNat
    .ok (.iinc name increment, vars)
  | .type op desc => .ok (.type op desc, vars)
  | .field op owner name desc => .ok (.field op owner name desc, vars)
  | .method op owner name desc itf => .ok (.method op owner name desc itf, vars)
  | .invokeDynamic name desc bootstrap args =>
    .ok (.invokeDynamic name desc bootstrap.toRef (args.map (·.map Handle.toRef)), vars)
  | .ldc value => .ok (.ldc (value.map Handle.toRef), vars)
  | .jump op target => do return (.jump op (← labels.get target), vars)
  | .tableSwitch min max default targets => do
    let targets ← targets.mapM labels.get
    return (.tableSwitch min max targets (← labels.get default), vars)
  | .lookupSwitch default keys targets => do
    let cases ← (keys.zip targets).mapM fun (key, target) => do
      return SwitchCase.mk key (← labels.get target)
    return (.lookupSwitch cases (← labels.get default), vars)
  | .multiArray desc dims => .ok (.multiArray desc dims, vars)
  | .line number start => do return (.line (← labels.get start) number, vars)
  | .label id => .error (.unknownLabel id)

/-- The entries of instructions, of which the first has an index. -/
def liftInsns (labels : LabelNames) : Nat → VarNames → List Insn → DisassemblyResult Code
  | _, _, [] => .ok []
  | index, vars, .label id :: rest => do
    let name ← labels.get id
    return ⟨.label name, {}⟩ :: (← liftInsns labels (index + 1) vars rest)
  | index, vars, insn :: rest => do
    let (op, vars) ← liftInsn labels index vars insn
    return ⟨.operation op, {}⟩ :: (← liftInsns labels (index + 1) vars rest)

/-- The entry of an exception handler. -/
def liftBlock (labels : LabelNames) (b : TryBlock) : DisassemblyResult Entry := do
  let start ← labels.get b.start
  let stop ← labels.get b.stop
  let handler ← labels.get b.handler
  return ⟨.tryCatch start stop handler b.caught, {}⟩

/-! ## Methods -/

/-- Names the parameters of a method from a slot on. -/
def nameParams : VarNames → Nat → List Ty → List Param × VarNames
  | vars, _, [] => ([], vars)
  | vars, slot, t :: rest =>
    let (name, vars) := vars.declare t slot
    let (params, vars) := nameParams vars (min (slot + t.size) slotLimit) rest
    (⟨t.descriptor, name, {}⟩ :: params, vars)

/-- A signature that says more than the descriptor. -/
def distinctSignature (signature : Option String) (desc : String) : Option (Located String) :=
  (signature.filter (· ≠ desc)).map (⟨·, {}⟩)

/-- The attributes of a stored member. -/
def liftAttributes (access : Access) (signature : Option (Located String))
    (exceptions : List String) (visible invisible : List AnnotNode) : Attributes :=
  ⟨signature, exceptions.map (⟨·, {}⟩), writeAnnots visible invisible,
   Access.has access Access.deprecated⟩

/-- The label at the end of a body that does not end with one. -/
def trailingLabel (labels : LabelNames) (insns : List Insn) : Code :=
  match insns.getLast? with
  | some last => if last.isLabel then [] else [⟨.label labels.next, {}⟩]
  | none => []

/-- The definition and the body of a stored method.  Label names begin with `stem`,
and `namer` may know names already. -/
def liftMethod (stem : String) (namer : Namer) : DisassemblyResult (MethodDef × Code) := do
  let m := namer.method
  let labels := LabelNames.ofInsns stem m.insns
  match Ty.readMethod? m.desc with
  | none => throw (.invalidDescriptor m.desc)
  | some (types, result) =>
    let isStatic := Access.isStatic m.access
    let replay : SlotReplay := if isStatic then {} else SlotReplay.declare {} "this" 0 1
    let (params, vars) := nameParams ⟨namer, replay⟩ (if isStatic then 0 else 1) types
    let attributes :=
      liftAttributes m.access (distinctSignature m.signature m.desc) m.exceptions
        m.visible m.invisible
    let handlers ← m.blocks.mapM (liftBlock labels)
    let body ← liftInsns labels 0 vars m.insns
    let leading : Code := labels.leading.toList.map fun name => ⟨.label name, {}⟩
    let definition : MethodDef :=
      ⟨Access.applicable m.access .method, m.name, params, result.descriptor, attributes, {}⟩
    return (definition, handlers ++ leading ++ body ++ trailingLabel labels m.insns)

/-- The listing of a stored method, with the names of `slots` for its slots. -/
def disassembleMethod (stem : String) (slots : SlotTable) (m : MethodNode) :
    DisassemblyResult Listing := do
  let (definition, code) ← liftMethod stem (Namer.prepopulate { method := m } slots)
  return ⟨.method definition, some code⟩

/-! ## Fields and classes -/

/-- The literal that a constant is. -/
def literalOfConst? : Const Handle → Option Literal
  | .literal l => some l
  | _ => none

/-- The definition of a stored field. -/
def liftField (f : FieldNode) : FieldDef :=
  { access := Access.applicable f.access .field
    name := f.name
    desc := f.desc
    value := (f.value.bind literalOfConst?).map (⟨·, {}⟩)
    attributes :=
      liftAttributes f.access (distinctSignature f.signature f.desc) [] f.visible f.invisible }

/-- The listing of a stored field. -/
def disassembleField (f : FieldNode) : Listing := ⟨.field (liftField f), none⟩

def liftComponent (c : ComponentNode) : Component :=
  ⟨c.name, c.desc, c.signature, writeAnnots c.visible c.invisible⟩

/-- The listing of a stored class with its members. -/
def disassembleClass (stem : String) (c : ClassNode) : DisassemblyResult Listing := do
  let methods ← c.methods.mapM fun m => liftMethod stem { method := m }
  let definition : ClassDef :=
    { access := Access.applicable c.access .classFile
      name := c.name
      superName := c.superName
      interfaces := c.interfaces
      version := c.version
      sourceFile := c.sourceFile
      innerClasses := c.innerClasses.map fun i =>
        { i with access := Access.applicable i.access .innerClass }
      nestHost := c.nestHost
      nestMembers := c.nestMembers
      permitted := c.permitted
      module := c.module
      record := c.record.map (·.map liftComponent)
      fields := c.fields.map liftField
      methods := methods
      attributes :=
        liftAttributes c.access (c.signature.map (⟨·, {}⟩)) [] c.visible c.invisible }
  return ⟨.class definition, none⟩

end JvmListing
