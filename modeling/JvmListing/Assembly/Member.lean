/-
# Assembly

A listing of a method or a field becomes a stored member.  A method goes through
four stages: its labels are numbered, its variables get slots, its entries are
lowered, and the exception handlers and the local variable table are resolved.
-/
import JvmListing.Listing.Stored
import JvmListing.Assembly.LocalTable
import JvmListing.Assembly.Variables

namespace JvmListing

/-! ## Methods -/

/-- Does the entry become instructions? -/
def Statement.isExecutable : Statement → Bool
  | .operation _ | .expression _ => true
  | _ => false

/-- The method that a listing defines, with a body exactly where it needs one. -/
def assemblyMethod (l : Listing) : AssemblyResult MethodDef :=
  match l.method? with
  | none => .error ⟨.notMethod, l.definition.position⟩
  | some m =>
    let executable := l.body.any (·.value.isExecutable)
    if m.hasCode && !executable then .error ⟨.missingCode m.name, m.position⟩
    else if !m.hasCode && executable then .error ⟨.forbiddenCode m.name, m.position⟩
    else .ok m

/-- The exception handlers of a body. -/
def LoweringContext.handlers (ctx : LoweringContext) : Code → AssemblyResult (List TryBlock)
  | [] => .ok []
  | e :: rest =>
    match e.value with
    | .tryCatch start stop handler caught => do
      let start ← ctx.label start e.position
      let stop ← ctx.label stop e.position
      let handler ← ctx.label handler e.position
      return ⟨start, stop, handler, caught⟩ :: (← ctx.handlers rest)
    | _ => ctx.handlers rest

/-- A stored method with the way back to the entries it was made from. -/
structure AssembledMethod where
  method : MethodNode
  slots : SlotTable
  code : Code
  /-- The index of the entry behind each instruction. -/
  origins : List Nat

namespace AssembledMethod

/-- The entry that an instruction was made from. -/
def sourceOf? (a : AssembledMethod) (i : Nat) : Option Entry := a.origins[i]?.bind (a.code[·]?)

/-- The line of the entry that an instruction was made from. -/
def lineOf? (a : AssembledMethod) (i : Nat) : Option Nat := (a.sourceOf? i).map (·.position.line)

end AssembledMethod

/-- The flags of an element, with the one for deprecation where it is deprecated. -/
def storedAccess (access : Access) (attributes : Attributes) : Access :=
  if attributes.deprecated then access ||| Access.deprecated else access

/-- The last stage: handlers, local variables and all that is copied. -/
def LoweringContext.build (ctx : LoweringContext) (code : Code) (lowered : Lowered) :
    AssemblyResult AssembledMethod := do
  let m := ctx.method
  let blocks ← ctx.handlers code
  let locals ←
    if ctx.options.emitLocals && m.hasCode then ctx.localTable code else pure []
  let (visible, invisible) := storeAnnots (m.attributes.annots ++ code.annots)
  let method : MethodNode :=
    { access := storedAccess m.access m.attributes
      name := m.name
      desc := m.desc
      signature := code.signature?.or (m.attributes.signature.map (·.value))
      exceptions := m.attributes.thrown.map (·.value) ++ code.thrown
      insns := lowered.insns.map (·.1)
      blocks := blocks ++ lowered.blocks
      locals := locals
      maxStack := ctx.options.maxStack
      maxLocals := UInt16.ofNat ctx.slots.cap
      visible := visible
      invisible := invisible }
  return ⟨method, ctx.slots, code, lowered.insns.map (·.2)⟩

/-- The first two stages: a method whose labels have numbers and whose variables
have slots. -/
def loweringContext (options : AssemblyOptions) (helpers : Helpers) (l : Listing) :
    AssemblyResult LoweringContext := do
  let m ← assemblyMethod l
  let labels ← labelIds l.body
  let slots ← SlotTable.allocate options.selfType m l.body
  return ⟨m, options, helpers, labels, slots⟩

/-- The stored method of a listing. -/
def assembleMethod (options : AssemblyOptions) (helpers : Helpers) (l : Listing) :
    AssemblyResult AssembledMethod := do
  let ctx ← loweringContext options helpers l
  let lowered ← ctx.lowerCode l.body
  ctx.build l.body lowered

/-! ## Fields -/

/-- The stored field of a listing.  The last signature and value of the body take
the place of those of the definition, and its annotations come after. -/
def assembleField (l : Listing) : AssemblyResult FieldNode :=
  match l.field? with
  | none => .error ⟨.notField, l.definition.position⟩
  | some f =>
    if (Ty.ofFieldDescriptor? f.desc).isNone then
      .error ⟨.illegalFieldDesc f.name f.desc, f.position⟩
    else
      let code := l.body
      let value := (code.value?.or f.value).map (·.value)
      let (visible, invisible) := storeAnnots (f.attributes.annots ++ code.annots)
      .ok
        { access := storedAccess f.access f.attributes
          name := f.name
          desc := f.desc
          signature := code.signature?.or (f.attributes.signature.map (·.value))
          value := value.map .literal
          visible := visible
          invisible := invisible }

end JvmListing
