/-
# Lowering

The entries of a body become stored instructions.  Labels are numbered in the
order they are declared.  An embedded expression becomes the fragment that its
compiler gives, with the labels of the fragment moved above all labels so far.
Every instruction keeps the index of the entry it comes from.
-/
import JvmListing.Assembly.SlotTable

namespace JvmListing

/-- Instructions for an expression, with labels of their own. -/
structure Fragment where
  insns : List Insn
  blocks : List TryBlock

/-- What an expression compiler is told about the method around an expression. -/
structure ExpressionContext where
  selfType : String
  methodName : String
  methodDesc : String
  /-- The class file of the declaring class, if it is known. -/
  classBytes : Option (List UInt8)
  slots : SlotTable

/-- What assembling may ask others for. -/
structure Helpers where
  /-- The closest common superclass of two classes. -/
  oracle : Option (String → String → String) := none
  /-- The class file of a class. -/
  classes : Option (String → Option (List UInt8)) := none
  /-- The fragment of an expression, or why there is none. -/
  expressions : Option (String → ExpressionContext → Except String Fragment) := none

/-- How far an entry of the local variable table reaches. -/
inductive VarRange where
  /-- From the first label to the last. -/
  | wholeMethod
  /-- From the last label before the first use to the first label after the last. -/
  | nearestLabels
  deriving DecidableEq, Repr

/-- Settings of an assembly. -/
structure AssemblyOptions where
  /-- The class that declares the method. -/
  selfType : String := Ty.rootClass
  range : VarRange := .wholeMethod
  /-- Is a local variable table made? -/
  emitLocals : Bool := true
  maxStack : UInt16 := 255

/-! ## Labels -/

/-- The declared labels, numbered in order from `known` on. -/
def numberLabels (known : List (String × LabelId)) :
    List (Located String) → AssemblyResult (List (String × LabelId))
  | [] => .ok known
  | label :: rest =>
    if (known.lookup label.value).isSome then
      .error ⟨.repeatedLabel label.value, label.position⟩
    else numberLabels (known ++ [(label.value, known.length)]) rest

/-- The labels of a body with their numbers. -/
def labelIds (code : Code) : AssemblyResult (List (String × LabelId)) :=
  numberLabels [] code.labels

/-! ## Instructions -/

/-- What lowering needs to know about the method. -/
structure LoweringContext where
  method : MethodDef
  options : AssemblyOptions
  helpers : Helpers
  labels : List (String × LabelId)
  slots : SlotTable

namespace LoweringContext

variable (ctx : LoweringContext)

/-- The number of a label that is used at `position`. -/
def label (name : String) (position : Position) : AssemblyResult LabelId :=
  match ctx.labels.lookup name with
  | some id => .ok id
  | none => .error ⟨.unknownLabel name, position⟩

/-- The slot of a variable that is used at `position`. -/
def slot (name : String) (position : Position) : AssemblyResult UInt16 :=
  match ctx.slots.slotOf? name with
  | some slot => .ok (UInt16.ofNat slot)
  | none => .error ⟨.unknownVariable name, position⟩

/-- The stored form of an instruction at `position`. -/
def lower (position : Position) : Operation → AssemblyResult Insn
  | .plain op => .ok (.plain op)
  | .int op value => .ok (.int op value)
  | .newArray t =>
    match t.arrayCode? with
    | some code => .ok (.int .newarray (Int32.ofNat code))
    | none => .error ⟨.illegalArrayType t, position⟩
  | .var op name => do return .var op (← ctx.slot name position)
  | .iinc name increment => do return .iinc (← ctx.slot name position) increment
  | .type op desc => .ok (.type op desc)
  | .field op owner name desc => .ok (.field op owner name desc)
  | .method op owner name desc itf => .ok (.method op owner name desc itf)
  | .invokeDynamic name desc bootstrap args =>
    .ok (.invokeDynamic name desc bootstrap.toHandle (args.map (·.map HandleRef.toHandle)))
  | .ldc value => .ok (.ldc (value.map HandleRef.toHandle))
  | .jump op label => do return .jump op (← ctx.label label position)
  | .multiArray desc dims => .ok (.multiArray desc dims)
  | .lookupSwitch cases default => do
    let targets ← cases.mapM fun c => ctx.label c.label position
    return .lookupSwitch (← ctx.label default position) (cases.map (·.key)) targets
  | .tableSwitch min max labels default => do
    let targets ← labels.mapM fun name => ctx.label name position
    return .tableSwitch min max (← ctx.label default position) targets
  | .line label number => do return .line number (← ctx.label label position)

/-! ## Expressions -/

/-- What the compiler of an expression in the method is told. -/
def expressionContext (classes : String → Option (List UInt8)) : ExpressionContext :=
  ⟨ctx.options.selfType, ctx.method.name, ctx.method.desc, classes ctx.options.selfType, ctx.slots⟩

/-- The fragment of an expression at `position`. -/
def compileExpression (code : String) (position : Position) : AssemblyResult Fragment :=
  match ctx.helpers.classes, ctx.helpers.expressions with
  | none, _ => .error ⟨.noClassSupplier, position⟩
  | some _, none => .error ⟨.noExpressionCompiler, position⟩
  | some classes, some compile =>
    match compile code (ctx.expressionContext classes) with
    | .ok fragment => .ok fragment
    | .error reason => .error ⟨.expressionFailed reason, position⟩

end LoweringContext

namespace Fragment

/-- The fragment with all labels moved up. -/
def shift (offset : Nat) (f : Fragment) : Fragment :=
  ⟨f.insns.map (Insn.mapLabels (· + offset)),
   f.blocks.map fun b => ⟨b.start + offset, b.stop + offset, b.handler + offset, b.caught⟩⟩

/-- The first number above the labels that the fragment declares. -/
def labelBound (f : Fragment) : Nat :=
  (f.insns.filterMap Insn.label?).foldl (fun bound id => max bound (id + 1)) 0

end Fragment

/-! ## Bodies -/

/-- The instructions of entries, each with the index of its entry, and the
exception handlers of the fragments among them. -/
structure Lowered where
  insns : List (Insn × Nat)
  blocks : List TryBlock

namespace LoweringContext

variable (ctx : LoweringContext)

/-- The instructions and handlers of one entry, and the first label number that is
free after it; `free` is the first before it. -/
def lowerEntry (free : Nat) (e : Entry) : AssemblyResult (Fragment × Nat) :=
  match e.value with
  | .label name => do return (⟨[.label (← ctx.label name e.position)], []⟩, free)
  | .operation op => do return (⟨[← ctx.lower e.position op], []⟩, free)
  | .expression code => do
    let fragment ← ctx.compileExpression code e.position
    return (fragment.shift free, free + fragment.labelBound)
  | _ => .ok (⟨[], []⟩, free)

/-- The instructions of entries, of which the first has an index. -/
def lowerEntries : Nat → Nat → Code → AssemblyResult Lowered
  | _, _, [] => .ok ⟨[], []⟩
  | index, free, e :: rest => do
    let (own, free) ← ctx.lowerEntry free e
    let others ← lowerEntries (index + 1) free rest
    return ⟨own.insns.map ((·, index)) ++ others.insns, own.blocks ++ others.blocks⟩

/-- The instructions of a body. -/
def lowerCode (code : Code) : AssemblyResult Lowered :=
  ctx.lowerEntries 0 ctx.labels.length code

/-- The entries that lowering gets to: all up to the first that fails. -/
def reached : Nat → Code → Code
  | _, [] => []
  | free, e :: rest =>
    match ctx.lowerEntry free e with
    | .ok (_, free) => e :: reached free rest
    | .error _ => [e]

/-- The expressions that the expression compiler is asked for while a body is
lowered, each with what it is told. -/
def consultations (code : Code) : List (String × ExpressionContext) :=
  match ctx.helpers.classes, ctx.helpers.expressions with
  | some classes, some _ =>
    (ctx.reached ctx.labels.length code).filterMap fun e =>
      match e.value with
      | .expression code => some (code, ctx.expressionContext classes)
      | _ => none
  | _, _ => []

end LoweringContext

end JvmListing
