/-
# Slots of local variables

Names are bound to slots in the order they appear.  A long or double in slot `i`
reserves slot `i + 1` until slot `i` is assigned something narrow.  A variable
may also be written as a number, which is its slot.

`SlotTable.use` is the rule for one use of a slot; `addThis`, `addParams` and
`addCode` are those for the uses of a method.  Loads and updates are checked against
the type that the slot holds.  The table of a method is made by the containers of
`JvmListing.Assembly.Variables`, which keep to these rules.
-/
import JvmListing.Listing.Basic
import JvmListing.Assembly.Fault

namespace JvmListing

/-- The number of slots a method can have. -/
def slotLimit : Nat := 65535

/-- Where a variable is used: at a position, and by an entry of the body unless it
is declared. -/
structure VarSource where
  position : Position
  entry : Option Nat := none
  deriving DecidableEq, Repr

/-- The slot that a purely numeric name stands for. -/
def rawSlot? (name : String) : Option Nat :=
  match readDigits? name.toList with
  | some n => if n ≤ slotLimit then some n else none
  | none => none

/-- How a slot is used: declared as `this` or a parameter, or by an instruction. -/
inductive UsageKind where
  | declared
  | instruction (use : VarUse)
  deriving DecidableEq, Repr

/-- What is known of one slot. -/
structure VarInfo where
  slot : Nat
  name : String
  /-- The recorded types without repetition, in the order they were first seen. -/
  usages : List Ty
  /-- The type that was recorded last. -/
  lastType : Ty
  sources : List VarSource
  /-- Did the slot ever hold a long or double? -/
  wide : Bool
  deriving DecidableEq

/-- The slots of a method. -/
structure SlotTable where
  /-- The slots in use, in the order they appeared. -/
  infos : List VarInfo := []
  /-- The slot each name is bound to. -/
  names : List (String × Nat) := []
  /-- The slots whose successor is reserved. -/
  wide : List Nat := []
  /-- The first slot above all slots that were ever used. -/
  cap : Nat := 0
  deriving DecidableEq

/-- An association list with a value for a key, in place of the value it had. -/
def bindKey {α β : Type} [DecidableEq α] (key : α) (value : β) : List (α × β) → List (α × β)
  | [] => [(key, value)]
  | (k, v) :: rest => if k = key then (k, value) :: rest else (k, v) :: bindKey key value rest

/-- Applies a step to each item in turn and stops at the first that fails, with
what was reached and the fault. -/
def runSteps {σ α ε : Type} (step : σ → α → Except ε σ) : σ → List α → σ × Option ε
  | s, [] => (s, none)
  | s, a :: rest =>
    match step s a with
    | .ok s' => runSteps step s' rest
    | .error e => (s, some e)

/-- The result of steps that all have to succeed. -/
def finished {σ ε : Type} : σ × Option ε → Except ε σ
  | (s, none) => .ok s
  | (_, some e) => .error e

namespace VarInfo

/-- Is a further use recorded as a type of the slot?  Primitives and assignments
are.  A reference of unknown class is not, where a reference is already held. -/
def records (info : VarInfo) (type : Ty) (kind : UsageKind) : Bool :=
  let vague := type.isRootClass && kind != .declared
  (type.isPrimitive || kind == .instruction .assign)
    && !(vague && info.lastType.kind.isReference)

/-- The slot after one more use.  A name gives way to another, but not to a number. -/
def use (info : VarInfo) (name : String) (type : Ty) (kind : UsageKind) (source : VarSource) :
    VarInfo :=
  let recorded := info.records type kind
  { info with
    name := if info.name.isEmpty || (rawSlot? name).isNone then name else info.name
    usages := if recorded && !info.usages.contains type then info.usages ++ [type] else info.usages
    lastType := if recorded then type else info.lastType
    sources := info.sources ++ [source]
    wide := info.wide || type.isWide }

/-- A slot after its first use. -/
def first (slot : Nat) (name : String) (type : Ty) (source : VarSource) : VarInfo :=
  ⟨slot, name, [type], type, [source], type.isWide⟩

end VarInfo

namespace SlotTable

/-- What is known of a slot. -/
def info? (t : SlotTable) (slot : Nat) : Option VarInfo := t.infos.find? (·.slot == slot)

/-- The slot a name is bound to. -/
def slotOf? (t : SlotTable) (name : String) : Option Nat := t.names.lookup name

/-- What is known of the slot a name is bound to. -/
def byName? (t : SlotTable) (name : String) : Option VarInfo := (t.slotOf? name).bind t.info?

/-- Puts a slot among slots in ascending order. -/
def insertBySlot (info : VarInfo) : List VarInfo → List VarInfo
  | [] => [info]
  | x :: rest => if info.slot ≤ x.slot then info :: x :: rest else x :: insertBySlot info rest

/-- The slots in ascending order. -/
def bySlot (t : SlotTable) : List VarInfo := t.infos.foldr insertBySlot []

/-- The slots in use after one more use of a slot. -/
def touch (slot : Nat) (name : String) (type : Ty) (kind : UsageKind) (source : VarSource) :
    List VarInfo → List VarInfo
  | [] => [.first slot name type source]
  | info :: rest =>
    if info.slot = slot then info.use name type kind source :: rest
    else info :: touch slot name type kind source rest

/-- Is the slot the upper half of a long or double? -/
def isReserved (t : SlotTable) (slot : Nat) : Bool := slot > 0 && t.wide.contains (slot - 1)

/-- Records a use of a slot under a name. -/
def use (t : SlotTable) (slot : Nat) (name : String) (type : Ty) (kind : UsageKind)
    (source : VarSource) : AssemblyResult SlotTable :=
  let stop := slot + max type.size 1
  if t.isReserved slot then .error ⟨.reservedSlot, source.position⟩
  else if slotLimit < stop then .error ⟨.tooManySlots, source.position⟩
  else
    .ok
      { infos := touch slot name type kind source t.infos
        names := bindKey name slot t.names
        wide :=
          if type.isWide then (if t.wide.contains slot then t.wide else slot :: t.wide)
          else if kind = .instruction .assign then t.wide.filter (· ≠ slot)
          else t.wide
        cap := max t.cap stop }

/-! ## The variables of a method -/

/-- Binds `this` to slot 0, unless the method is static. -/
def addThis (selfType : String) (m : MethodDef) (t : SlotTable) : AssemblyResult SlotTable :=
  if Access.isStatic m.access then .ok t
  else t.use 0 "this" (.object selfType) .declared ⟨m.position, none⟩

/-- Binds a parameter of a method to the next slot. -/
def addParam (m : MethodDef) (t : SlotTable) (p : Param) : AssemblyResult SlotTable :=
  match Ty.ofFieldDescriptor? p.desc with
  | none => .error ⟨.illegalParam p.name p.desc, m.position⟩
  | some type => t.use t.cap p.name type .declared ⟨p.position, none⟩

/-- Binds the parameters of a method, up to the first that cannot be. -/
def addParams (m : MethodDef) (t : SlotTable) : SlotTable × Option AssemblyError :=
  runSteps (addParam m) t m.params

/-- A use of a variable by an entry of a body. -/
structure Reference where
  ref : VarRef
  position : Position
  entry : Nat
  deriving DecidableEq

/-- The uses of variables in a body, in order. -/
def references (code : Code) : List Reference :=
  code.zipIdx.filterMap fun (e, i) =>
    (e.value.operation?.bind Operation.varRef?).map (⟨·, e.position, i⟩)

/-- Can a value held as one kind be loaded as another? -/
def loadable (loaded held : TypeKind) : Bool :=
  loaded == held || (loaded.isIntFamily && held.isIntFamily)
    || (loaded.isReference && held.isReference)

/-- Does the type that a slot holds admit the use? -/
def checkHeld (info : VarInfo) (r : Reference) : AssemblyResult Unit :=
  match r.ref.use with
  | .assign => .ok ()
  | .update =>
    if info.lastType.kind.isIntFamily then .ok ()
    else .error ⟨.updateOfNonInt r.ref.name info.lastType, r.position⟩
  | .load =>
    if loadable r.ref.type.kind info.lastType.kind then .ok ()
    else .error
      ⟨.incompatibleLoad info.slot info.name r.ref.type.kind info.lastType.kind, r.position⟩

/-- What is known of the slot that a name stands for: the one it is bound to, else
the one it is the number of. -/
def resolve? (t : SlotTable) (name : String) : Option VarInfo :=
  (t.byName? name).or ((rawSlot? name).bind t.info?)

/-- Records the use of a variable by an entry.  A new name takes the next slot, a
new number its own. -/
def addReference (t : SlotTable) (r : Reference) : AssemblyResult SlotTable :=
  let record (slot : Nat) :=
    t.use slot r.ref.name r.ref.type (.instruction r.ref.use) ⟨r.position, some r.entry⟩
  match t.resolve? r.ref.name with
  | none => record ((rawSlot? r.ref.name).getD t.cap)
  | some info =>
    match checkHeld info r with
    | .error e => .error e
    | .ok () => record info.slot

/-- Records the uses of variables in a body, up to the first that cannot be. -/
def addCode (code : Code) (t : SlotTable) : SlotTable × Option AssemblyError :=
  runSteps addReference t (references code)

end SlotTable

end JvmListing
