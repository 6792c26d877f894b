/-
# Giving out slots

While the slots of a method are given out, five containers hold what is known of them:
the records of the slots by ascending slot, the order in which the slots appeared, the
slot of each name, the slots whose successor is reserved, and the next slot.  A use of a
slot writes to one after the other.

`Recording` is a run of such writes that may be refused.  It stops there, and what it
wrote before stays written: nothing takes a write back.  What a reader sees of the
containers is a `SlotTable` (`Variables.table`), and `SlotTable.allocate` gives the one
of a whole method.
-/
import JvmListing.Assembly.SlotTable

namespace JvmListing

/-! ## Records by slot -/

/-- Values for slots, by ascending slot. -/
structure SlotMap (α : Type) where
  entries : List (Nat × α)
  ascending : (entries.map Prod.fst).Pairwise (· < ·)

namespace SlotMap

variable {α : Type}

def empty : SlotMap α := ⟨[], .nil⟩

/-- The value for a slot. -/
def get? (m : SlotMap α) (slot : Nat) : Option α := m.entries.lookup slot

/-- The values, by ascending slot. -/
def values (m : SlotMap α) : List α := m.entries.map Prod.snd

/-- Puts a value at the place of its slot, where it replaces the one that is there. -/
def insertEntry (slot : Nat) (a : α) : List (Nat × α) → List (Nat × α)
  | [] => [(slot, a)]
  | (k, b) :: rest =>
    if slot < k then (slot, a) :: (k, b) :: rest
    else if slot = k then (slot, a) :: rest
    else (k, b) :: insertEntry slot a rest

theorem mem_keys_insertEntry {slot k : Nat} {a : α} : ∀ {l : List (Nat × α)},
    k ∈ (insertEntry slot a l).map Prod.fst → k = slot ∨ k ∈ l.map Prod.fst
  | [], h => by simpa [insertEntry] using h
  | (k', b) :: rest, h => by
      unfold insertEntry at h
      split at h
      · simpa using h
      · split at h
        · simp only [List.map_cons, List.mem_cons] at h ⊢
          exact h.imp_right Or.inr
        · simp only [List.map_cons, List.mem_cons] at h ⊢
          rcases h with h | h
          · exact Or.inr (Or.inl h)
          · exact (mem_keys_insertEntry h).imp_right Or.inr

theorem ascending_insertEntry {slot : Nat} {a : α} : ∀ {l : List (Nat × α)},
    (l.map Prod.fst).Pairwise (· < ·) → ((insertEntry slot a l).map Prod.fst).Pairwise (· < ·)
  | [], _ => by simp [insertEntry]
  | (k, b) :: rest, h => by
      obtain ⟨hk, hrest⟩ := List.pairwise_cons.mp h
      unfold insertEntry
      split
      · rename_i hlt
        refine List.pairwise_cons.mpr ⟨fun k' hk' => ?_, h⟩
        rcases List.mem_cons.mp hk' with rfl | hk'
        · exact hlt
        · exact Nat.lt_trans hlt (hk k' hk')
      · split
        · rename_i heq
          exact heq ▸ h
        · rename_i hnlt hne
          refine List.pairwise_cons.mpr ⟨fun k' hk' => ?_, ascending_insertEntry hrest⟩
          rcases mem_keys_insertEntry hk' with rfl | hk'
          · exact Nat.lt_of_le_of_ne (Nat.le_of_not_lt hnlt) (Ne.symm hne)
          · exact hk k' hk'

/-- Sets the value for a slot. -/
def set (m : SlotMap α) (slot : Nat) (a : α) : SlotMap α :=
  ⟨insertEntry slot a m.entries, ascending_insertEntry m.ascending⟩

end SlotMap

/-- The record of one slot.  A new one has nothing but the slot. -/
structure Variable where
  slot : Nat
  name : String := ""
  /-- The recorded types without repetition, in the order they were first seen. -/
  usages : List Ty := []
  lastType? : Option Ty := none
  sources : List VarSource := []
  wide : Bool := false

namespace Variable

/-- The type that was recorded last.  Without one, the slot holds an object. -/
def lastUsedType (x : Variable) : Ty := x.lastType?.getD (.object Ty.rootClass)

/-- Records a type as the last one. -/
def addType (x : Variable) (type : Ty) : Variable :=
  { x with
    usages := if x.usages.contains type then x.usages else x.usages ++ [type]
    lastType? := some type }

/-- Is a use recorded as a type of the slot?  The first one is, and after it primitives
and assigned types are.  A reference of unknown class is not, where a reference is
already held. -/
def records (x : Variable) (type : Ty) (kind : UsageKind) : Bool :=
  let wanted := x.usages.isEmpty || type.isPrimitive || kind == .instruction .assign
  let vague := type.isRootClass && kind != .declared
  let holdsReference := x.lastType?.any (·.kind.isReference)
  wanted && !(vague && holdsReference)

/-- The record after one more use.  A name gives way to another, but not to a number. -/
def use (x : Variable) (name : String) (type : Ty) (kind : UsageKind) (source : VarSource) :
    Variable :=
  let typed := if x.records type kind then x.addType type else x
  { typed with
    name := if x.name.isEmpty || (rawSlot? name).isNone then name else x.name
    sources := x.sources ++ [source]
    wide := x.wide || type.isWide }

/-- What a reader sees of a record. -/
def toInfo (x : Variable) : VarInfo :=
  ⟨x.slot, x.name, x.usages, x.lastUsedType, x.sources, x.wide⟩

end Variable

/-! ## The containers -/

/-- What is known of the slots of a method while they are given out. -/
structure Variables where
  infos : SlotMap Variable := .empty
  /-- The recorded slots, in the order they appeared. -/
  appearance : List Nat := []
  /-- The slot each name is bound to. -/
  names : List (String × Nat) := []
  /-- The slots whose successor is reserved. -/
  wideSlots : List Nat := []
  /-- The first slot above all slots that were ever used. -/
  nextSlot : Nat := 0

/-- A change of the containers.  If it is refused, what it wrote before stays written. -/
abbrev Recording := EStateM AssemblyError Variables

namespace Variables

/-- The record of a slot. -/
def info? (v : Variables) (slot : Nat) : Option Variable := v.infos.get? slot

/-- The slot a name is bound to. -/
def slotOf? (v : Variables) (name : String) : Option Nat := v.names.lookup name

/-- The record of the slot a name is bound to. -/
def byName? (v : Variables) (name : String) : Option Variable := (v.slotOf? name).bind v.info?

/-- The records in the order their slots appeared. -/
def inAppearanceOrder (v : Variables) : List Variable := v.appearance.filterMap v.info?

/-- What a reader sees of the containers. -/
def table (v : Variables) : SlotTable where
  infos := v.inAppearanceOrder.map Variable.toInfo
  names := v.names
  wide := v.wideSlots
  cap := v.nextSlot

/-! ### One use

A use writes to each container once. -/

/-- A slot that has no record yet appears now. -/
def appear (slot : Nat) (v : Variables) : Variables :=
  { v with
    appearance := if (v.info? slot).isNone then v.appearance ++ [slot] else v.appearance }

/-- The record of a slot takes in a use; where there is none, a new one does. -/
def touch (slot : Nat) (name : String) (type : Ty) (kind : UsageKind) (source : VarSource)
    (v : Variables) : Variables :=
  let x := (v.info? slot).getD { slot }
  { v with infos := v.infos.set slot (x.use name type kind source) }

/-- A long or double reserves the successor of its slot, and anything else that is
assigned gives it free. -/
def reserve (slot : Nat) (type : Ty) (kind : UsageKind) (v : Variables) : Variables :=
  { v with
    wideSlots :=
      if type.isWide then
        if v.wideSlots.contains slot then v.wideSlots else slot :: v.wideSlots
      else if kind = .instruction .assign then v.wideSlots.filter (· ≠ slot)
      else v.wideSlots }

def bindName (name : String) (slot : Nat) (v : Variables) : Variables :=
  { v with names := bindKey name slot v.names }

def raise (stop : Nat) (v : Variables) : Variables := { v with nextSlot := max v.nextSlot stop }

/-- Records a use of a slot under a name. -/
def addUsage (slot : Nat) (name : String) (type : Ty) (kind : UsageKind) (source : VarSource) :
    Recording Unit := do
  let stop := slot + max type.size 1
  if slot > 0 && (← get).wideSlots.contains (slot - 1) then
    throw ⟨.reservedSlot, source.position⟩
  else if slotLimit < stop then
    throw ⟨.tooManySlots, source.position⟩
  else
    modify (appear slot)
    modify (touch slot name type kind source)
    modify (reserve slot type kind)
    modify (bindName name slot)
    modify (raise stop)

/-- Forgets everything. -/
def clear : Recording Unit := set ({} : Variables)

/-! ## The variables of a method -/

/-- Binds `this` to slot 0, unless the method is static. -/
def addThis (selfType : String) (m : MethodDef) : Recording Unit := do
  if !Access.isStatic m.access then
    addUsage 0 "this" (.object selfType) .declared ⟨m.position, none⟩

/-- Binds a parameter of a method to the next slot. -/
def addParam (m : MethodDef) (p : Param) : Recording Unit := do
  match Ty.ofFieldDescriptor? p.desc with
  | none => throw ⟨.illegalParam p.name p.desc, m.position⟩
  | some type => addUsage (← get).nextSlot p.name type .declared ⟨p.position, none⟩

/-- Binds the parameters of a method. -/
def addParams (m : MethodDef) : Recording Unit := m.params.forM (addParam m)

/-- Records the use of a variable by an entry.  A new name takes the next slot, a new
number its own. -/
def addReference (r : SlotTable.Reference) : Recording Unit := do
  let v ← get
  let record (slot : Nat) :=
    addUsage slot r.ref.name r.ref.type (.instruction r.ref.use) ⟨r.position, some r.entry⟩
  match (v.byName? r.ref.name).or ((rawSlot? r.ref.name).bind v.info?) with
  | none => record ((rawSlot? r.ref.name).getD v.nextSlot)
  | some x =>
    ofExcept (SlotTable.checkHeld x.toInfo r)
    record x.slot

/-- Records the uses of variables in a body. -/
def addCode (code : Code) : Recording Unit := (SlotTable.references code).forM addReference

/-- Records the variables of a method with a body. -/
def addMethod (selfType : String) (m : MethodDef) (code : Code) : Recording Unit := do
  addThis selfType m
  addParams m
  addCode code

end Variables

/-- The slots of a method with a body. -/
def SlotTable.allocate (selfType : String) (m : MethodDef) (code : Code) :
    AssemblyResult SlotTable :=
  match Variables.addMethod selfType m code {} with
  | .ok _ v => .ok v.table
  | .error e _ => .error e

end JvmListing
