/-
# Names of local variables

The slots of a stored method get readable names: `this`, the names of the
parameters, names that were given beforehand, names of the local variable table,
and else a name made from the type.  A name is kept for a slot and the kind of
value in it, so a variable is called the same everywhere.

A listing is only worth something if assembling it gives back the same slots.
`SlotReplay` follows what assembling will do with the names handed out, and puts
the number of the slot where a name would be bound to another one.
-/
import JvmListing.Assembly.SlotTable

namespace JvmListing

/-! ## Acceptable names -/

/-- The greatest length of a name. -/
def longestName : Nat := 35

/-- Is the text made of digits and points only, with a digit? -/
def isDecimal (cs : List Char) : Bool :=
  cs.any Char.isDigit && cs.all fun c => c.isDigit || c = '.'

/-- Can the text be written as the name of a variable?  It is short, visible ASCII
without dash, backslash and quote, no number, and says more than `object`. -/
def isGoodName (name : String) : Bool :=
  let cs := name.toList
  cs.length ≤ longestName && !cs.isEmpty && !cs.contains '-' && !"object".toList.isPrefixOf cs
    && cs.all (fun c => 0x21 ≤ c.toNat && c.toNat ≤ 0x7E && c ≠ '\\' && c ≠ '"')
    && !isDecimal cs

/-- A letter in lower case.  Only letters that become ASCII can be part of an
acceptable name, and the Kelvin sign is the one besides the capitals. -/
def lowerLetter (c : Char) : Char := if c = '\u212a' then 'k' else c.toLower

/-- The part of a text after the last `/`, unless that is in front. -/
def afterLastSlash (cs : List Char) : List Char :=
  let tail := (cs.reverse.takeWhile (· ≠ '/')).reverse
  if tail.length + 1 < cs.length then tail else cs

/-- The part of a text after the first `$`, unless that is in front. -/
def afterFirstDollar (cs : List Char) : List Char :=
  match cs.takeWhile (· ≠ '$'), cs.dropWhile (· ≠ '$') with
  | _ :: _, _ :: tail => tail
  | _, _ => cs

/-- The element type of an array, with an int for anything narrower. -/
def namingType (t : Ty) : Ty :=
  match t.element with
  | .prim p => if p.rank < Prim.int.rank then .int else .prim p
  | e => e

/-- A name made from a type and a slot: a string in slot 2 is `string2`. -/
def nameFromType (t : Ty) (slot : Nat) : String :=
  let simple :=
    (afterFirstDollar (afterLastSlash (namingType t).internalName.toList)).filter (· ≠ ';')
  let lowered :=
    match simple with
    | c :: cs => lowerLetter c :: cs
    | [] => []
  String.ofList lowered ++ toString slot

/-- The name of a slot that nothing else gives a name to. -/
def fallbackName (t : Ty) (slot : Nat) : String :=
  let derived := nameFromType t slot
  if isGoodName derived then derived else "v" ++ toString slot

/-! ## Handing out names -/

/-- Where a variable is named. -/
inductive Site where
  /-- As a parameter, where the ranges of the local variable table do not matter. -/
  | param
  /-- At the instruction with an index. -/
  | insn (index : Nat)
  deriving DecidableEq, Repr

/-- The names handed out for the slots of a method. -/
structure Namer where
  method : MethodNode
  /-- The name for each slot and normalized kind of value. -/
  names : List ((Nat × TypeKind) × String) := []
  params : List (Nat × String) := []

namespace Namer

/-- Takes over the names of slots that were assembled before. -/
def prepopulate (n : Namer) (slots : SlotTable) : Namer :=
  { n with
    names := slots.bySlot.foldl
      (fun names info =>
        bindKey (info.slot, info.lastType.kind.normalized) info.name names) n.names }

/-- Gives a parameter its name. -/
def addParam (n : Namer) (slot : Nat) (name : String) : Namer :=
  { n with params := bindKey slot name n.params }

/-- The kind of value that an instruction moves to or from a slot. -/
def touchedKind? (slot : Nat) : Insn → Option TypeKind
  | .var op s => if s.toNat = slot then op.varType?.map (·.kind.normalized) else none
  | _ => none

/-- The kind of value that was last moved to or from a slot, up to an instruction. -/
def kindAt? (m : MethodNode) (slot index : Nat) : Option TypeKind :=
  ((m.insns.take (index + 1)).filterMap (touchedKind? slot)).getLast?

/-- Does the range of a table entry hold an instruction?  A range may start one
instruction after the store that begins it. -/
def inRange (m : MethodNode) (v : LocalVariable) (index : Nat) : Bool :=
  match m.labelPosition? v.start, m.labelPosition? v.stop with
  | some start, some stop => start ≤ index + 1 && index ≤ stop
  | _, _ => false

/-- Does an entry of the local variable table describe a slot at a site? -/
def describes (m : MethodNode) (site : Site) (t : Ty) (slot : Nat) (v : LocalVariable) : Bool :=
  match Ty.ofFieldDescriptor? v.desc with
  | none => false
  | some type =>
    let kind := type.kind.normalized
    v.slot.toNat == slot && kind.isPrimitive == t.kind.normalized.isPrimitive
      && match site with
        | .param => true
        | .insn index =>
          inRange m v index && (((kindAt? m slot index).map (· == kind)).getD true)

/-- The name that was handed out for a slot and kind, or else the first name of the
local variable table that describes it and is not taken. -/
def knownName? (n : Namer) (site : Site) (t : Ty) (slot : Nat) : Option String :=
  (n.names.lookup (slot, t.kind.normalized)).or
    ((n.method.locals.find? fun v =>
      describes n.method site t slot v
        && !n.names.any fun (_, taken) => taken == v.name).map (·.name))

/-- The name of a slot that holds a value of a type at a site. -/
def name (n : Namer) (site : Site) (t : Ty) (slot : Nat) : String × Namer :=
  if slot = 0 ∧ !Access.isStatic n.method.access then ("this", n)
  else
    match n.params.lookup slot with
    | some name => (name, n)
    | none =>
      let name :=
        match n.knownName? site t slot with
        | some known => if isGoodName known then known else fallbackName t slot
        | none => fallbackName t slot
      (name, { n with names := bindKey (slot, t.kind.normalized) name n.names })

end Namer

/-! ## Following the slots -/

/-- What assembling knows about names after the part of a listing that was made. -/
structure SlotReplay where
  bound : List (String × Nat) := []
  /-- The slot that a new name will be bound to. -/
  next : Nat := 0

namespace SlotReplay

/-- The first slot above the slots in use, after a value of a size in a slot. -/
def nextAfter (r : SlotReplay) (slot size : Nat) : Nat :=
  max r.next (min (slot + max size 1) slotLimit)

/-- `this` or a parameter, which has its slot by declaration. -/
def declare (r : SlotReplay) (name : String) (slot size : Nat) : SlotReplay :=
  ⟨bindKey name slot r.bound, r.nextAfter slot size⟩

/-- What to write for a slot: its name, where assembling binds that to the slot,
and else its number. -/
def resolve (r : SlotReplay) (name : String) (slot size : Nat) : String × SlotReplay :=
  let target := ((rawSlot? name).or (r.bound.lookup name)).getD r.next
  if target = slot then (name, ⟨bindKey name slot r.bound, r.nextAfter slot size⟩)
  else (toString slot, ⟨r.bound, r.nextAfter slot size⟩)

end SlotReplay

end JvmListing
