/-
# The local variable table

One entry for every slot with a name that is no number, from one label to
another, with a type that stands for all recorded uses.
-/
import JvmListing.Assembly.Lowering

namespace JvmListing

/-! ## Types -/

/-- The wider of two primitives. -/
def widerPrim (p q : Prim) : Prim := if p.rank ≤ q.rank then q else p

/-- A type for values of two reference types. -/
def commonReference (oracle : Option (String → String → String)) (a b : Ty) : Ty :=
  if a = b then a
  else
    match a, b, oracle with
    | .object x, .object y, some common => .object (common x y)
    | _, _, _ => .object Ty.rootClass

/-- The primitive that a type is. -/
def Ty.prim? : Ty → Option Prim
  | .prim p => some p
  | _ => none

namespace VarInfo

/-- The type that stands for all uses of a slot: the widest of primitives, the
common one of references, and the last one where both occur. -/
def commonType (oracle : Option (String → String → String)) (info : VarInfo) : Ty :=
  match info.usages with
  | [] => .object Ty.rootClass
  | first :: rest =>
    if info.usages.all Ty.isPrimitive then
      match info.usages.filterMap Ty.prim? with
      | p :: ps => .prim (ps.foldl widerPrim p)
      | [] => first
    else if info.usages.all (·.kind.isReference) then
      rest.foldl (commonReference oracle) first
    else info.lastType

end VarInfo

/-! ## Ranges -/

/-- The labels of a body with the indices of their entries. -/
def labelEntries (code : Code) : List (Nat × String) :=
  code.zipIdx.filterMap fun (e, i) => e.value.label?.map ((i, ·))

/-- The last label at or before an entry. -/
def labelBefore? (labels : List (Nat × String)) (entry : Nat) : Option String :=
  ((labels.filter fun (i, _) => i ≤ entry).getLast?).map (·.2)

/-- The first label at or after an entry. -/
def labelAfter? (labels : List (Nat × String)) (entry : Nat) : Option String :=
  (labels.find? fun (i, _) => entry ≤ i).map (·.2)

/-- The entries that use a slot, with their positions. -/
def VarInfo.entryUses (info : VarInfo) : List (Nat × Position) :=
  info.sources.filterMap fun s => s.entry.map ((·, s.position))

/-- The later of two uses, the second one where they are the same entry. -/
def laterUse (a b : Nat × Position) : Nat × Position := if a.1 ≤ b.1 then b else a

/-- The label before the first use of a slot and the label after the last. -/
def nearestRange (labels : List (Nat × String)) (info : VarInfo) (first : Nat × Position) :
    AssemblyResult (String × String) :=
  let last := info.entryUses.foldl laterUse first
  match labelBefore? labels first.1, labelAfter? labels last.1 with
  | none, _ => .error ⟨.noStartLabel info.name, first.2⟩
  | some _, none => .error ⟨.noEndLabel info.name, last.2⟩
  | some start, some stop => .ok (start, stop)

/-- The labels between which a slot is listed.  A slot that is first declared is
listed for the whole method. -/
def varRange (range : VarRange) (labels : List (Nat × String)) (whole : String × String)
    (info : VarInfo) : AssemblyResult (String × String) :=
  match range, info.sources.head? with
  | .nearestLabels, some ⟨position, some entry⟩ => nearestRange labels info (entry, position)
  | _, _ => .ok whole

/-! ## The table -/

namespace LoweringContext

variable (ctx : LoweringContext)

/-- The entry of a slot, if it has a name. -/
def localEntry (labels : List (Nat × String)) (whole : String × String) (info : VarInfo) :
    AssemblyResult (Option LocalVariable) := do
  if (rawSlot? info.name).isSome then return none
  let (start, stop) ← varRange ctx.options.range labels whole info
  let type := info.commonType ctx.helpers.oracle
  let start ← ctx.label start ctx.method.position
  let stop ← ctx.label stop ctx.method.position
  return some ⟨info.name, type.descriptor, none, start, stop, UInt16.ofNat info.slot⟩

/-- The local variable table of a body, by ascending slot. -/
def localTable (code : Code) : AssemblyResult (List LocalVariable) := do
  let labels := labelEntries code
  match labels.head?, labels.getLast? with
  | some (_, first), some (_, last) =>
    let entries ← ctx.slots.bySlot.mapM (ctx.localEntry labels (first, last))
    return entries.filterMap id
  | _, _ =>
    if ctx.options.range = .nearestLabels ∧ ctx.slots.infos ≠ [] then
      throw ⟨.noLabels, ctx.method.position⟩
    else return []

end LoweringContext

end JvmListing
