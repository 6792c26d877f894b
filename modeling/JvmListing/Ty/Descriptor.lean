/-
# Descriptors

The text form of types: a letter for a primitive, `[` before a component,
`L`…`;` around a class name, and `(`…`)` around parameters before a result.
`Ty.descriptor` writes it.  `Ty.readOne?` reads one type other than a method and
gives what follows; the other readers ask for a whole text.  A class name is
anything but empty and may not hold `;`.  The parameters of a method end at the
first `)`, so their class names may not hold that either.
-/
import JvmListing.Ty.Basic

namespace JvmListing

namespace Ty

mutual
/-- The descriptor of a type. -/
def descriptor : Ty → String
  | .prim p => String.singleton p.letter
  | .array t => "[" ++ t.descriptor
  | .object name => "L" ++ name ++ ";"
  | .method params result => "(" ++ descriptors params ++ ")" ++ result.descriptor

/-- The descriptors of types, one after the other. -/
def descriptors : List Ty → String
  | [] => ""
  | t :: ts => t.descriptor ++ descriptors ts
end

/-- The name of a class, and the descriptor of any other type. -/
def internalName : Ty → String
  | .object name => name
  | t => t.descriptor

/-- One type other than a method at the front of a text, and what follows it. -/
def readOne? : List Char → Option (Ty × List Char)
  | [] => none
  | 'L' :: cs =>
    match cs.takeWhile (· ≠ ';'), cs.dropWhile (· ≠ ';') with
    | c :: name, _ :: rest => some (.object (String.ofList (c :: name)), rest)
    | _, _ => none
  | '[' :: cs =>
    match readOne? cs with
    | some (t, rest) => if t = .void then none else some (.array t, rest)
    | none => none
  | c :: cs => (Prim.ofLetter? c).map fun p => (.prim p, cs)

/-- The types other than `void` that make up a whole text, at most `fuel` of them. -/
def readAll? : Nat → List Char → Option (List Ty)
  | _, [] => some []
  | 0, _ => none
  | fuel + 1, cs =>
    match readOne? cs with
    | some (t, rest) => if t = .void then none else (readAll? fuel rest).map (t :: ·)
    | none => none

/-- The type a whole text describes, `void` and methods apart. -/
def ofFieldDescriptor? (desc : String) : Option Ty :=
  match readOne? desc.toList with
  | some (t, []) => if t = .void then none else some t
  | _ => none

/-- The parameters and the result that a method descriptor describes. -/
def readMethod? (desc : String) : Option (List Ty × Ty) :=
  match desc.toList with
  | '(' :: cs =>
    let inside := cs.takeWhile (· ≠ ')')
    match readAll? inside.length inside, (cs.dropWhile (· ≠ ')')) with
    | some params, _ :: after =>
      match readOne? after with
      | some (result, []) => some (params, result)
      | _ => none
    | _, _ => none
  | _ => none

/-- The type a whole text describes: a method if it starts with `(`. -/
def ofDescriptor? (desc : String) : Option Ty :=
  if desc.toList.head? = some '(' then
    (readMethod? desc).map fun (params, result) => .method params result
  else ofFieldDescriptor? desc

/-- The type of an internal name, which may also be an array descriptor. -/
def ofInternalName? (name : String) : Option Ty :=
  match name.toList with
  | [] => none
  | '[' :: _ => ofFieldDescriptor? name
  | _ => some (.object name)

/-! ## Offsets

Offsets into a descriptor count the bytes of its UTF-8 form. -/

/-- What follows the first `n` bytes of a text, if a character ends there. -/
def dropBytes? : List Char → Nat → Option (List Char)
  | cs, 0 => some cs
  | [], _ + 1 => none
  | c :: cs, n + 1 => if c.utf8Size ≤ n + 1 then dropBytes? cs (n + 1 - c.utf8Size) else none

/-- The bytes of a text. -/
def byteLength : List Char → Nat
  | [] => 0
  | c :: cs => c.utf8Size + byteLength cs

/-- The type other than a method at an offset of a text, and the offset after it. -/
def readAt? (desc : String) (offset : Nat) : Option (Ty × Nat) :=
  match dropBytes? desc.toList offset with
  | none => none
  | some cs => (readOne? cs).map fun (t, rest) => (t, offset + (byteLength cs - byteLength rest))

end Ty

end JvmListing
