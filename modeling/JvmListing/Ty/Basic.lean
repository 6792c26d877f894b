/-
# Types

The types a descriptor can name: the primitives (`void` among them), arrays,
classes and methods.  `TypeKind` is a type without its parts.  Local variables
care about less still: arrays count as classes and everything narrower than an
int counts as an int, which is the normalized kind.
-/

namespace JvmListing

/-- The types without parts. -/
inductive Prim where
  | void | boolean | char | byte | short | int | float | long | double
  deriving DecidableEq, Repr

/-- A type. -/
inductive Ty where
  | prim (p : Prim)
  | array (component : Ty)
  | object (name : String)
  | method (params : List Ty) (result : Ty)
  deriving Repr

/-- What a type is, without its parts. -/
inductive TypeKind where
  | prim (p : Prim)
  | array
  | object
  | method
  deriving DecidableEq, Repr

namespace Prim

def name : Prim → String
  | .void => "void"
  | .boolean => "boolean"
  | .char => "char"
  | .byte => "byte"
  | .short => "short"
  | .int => "int"
  | .float => "float"
  | .long => "long"
  | .double => "double"

/-- The letter that stands for the type in a descriptor. -/
def letter : Prim → Char
  | .void => 'V'
  | .boolean => 'Z'
  | .char => 'C'
  | .byte => 'B'
  | .short => 'S'
  | .int => 'I'
  | .float => 'F'
  | .long => 'J'
  | .double => 'D'

def ofLetter? : Char → Option Prim
  | 'V' => some .void
  | 'Z' => some .boolean
  | 'C' => some .char
  | 'B' => some .byte
  | 'S' => some .short
  | 'I' => some .int
  | 'F' => some .float
  | 'J' => some .long
  | 'D' => some .double
  | _ => none

/-- Local variable slots a value takes. -/
def size : Prim → Nat
  | .void => 0
  | .long | .double => 2
  | _ => 1

/-- The place of the type in the order from narrow to wide. -/
def rank : Prim → Nat
  | .void => 0
  | .boolean => 1
  | .char => 2
  | .byte => 3
  | .short => 4
  | .int => 5
  | .float => 6
  | .long => 7
  | .double => 8

/-- Is the type an int to the instructions of the machine?  `void` is on the
narrow side of int, so it counts. -/
def isIntFamily : Prim → Bool
  | .void | .boolean | .char | .byte | .short | .int => true
  | _ => false

/-- The element types an array of primitives may have. -/
def elements : List Prim := [.boolean, .char, .float, .double, .byte, .short, .int, .long]

/-- The element type with a source-level name. -/
def ofName? (name : String) : Option Prim := elements.find? fun p => p.name = name

/-- The operand of `newarray` for an element type: its place in `elements`, counted from 4. -/
def arrayCode? (p : Prim) : Option Nat := (elements.findIdx? (· = p)).map (· + 4)

/-- The element type for an operand of `newarray`. -/
def ofArrayCode? (code : Int) : Option Prim :=
  if 4 ≤ code then elements[(code - 4).toNat]? else none

end Prim

namespace TypeKind

def name : TypeKind → String
  | .prim p => p.name
  | .array => "array"
  | .object => "object"
  | .method => "method"

/-- The kind as local variables see it. -/
def normalized : TypeKind → TypeKind
  | .array => .object
  | .prim .boolean | .prim .char | .prim .byte | .prim .short => .prim .int
  | kind => kind

def isPrimitive : TypeKind → Bool
  | .prim _ => true
  | _ => false

def isIntFamily : TypeKind → Bool
  | .prim p => p.isIntFamily
  | _ => false

def isReference : TypeKind → Bool
  | .array | .object => true
  | _ => false

end TypeKind

namespace Ty

@[match_pattern] abbrev void : Ty := .prim .void

@[match_pattern] abbrev int : Ty := .prim .int

/-- The class every other class extends. -/
def rootClass : String := "java/lang/Object"

mutual
/-- Equality of types, decided. -/
def decEq : (a b : Ty) → Decidable (a = b)
  | .prim p, .prim q =>
    if h : p = q then isTrue (h ▸ rfl) else isFalse fun e => h (Ty.prim.inj e)
  | .array a, .array b =>
    match decEq a b with
    | isTrue h => isTrue (h ▸ rfl)
    | isFalse h => isFalse fun e => h (Ty.array.inj e)
  | .object a, .object b =>
    if h : a = b then isTrue (h ▸ rfl) else isFalse fun e => h (Ty.object.inj e)
  | .method as a, .method bs b =>
    match decEqList as bs, decEq a b with
    | isTrue h, isTrue h' => isTrue (h ▸ h' ▸ rfl)
    | isFalse h, _ => isFalse fun e => h (Ty.method.inj e).1
    | _, isFalse h => isFalse fun e => h (Ty.method.inj e).2
  | .prim _, .array _ | .prim _, .object _ | .prim _, .method .. => isFalse nofun
  | .array _, .prim _ | .array _, .object _ | .array _, .method .. => isFalse nofun
  | .object _, .prim _ | .object _, .array _ | .object _, .method .. => isFalse nofun
  | .method .., .prim _ | .method .., .array _ | .method .., .object _ => isFalse nofun

/-- Equality of lists of types, decided. -/
def decEqList : (as bs : List Ty) → Decidable (as = bs)
  | [], [] => isTrue rfl
  | a :: as, b :: bs =>
    match decEq a b, decEqList as bs with
    | isTrue h, isTrue h' => isTrue (h ▸ h' ▸ rfl)
    | isFalse h, _ => isFalse fun e => h (List.cons.inj e).1
    | _, isFalse h => isFalse fun e => h (List.cons.inj e).2
  | [], _ :: _ | _ :: _, [] => isFalse nofun
end

instance : DecidableEq Ty := decEq

instance : Inhabited Ty := ⟨.void⟩

def kind : Ty → TypeKind
  | .prim p => .prim p
  | .array _ => .array
  | .object _ => .object
  | .method .. => .method

/-- Local variable slots a value of the type takes. -/
def size : Ty → Nat
  | .prim p => p.size
  | _ => 1

def isWide (t : Ty) : Bool := t.size == 2

def isPrimitive (t : Ty) : Bool := t.kind.isPrimitive

/-- Is it the root class, as which a reference appears whose class is unknown? -/
def isRootClass : Ty → Bool
  | .object name => name == rootClass
  | _ => false

/-- The innermost component of an array type, or the type itself. -/
def element : Ty → Ty
  | .array t => t.element
  | t => t

def dimensions : Ty → Nat
  | .array t => t.dimensions + 1
  | _ => 0

/-- The operand of `newarray` that makes arrays of the type. -/
def arrayCode? : Ty → Option Nat
  | .prim p => p.arrayCode?
  | _ => none

end Ty

end JvmListing
