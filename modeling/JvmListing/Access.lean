/-
# Access flags

The flags of a class, field, method or module are bits of one word.  Some bits
mean different things on different elements (`0x20` is `super` on a class,
`synchronized` on a method and `open` on a module), so the modifiers of a
listing are read and written for a target.  Bits without a modifier are kept.
-/
import JvmListing.Text.LetterCase

namespace JvmListing

/-- A set of access flags. -/
abbrev Access := UInt32

/-- The kind of element that access flags stand on. -/
inductive FlagTarget where
  | classFile | innerClass | field | method | module
  deriving DecidableEq, Repr

namespace FlagTarget

/-- The modifiers of a target with their flags, in the order they are written. -/
def modifiers : FlagTarget → List (String × Access)
  | .classFile =>
    [("public", 0x0001), ("private", 0x0002), ("protected", 0x0004), ("final", 0x0010),
     ("super", 0x0020), ("interface", 0x0200), ("abstract", 0x0400), ("synthetic", 0x1000),
     ("annotation", 0x2000), ("enum", 0x4000), ("module", 0x8000)]
  | .innerClass =>
    [("public", 0x0001), ("private", 0x0002), ("protected", 0x0004), ("static", 0x0008),
     ("final", 0x0010), ("interface", 0x0200), ("abstract", 0x0400), ("synthetic", 0x1000),
     ("annotation", 0x2000), ("enum", 0x4000)]
  | .field =>
    [("public", 0x0001), ("private", 0x0002), ("protected", 0x0004), ("static", 0x0008),
     ("final", 0x0010), ("volatile", 0x0040), ("transient", 0x0080), ("synthetic", 0x1000),
     ("enum", 0x4000), ("mandated", 0x8000)]
  | .method =>
    [("public", 0x0001), ("private", 0x0002), ("protected", 0x0004), ("static", 0x0008),
     ("final", 0x0010), ("synchronized", 0x0020), ("bridge", 0x0040), ("varargs", 0x0080),
     ("native", 0x0100), ("abstract", 0x0400), ("strictfp", 0x0800), ("synthetic", 0x1000),
     ("mandated", 0x8000)]
  | .module =>
    [("open", 0x0020), ("transitive", 0x0020), ("static-phase", 0x0040), ("synthetic", 0x1000),
     ("mandated", 0x8000)]

end FlagTarget

namespace Access

/-- Are all bits of the flag set? -/
def has (access flag : Access) : Bool := access &&& flag == flag

/-- The flag of a modifier, written in any case. -/
def ofModifier? (target : FlagTarget) (word : String) : Option Access :=
  (target.modifiers.find? fun (name, _) => sameFolded name word).map (·.2)

/-- The modifiers that are set and can be written for the target. -/
def modifiers (access : Access) (target : FlagTarget) : List String :=
  (target.modifiers.filter fun (_, flag) => has access flag).map (·.1)

/-- The flags that can be written for the target. -/
def applicable (access : Access) (target : FlagTarget) : Access :=
  (target.modifiers.filter fun (_, flag) => has access flag).foldl
    (fun acc (_, flag) => acc ||| flag) 0

/-- The flag for a deprecated element, which no modifier names and no class file stores. -/
def deprecated : Access := 0x20000

def isStatic (access : Access) : Bool := has access 0x0008

def isAbstract (access : Access) : Bool := has access 0x0400

def isNative (access : Access) : Bool := has access 0x0100

end Access

end JvmListing
