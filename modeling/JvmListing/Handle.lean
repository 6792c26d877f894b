/-
# Method handles

A handle refers to a member by a tag that says how the member is used.  Written
in a listing, a handle has a tag, an owner, a name and a descriptor; stored in a
class it says besides whether the owner is an interface.
-/
import JvmListing.Text.LetterCase

namespace JvmListing

/-- How a handle uses the member it refers to. -/
inductive HandleTag where
  | getField | getStatic | putField | putStatic | invokeVirtual | invokeStatic | invokeSpecial
  | newInvokeSpecial | invokeInterface
  deriving DecidableEq, Repr

namespace HandleTag

/-- Every tag, by ascending number. -/
def all : List HandleTag :=
  [.getField, .getStatic, .putField, .putStatic, .invokeVirtual, .invokeStatic, .invokeSpecial,
   .newInvokeSpecial, .invokeInterface]

def name : HandleTag → String
  | .getField => "H_GETFIELD"
  | .getStatic => "H_GETSTATIC"
  | .putField => "H_PUTFIELD"
  | .putStatic => "H_PUTSTATIC"
  | .invokeVirtual => "H_INVOKEVIRTUAL"
  | .invokeStatic => "H_INVOKESTATIC"
  | .invokeSpecial => "H_INVOKESPECIAL"
  | .newInvokeSpecial => "H_NEWINVOKESPECIAL"
  | .invokeInterface => "H_INVOKEINTERFACE"

/-- The number a class file stores for the tag. -/
def code : HandleTag → Nat
  | .getField => 1
  | .getStatic => 2
  | .putField => 3
  | .putStatic => 4
  | .invokeVirtual => 5
  | .invokeStatic => 6
  | .invokeSpecial => 7
  | .newInvokeSpecial => 8
  | .invokeInterface => 9

/-- The tag with a name, in any case. -/
def ofName? (name : String) : Option HandleTag := all.find? fun tag => sameFolded tag.name name

/-- Does the handle refer to a field? -/
def isField : HandleTag → Bool
  | .getField | .getStatic | .putField | .putStatic => true
  | _ => false

end HandleTag

/-- A handle as a listing writes it. -/
structure HandleRef where
  tag : HandleTag
  owner : String
  name : String
  desc : String
  deriving DecidableEq, Repr

/-- A handle as a class stores it. -/
structure Handle where
  tag : HandleTag
  owner : String
  name : String
  desc : String
  /-- Is the owner an interface? -/
  itf : Bool
  deriving DecidableEq, Repr

/-- The stored form of a written handle: the owner is an interface exactly when
the tag says so. -/
def HandleRef.toHandle (h : HandleRef) : Handle :=
  ⟨h.tag, h.owner, h.name, h.desc, h.tag == .invokeInterface⟩

/-- The written form of a stored handle. -/
def Handle.toRef (h : Handle) : HandleRef := ⟨h.tag, h.owner, h.name, h.desc⟩

end JvmListing
