/-
# Constants

What `ldc` loads and what bootstrap methods and annotations take as arguments.
A literal is a number or a string and is all that a field can start with; a
constant may also be a type or a handle.  Listings and classes have constants of
the same shape and differ only in their handles, so the handle is a parameter.
-/
import JvmListing.Number.Literal
import JvmListing.Ty.Descriptor
import JvmListing.Handle

namespace JvmListing

/-- A number or a string. -/
inductive Literal where
  | number (n : Number)
  | string (s : String)
  deriving DecidableEq

/-- A constant whose handles are of type `H`. -/
inductive Const (H : Type) where
  | literal (l : Literal)
  | type (t : Ty)
  | handle (h : H)
  deriving DecidableEq

namespace Const

variable {H K : Type}

/-- The same constant with another handle in place of a handle. -/
def map (f : H → K) : Const H → Const K
  | .literal l => .literal l
  | .type t => .type t
  | .handle h => .handle (f h)

@[simp] theorem map_id (c : Const H) : c.map id = c := by cases c <;> rfl

@[simp] theorem map_map {L : Type} (f : H → K) (g : K → L) (c : Const H) :
    (c.map f).map g = c.map (g ∘ f) := by
  cases c <;> rfl

end Const

end JvmListing
