/-
# Written annotations

An annotation as a listing writes it: the name of its type, whether it is
visible at run time, and named arguments.  No two arguments of one annotation
that was read from a text have the same name.
-/
import JvmListing.Constant
import JvmListing.Listing.Position

namespace JvmListing

mutual
/-- A written annotation. -/
inductive Annot where
  | mk (visible : Bool) (type : String) (args : List (String × AnnotArg)) (position : Position)

/-- An argument of a written annotation. -/
inductive AnnotArg where
  | const (c : Const HandleRef)
  /-- The constant `name` of the enum class `type`. -/
  | enum (type name : String)
  | annot (a : Annot)
  | list (args : List AnnotArg)
end

namespace Annot

def visible : Annot → Bool
  | .mk visible _ _ _ => visible

/-- The internal name of the annotation's type. -/
def type : Annot → String
  | .mk _ type _ _ => type

/-- The arguments with their names, in the order they are written. -/
def args : Annot → List (String × AnnotArg)
  | .mk _ _ args _ => args

def position : Annot → Position
  | .mk _ _ _ position => position

/-- The first argument with a name. -/
def arg? (a : Annot) (name : String) : Option AnnotArg :=
  (a.args.find? fun (n, _) => n == name).map (·.2)

/-- Arguments with one more: it takes the place of an argument of the same name,
and is the last one if there is none. -/
def putArg (args : List (String × AnnotArg)) (name : String) (arg : AnnotArg) :
    List (String × AnnotArg) :=
  match args with
  | [] => [(name, arg)]
  | (n, a) :: rest => if n = name then (n, arg) :: rest else (n, a) :: putArg rest name arg

end Annot

end JvmListing
