/-
# Stored annotations

An annotation as a class stores it: the descriptor of its type and named values.
-/
import JvmListing.Constant

namespace JvmListing

mutual
/-- A stored annotation. -/
inductive AnnotNode where
  | mk (desc : String) (values : List (String × AnnotValue))

/-- A value of a stored annotation. -/
inductive AnnotValue where
  | const (c : Const Handle)
  /-- The constant `name` of the enum class with descriptor `desc`. -/
  | enum (desc name : String)
  | annot (a : AnnotNode)
  | array (values : List AnnotValue)
end

namespace AnnotNode

/-- The descriptor of the annotation's type. -/
def desc : AnnotNode → String
  | .mk desc _ => desc

/-- The values with their names, in the order they are declared. -/
def values : AnnotNode → List (String × AnnotValue)
  | .mk _ values => values

/-- The first value with a name. -/
def value? (a : AnnotNode) (name : String) : Option AnnotValue :=
  (a.values.find? fun (n, _) => n == name).map (·.2)

end AnnotNode

end JvmListing
