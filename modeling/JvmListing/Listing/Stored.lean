/-
# Annotations, written and stored

A listing names annotation and enum types by internal name and a class by
descriptor; a listing says of each annotation whether it is visible and a class
keeps two lists.  All else corresponds one to one.
-/
import JvmListing.Listing.Annot
import JvmListing.Member.Annot

namespace JvmListing

/-- The descriptor of the class with an internal name. -/
def classDescriptor (name : String) : String := "L" ++ name ++ ";"

/-- The internal name of a class descriptor, and any other text as it is. -/
def classNameOf (desc : String) : String :=
  match desc.toList with
  | 'L' :: cs =>
    match cs.reverse with
    | ';' :: name => String.ofList name.reverse
    | _ => desc
  | _ => desc

mutual
/-- The stored form of a written annotation. -/
def Annot.toNode : Annot → AnnotNode
  | .mk _ type args _ => .mk (classDescriptor type) (Annot.toValues args)

def Annot.toValues : List (String × AnnotArg) → List (String × AnnotValue)
  | [] => []
  | (name, arg) :: rest => (name, arg.toValue) :: Annot.toValues rest

def AnnotArg.toValue : AnnotArg → AnnotValue
  | .const c => .const (c.map HandleRef.toHandle)
  | .enum type name => .enum (classDescriptor type) name
  | .annot a => .annot a.toNode
  | .list args => .array (AnnotArg.toValueList args)

def AnnotArg.toValueList : List AnnotArg → List AnnotValue
  | [] => []
  | arg :: rest => arg.toValue :: AnnotArg.toValueList rest
end

mutual
/-- The written form of a stored annotation.  What it holds is as visible as it is. -/
def AnnotNode.toAnnot (visible : Bool) : AnnotNode → Annot
  | .mk desc values => .mk visible (classNameOf desc) (AnnotNode.toArgs visible values) {}

def AnnotNode.toArgs (visible : Bool) : List (String × AnnotValue) → List (String × AnnotArg)
  | [] => []
  | (name, value) :: rest => (name, value.toArg visible) :: AnnotNode.toArgs visible rest

def AnnotValue.toArg (visible : Bool) : AnnotValue → AnnotArg
  | .const c => .const (c.map Handle.toRef)
  | .enum desc name => .enum (classNameOf desc) name
  | .annot a => .annot (a.toAnnot visible)
  | .array values => .list (AnnotValue.toArgList visible values)

def AnnotValue.toArgList (visible : Bool) : List AnnotValue → List AnnotArg
  | [] => []
  | value :: rest => value.toArg visible :: AnnotValue.toArgList visible rest
end

/-- The visible and the invisible annotations in stored form. -/
def storeAnnots (annots : List Annot) : List AnnotNode × List AnnotNode :=
  ((annots.filter (·.visible)).map Annot.toNode, (annots.filter (!·.visible)).map Annot.toNode)

/-- Stored annotations in written form, the visible ones first. -/
def writeAnnots (visible invisible : List AnnotNode) : List Annot :=
  visible.map (AnnotNode.toAnnot true) ++ invisible.map (AnnotNode.toAnnot false)

end JvmListing
