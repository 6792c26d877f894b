/-
# Clauses

What a text says, construct by construct, before any of it is given a meaning:
numbers, modifiers, handle tags and member references are still as they were
spelled.  Both dialects are read into clauses, and clauses are made into a
listing in one way.
-/
import JvmListing.Opcode
import JvmListing.Listing.Position

namespace JvmListing

/-- The two ways of writing a listing. -/
inductive Dialect where
  /-- Upper-case words with operands grouped in brackets. -/
  | keyword
  /-- Lower-case words, with `method` … `end` around a body. -/
  | directive
  deriving DecidableEq, Repr

/-- A literal as it was spelled. -/
inductive RawLiteral where
  | number (text : String)
  | string (text : String)
  | char (c : Char)
  deriving DecidableEq, Repr

/-- A handle as it was spelled. -/
structure RawHandle where
  tag : Located String
  /-- `owner.name`. -/
  member : Located String
  desc : String
  deriving DecidableEq, Repr

/-- A constant as it was spelled. -/
inductive RawConst where
  | literal (l : Located RawLiteral)
  | type (desc : Located String)
  | handle (h : RawHandle)
  deriving DecidableEq, Repr

mutual
/-- An annotation as it was spelled.  An argument may lack its name. -/
inductive RawAnnot where
  | mk (visible : Bool) (type : String) (args : List (Option String × RawAnnotArg))
    (position : Position)

/-- An argument of an annotation as it was spelled. -/
inductive RawAnnotArg where
  | const (c : RawConst)
  | enum (type name : String)
  | annot (a : RawAnnot)
  | list (args : List RawAnnotArg)
end

/-- The annotation with another position. -/
def RawAnnot.at : RawAnnot → Position → RawAnnot
  | .mk visible type args _, position => .mk visible type args position

/-- A parameter as it was spelled. -/
structure RawParam where
  desc : String
  name : String
  position : Position
  deriving DecidableEq, Repr

/-- The operands of an instruction as they were spelled. -/
inductive Operands where
  | none
  | int (value : Located RawLiteral)
  | newArray (type : Located String)
  | var (name : String)
  | type (desc : String)
  | field (member : Located String) (desc : String)
  | method (member : Located String) (desc : String) (itf : Bool)
  | invokeDynamic (name desc : String) (bootstrap : RawHandle) (args : List RawConst)
  | ldc (value : RawConst)
  | jump (label : String)
  | iinc (name : String) (increment : Located RawLiteral)
  | multiArray (desc : String) (dims : Located RawLiteral)
  | tableSwitch (min max : Located RawLiteral) (labels : List String) (default : String)
  | lookupSwitch (cases : List (Located RawLiteral × String)) (default : String)
  deriving DecidableEq, Repr

/-- One construct of a text. -/
inductive Clause where
  | signature (value : Located String)
  | throws (type : Located String)
  | value (l : Located RawLiteral)
  | deprecated
  | annot (a : RawAnnot)
  | method (modifiers : List (Located String)) (name : String) (params : List RawParam)
    (result : Option String) (position : Position)
  | field (modifiers : List (Located String)) (name desc : String)
    (value : Option (Located RawLiteral)) (position : Position)
  /-- The `end` of a method in the directive dialect. -/
  | bodyEnd
  | label (name : Located String)
  | tryCatch (start stop handler : String) (caught : Option String) (position : Position)
  | line (label : String) (number : Located RawLiteral) (position : Position)
  | expression (code : Located String)
  | instruction (op : Opcode) (operands : Operands) (position : Position)
  | comment (text : Located String)
  /-- A word that starts no construct. -/
  | unmatched (word : Located String)

/-- Is the clause the definition of the listing? -/
def Clause.isDefinition : Clause → Bool
  | .method .. | .field .. => true
  | _ => false

end JvmListing
