/-
# Listings

A listing is one definition and, for a field or a method, a body.  The body is a
sequence of entries: instructions and labels, the attributes that were written
after the definition, comments, embedded expressions, and text that was not
recognised and is kept as it stands.
-/
import JvmListing.Access
import JvmListing.Listing.Annot
import JvmListing.Listing.Operation
import JvmListing.Member.Basic

namespace JvmListing

/-! ## Bodies -/

/-- What one entry of a body says. -/
inductive Statement where
  | operation (op : Operation)
  | label (name : String)
  /-- Without a type the handler catches everything. -/
  | tryCatch (start stop handler : String) (caught : Option String)
  | throws (type : String)
  | signature (value : String)
  | value (l : Literal)
  | annot (a : Annot)
  | comment (text : String)
  /-- Text that was not recognised. -/
  | unmatched (text : String)
  /-- Source of a richer language, for a compiler of its own. -/
  | expression (code : String)

abbrev Entry := Located Statement

/-- The entries of a body, in order. -/
abbrev Code := List Entry

namespace Statement

def operation? : Statement → Option Operation
  | .operation op => some op
  | _ => none

def label? : Statement → Option String
  | .label name => some name
  | _ => none

def throws? : Statement → Option String
  | .throws type => some type
  | _ => none

def signature? : Statement → Option String
  | .signature s => some s
  | _ => none

def value? : Statement → Option Literal
  | .value l => some l
  | _ => none

def annot? : Statement → Option Annot
  | .annot a => some a
  | _ => none

def unmatched? : Statement → Option String
  | .unmatched text => some text
  | _ => none

end Statement

namespace Code

def operations (code : Code) : List (Located Operation) :=
  code.filterMap fun e => e.value.operation?.map (⟨·, e.position⟩)

/-- The names of the declared labels, in order. -/
def labelNames (code : Code) : List String := code.filterMap (·.value.label?)

/-- The declared labels, in order. -/
def labels (code : Code) : List (Located String) :=
  code.filterMap fun e => e.value.label?.map (⟨·, e.position⟩)

def thrown (code : Code) : List String := code.filterMap (·.value.throws?)

def annots (code : Code) : List Annot := code.filterMap (·.value.annot?)

def unmatchedTexts (code : Code) : List String := code.filterMap (·.value.unmatched?)

/-- The last signature. -/
def signature? (code : Code) : Option String := (code.filterMap (·.value.signature?)).getLast?

/-- The last constant value. -/
def value? (code : Code) : Option (Located Literal) :=
  (code.filterMap fun e => e.value.value?.map (⟨·, e.position⟩)).getLast?

/-- The first entry that starts on a line. -/
def entryOnLine? (code : Code) (line : Nat) : Option Entry :=
  code.find? fun e => e.position.line == line

end Code

/-! ## Definitions -/

/-- What any definition may carry besides its header. -/
structure Attributes where
  signature : Option (Located String) := none
  thrown : List (Located String) := []
  annots : List Annot := []
  deprecated : Bool := false

/-- A parameter of a method. -/
structure Param where
  desc : String
  name : String
  position : Position := {}
  deriving DecidableEq

structure MethodDef where
  access : Access
  name : String
  params : List Param
  result : String
  attributes : Attributes := {}
  position : Position := {}

structure FieldDef where
  access : Access
  name : String
  desc : String
  value : Option (Located Literal) := none
  attributes : Attributes := {}
  position : Position := {}

/-- A component of a record class. -/
structure Component where
  name : String
  desc : String
  signature : Option String
  annots : List Annot

structure ClassDef where
  access : Access
  name : String
  superName : Option String
  interfaces : List String
  version : Nat
  sourceFile : Option String
  innerClasses : List InnerClass
  nestHost : Option String
  nestMembers : List String
  permitted : List String
  module : Option ModuleDecl
  record : Option (List Component)
  fields : List FieldDef
  /-- The methods with their bodies. -/
  methods : List (MethodDef × Code)
  attributes : Attributes := {}
  position : Position := {}

/-- What a listing defines. -/
inductive Definition where
  | class (d : ClassDef)
  | field (d : FieldDef)
  | method (d : MethodDef)

/-- Is the descriptor one that a parameter can have? -/
def Param.isValid (p : Param) : Bool := (Ty.ofFieldDescriptor? p.desc).isSome

namespace MethodDef

/-- The descriptor that the parameters and the result add up to. -/
def desc (d : MethodDef) : String := "(" ++ String.join (d.params.map (·.desc)) ++ ")" ++ d.result

/-- Must the method have a body? -/
def hasCode (d : MethodDef) : Bool := !(Access.isAbstract d.access || Access.isNative d.access)

end MethodDef

namespace Definition

def name : Definition → String
  | .class d => d.name
  | .field d => d.name
  | .method d => d.name

def access : Definition → Access
  | .class d => d.access
  | .field d => d.access
  | .method d => d.access

def attributes : Definition → Attributes
  | .class d => d.attributes
  | .field d => d.attributes
  | .method d => d.attributes

def position : Definition → Position
  | .class d => d.position
  | .field d => d.position
  | .method d => d.position

/-- The definition, marked as deprecated. -/
def markDeprecated : Definition → Definition
  | .class d => .class { d with attributes.deprecated := true }
  | .field d => .field { d with attributes.deprecated := true }
  | .method d => .method { d with attributes.deprecated := true }

end Definition

/-- A definition and its body, if it has one. -/
structure Listing where
  definition : Definition
  code : Option Code := none

namespace Listing

def method? (l : Listing) : Option MethodDef :=
  match l.definition with
  | .method d => some d
  | _ => none

def field? (l : Listing) : Option FieldDef :=
  match l.definition with
  | .field d => some d
  | _ => none

def class? (l : Listing) : Option ClassDef :=
  match l.definition with
  | .class d => some d
  | _ => none

/-- The body, empty if there is none. -/
def body (l : Listing) : Code := l.code.getD []

end Listing

end JvmListing
