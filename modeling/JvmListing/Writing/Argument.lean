/-
# Written arguments

The text of constants and annotations in both dialects.
-/
import JvmListing.Text.Quoted
import JvmListing.Listing.Annot
import JvmListing.Reading.Clause

namespace JvmListing

/-- Texts with a separator between them. -/
def joinWith (separator : String) : List String → String
  | [] => ""
  | [s] => s
  | s :: rest => s ++ separator ++ joinWith separator rest

/-- Texts, each after a space. -/
def spaced (texts : List String) : String := String.join (texts.map fun s => " " ++ s)

/-- A word in the case of the dialect. -/
def Dialect.word : Dialect → String → String
  | .keyword, s => upperCase s
  | .directive, s => s

def Literal.text : Literal → String
  | .number n => n.text
  | .string s => quote s

namespace HandleRef

/-- The tag, the member and the descriptor. -/
def bodyText (h : HandleRef) : String :=
  h.tag.name ++ " " ++ h.owner ++ "." ++ h.name ++ " " ++ h.desc

def text (h : HandleRef) : Dialect → String
  | .keyword => "handle(" ++ h.bodyText ++ ")"
  | .directive => "handle " ++ h.bodyText

end HandleRef

/-- A constant as the dialect writes it. -/
def constText (d : Dialect) : Const HandleRef → String
  | .literal l => l.text
  | .type t =>
    match d with
    | .keyword => t.descriptor
    | .directive => "type " ++ t.descriptor
  | .handle h => h.text d

mutual
/-- The type and the arguments of an annotation. -/
def Annot.bodyText (d : Dialect) : Annot → String
  | .mk _ type args _ =>
    match d with
    | .keyword => type ++ "(" ++ joinWith ", " (Annot.argTexts d args) ++ ")"
    | .directive => type ++ spaced (Annot.argTexts d args) ++ " end"

/-- Arguments with their names. -/
def Annot.argTexts (d : Dialect) : List (String × AnnotArg) → List String
  | [] => []
  | (name, arg) :: rest =>
    (name ++ (match d with
      | .keyword => "="
      | .directive => " ") ++ arg.text d) :: Annot.argTexts d rest

def AnnotArg.text (d : Dialect) : AnnotArg → String
  | .const c => constText d c
  | .enum type name =>
    match d with
    | .keyword => "enum(" ++ type ++ " " ++ name ++ ")"
    | .directive => "annotation-enum " ++ type ++ " " ++ name
  | .annot a =>
    match d with
    | .keyword => "annotation(" ++ a.bodyText d ++ ")"
    | .directive => "annotation " ++ a.bodyText d
  | .list args =>
    match d with
    | .keyword => "[" ++ joinWith ", " (AnnotArg.texts d args) ++ "]"
    | .directive => "args" ++ spaced (AnnotArg.texts d args) ++ " end"

def AnnotArg.texts (d : Dialect) : List AnnotArg → List String
  | [] => []
  | arg :: rest => arg.text d :: AnnotArg.texts d rest
end

/-- The word that introduces an annotation. -/
def Annot.headWord : Dialect → Bool → String
  | .keyword, true => "VISIBLE_ANNOTATION"
  | .keyword, false => "INVISIBLE_ANNOTATION"
  | .directive, true => "annotation"
  | .directive, false => "invisible-annotation"

/-- A whole annotation. -/
def Annot.text (d : Dialect) (a : Annot) : String :=
  Annot.headWord d a.visible ++ " " ++ a.bodyText d

end JvmListing
