/-
# Written listings

The text of a listing in either dialect.  Reading the text of a field or a method
is meant to give the listing back up to positions.  A class is written as the
sequence of its members under a comment, for reading only.
-/
import JvmListing.Listing.Basic
import JvmListing.Writing.Argument

namespace JvmListing

/-- How a listing is laid out. -/
structure Layout where
  dialect : Dialect := .keyword
  /-- What stands before the lines of a body, labels apart. -/
  indent : String := "    "

/-! ## Instructions -/

/-- The word after a call whose opcode does not say that the owner is an interface. -/
def interfaceMark (op : Opcode) (itf : Bool) : String :=
  if itf && op != .invokeinterface then " itf" else ""

/-- An instruction as the dialect writes it. -/
def Operation.text (d : Dialect) : Operation → String
  | .plain op => d.word op.mnemonic
  | .int op value => d.word op.mnemonic ++ " " ++ toString value.toInt
  | .newArray t => d.word "newarray" ++ " " ++ t.descriptor
  | .var op name => d.word op.mnemonic ++ " " ++ name
  | .type op desc => d.word op.mnemonic ++ " " ++ desc
  | .field op owner name desc => d.word op.mnemonic ++ " " ++ owner ++ "." ++ name ++ " " ++ desc
  | .method op owner name desc itf =>
    d.word op.mnemonic ++ " " ++ owner ++ "." ++ name ++ desc ++ interfaceMark op itf
  | .invokeDynamic name desc bootstrap args =>
    let texts := args.map (constText d)
    d.word "invokedynamic" ++ " " ++ name ++ " " ++ desc ++ " " ++ bootstrap.text d
      ++ match d with
        | .keyword => " args(" ++ joinWith ", " texts ++ ")"
        | .directive => " args" ++ spaced texts ++ " end"
  | .ldc value => d.word "ldc" ++ " " ++ constText d value
  | .jump op label => d.word op.mnemonic ++ " " ++ label
  | .iinc name increment => d.word "iinc" ++ " " ++ name ++ " " ++ toString increment.toInt
  | .multiArray desc dims => d.word "multianewarray" ++ " " ++ desc ++ " " ++ toString dims.toNat
  | .lookupSwitch cases default =>
    d.word "lookupswitch"
      ++ match d with
        | .keyword =>
          " mapping(" ++ joinWith ", " (cases.map fun c => toString c.key.toInt ++ "=" ++ c.label)
            ++ ") default(" ++ default ++ ")"
        | .directive =>
          spaced (cases.map fun c => "case " ++ toString c.key.toInt ++ " " ++ c.label)
            ++ " default " ++ default
  | .tableSwitch min max labels default =>
    d.word "tableswitch"
      ++ match d with
        | .keyword =>
          " range(" ++ toString min.toInt ++ ":" ++ toString max.toInt ++ ") offsets("
            ++ joinWith ", " labels ++ ") default(" ++ default ++ ")"
        | .directive =>
          " " ++ toString min.toInt ++ " " ++ toString max.toInt ++ spaced labels
            ++ " default " ++ default
  | .line label number => d.word "line" ++ " " ++ label ++ " " ++ toString number

/-! ## Bodies -/

/-- An entry as the dialect writes it. -/
def Statement.text (d : Dialect) : Statement → String
  | .operation op => op.text d
  | .label name => name ++ ":"
  | .tryCatch start stop handler caught =>
    let type := caught.getD "*"
    match d with
    | .keyword => "TRY " ++ start ++ " " ++ stop ++ " CATCH(" ++ type ++ ") " ++ handler
    | .directive => "catch " ++ type ++ " " ++ start ++ " " ++ stop ++ " " ++ handler
  | .throws type => d.word "throws" ++ " " ++ type
  | .signature s => d.word "signature" ++ " " ++ s
  | .value l => d.word "value" ++ " " ++ l.text
  | .annot a => a.text d
  | .comment text => text
  | .unmatched text => text
  | .expression code => d.word "expr" ++ " " ++ code ++ " " ++ d.word "end"

/-- A line of text. -/
def textLine (s : String) : String := s ++ "\n"

/-- The line of an entry. -/
def Entry.text (layout : Layout) (e : Entry) : String :=
  match e.value with
  | .label _ => textLine (e.value.text layout.dialect)
  | _ => textLine (layout.indent ++ e.value.text layout.dialect)

def Code.text (layout : Layout) (code : Code) : String := String.join (code.map (Entry.text layout))

/-! ## Definitions -/

/-- The lines before a header. -/
def Attributes.text (d : Dialect) (a : Attributes) : String :=
  String.join (a.signature.toList.map fun s => textLine (d.word "signature" ++ " " ++ s.value))
    ++ String.join (a.thrown.map fun t => textLine (d.word "throws" ++ " " ++ t.value))
    ++ (if a.deprecated then textLine (d.word "deprecated") else "")
    ++ String.join (a.annots.map fun x => textLine (x.text d))

/-- The modifiers of a target, each before a space. -/
def modifiersText (access : Access) (target : FlagTarget) : String :=
  String.join ((Access.modifiers access target).map fun m => m ++ " ")

/-- Text with a space before its first `(`. -/
def spaceBeforeParen : List Char → List Char
  | [] => []
  | c :: cs => if c = '(' then ' ' :: c :: cs else c :: spaceBeforeParen cs

/-- The modifiers, name, parameters and result of a method. -/
def MethodDef.header (m : MethodDef) : String :=
  modifiersText m.access .method ++ m.name ++ "("
    ++ joinWith ", " (m.params.map fun p => p.desc ++ " " ++ p.name) ++ ")" ++ m.result

/-- A method with its body. -/
def MethodDef.text (layout : Layout) (m : MethodDef) (code : Code) : String :=
  m.attributes.text layout.dialect
    ++ match layout.dialect with
      | .keyword => textLine m.header ++ code.text layout
      | .directive =>
        textLine ("method " ++ String.ofList (spaceBeforeParen m.header.toList))
          ++ code.text layout ++ textLine "end"

/-- The modifiers, name and descriptor of a field. -/
def FieldDef.header (f : FieldDef) : String :=
  modifiersText f.access .field ++ f.name ++ " " ++ f.desc

/-- A field with its body. -/
def FieldDef.text (layout : Layout) (f : FieldDef) (code : Code) : String :=
  f.attributes.text layout.dialect
    ++ (match layout.dialect, f.value with
      | .keyword, some v => textLine ("VALUE " ++ v.value.text) ++ textLine f.header
      | .keyword, none => textLine f.header
      | .directive, some v => textLine ("field " ++ f.header ++ " " ++ v.value.text)
      | .directive, none => textLine ("field " ++ f.header))
    ++ code.text layout

/-- The comment above the members of a class. -/
def ClassDef.header (c : ClassDef) : String :=
  "// " ++ modifiersText c.access .classFile ++ "class " ++ c.name
    ++ (match c.superName with
      | some s => " extends " ++ s
      | none => "")
    ++ if c.interfaces.isEmpty then "" else " implements " ++ joinWith ", " c.interfaces

/-- A class as the sequence of its members. -/
def ClassDef.text (layout : Layout) (c : ClassDef) : String :=
  textLine c.header ++ c.attributes.text layout.dialect
    ++ String.join (c.fields.map fun f => "\n" ++ f.text layout [])
    ++ String.join (c.methods.map fun (m, code) => "\n" ++ m.text layout code)

/-- The text of a listing. -/
def Listing.write (layout : Layout) (l : Listing) : String :=
  match l.definition with
  | .method m => m.text layout l.body
  | .field f => f.text layout l.body
  | .class c => c.text layout

end JvmListing
