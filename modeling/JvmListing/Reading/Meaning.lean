/-
# Meanings of clauses

Spelled numbers, tags, types and modifiers are given their values here, in one
way for both dialects, and the clauses of a text are put together as a listing.

Attributes before the definition belong to it; after the definition they are
entries of the body.  A value before a field is its constant, unless the field
has one of its own.  Unmatched words that follow one another are one entry, with
the text between them.
-/
import JvmListing.Listing.Basic
import JvmListing.Reading.Construct

namespace JvmListing

abbrev ReadResult := Except ReadError

/-! ## Numbers -/

/-- The number a literal denotes; a character is its code. -/
def numberOf (l : Located RawLiteral) : ReadResult Number :=
  match l.value with
  | .number text =>
    match Number.read text with
    | .ok n => .ok n
    | .error kind => .error ⟨.inconvertible kind text, l.position⟩
  | .char c => .ok (.int (Int32.ofNat c.toNat))
  | .string text => .error ⟨.stringForNumber text, l.position⟩

/-- The int a literal denotes. -/
def intOf (l : Located RawLiteral) : ReadResult Int32 := do
  match ← numberOf l, l.value with
  | .int v, _ => return v
  | _, .number text => throw ⟨.inconvertible .int text, l.position⟩
  | _, _ => throw ⟨.inconvertible .int "", l.position⟩

/-- The number or string a literal denotes. -/
def literalOf (l : Located RawLiteral) : ReadResult Literal := do
  match l.value with
  | .string text => return .string text
  | _ => return .number (← numberOf l)

/-- The literal with the place it was written at. -/
def locatedLiteralOf (l : Located RawLiteral) : ReadResult (Located Literal) := do
  return ⟨← literalOf l, l.position⟩

/-! ## Constants and annotations -/

/-- The owner and the name of a member reference, which its last dot divides. -/
def splitMember (m : Located String) : ReadResult (String × String) :=
  let back := m.value.toList.reverse
  let name := (back.takeWhile (· ≠ '.')).reverse
  let owner := ((back.dropWhile (· ≠ '.')).drop 1).reverse
  if name.isEmpty || owner.isEmpty then .error ⟨.memberExpected m.value, m.position⟩
  else .ok (String.ofList owner, String.ofList name)

def RawHandle.toRef (h : RawHandle) : ReadResult HandleRef := do
  match HandleTag.ofName? h.tag.value with
  | none => throw ⟨.unknownHandleTag h.tag.value, h.tag.position⟩
  | some tag =>
    let (owner, name) ← splitMember h.member
    return ⟨tag, owner, name, h.desc⟩

def RawConst.toConst : RawConst → ReadResult (Const HandleRef)
  | .literal l => do return .literal (← literalOf l)
  | .type desc =>
    match Ty.ofDescriptor? desc.value with
    | some t => .ok (.type t)
    | none => .error ⟨.invalidDescriptor desc.value, desc.position⟩
  | .handle h => do return .handle (← h.toRef)

mutual
def RawAnnot.toAnnot : RawAnnot → ReadResult Annot
  | .mk visible type args position => do
    return .mk visible type (← RawAnnot.toArgs position [] args) position

/-- The arguments of the annotation at `position`, after those already known. -/
def RawAnnot.toArgs (position : Position) (known : List (String × AnnotArg)) :
    List (Option String × RawAnnotArg) → ReadResult (List (String × AnnotArg))
  | [] => .ok known
  | (none, _) :: _ => .error ⟨.unnamedAnnotArg, position⟩
  | (some name, arg) :: rest => do
    RawAnnot.toArgs position (Annot.putArg known name (← arg.toArg)) rest

def RawAnnotArg.toArg : RawAnnotArg → ReadResult AnnotArg
  | .const c => do return .const (← c.toConst)
  | .enum type name => .ok (.enum type name)
  | .annot a => do return .annot (← a.toAnnot)
  | .list args => do return .list (← RawAnnotArg.toArgList args)

def RawAnnotArg.toArgList : List RawAnnotArg → ReadResult (List AnnotArg)
  | [] => .ok []
  | arg :: args => do
    let first ← arg.toArg
    return first :: (← RawAnnotArg.toArgList args)
end

/-! ## Instructions -/

/-- The element type that `newarray` names: by a descriptor, a primitive's name or a code. -/
def arrayElement (word : Located String) : ReadResult Ty :=
  let byName := (Prim.ofName? word.value).map Ty.prim
  let byCode := ((readInteger? word.value.toList).bind Prim.ofArrayCode?).map Ty.prim
  match (Ty.ofFieldDescriptor? word.value).or (byName.or byCode) with
  | some t => .ok t
  | none => .error ⟨.unknownArrayType word.value, word.position⟩

/-- The operation of an opcode with its operands; the instruction stands at `position`. -/
def Operands.toOperation (op : Opcode) (position : Position) : Operands → ReadResult Operation
  | .none => .ok (.plain op)
  | .int value => do return .int op (← intOf value)
  | .newArray word => do return .newArray (← arrayElement word)
  | .var name => .ok (.var op name)
  | .type desc => .ok (.type op desc)
  | .field member desc => do
    let (owner, name) ← splitMember member
    return .field op owner name desc
  | .method member desc itf => do
    let (owner, name) ← splitMember member
    return .method op owner name desc itf
  | .invokeDynamic name desc bootstrap args => do
    let handle ← bootstrap.toRef
    return .invokeDynamic name desc handle (← args.mapM RawConst.toConst)
  | .ldc value => do return .ldc (← value.toConst)
  | .jump label => .ok (.jump op label)
  | .iinc name increment => do return .iinc name (← intOf increment)
  | .multiArray desc dims => do
    let count := (← intOf dims).toInt
    if 0 ≤ count ∧ count ≤ 255 then return .multiArray desc (UInt8.ofNat count.toNat)
    else throw ⟨.invalidDimensions count, position⟩
  | .tableSwitch min max labels default => do
    let min ← intOf min
    let max ← intOf max
    if max.toInt - min.toInt + 1 = labels.length ∧ labels ≠ [] then
      return .tableSwitch min max labels default
    else throw ⟨.switchSize min.toInt max.toInt labels.length, position⟩
  | .lookupSwitch cases default => do
    let cases ← cases.mapM fun (key, label) => do
      return SwitchCase.mk (← intOf key) label
    return .lookupSwitch cases default

/-- The operation that marks a line. -/
def lineMarker (label : String) (number : Located RawLiteral) : ReadResult Operation := do
  let n := (← intOf number).toInt
  if 0 ≤ n then return .line label n.toNat else throw ⟨.invalidLine n, number.position⟩

/-! ## Listings -/

/-- The flags of modifiers, each of which has to apply to the target. -/
def accessOf (target : FlagTarget) : List (Located String) → ReadResult Access
  | [] => .ok 0
  | m :: rest =>
    match Access.ofModifier? target m.value with
    | none => .error ⟨.inapplicableModifier m.value, m.position⟩
    | some flag => do return flag ||| (← accessOf target rest)

/-- A listing that is being put together. -/
structure Draft where
  /-- The attributes seen before the definition. -/
  attributes : Attributes := {}
  /-- The value seen before the definition. -/
  pending : Option (Located Literal) := none
  definition : Option Definition := none
  code : Code := []
  /-- Does an unmatched word join the last entry? -/
  joining : Bool := false

namespace Draft

/-- Adds an entry to the body. -/
def push (d : Draft) (statement : Statement) (position : Position) : Draft :=
  { d with code := d.code ++ [⟨statement, position⟩] }

def define (d : Draft) (definition : Definition) : ReadResult Draft :=
  if d.definition.isSome then .error ⟨.secondDefinition, definition.position⟩
  else .ok { d with definition := some definition, attributes := {} }

/-- The characters of a range of the source. -/
def slice (source : List Char) (p : Position) : String :=
  String.ofList ((source.drop p.start).take (p.stop - p.start))

/-- Adds an unmatched word, to the last entry if that is unmatched text right before it. -/
def addUnmatched (source : List Char) (d : Draft) (word : Located String) : Draft :=
  match d.joining, d.code.getLast? with
  | true, some ⟨.unmatched _, before⟩ =>
    let position := before.merge word.position
    { d with code := d.code.dropLast ++ [⟨.unmatched (slice source position), position⟩] }
  | _, _ => { d.push (.unmatched word.value) word.position with joining := true }

def addMethod (d : Draft) (modifiers : List (Located String)) (name : String)
    (params : List RawParam) (result : Option String) (position : Position) : ReadResult Draft := do
  match result with
  | none => throw ⟨.noResultType, position⟩
  | some result =>
    let access ← accessOf .method modifiers
    let params := params.map fun p => Param.mk p.desc p.name p.position
    d.define (.method ⟨access, name, params, result, d.attributes, position⟩)

def addField (d : Draft) (modifiers : List (Located String)) (name desc : String)
    (value : Option (Located RawLiteral)) (position : Position) : ReadResult Draft := do
  let access ← accessOf .field modifiers
  match value with
  | some l =>
    let own ← locatedLiteralOf l
    d.define (.field ⟨access, name, desc, some own, d.attributes, position⟩)
  | none => d.define (.field ⟨access, name, desc, d.pending, d.attributes, position⟩)

/-- Adds a clause other than an unmatched word or the end of a body. -/
def addRecognized (d : Draft) : Clause → ReadResult Draft
  | .signature value =>
    match d.definition with
    | none => .ok { d with attributes.signature := some value }
    | some _ => .ok (d.push (.signature value.value) value.position)
  | .throws type =>
    match d.definition with
    | none => .ok { d with attributes.thrown := d.attributes.thrown ++ [type] }
    | some _ => .ok (d.push (.throws type.value) type.position)
  | .value l => do
    let value ← locatedLiteralOf l
    match d.definition with
    | none => return { d with pending := some value }
    | some _ => return d.push (.value value.value) value.position
  | .deprecated =>
    match d.definition with
    | none => .ok { d with attributes.deprecated := true }
    | some definition => .ok { d with definition := some definition.markDeprecated }
  | .annot raw => do
    let a ← raw.toAnnot
    match d.definition with
    | none => return { d with attributes.annots := d.attributes.annots ++ [a] }
    | some _ => return d.push (.annot a) a.position
  | .method modifiers name params result position =>
    d.addMethod modifiers name params result position
  | .field modifiers name desc value position => d.addField modifiers name desc value position
  | .label name => .ok (d.push (.label name.value) name.position)
  | .tryCatch start stop handler caught position =>
    .ok (d.push (.tryCatch start stop handler caught) position)
  | .line label number position => do
    return d.push (.operation (← lineMarker label number)) position
  | .expression code => .ok (d.push (.expression code.value) code.position)
  | .instruction op operands position => do
    return d.push (.operation (← operands.toOperation op position)) position
  | .comment text => .ok (d.push (.comment text.value) text.position)
  | .bodyEnd | .unmatched _ => .ok d

/-- Adds a clause.  The end of a body leaves no trace. -/
def add (source : List Char) (d : Draft) : Clause → ReadResult Draft
  | .unmatched word => .ok (d.addUnmatched source word)
  | .bodyEnd => .ok d
  | clause => { d with joining := false }.addRecognized clause

end Draft

namespace Listing

/-- The listing that the clauses of a source make. -/
def ofClauses (source : List Char) (clauses : List Clause) : ReadResult Listing := do
  let draft ← clauses.foldlM (Draft.add source) {}
  match draft.definition with
  | some definition => return ⟨definition, some draft.code⟩
  | none => throw ⟨.noDefinition, ⟨1, 1, 0, source.length⟩⟩

/-- Reads a listing in a dialect.  A construct that breaks off is reported before
any spelling without a meaning. -/
def read (d : Dialect) (text : String) : ReadResult Listing := do
  let (clauses, _) ← Scan.clauses d (Cursor.start text)
  ofClauses text.toList clauses

end Listing

end JvmListing
