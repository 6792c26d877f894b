/-
# Spelled listings

A listing that was read from a text has words, members and descriptors that can stand
where the dialect writes them.  `isSpelled` says so of every part; it asks less than
`isPlain`, since a word of a text may have any characters but blanks, and a descriptor
need not describe a type as long as it is known where it ends.

All of it is decidable, apart from the words of unmatched text (`WordsOf`).
-/
import JvmListing.Proofs.Parts
import JvmListing.Proofs.AnnotTrees
import JvmListing.Proofs.Mnemonics

namespace JvmListing

open Lexeme

/-! ## Words -/

/-- Is the text one word, without a character of `stop`? -/
def isWordTo (stop : Char → Bool) (s : String) : Bool :=
  isSignature s && s.toList.all fun c => !stop c

theorem isWordTo_iff {stop : Char → Bool} {s : String} :
    isWordTo stop s = true ↔ IsWordTo stop s := by
  rw [isWordTo, Bool.and_eq_true, List.all_eq_true]
  constructor
  · rintro ⟨h, hstop⟩
    refine ⟨h, fun c hc => ⟨((isSignature_iff.mp h).2.1 c hc).1, ?_⟩⟩
    simpa using hstop c hc
  · rintro ⟨h, hin⟩
    exact ⟨h, fun c hc => by simp [hin c hc]⟩

theorem isWordTo_of_isPlainWord {stop : Char → Bool} {s : String} (h : isPlainWord s = true)
    (hstop : ∀ c, isNameChar c = true → stop c = false) : isWordTo stop s = true :=
  isWordTo_iff.mpr (.of_isPlainWord h hstop)

/-- Does the character end a label inside a switch?  The keyword dialect groups its parts. -/
def labelStop : Dialect → Char → Bool
  | .keyword => Scan.listStop
  | .directive => fun _ => false

theorem labelStop_of_isNameChar (d : Dialect) {c : Char} (h : isNameChar c = true) :
    labelStop d c = false := by
  cases d with
  | keyword => exact listStop_of_isNameChar h
  | directive => rfl

/-! ## Instructions -/

def HandleRef.isSpelled (h : HandleRef) : Bool := isMember h.owner h.name && isDescText h.desc

theorem HandleRef.isSpelled_iff {h : HandleRef} : h.isSpelled = true ↔ h.IsWritten := by
  rw [isSpelled, Bool.and_eq_true, isMember_iff]
  exact ⟨fun h => ⟨h.1, h.2⟩, fun h => ⟨h.member, h.desc⟩⟩

def Const.isSpelled : Const HandleRef → Bool
  | .literal _ => true
  | .type t => Ty.ofDescriptor? t.descriptor = some t && isUnbroken t.descriptor
  | .handle h => h.isSpelled

theorem Const.isSpelled_iff {c : Const HandleRef} : c.isSpelled = true ↔ c.IsWritten := by
  cases c with
  | literal l => exact ⟨fun _ => trivial, fun _ => rfl⟩
  | type t =>
      simp only [isSpelled, IsWritten, isUnbroken, Bool.and_eq_true, decide_eq_true_eq,
        Ty.ofDescriptor?_eq_some_iff, List.all_eq_true, Bool.not_eq_true', and_true]
      exact ⟨fun h => ⟨h.1, h.2⟩, fun h => ⟨h.described, h.unbroken⟩⟩
  | handle h => exact HandleRef.isSpelled_iff

/-- Can the word be a target of a table switch?  The directive dialect ends them by `default`. -/
def isTarget (d : Dialect) (label : String) : Bool :=
  isWordTo (labelStop d) label && (d = .keyword || !sameFolded label "default")

/-- Has the operation operands that can stand after its mnemonic and suit it? -/
def Operation.isSpelled (d : Dialect) : Operation → Bool
  | .plain op => op.shape = .none
  | .int op _ => op.shape = .int
  | .newArray t => Ty.ofFieldDescriptor? t.descriptor = some t && isUnbroken t.descriptor
  | .var op name => op.shape = .var && isSignature name
  | .type op desc => op.shape = .type && isSignature desc
  | .field op owner name desc => op.shape = .field && isMember owner name && isDescText desc
  | .method op owner name desc itf =>
    op.shape = .method && isMember owner name && isDescText desc && (op ≠ .invokeinterface || itf)
  | .invokeDynamic name desc bootstrap args =>
    isSignature name && isDescText desc && bootstrap.isSpelled && args.all Const.isSpelled
  | .ldc value => value.isSpelled
  | .jump op label => op.shape = .jump && isSignature label
  | .iinc name _ => isSignature name
  | .multiArray desc _ => isSignature desc
  | .lookupSwitch cases default =>
    cases.all (isWordTo (labelStop d) ·.label) && isWordTo (labelStop d) default
  | .tableSwitch min max labels default =>
    max.toInt - min.toInt + 1 = labels.length && labels ≠ [] && labels.all (isTarget d)
      && isWordTo (labelStop d) default
  | .line label number => isSignature label && number ≤ 2147483647

/-- Does the text of a call go on with its descriptor?  One that is no method's cannot be told from
the name before it. -/
def Operation.isDivided : Operation → Bool
  | .method _ _ _ desc _ => desc.toList.head? = some '('
  | _ => true

theorem isMember_of_isPlain {owner name : String} (howner : isTypeName owner = true)
    (hname : isPlainWord name = true) : isMember owner name = true :=
  isMember_iff.mpr (.of_isPlain howner hname)

theorem Operation.isDivided_of_isPlain {o : Operation} (h : o.isPlain = true) :
    o.isDivided = true := by
  cases o with
  | method op owner name desc itf =>
      simp only [isPlain, Bool.and_eq_true] at h
      obtain ⟨params, result, -, -, rfl⟩ := isPlainMethodDesc_iff.mp h.1.2
      simp [isDivided, Ty.toList_descriptor_method]
  | _ => rfl

theorem Operation.isSpelled_of_isPlain {d : Dialect} {o : Operation} (h : o.isPlain = true)
    (hclear : d = .directive → (Statement.operation o).targetsDefault = false) :
    o.isSpelled d = true := by
  have hlabel : ∀ {w : String}, isPlainWord w = true → isWordTo (labelStop d) w = true :=
    fun hw => isWordTo_of_isPlainWord hw fun _ => labelStop_of_isNameChar d
  cases o <;> simp only [isPlain, isSpelled, Bool.and_eq_true, Bool.or_eq_true, decide_eq_true_eq,
    List.all_eq_true] at h ⊢
  case plain => exact h
  case int => exact h
  case newArray t =>
      refine ⟨Ty.ofFieldDescriptor?_descriptor h, ?_⟩
      have hwritten := Ty.IsWritten.of_isPlain (Ty.isPlainConstant_of_isPlain h)
      simpa [isUnbroken] using hwritten.unbroken
  case var => exact ⟨h.1, (isWord_of_isVarName h.2).isSignature⟩
  case type => exact ⟨h.1, (isWord_of_isTypeName h.2).isSignature⟩
  case field => exact ⟨⟨h.1.1.1, isMember_of_isPlain h.1.1.2 h.1.2⟩, isDescText_of_isPlain h.2⟩
  case method =>
      refine ⟨⟨⟨h.1.1.1.1, isMember_of_isPlain h.1.1.1.2 h.1.1.2⟩, ?_⟩, h.2⟩
      exact isDescText_of_isPlain (by simp [isPlainDesc, h.1.2])
  case invokeDynamic =>
      refine ⟨⟨⟨isSignature_of_isPlainWord h.1.1.1, isDescText_of_isPlain h.1.1.2⟩, ?_⟩,
        fun c hc => ?_⟩
      · exact HandleRef.isSpelled_iff.mpr (.of_isPlain h.1.2)
      · exact Const.isSpelled_iff.mpr (.of_isPlain (h.2 c hc))
  case ldc => exact Const.isSpelled_iff.mpr (.of_isPlain h)
  case jump => exact ⟨h.1, isSignature_of_isPlainWord h.2⟩
  case iinc => exact (isWord_of_isVarName h).isSignature
  case multiArray =>
      obtain ⟨t, ht, rfl⟩ := isPlainDesc_iff.mp h
      exact (isWord_descriptor (.of_isPlain ht)).isSignature
  case lookupSwitch => exact ⟨fun c hc => hlabel (h.1 c hc), hlabel h.2⟩
  case tableSwitch min max labels default =>
      refine ⟨⟨h.1.1, fun l hl => ?_⟩, hlabel h.2⟩
      rw [isTarget, hlabel (h.1.2 l hl), Bool.true_and, Bool.or_eq_true, decide_eq_true_eq]
      cases d with
      | keyword => exact Or.inl rfl
      | directive =>
          have hfold := List.any_eq_false.mp (hclear rfl) l hl
          simpa using hfold
  case line => exact ⟨isSignature_of_isPlainWord h.1, h.2⟩

/-! ## Annotations -/

/-- Does the character end the name of an argument of the keyword dialect? -/
def argNameStop (c : Char) : Bool :=
  c = '=' || c = ',' || c = ')' || c = '(' || c = '"' || c = '\'' || c = '['

/-- Can the name stand before an argument?  In the directive dialect the word `end` closes the
annotation instead. -/
def isArgName : Dialect → String → Bool
  | .keyword, name => isWordTo argNameStop name
  | .directive, name => isSignature name && !sameFolded (Scan.keywordOf name.toList) "end"

/-- Does what ends a word in the dialect, inside brackets or not, not occur in the word? -/
def isWordBefore (stop : Char) : Dialect → String → Bool
  | .keyword, s => isWordTo (· = stop) s
  | .directive, s => isSignature s

/-- Can the constant be an argument?  An array type starts as a list does in the keyword dialect. -/
def Const.isArgument (d : Dialect) : Const HandleRef → Bool
  | .type t => (Const.type t : Const HandleRef).isSpelled && (d = .directive || !t.isArray)
  | c => c.isSpelled

/-- Can all names and values stand where the dialect writes them?  No annotation names an argument
twice, and all have the visibility of the outermost one. -/
def spelledTest (d : Dialect) (visible : Bool) : AnnotTest where
  annot v type names :=
    v == visible && isWordBefore '(' d type && names.all (isArgName d) && names.Nodup
  const := Const.isArgument d
  enum type name := isSignature type && isWordBefore ')' d name

def Annot.isSpelled (d : Dialect) (a : Annot) : Bool := a.all (spelledTest d a.visible)

theorem spelledTest_annot_iff {d : Dialect} {visible v : Bool} {type : String}
    {names : List String} :
    (spelledTest d visible).annot v type names = true ↔ v = visible ∧ isWordBefore '(' d type = true
      ∧ (∀ name ∈ names, isArgName d name = true) ∧ names.Nodup := by
  simp [spelledTest, and_assoc]

theorem isWordBefore_of_isPlainWord {stop : Char} (hstop : isNameChar stop = false) (d : Dialect)
    {s : String} (h : isPlainWord s = true) : isWordBefore stop d s = true := by
  cases d with
  | keyword =>
      exact isWordTo_of_isPlainWord h fun c hc => decide_eq_false (ne_of_isNameChar hc hstop)
  | directive => exact isSignature_of_isPlainWord h

theorem argNameStop_of_isNameChar {c : Char} (h : isNameChar c = true) : argNameStop c = false := by
  simp [argNameStop, ne_of_isNameChar h (x := '=') rfl, ne_of_isNameChar h (x := ',') rfl,
    ne_of_isNameChar h (x := ')') rfl, ne_of_isNameChar h (x := '(') rfl,
    ne_of_isNameChar h (x := '"') rfl, ne_of_isNameChar h (x := '\'') rfl,
    ne_of_isNameChar h (x := '[') rfl]

/-- A word without a bracket is all of it a keyword. -/
theorem Scan.keywordOf_self {w : String} (h : InWord (· = '(') w.toList) :
    keywordOf w.toList = w := by
  have hall : wordLength (· = '(') (w.toList ++ []) = w.toList.length := wordLength_append h rfl
  rw [List.append_nil] at hall
  rw [keywordOf, hall, List.take_length, String.ofList_toList]

theorem isArgName_of_isPlainWord {d : Dialect} {name : String} (h : isPlainWord name = true)
    (hend : d = .keyword ∨ sameFolded name "end" = false) : isArgName d name = true := by
  cases d with
  | keyword => exact isWordTo_of_isPlainWord h fun _ => argNameStop_of_isNameChar
  | directive =>
      have hkeyword := Scan.keywordOf_self (inWord_of_isPlainWord h fun _ => paren_of_isNameChar)
      simp [isArgName, hkeyword, hend.resolve_left (by decide), isSignature_of_isPlainWord h]

theorem Const.isArgument_of_isReadable {d : Dialect} {c : Const HandleRef}
    (hformed : c.isFormed = true) (h : c.isReadable d = true) : c.isArgument d = true := by
  cases c with
  | literal l => rfl
  | type t =>
      simp only [isFormed, isReadable, Bool.and_eq_true] at hformed h
      simp [isArgument, isSpelled, hformed, h]
  | handle handle =>
      obtain ⟨t, ht⟩ := Option.isSome_iff_exists.mp hformed
      obtain ⟨hdescribed, hdesc⟩ := Ty.ofDescriptor?_eq_some_iff.mp ht
      simp only [isReadable, Bool.and_eq_true] at h
      have hunbroken : ∀ c ∈ handle.desc.toList, isBlank c = false := by
        simpa [isUnbroken] using h.2
      have hwritten : t.IsWritten := ⟨hdescribed, hdesc ▸ hunbroken⟩
      simp [isArgument, isSpelled, HandleRef.isSpelled, h.1, hdesc, hwritten.isDescText]

/-- A formed annotation is spelled where it is readable. -/
theorem Annot.isSpelled_of_isReadable {d : Dialect} {a : Annot} (hformed : a.isFormed = true)
    (h : a.isReadable d = true) : a.isSpelled d = true := by
  have hsteps : ∀ visible, AnnotSteps
      (fun a => a.all (formedTest visible) = true → a.all (readableTest d) = true →
        a.all (spelledTest d visible) = true)
      (fun arg => arg.all (formedTest visible) = true → arg.all (readableTest d) = true →
        arg.all (spelledTest d visible) = true) := by
    intro visible
    constructor
    case node =>
      intro v type args position ih hformed hreadable
      obtain ⟨hannot, hformed⟩ := all_mk_iff.mp hformed
      obtain ⟨hends, hreadable⟩ := all_mk_iff.mp hreadable
      have hannot : (v == visible && isPlainWord type && (args.map Prod.fst).all isPlainWord
          && decide (args.map Prod.fst).Nodup) = true := hannot
      have hends : (decide (d = .keyword)
          || (args.map Prod.fst).all fun name => !sameFolded name "end") = true := hends
      simp only [Bool.and_eq_true, beq_iff_eq, List.all_eq_true, decide_eq_true_eq] at hannot
      simp only [Bool.or_eq_true, decide_eq_true_eq, List.all_eq_true, Bool.not_eq_true'] at hends
      obtain ⟨⟨⟨hvisible, htype⟩, hnames⟩, hnodup⟩ := hannot
      refine all_mk_iff.mpr ⟨spelledTest_annot_iff.mpr ⟨hvisible, ?_, ?_, hnodup⟩,
        fun x hx => ih x hx (hformed x hx) (hreadable x hx)⟩
      · exact isWordBefore_of_isPlainWord rfl d htype
      · exact fun name hname => isArgName_of_isPlainWord (hnames name hname)
          (hends.imp_right fun h => h name hname)
    case const => exact fun c => Const.isArgument_of_isReadable
    case enum =>
      intro type name hformed _
      have hformed : (isPlainWord type && isPlainWord name) = true := hformed
      obtain ⟨htype, hname⟩ := Bool.and_eq_true_iff.mp hformed
      exact Bool.and_eq_true_iff.mpr
        ⟨isSignature_of_isPlainWord htype, isWordBefore_of_isPlainWord rfl d hname⟩
    case annot => exact fun a ih => ih
    case list =>
      intro args ih hformed hreadable
      exact AnnotArg.all_list_iff.mpr fun arg harg => ih arg harg
        (AnnotArg.all_list_iff.mp hformed arg harg) (AnnotArg.all_list_iff.mp hreadable arg harg)
  exact (hsteps a.visible).holds a hformed h

/-! ## Statements -/

/-- Can the handler's type stand where the dialect writes it?  The keyword dialect has it in
brackets, where it may be missing. -/
def isCaught : Dialect → Option String → Bool
  | _, none => true
  | .keyword, some type => type ≠ "*" && (type = "" || isWordTo (· = ')') type)
  | .directive, some type => type ≠ "*" && isSignature type

theorem isCaught_of_isPlain {caught : Option String} (h : caught.all isPlainWord = true)
    (d : Dialect) :
    isCaught d caught = true := by
  cases caught with
  | none => cases d <;> rfl
  | some type =>
      have htype : isPlainWord type = true := h
      have hne : type ≠ "*" := by
        rintro rfl
        revert htype
        decide
      cases d with
      | keyword =>
          have hword : isWordTo (· = ')') type = true :=
            isWordTo_of_isPlainWord htype fun c hc => by simp [ne_of_isNameChar hc (x := ')') rfl]
          simp [isCaught, hne, hword]
      | directive => simp [isCaught, hne, isSignature_of_isPlainWord htype]

end JvmListing
