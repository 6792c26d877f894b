/-
# Plain listings

The method listings whose text needs no care: every name is a plain word, every
descriptor describes a type, and every instruction has the operands of its
opcode.  All of it is decidable, and none of it looks at a text.

Two plain listings are still not told apart from something else when the
directive dialect writes them.  There the name of a method stands between blanks,
where a modifier may stand, and the targets of a table switch end at the word
`default`, which may be a target.  `Listing.isAmbiguous` says so.
-/
import JvmListing.Listing.Basic
import JvmListing.Reading.Part
import JvmListing.Proofs.Descriptor

namespace JvmListing

/-! ## Words -/

def isNameStart (c : Char) : Bool := c.isAlpha || c = '_' || c = '$' || c = '<'

def isNameChar (c : Char) : Bool :=
  c.isAlphanum || c = '_' || c = '$' || c = '/' || c = '<' || c = '>'

/-- Can the text be a name? -/
def isPlainWord (s : String) : Bool :=
  match s.toList with
  | [] => false
  | c :: cs => isNameStart c && cs.all isNameChar

/-- Is the text a slot number? -/
def isSlotNumber (s : String) : Bool := s ≠ "" && s.toList.all Char.isDigit

def isVarName (s : String) : Bool := isPlainWord s || isSlotNumber s

/-- Can the text be a signature?  It has no blanks and does not open a comment. -/
def isSignature (s : String) : Bool :=
  s ≠ "" && s.toList.all (fun c => !isBlank c) && !"//".toList.isPrefixOf s.toList
    && !"/*".toList.isPrefixOf s.toList

/-! ## Types -/

/-- Is it a type of values with plain class names? -/
def Ty.isPlain : Ty → Bool
  | .prim p => p ≠ .void
  | .array t => t.isPlain
  | .object name => isPlainWord name
  | .method .. => false

/-- Is it `void` or a plain type? -/
def Ty.isPlainResult (t : Ty) : Bool := t = .void || t.isPlain

/-- Is it a plain type, or a method with plain types? -/
def Ty.isPlainConstant : Ty → Bool
  | .method params result => params.all Ty.isPlain && result.isPlainResult
  | t => t.isPlain

def isPlainFieldDesc (desc : String) : Bool := (Ty.ofFieldDescriptor? desc).any Ty.isPlain

def isPlainMethodDesc (desc : String) : Bool :=
  (Ty.readMethod? desc).any fun (params, result) => params.all Ty.isPlain && result.isPlainResult

def isPlainDesc (desc : String) : Bool := isPlainFieldDesc desc || isPlainMethodDesc desc

/-- Can the text name a class or an array type? -/
def isTypeName (s : String) : Bool :=
  isPlainWord s || s.toList.head? = some '[' && isPlainFieldDesc s

/-! ## Instructions -/

/-- Can a member be referred to by its owner and its name?  The reference is one word, and the
last dot in it divides the two. -/
def isMember (owner name : String) : Bool :=
  owner ≠ "" && name ≠ "" && !name.toList.contains '.' && isSignature (owner ++ "." ++ name)
    && (owner ++ "." ++ name).toList.all fun c => c ≠ '(' && c ≠ ')'

def HandleRef.isPlain (h : HandleRef) : Bool :=
  isTypeName h.owner && isPlainWord h.name && isPlainDesc h.desc

def Const.isPlain : Const HandleRef → Bool
  | .literal _ => true
  | .type t => t.isPlainConstant
  | .handle h => h.isPlain

/-- Has the operation plain operands that suit its opcode? -/
def Operation.isPlain : Operation → Bool
  | .plain op => op.shape = .none
  | .int op _ => op.shape = .int
  | .newArray t => t.isPlain
  | .var op name => op.shape = .var && isVarName name
  | .type op desc => op.shape = .type && isTypeName desc
  | .field op owner name desc =>
    op.shape = .field && isTypeName owner && isPlainWord name && isPlainDesc desc
  | .method op owner name desc itf =>
    op.shape = .method && isTypeName owner && isPlainWord name && isPlainMethodDesc desc
      && (op ≠ .invokeinterface || itf)
  | .invokeDynamic name desc bootstrap args =>
    isPlainWord name && isPlainDesc desc && bootstrap.isPlain && args.all Const.isPlain
  | .ldc value => value.isPlain
  | .jump op label => op.shape = .jump && isPlainWord label
  | .iinc name _ => isVarName name
  | .multiArray desc _ => isPlainDesc desc
  | .lookupSwitch cases default => cases.all (isPlainWord ·.label) && isPlainWord default
  | .tableSwitch min max labels default =>
    max.toInt - min.toInt + 1 = labels.length && labels ≠ [] && labels.all isPlainWord
      && isPlainWord default
  | .line label number => isPlainWord label && number ≤ 2147483647

/-! ## Listings -/

def Statement.isPlain : Statement → Bool
  | .operation op => op.isPlain
  | .label name => isPlainWord name
  | .tryCatch start stop handler caught =>
    isPlainWord start && isPlainWord stop && isPlainWord handler && caught.all isPlainWord
  | .throws type => isPlainWord type
  | .signature s => isSignature s
  | .value _ => true
  | _ => false

def Attributes.isPlain (a : Attributes) : Bool :=
  a.signature.all (isSignature ·.value) && a.thrown.all (isPlainWord ·.value) && a.annots.isEmpty

/-- Has the method a plain header?  Its flags are all modifiers of methods. -/
def MethodDef.isPlain (m : MethodDef) : Bool :=
  m.access = Access.applicable m.access .method && isPlainWord m.name
    && m.params.all (fun p => isPlainFieldDesc p.desc && isPlainWord p.name)
    && (m.result = "V" || isPlainFieldDesc m.result) && m.attributes.isPlain

/-- Is it a method with a body, both plain? -/
def Listing.isPlain (l : Listing) : Bool :=
  match l.definition, l.code with
  | .method m, some code => m.isPlain && code.all (·.value.isPlain)
  | _, _ => false

/-- Is it a table switch with a target of the name that ends its targets? -/
def Statement.targetsDefault : Statement → Bool
  | .operation (.tableSwitch _ _ labels _) => labels.any (sameFolded · "default")
  | _ => false

/-- Does the directive dialect write the listing as it would write something else? -/
def Listing.isAmbiguous (l : Listing) : Bool :=
  Scan.isModifier l.definition.name || l.body.any (·.value.targetsDefault)

/-! ## The characters of words -/

/-- Is the character printable ASCII other than a space? -/
def isVisible (c : Char) : Bool := 0x21 ≤ c.toNat && c.toNat ≤ 0x7E

theorem isBlank_of_isVisible {c : Char} (h : isVisible c = true) : isBlank c = false := by
  simp only [isVisible, Bool.and_eq_true, decide_eq_true_eq] at h
  rw [isBlank, List.any_eq_false]
  intro range hrange
  simp only [blankRanges, List.mem_cons, List.not_mem_nil, or_false] at hrange
  rcases hrange with rfl | rfl | rfl | rfl | rfl | rfl | rfl | rfl | rfl | rfl <;> simp <;> omega

theorem isAlpha_iff {c : Char} :
    c.isAlpha = true ↔ 65 ≤ c.toNat ∧ c.toNat ≤ 90 ∨ 97 ≤ c.toNat ∧ c.toNat ≤ 122 := by
  unfold Char.isAlpha Char.isUpper Char.isLower
  simp [UInt32.le_iff_toNat_le, ← Char.toNat_val]

theorem isDigit_iff {c : Char} : c.isDigit = true ↔ 48 ≤ c.toNat ∧ c.toNat ≤ 57 := by
  simp [Char.isDigit, UInt32.le_iff_toNat_le, ← Char.toNat_val]

theorem isVisible_of_isAlphanum {c : Char} (h : c.isAlphanum = true) : isVisible c = true := by
  rw [Char.isAlphanum, Bool.or_eq_true, isAlpha_iff, isDigit_iff] at h
  simp only [isVisible, Bool.and_eq_true, decide_eq_true_eq]
  omega

theorem isVisible_of_isNameChar {c : Char} (h : isNameChar c = true) : isVisible c = true := by
  simp only [isNameChar, Bool.or_eq_true, decide_eq_true_eq] at h
  rcases h with ((((h | rfl) | rfl) | rfl) | rfl) | rfl
  · exact isVisible_of_isAlphanum h
  all_goals decide

theorem isNameChar_of_isNameStart {c : Char} (h : isNameStart c = true) : isNameChar c = true := by
  simp only [isNameStart, Bool.or_eq_true, decide_eq_true_eq] at h
  rcases h with ((h | rfl) | rfl) | rfl
  · simp [isNameChar, Char.isAlphanum, h]
  all_goals decide

theorem not_isDigit_of_isNameStart {c : Char} (h : isNameStart c = true) : c.isDigit = false := by
  simp only [isNameStart, Bool.or_eq_true, decide_eq_true_eq] at h
  rcases h with ((h | rfl) | rfl) | rfl
  · rw [← Bool.not_eq_true, isDigit_iff]
    rw [isAlpha_iff] at h
    omega
  all_goals decide

theorem ne_slash_of_isNameStart {c : Char} (h : isNameStart c = true) : c ≠ '/' := by
  rintro rfl
  revert h
  decide

/-- Does the character occur in names and in the descriptors of values? -/
def isTypeChar (c : Char) : Bool := isNameChar c || c = '[' || c = ';'

theorem isVisible_of_isTypeChar {c : Char} (h : isTypeChar c = true) : isVisible c = true := by
  simp only [isTypeChar, Bool.or_eq_true, decide_eq_true_eq] at h
  rcases h with (h | rfl) | rfl
  · exact isVisible_of_isNameChar h
  all_goals decide

theorem isPlainWord_iff {s : String} : isPlainWord s = true ↔
    ∃ c cs, s.toList = c :: cs ∧ isNameStart c = true ∧ ∀ x ∈ cs, isNameChar x = true := by
  unfold isPlainWord
  split
  · rename_i h
    simp [h]
  · rename_i c cs h
    simp only [h, Bool.and_eq_true, List.all_eq_true, List.cons.injEq]
    constructor
    · rintro ⟨hc, hcs⟩
      exact ⟨c, cs, ⟨rfl, rfl⟩, hc, hcs⟩
    · rintro ⟨c', cs', ⟨rfl, rfl⟩, hc, hcs⟩
      exact ⟨hc, hcs⟩

theorem isNameChar_of_mem {s : String} (h : isPlainWord s = true) :
    ∀ c ∈ s.toList, isNameChar c = true := by
  obtain ⟨c, cs, hs, hc, hcs⟩ := isPlainWord_iff.mp h
  rw [hs]
  intro x hx
  rcases List.mem_cons.mp hx with rfl | hx
  · exact isNameChar_of_isNameStart hc
  · exact hcs x hx

/-! ## The descriptors of plain types -/

theorem Prim.isNameChar_letter (p : Prim) : isNameChar p.letter = true := by
  cases p <;> decide

namespace Ty

theorem isTypeChar_descriptor : ∀ {t : Ty}, t.isPlain = true →
    ∀ c ∈ t.descriptor.toList, isTypeChar c = true
  | .prim p, _, c, hc => by
      rw [toList_descriptor_prim, List.mem_singleton] at hc
      simp [hc, isTypeChar, p.isNameChar_letter]
  | .array t, h, c, hc => by
      rw [toList_descriptor_array] at hc
      rcases List.mem_cons.mp hc with rfl | hc
      · decide
      · exact isTypeChar_descriptor (t := t) h c hc
  | .object name, h, c, hc => by
      rw [toList_descriptor_object] at hc
      rcases List.mem_cons.mp hc with rfl | hc
      · decide
      · rcases List.mem_append.mp hc with hc | hc
        · simp [isTypeChar, isNameChar_of_mem h c hc]
        · rw [List.mem_singleton] at hc
          subst hc
          decide

theorem IsField.of_isPlain : ∀ {t : Ty}, t.isPlain = true → t.IsField
  | .prim p, h => by
      refine ⟨trivial, ?_⟩
      rintro hvoid
      obtain rfl := Ty.prim.inj hvoid
      cases h
  | .array t, h => ⟨IsField.of_isPlain (t := t) h, nofun⟩
  | .object name, h => by
      obtain ⟨c, cs, hs, -, -⟩ := isPlainWord_iff.mp h
      refine ⟨⟨?_, fun hmem => ?_⟩, nofun⟩
      · rintro rfl
        cases hs
      · exact absurd (isNameChar_of_mem h ';' hmem) (by decide)

theorem ofFieldDescriptor?_descriptor {t : Ty} (h : t.isPlain = true) :
    ofFieldDescriptor? t.descriptor = some t :=
  ofFieldDescriptor?_eq_some_iff.mpr ⟨IsField.of_isPlain h, rfl⟩

theorem isTypeChar_descriptors {ts : List Ty} (h : ∀ t ∈ ts, t.isPlain = true) :
    ∀ c ∈ (descriptors ts).toList, isTypeChar c = true := by
  induction ts with
  | nil =>
      intro c hc
      cases hc
  | cons t ts ih =>
      intro c hc
      rw [toList_descriptors_cons] at hc
      rcases List.mem_append.mp hc with hc | hc
      · exact isTypeChar_descriptor (h t List.mem_cons_self) c hc
      · exact ih (fun u hu => h u (List.mem_cons_of_mem t hu)) c hc

end Ty

theorem isPlainFieldDesc_iff {desc : String} :
    isPlainFieldDesc desc = true ↔ ∃ t : Ty, t.isPlain = true ∧ desc = t.descriptor := by
  simp only [isPlainFieldDesc, Option.any_eq_true]
  constructor
  · rintro ⟨t, ht, hplain⟩
    exact ⟨t, hplain, (Ty.ofFieldDescriptor?_eq_some_iff.mp ht).2⟩
  · rintro ⟨t, hplain, rfl⟩
    exact ⟨t, Ty.ofFieldDescriptor?_descriptor hplain, hplain⟩

theorem Ty.readMethod?_of_isPlain {params : List Ty} {result : Ty}
    (hparams : ∀ t ∈ params, t.isPlain = true) (hresult : result.isPlainResult = true) :
    readMethod? (Ty.method params result).descriptor = some (params, result) := by
  refine readMethod?_eq_some_iff.mpr ⟨?_, ?_, ?_, rfl⟩
  · exact fun t ht => IsField.of_isPlain (hparams t ht)
  · exact fun hmem => absurd (isTypeChar_descriptors hparams ')' hmem) (by decide)
  · simp only [isPlainResult, Bool.or_eq_true, decide_eq_true_eq] at hresult
    rcases hresult with rfl | hresult
    · trivial
    · exact (IsField.of_isPlain hresult).1

theorem isPlainMethodDesc_iff {desc : String} :
    isPlainMethodDesc desc = true ↔ ∃ params result, (∀ t ∈ params, Ty.isPlain t = true)
      ∧ result.isPlainResult = true ∧ desc = (Ty.method params result).descriptor := by
  simp only [isPlainMethodDesc, Option.any_eq_true, Bool.and_eq_true, List.all_eq_true]
  constructor
  · rintro ⟨⟨params, result⟩, hread, hparams, hresult⟩
    exact ⟨params, result, hparams, hresult, (Ty.readMethod?_eq_some_iff.mp hread).2.2.2⟩
  · rintro ⟨params, result, hparams, hresult, rfl⟩
    exact ⟨(params, result), Ty.readMethod?_of_isPlain hparams hresult, hparams, hresult⟩

theorem Ty.isPlainConstant_of_isPlain {t : Ty} (h : t.isPlain = true) :
    t.isPlainConstant = true := by
  cases t with
  | method params result => cases h
  | _ => exact h

theorem isPlainDesc_iff {desc : String} :
    isPlainDesc desc = true ↔ ∃ t : Ty, t.isPlainConstant = true ∧ desc = t.descriptor := by
  simp only [isPlainDesc, Bool.or_eq_true, isPlainFieldDesc_iff, isPlainMethodDesc_iff]
  constructor
  · rintro (⟨t, ht, rfl⟩ | ⟨params, result, hparams, hresult, rfl⟩)
    · exact ⟨t, Ty.isPlainConstant_of_isPlain ht, rfl⟩
    · refine ⟨_, ?_, rfl⟩
      simpa [Ty.isPlainConstant, hresult] using hparams
  · rintro ⟨t, ht, rfl⟩
    cases t with
    | method params result =>
        simp only [Ty.isPlainConstant, Bool.and_eq_true, List.all_eq_true] at ht
        exact Or.inr ⟨params, result, ht.1, ht.2, rfl⟩
    | _ => exact Or.inl ⟨_, ht, rfl⟩

/-- Does a whole text without a blank describe the type? -/
structure Ty.IsWritten (t : Ty) : Prop where
  described : t.IsDescribed
  unbroken : ∀ c ∈ t.descriptor.toList, isBlank c = false

theorem Ty.IsWritten.of_isPlain {t : Ty} (h : t.isPlainConstant = true) : t.IsWritten := by
  have hblank : ∀ c, isTypeChar c = true → isBlank c = false :=
    fun c hc => isBlank_of_isVisible (isVisible_of_isTypeChar hc)
  cases t with
  | method params result =>
      simp only [isPlainConstant, Bool.and_eq_true, List.all_eq_true] at h
      obtain ⟨hparams, hparen, hresult, -⟩ :=
        readMethod?_eq_some_iff.mp (readMethod?_of_isPlain h.1 h.2)
      refine ⟨⟨hparams, hparen, hresult⟩, fun c hc => ?_⟩
      rw [toList_descriptor_method] at hc
      rcases List.mem_cons.mp hc with rfl | hc
      · rfl
      rcases List.mem_append.mp hc with hc | hc
      · exact hblank c (isTypeChar_descriptors h.1 c hc)
      rcases List.mem_cons.mp hc with rfl | hc
      · rfl
      · have hplain := h.2
        simp only [isPlainResult, Bool.or_eq_true, decide_eq_true_eq] at hplain
        rcases hplain with rfl | hplain
        · obtain rfl := List.mem_singleton.mp hc
          rfl
        · exact hblank c (isTypeChar_descriptor hplain c hc)
  | _ => exact ⟨IsField.of_isPlain h, fun c hc => hblank c (isTypeChar_descriptor h c hc)⟩

end JvmListing
