/-
# Mnemonics

The word an instruction starts with says which opcode it is, in both dialects,
and is not a word that introduces anything else.  The facts about single
mnemonics are two computations over the table of opcodes.
-/
import JvmListing.Reading.Construct
import JvmListing.Writing.Argument
import JvmListing.Proofs.Plain
import Mathlib.Data.List.Nodup

namespace JvmListing

/-! ## Letter case -/

theorem sameFolded_iff {a b : String} : sameFolded a b = true ↔ lowerCase a = lowerCase b := by
  rw [sameFolded, beq_iff_eq, lowerCase, lowerCase, ← String.toList_inj, String.toList_ofList,
    String.toList_ofList]

/-- Does the character occur in mnemonics? -/
def isMnemonicChar (c : Char) : Bool := c.isLower || c.isDigit || c = '_'

theorem isAlpha_of_isLower {c : Char} (h : c.isLower = true) : c.isAlpha = true := by
  unfold Char.isAlpha
  rw [h, Bool.or_true]

theorem isNameChar_of_isMnemonicChar {c : Char} (h : isMnemonicChar c = true) :
    isNameChar c = true := by
  simp only [isMnemonicChar, Bool.or_eq_true, decide_eq_true_eq] at h
  rcases h with (h | h) | rfl
  · simp [isNameChar, Char.isAlphanum, isAlpha_of_isLower h]
  · simp [isNameChar, Char.isAlphanum, h]
  · decide

/-- The characters of mnemonics in upper case: they are those of names, and fold back. -/
theorem toUpper_of_isMnemonicChar {c : Char} (h : isMnemonicChar c = true) :
    isNameChar c.toUpper = true ∧ (c.isLower = true → isNameStart c.toUpper = true)
      ∧ c.toUpper.toLower = c ∧ c.toLower = c := by
  have hascii : ∀ n < 128, isMnemonicChar (Char.ofNat n) = true →
      isNameChar (Char.ofNat n).toUpper = true
        ∧ ((Char.ofNat n).isLower = true → isNameStart (Char.ofNat n).toUpper = true)
        ∧ (Char.ofNat n).toUpper.toLower = Char.ofNat n
        ∧ (Char.ofNat n).toLower = Char.ofNat n := by
    decide +kernel
  have hvisible := isVisible_of_isNameChar (isNameChar_of_isMnemonicChar h)
  simp only [isVisible, Bool.and_eq_true, decide_eq_true_eq] at hvisible
  have hc := hascii c.toNat (by omega)
  rw [Char.ofNat_toNat] at hc
  exact hc h

/-! ## Reserved words -/

/-- The words that introduce a construct, in lower case. -/
def headWords : List String :=
  ["signature", "throws", "value", "deprecated", "visible_annotation", "invisible_annotation",
   "annotation", "invisible-annotation", "try", "catch", "line", "expr"]

/-- The words that start something other than an instruction or a label, or that continue the
line before them. -/
def reservedWords : List String := headWords ++ ["method", "field", "end", "itf"]

theorem Head.ofWord?_eq_none {d : Dialect} {w : String} (h : lowerCase w ∉ headWords) :
    ofWord? d w = none := by
  unfold ofWord?
  split <;> first
    | rfl
    | rename_i hword
      rw [hword] at h
      exact absurd (by decide) h

/-- A word that introduces a construct neither opens nor ends a method, and does not continue the
line before it. -/
theorem Head.ne_of_ofWord? {d : Dialect} {w : String} {head : Head} (h : ofWord? d w = some head) :
    lowerCase w ≠ "method" ∧ lowerCase w ≠ "field" ∧ lowerCase w ≠ "end" ∧ lowerCase w ≠ "itf" := by
  have hne : ∀ s ∉ headWords, lowerCase w ≠ s := by
    rintro s hs rfl
    rw [ofWord?_eq_none hs] at h
    cases h
  exact ⟨hne _ (by decide), hne _ (by decide), hne _ (by decide), hne _ (by decide)⟩

/-- The plain word introduces the construct. -/
structure Head.Introduces (d : Dialect) (w : String) (head : Head) : Prop where
  plain : isPlainWord w = true
  found : ofWord? d w = some head

/-- The words for constructs that both dialects write alike. -/
def Head.words : List (String × Head) :=
  [("signature", .signature), ("throws", .throws), ("value", .value), ("deprecated", .deprecated),
   ("line", .line), ("expr", .expression)]

theorem Head.introduces_word (d : Dialect) {w : String} {head : Head} (h : (w, head) ∈ words) :
    Introduces d (d.word w) head := by
  have hall : ∀ e ∈ words, isPlainWord (d.word e.1) = true ∧ ofWord? d (d.word e.1) = some e.2 := by
    cases d <;> decide +kernel
  exact ⟨(hall _ h).1, (hall _ h).2⟩

theorem Head.introduces_try : Introduces .keyword "TRY" .tryCatch := by
  constructor <;> decide

theorem Head.introduces_catch : Introduces .directive "catch" .tryCatch := by
  constructor <;> decide

namespace Opcode

/-- The table has the opcodes in the order of their declaration. -/
theorem getElem?_all (op : Opcode) : all[op.ctorIdx]? = some op := by cases op <;> rfl

theorem mem_all (op : Opcode) : op ∈ all := List.mem_of_getElem? op.getElem?_all

/-- The bytes of a text as one number. -/
def wordNumber (s : String) : Nat :=
  s.toByteArray.data.toList.foldl (fun n b => 256 * n + b.toNat) 0

/-- No mnemonic occurs twice, and none is reserved. -/
theorem nodup_mnemonics : (all.map mnemonic ++ reservedWords).Nodup := by
  -- numbers are compared faster than texts
  refine List.Nodup.of_map wordNumber ?_
  decide +kernel

theorem isMnemonicChar_mnemonic : ∀ op ∈ all,
    op.mnemonic.toList.all isMnemonicChar = true
      ∧ op.mnemonic.toList.head?.any Char.isLower = true := by
  decide +kernel

theorem mnemonic_injective {a b : Opcode} (h : a.mnemonic = b.mnemonic) : a = b :=
  List.inj_on_of_nodup_map nodup_mnemonics.of_append_left (mem_all a) (mem_all b) h

theorem mnemonic_not_mem (op : Opcode) : op.mnemonic ∉ reservedWords :=
  List.disjoint_of_nodup_append nodup_mnemonics (List.mem_map_of_mem (mem_all op))

variable (d : Dialect) (op : Opcode)

theorem lowerCase_word : lowerCase (d.word op.mnemonic) = op.mnemonic := by
  have hchars := List.all_eq_true.mp (isMnemonicChar_mnemonic op (mem_all op)).1
  have hfixed : ∀ f : Char → Char, (∀ c, isMnemonicChar c = true → f c = c) →
      op.mnemonic.toList.map f = op.mnemonic.toList :=
    fun f hf => (List.map_congr_left fun c hc => hf c (hchars c hc)).trans (List.map_id _)
  rw [← String.toList_inj, lowerCase, String.toList_ofList]
  cases d with
  | keyword =>
      rw [Dialect.word, upperCase, String.toList_ofList, List.map_map]
      exact hfixed _ fun c hc => (toUpper_of_isMnemonicChar hc).2.2.1
  | directive => exact hfixed _ fun c hc => (toUpper_of_isMnemonicChar hc).2.2.2

variable {op} in
theorem mnemonic_of_ofMnemonic? {w : String} (h : ofMnemonic? w = some op) :
    lowerCase w = op.mnemonic := by
  have hfold : sameFolded op.mnemonic w = true := by simpa using List.find?_some h
  rw [← sameFolded_iff.mp hfold]
  exact op.lowerCase_word .directive

theorem isPlainWord_word : isPlainWord (d.word op.mnemonic) = true := by
  obtain ⟨hchars, hhead⟩ := isMnemonicChar_mnemonic op (mem_all op)
  cases hop : op.mnemonic.toList with
  | nil =>
      rw [hop] at hhead
      cases hhead
  | cons c cs =>
      rw [hop, List.all_cons, Bool.and_eq_true, List.all_eq_true] at hchars
      rw [hop] at hhead
      have hlower : c.isLower = true := hhead
      rw [isPlainWord_iff]
      cases d with
      | keyword =>
          refine ⟨c.toUpper, cs.map Char.toUpper, ?_, ?_, ?_⟩
          · rw [Dialect.word, upperCase, String.toList_ofList, hop, List.map_cons]
          · exact (toUpper_of_isMnemonicChar hchars.1).2.1 hlower
          · rw [List.forall_mem_map]
            exact fun x hx => (toUpper_of_isMnemonicChar (hchars.2 x hx)).1
      | directive =>
          refine ⟨c, cs, hop, ?_, fun x hx => isNameChar_of_isMnemonicChar (hchars.2 x hx)⟩
          simp [isNameStart, isAlpha_of_isLower hlower]

theorem ofMnemonic?_word : ofMnemonic? (d.word op.mnemonic) = some op := by
  have hself : sameFolded op.mnemonic (d.word op.mnemonic) = true := by
    rw [sameFolded_iff, lowerCase_word]
    exact lowerCase_word .directive op
  have hsome : (ofMnemonic? (d.word op.mnemonic)).isSome = true :=
    List.find?_isSome.mpr ⟨op, mem_all op, hself⟩
  obtain ⟨found, hfound⟩ := Option.isSome_iff_exists.mp hsome
  have hlower : lowerCase found.mnemonic = found.mnemonic := lowerCase_word .directive found
  have hfold := hfound
  unfold ofMnemonic? at hfold
  have hsame := List.find?_some hfold
  simp only [sameFolded_iff, lowerCase_word, hlower] at hsame
  rw [hfound, mnemonic_injective hsame]

end Opcode

end JvmListing
