/-
# Parts of written constructs

What the scans of literals, labels, types, members and constants make of their
written forms.  The result is described by its meaning: a raw literal is one that
denotes the number, a raw handle one that stands for the handle, and so on.
-/
import JvmListing.Reading.Meaning
import JvmListing.Writing.Argument
import JvmListing.Proofs.NumberText
import JvmListing.Proofs.Scans

namespace JvmListing

open Lexeme

/-! ## Words -/

theorem ne_of_isNameChar {c x : Char} (h : isNameChar c = true) (hx : isNameChar x = false) :
    c ≠ x := by
  rintro rfl
  rw [h] at hx
  cases hx

theorem inWord_of_isPlainWord {w : String} (h : isPlainWord w = true) {stop : Char → Bool}
    (hstop : ∀ c, isNameChar c = true → stop c = false) : InWord stop w.toList :=
  fun c hc =>
    have hchar := isNameChar_of_mem h c hc
    ⟨isBlank_of_isVisible (isVisible_of_isNameChar hchar), hstop c hchar⟩

theorem opens_of_isPlainWord {w : String} (h : isPlainWord w = true) (close : Char)
    (hclose : isNameStart close = false) : Scan.Opens close w.toList := by
  obtain ⟨c, cs, hw, hc, -⟩ := isPlainWord_iff.mp h
  refine ⟨c, cs, hw, isBlank_of_isVisible (isVisible_of_isNameChar (isNameChar_of_isNameStart hc)),
    ne_slash_of_isNameStart hc, ?_⟩
  rintro rfl
  rw [hc] at hclose
  cases hclose

theorem ne_empty_of_isPlainWord {w : String} (h : isPlainWord w = true) : w ≠ "" := by
  rintro rfl
  cases h

theorem listStop_of_isNameChar {c : Char} (h : isNameChar c = true) : Scan.listStop c = false := by
  simp [Scan.listStop, ne_of_isNameChar h (x := ',') rfl, ne_of_isNameChar h (x := ')') rfl,
    ne_of_isNameChar h (x := ']') rfl, ne_of_isNameChar h (x := ':') rfl,
    ne_of_isNameChar h (x := '=') rfl]

theorem paren_of_isNameChar {c : Char} (h : isNameChar c = true) : decide (c = '(') = false := by
  simp [ne_of_isNameChar h (x := '(') rfl]

/-- Does the text start with a blank? -/
def AtBlank (cs : List Char) : Prop := cs.head?.any isBlank = true

theorem AtBlank.endsWord {cs : List Char} (h : AtBlank cs) (stop : Char → Bool) :
    EndsWord stop cs := by
  cases cs with
  | nil => cases h
  | cons c cs =>
      have hblank : isBlank c = true := h
      simp [EndsWord, hblank]

theorem atBlank_space (cs : List Char) : AtBlank (' ' :: cs) := rfl

theorem atBlank_newline (cs : List Char) : AtBlank ('\n' :: cs) := rfl

/-- Is the text read as one word wherever a blank follows? -/
structure IsWord (w : String) : Prop where
  inWord : InWord (fun _ => false) w.toList
  opens : Scan.Opens ')' w.toList

theorem isWord_of_isPlainWord {w : String} (h : isPlainWord w = true) : IsWord w :=
  ⟨inWord_of_isPlainWord h fun _ _ => rfl, opens_of_isPlainWord h ')' rfl⟩

theorem isWord_of_isVarName {w : String} (h : isVarName w = true) : IsWord w := by
  simp only [isVarName, isSlotNumber, Bool.or_eq_true, Bool.and_eq_true, decide_eq_true_eq,
    List.all_eq_true] at h
  rcases h with h | ⟨hne, h⟩
  · exact isWord_of_isPlainWord h
  · have hvisible : ∀ c : Char, c.isDigit = true → isVisible c = true :=
      fun c hc => isVisible_of_isAlphanum (by simp [Char.isAlphanum, hc])
    refine ⟨fun c hc => ⟨isBlank_of_isVisible (hvisible c (h c hc)), rfl⟩, ?_⟩
    cases hw : w.toList with
    | nil => exact absurd (String.toList_eq_nil_iff.mp hw) hne
    | cons c cs =>
        have hc : c.isDigit = true := h c (hw ▸ List.mem_cons_self)
        refine ⟨c, cs, rfl, isBlank_of_isVisible (hvisible c hc), ?_, ?_⟩ <;>
          · rintro rfl
            cases hc

theorem head_ne_of_endsWord {stop : Char → Bool} {rest : List Char}
    (h : EndsWord stop rest) {x : Char}
    (hblank : isBlank x = false) (hstop : stop x = false) : rest.head? ≠ some x := by
  intro heq
  rw [EndsWord, heq] at h
  simp [hblank, hstop] at h

/-- A signature starts no comment, unless the text after it completes one. -/
theorem noTrivia_of_isSignature {s : String} (h : isSignature s = true) {rest : List Char}
    (hrest : rest.head? ≠ some '/' ∧ rest.head? ≠ some '*') : NoTrivia (s.toList ++ rest) := by
  simp only [isSignature, Bool.and_eq_true, Bool.not_eq_true', decide_eq_true_eq, ne_eq] at h
  obtain ⟨⟨⟨hne, hblank⟩, hline⟩, hblock⟩ := h
  cases hs : s.toList with
  | nil => exact absurd (String.toList_eq_nil_iff.mp hs) hne
  | cons c cs =>
      rw [hs] at hblank hline hblock
      have hc : isBlank c = false := by simpa using List.all_eq_true.mp hblank c List.mem_cons_self
      refine ⟨by simpa using hc, ?_⟩
      -- a second character of a comment belongs to the signature
      have hsecond : ∀ x tail, x = '/' ∨ x = '*' → cs ++ rest = x :: tail → ∃ ys, cs = x :: ys := by
        intro x tail hx heq
        cases cs with
        | nil =>
            rw [List.nil_append] at heq
            rw [heq] at hrest
            rcases hx with rfl | rfl
            · exact absurd rfl hrest.1
            · exact absurd rfl hrest.2
        | cons y ys => exact ⟨ys, by rw [(List.cons.inj heq).1]⟩
      rw [List.cons_append]
      unfold commentLength?
      split
      · rename_i heq
        obtain ⟨rfl, htail⟩ := List.cons.inj heq
        obtain ⟨ys, rfl⟩ := hsecond '/' _ (Or.inl rfl) htail
        cases hline
      · rename_i heq
        obtain ⟨rfl, htail⟩ := List.cons.inj heq
        obtain ⟨ys, rfl⟩ := hsecond '*' _ (Or.inr rfl) htail
        cases hblock
      · rfl

theorem isSignature_iff {s : String} :
    isSignature s = true ↔ s ≠ "" ∧ InWord (fun _ => false) s.toList
    ∧ "//".toList.isPrefixOf s.toList = false ∧ "/*".toList.isPrefixOf s.toList = false := by
  simp only [isSignature, Bool.and_eq_true, List.all_eq_true, Bool.not_eq_true', decide_eq_true_eq,
    and_assoc, InWord, and_true]

/-- Is the text one word, without a character of `stop`? -/
structure IsWordTo (stop : Char → Bool) (w : String) : Prop where
  signature : isSignature w = true
  inWord : InWord stop w.toList

namespace IsWordTo

variable {stop : Char → Bool} {w : String}

theorem ne_empty (h : IsWordTo stop w) : w ≠ "" := (isSignature_iff.mp h.signature).1

theorem isEmpty (h : IsWordTo stop w) : w.isEmpty = false :=
  Bool.eq_false_iff.mpr fun hempty => h.ne_empty (String.isEmpty_iff.mp hempty)

theorem of_isSignature (h : isSignature w = true) : IsWordTo (fun _ => false) w :=
  ⟨h, (isSignature_iff.mp h).2.1⟩

theorem of_isWord (h : IsWord w) (hin : InWord stop w.toList) : IsWordTo stop w := by
  obtain ⟨c, cs, hcs, -, hslash, -⟩ := h.opens
  have hnone : ∀ xs : List Char, ('/' :: xs).isPrefixOf w.toList = false := by
    intro xs
    rw [hcs, List.isPrefixOf, Bool.and_eq_false_iff]
    exact Or.inl (beq_eq_false_iff_ne.mpr hslash.symm)
  refine ⟨isSignature_iff.mpr ⟨?_, h.inWord, hnone ['/'], hnone ['*']⟩, hin⟩
  rintro rfl
  cases hcs

theorem of_isPlainWord (h : isPlainWord w = true)
    (hstop : ∀ c, isNameChar c = true → stop c = false) :
    IsWordTo stop w :=
  of_isWord (isWord_of_isPlainWord h) (inWord_of_isPlainWord h hstop)

/-- A word opens no comment with what ends it. -/
theorem noTrivia (h : IsWordTo stop w) {rest : List Char} (hrest : EndsWord stop rest)
    (hstop : stop '/' = false ∧ stop '*' = false) : NoTrivia (w.toList ++ rest) :=
  noTrivia_of_isSignature h.signature
    ⟨head_ne_of_endsWord hrest rfl hstop.1, head_ne_of_endsWord hrest rfl hstop.2⟩

theorem head_ne (h : IsWordTo stop w) {x : Char} (hx : stop x = true) (rest : List Char) :
    (w.toList ++ rest).head? ≠ some x := by
  cases hw : w.toList with
  | nil => exact absurd (String.toList_eq_nil_iff.mp hw) h.ne_empty
  | cons c cs =>
      intro heq
      obtain rfl : c = x := Option.some.inj heq
      have hstop := (h.inWord c (by simp [hw])).2
      rw [hx] at hstop
      cases hstop

end IsWordTo

theorem IsWord.isSignature {w : String} (h : IsWord w) : isSignature w = true :=
  (IsWordTo.of_isWord h h.inWord).signature

theorem isSignature_of_isPlainWord {w : String} (h : isPlainWord w = true) : isSignature w = true :=
  (isWord_of_isPlainWord h).isSignature

namespace Scan

theorem reads_wordOf {w what : String} {before rest : List Char} (h : isSignature w = true)
    (hgap : BlanksTo before (w.toList ++ rest)) (hrest : AtBlank rest) :
    (requiredWord what).Reads before (· = w) rest := by
  have hword := IsWordTo.of_isSignature h
  exact reads_requiredWord hgap (hword.noTrivia (hrest.endsWord _) ⟨rfl, rfl⟩) hword.ne_empty
    hword.inWord (hrest.endsWord _)

theorem reads_plainWord {w what : String} {before rest : List Char} (h : isPlainWord w = true)
    (hgap : BlanksTo before (w.toList ++ rest)) (hrest : AtBlank rest) :
    (requiredWord what).Reads before (· = w) rest :=
  reads_wordOf (isSignature_of_isPlainWord h) hgap hrest

/-- A word after trivia, up to a character that ends it. -/
theorem reads_wordTo {stop : Char → Bool} {w what : String} {before rest : List Char}
    (h : IsWordTo stop w) (hstop : stop '/' = false ∧ stop '*' = false)
    (hgap : BlanksTo before (w.toList ++ rest)) (hrest : EndsWord stop rest) :
    (do skipTrivia; requiredUpTo stop what : Scan String).Reads before (· = w) rest :=
  (reads_skipTrivia hgap (h.noTrivia hrest hstop)).bind fun _ _ =>
    reads_requiredUpTo h.ne_empty h.inWord hrest

end Scan

/-! ## Literals -/

theorem ne_of_isTextChar {c x : Char} (h : Number.isTextChar c = true)
    (hx : Number.isTextChar x = false) : c ≠ x := by
  rintro rfl
  rw [h] at hx
  cases hx

theorem isVisible_of_isTextChar {c : Char} (h : Number.isTextChar c = true) :
    isVisible c = true := by
  simp only [Number.isTextChar, Bool.or_eq_true, decide_eq_true_eq] at h
  rcases h with (h | rfl) | rfl
  · exact isVisible_of_isAlphanum h
  all_goals decide

theorem inWord_numberText (n : Number) : InWord Scan.listStop n.text.toList := by
  intro c hc
  have h := n.isTextChar_text c hc
  refine ⟨isBlank_of_isVisible (isVisible_of_isTextChar h), ?_⟩
  simp [Scan.listStop, ne_of_isTextChar h (x := ',') rfl, ne_of_isTextChar h (x := ')') rfl,
    ne_of_isTextChar h (x := ']') rfl, ne_of_isTextChar h (x := ':') rfl,
    ne_of_isTextChar h (x := '=') rfl]

theorem exists_numberText (n : Number) :
    ∃ c cs, n.text.toList = c :: cs ∧ Number.isTextChar c = true := by
  have hchars := n.isTextChar_text
  have hnumeric := n.looksNumeric_text
  cases h : n.text.toList with
  | nil =>
      rw [String.toList_eq_nil_iff.mp h] at hnumeric
      cases hnumeric
  | cons c cs =>
      rw [h] at hchars
      exact ⟨c, cs, rfl, hchars c List.mem_cons_self⟩

theorem opens_literalText (l : Literal) (close : Char) (hclose : Number.isTextChar close = false)
    (hquote : close ≠ '"') : Scan.Opens close l.text.toList := by
  cases l with
  | number n =>
      obtain ⟨c, cs, hn, hc⟩ := exists_numberText n
      exact ⟨c, cs, hn, isBlank_of_isVisible (isVisible_of_isTextChar hc),
        ne_of_isTextChar hc rfl, ne_of_isTextChar hc hclose⟩
  | string s =>
      refine ⟨'"', s.toList.flatMap quoteChar ++ ['"'], ?_, rfl, by decide, hquote.symm⟩
      rw [Literal.text, quote, String.toList_ofList]
      rfl

theorem literalOf_number {l : Located RawLiteral} {n : Number} (h : l.value = .number n.text) :
    literalOf l = .ok (.number n) := by
  simp [literalOf, numberOf, h, n.read_text]

theorem intOf_number {l : Located RawLiteral} {v : Int32}
    (h : l.value = .number (Number.int v).text) : intOf l = .ok v := by
  have hnumber : numberOf l = .ok (.int v) := by simp [numberOf, h, Number.read_text]
  rw [intOf, hnumber]
  rfl

namespace Scan

theorem reads_number (n : Number) {before rest : List Char}
    (hgap : BlanksTo before (n.text.toList ++ rest)) (hrest : EndsWord listStop rest) :
    literal.Reads before (·.value = .number n.text) rest := by
  obtain ⟨c, cs, hn, hc⟩ := exists_numberText n
  have hopens : Opens '(' n.text.toList := opens_literalText (.number n) '(' rfl (by decide)
  unfold literal
  refine (reads_skipTrivia hgap (hopens.noTrivia rest)).bind fun _ _ => ?_
  refine (reads_get _).bind ?_
  intro mark hmark
  split
  · rename_i heq
    rw [hmark, hn] at heq
    exact absurd (List.cons.inj heq).1 (ne_of_isTextChar hc rfl)
  · rename_i heq
    rw [hmark, hn] at heq
    exact absurd (List.cons.inj heq).1 (ne_of_isTextChar hc rfl)
  · refine (reads_upTo (inWord_numberText n) hrest).bind ?_
    intro token htoken
    rw [htoken, n.looksNumeric_text]
    refine (reads_since mark rest).bind fun _ _ => ?_
    refine Reads.pure ?_ rest
    rfl

theorem reads_literal (l : Literal) {before rest : List Char}
    (hgap : BlanksTo before (l.text.toList ++ rest)) (hrest : EndsWord listStop rest) :
    literal.Reads before (literalOf · = .ok l) rest := by
  cases l with
  | number n => exact (reads_number n hgap hrest).mono fun _ => literalOf_number
  | string s =>
      have hopens : Opens '(' (quote s).toList := opens_literalText (.string s) '(' rfl (by decide)
      obtain ⟨tail, htail⟩ : ∃ tail, (quote s).toList ++ rest = '"' :: tail := by
        rw [quote, String.toList_ofList]
        exact ⟨_, rfl⟩
      unfold literal
      refine (reads_skipTrivia hgap (hopens.noTrivia rest)).bind fun _ _ => ?_
      refine (reads_get _).bind ?_
      intro mark hmark
      have hquote : mark.rest = '"' :: tail := hmark.trans htail
      rw [hquote]
      refine (reads_stringLiteral s rest).bind ?_
      intro found hfound
      refine (reads_since mark rest).bind fun _ _ => ?_
      refine Reads.pure ?_ rest
      rw [hfound]
      rfl

theorem reads_int (v : Int32) {before rest : List Char}
    (hgap : BlanksTo before ((toString v.toInt).toList ++ rest)) (hrest : EndsWord listStop rest) :
    literal.Reads before (intOf · = .ok v) rest :=
  (reads_number (.int v) hgap hrest).mono fun _ => intOf_number

theorem reads_atLiteral (l : Literal) {before rest : List Char}
    (hgap : BlanksTo before (l.text.toList ++ rest)) (hrest : EndsWord listStop rest) :
    atLiteral.Reads before (· = true) (l.text.toList ++ rest) := by
  have hopens : Opens '(' l.text.toList := opens_literalText l '(' rfl (by decide)
  unfold atLiteral
  refine (reads_skipTrivia hgap (hopens.noTrivia rest)).bind fun _ _ => ?_
  refine (reads_get _).bind ?_
  intro mark hmark
  split
  · exact Reads.pure_eq true _
  · exact Reads.pure_eq true _
  · rename_i heq
    obtain ⟨c, cs, hcs, -⟩ := hopens
    rw [hmark, hcs] at heq
    cases heq
  · rename_i hquote _ _
    cases l with
    | number n =>
        have htake : mark.rest.take (wordLength listStop mark.rest) = n.text.toList := by
          rw [hmark]
          show (n.text.toList ++ rest).take (wordLength listStop (n.text.toList ++ rest)) = _
          rw [wordLength_append (inWord_numberText n) hrest, List.take_left]
        rw [htake, String.ofList_toList, n.looksNumeric_text]
        exact Reads.pure_eq true _
    | string s =>
        exact absurd (by rw [hmark, Literal.text, quote, String.toList_ofList]; rfl)
          (hquote (s.toList.flatMap quoteChar ++ ['"'] ++ rest))

end Scan

/-! ## Labels and types -/

/-- The letters that descriptors start with begin no word for a group, and none but `I`, which
stands alone, begins the name of a number. -/
theorem exists_descriptor (t : Ty) : ∃ c cs, t.descriptor.toList = c :: cs
    ∧ (isNameStart c = true ∨ c = '[' ∨ c = '(') ∧ c.toLower ∉ ['h', 'e', 'a'] ∧ c ≠ 'N'
    ∧ (c = 'I' → cs = []) := by
  cases t with
  | prim p =>
      refine ⟨p.letter, [], Ty.toList_descriptor_prim p, ?_⟩
      cases p <;> decide
  | array t => exact ⟨'[', _, Ty.toList_descriptor_array t, by simp, by decide, by decide, by simp⟩
  | object name =>
      exact ⟨'L', _, Ty.toList_descriptor_object name, by decide, by decide, by decide, by simp⟩
  | method params result =>
      exact ⟨'(', _, Ty.toList_descriptor_method params result, by simp, by decide, by decide,
        by simp⟩

theorem opens_descriptor (t : Ty) (close : Char)
    (hclose : isNameStart close = false ∧ close ≠ '[' ∧ close ≠ '(') :
    Scan.Opens close t.descriptor.toList := by
  obtain ⟨c, cs, ht, hc, -⟩ := exists_descriptor t
  refine ⟨c, cs, ht, ?_⟩
  rcases hc with hc | rfl | rfl
  · refine ⟨isBlank_of_isVisible (isVisible_of_isNameChar (isNameChar_of_isNameStart hc)),
      ne_slash_of_isNameStart hc, ?_⟩
    rintro rfl
    rw [hc] at hclose
    cases hclose.1
  · exact ⟨rfl, by decide, hclose.2.1.symm⟩
  · exact ⟨rfl, by decide, hclose.2.2.symm⟩

theorem isWord_descriptor {t : Ty} (h : t.IsWritten) : IsWord t.descriptor :=
  ⟨fun c hc => ⟨h.unbroken c hc, rfl⟩, opens_descriptor t ')' (by decide)⟩

theorem isDescText_of_isPlain {desc : String} (h : isPlainDesc desc = true) :
    isDescText desc = true := by
  obtain ⟨t, ht, rfl⟩ := isPlainDesc_iff.mp h
  exact (Ty.IsWritten.of_isPlain ht).isDescText

theorem noTrivia_descText {desc : String} (h : isDescText desc = true) (rest : List Char) :
    NoTrivia (desc.toList ++ rest) := by
  obtain ⟨c, cs, hdesc, hc⟩ := exists_descText h
  rw [hdesc]
  rcases hc with hc | rfl | rfl
  · exact noTrivia_cons
      (isBlank_of_isVisible (isVisible_of_isNameChar (isNameChar_of_isNameStart hc)))
      (ne_slash_of_isNameStart hc) _
  · exact noTrivia_cons rfl (by decide) _
  · exact noTrivia_cons rfl (by decide) _

namespace Scan

theorem reads_labelRef {w : String} {before rest : List Char} (h : IsWordTo listStop w)
    (hgap : BlanksTo before (w.toList ++ rest)) (hrest : EndsWord listStop rest) :
    labelRef.Reads before (· = w) rest :=
  reads_wordTo h ⟨rfl, rfl⟩ hgap hrest

theorem reads_typeConstant {t : Ty} {before rest : List Char} (h : t.IsWritten)
    (hgap : BlanksTo before (t.descriptor.toList ++ rest)) :
    typeConstant.Reads before (·.value = t.descriptor) rest := by
  have hopens := opens_descriptor t ')' (by decide)
  unfold typeConstant
  refine (reads_skipTrivia hgap (hopens.noTrivia rest)).bind fun _ _ => ?_
  refine (reads_get _).bind ?_
  intro mark _
  refine (reads_descriptor? h.isDescText rest).bind ?_
  intro found hfound
  subst hfound
  refine (reads_since mark rest).bind fun _ _ => ?_
  refine Reads.pure ?_ rest
  rfl

theorem reads_memberDesc {desc : String} {before rest : List Char} (h : isDescText desc = true)
    (hgap : BlanksTo before (desc.toList ++ rest)) : memberDesc.Reads before (· = desc) rest := by
  unfold memberDesc
  refine (reads_skipTrivia hgap (noTrivia_descText h rest)).bind fun _ _ => ?_
  refine (reads_get _).bind ?_
  intro mark _
  refine (reads_descriptor? h rest).bind ?_
  intro found hfound
  subst hfound
  exact Reads.pure_eq _ rest

end Scan

/-! ## Members -/

theorem isTypeName_iff {s : String} : isTypeName s = true ↔
    isPlainWord s = true
      ∨ s.toList.head? = some '[' ∧ ∃ t : Ty, t.isPlain = true ∧ s = t.descriptor := by
  simp [isTypeName, isPlainFieldDesc_iff]

theorem isTypeChar_of_mem {s : String} (h : isTypeName s = true) :
    ∀ c ∈ s.toList, isTypeChar c = true := by
  rcases isTypeName_iff.mp h with h | ⟨-, t, ht, rfl⟩
  · exact fun c hc => by simp [isTypeChar, isNameChar_of_mem h c hc]
  · exact Ty.isTypeChar_descriptor ht

theorem opens_of_isTypeName {s : String} (h : isTypeName s = true) (close : Char)
    (hclose : isNameStart close = false ∧ close ≠ '[') : Scan.Opens close s.toList := by
  rcases isTypeName_iff.mp h with h | ⟨hhead, -⟩
  · exact opens_of_isPlainWord h close hclose.1
  · cases hs : s.toList with
    | nil =>
        rw [hs] at hhead
        cases hhead
    | cons c cs =>
        rw [hs] at hhead
        obtain rfl := Option.some.inj hhead
        exact ⟨'[', cs, rfl, rfl, by decide, hclose.2.symm⟩

theorem isWord_of_isTypeName {w : String} (h : isTypeName w = true) : IsWord w :=
  ⟨fun c hc => ⟨isBlank_of_isVisible (isVisible_of_isTypeChar (isTypeChar_of_mem h c hc)), rfl⟩,
    opens_of_isTypeName h ')' (by decide)⟩

theorem toList_member (owner name : String) :
    (owner ++ "." ++ name).toList = owner.toList ++ '.' :: name.toList := by
  simp [String.toList_append]

/-- Does the character end a member reference? -/
def memberStop (c : Char) : Bool := c = '(' || c = ')'

/-- What makes up a member reference. -/
structure IsMember (owner name : String) : Prop where
  owner_ne : owner ≠ ""
  name_ne : name ≠ ""
  dot : '.' ∉ name.toList
  signature : isSignature (owner ++ "." ++ name) = true
  inWord : InWord memberStop (owner ++ "." ++ name).toList

theorem isMember_iff {owner name : String} : isMember owner name = true ↔ IsMember owner name := by
  simp only [isMember, Bool.and_eq_true, decide_eq_true_eq, Bool.not_eq_true',
    List.all_eq_true, ne_eq, List.contains_eq_mem, decide_eq_false_iff_not]
  constructor
  · rintro ⟨⟨⟨⟨howner, hname⟩, hdot⟩, hsignature⟩, hparen⟩
    refine ⟨howner, hname, hdot, hsignature, fun c hc => ⟨?_, by simp [memberStop, hparen c hc]⟩⟩
    simp only [isSignature, Bool.and_eq_true, List.all_eq_true, Bool.not_eq_true'] at hsignature
    exact hsignature.1.1.2 c hc
  · rintro ⟨howner, hname, hdot, hsignature, hin⟩
    refine ⟨⟨⟨⟨howner, hname⟩, hdot⟩, hsignature⟩, fun c hc => ?_⟩
    simpa [memberStop] using (hin c hc).2

theorem IsMember.of_isPlain {owner name : String} (howner : isTypeName owner = true)
    (hname : isPlainWord name = true) : IsMember owner name := by
  have htype : ∀ c ∈ (owner ++ "." ++ name).toList, isTypeChar c = true ∨ c = '.' := by
    intro c hc
    rw [toList_member] at hc
    rcases List.mem_append.mp hc with hc | hc
    · exact Or.inl (isTypeChar_of_mem howner c hc)
    · rcases List.mem_cons.mp hc with rfl | hc
      · exact Or.inr rfl
      · exact Or.inl (by simp [isTypeChar, isNameChar_of_mem hname c hc])
  have hblank : ∀ c ∈ (owner ++ "." ++ name).toList, isBlank c = false := by
    intro c hc
    rcases htype c hc with hc | rfl
    · exact isBlank_of_isVisible (isVisible_of_isTypeChar hc)
    · rfl
  obtain ⟨c, cs, hcs, -, hslash, -⟩ := opens_of_isTypeName howner ')' (by decide)
  have howner_ne : owner ≠ "" := by
    rintro rfl
    cases hcs
  have hnone : ∀ xs : List Char, ('/' :: xs).isPrefixOf (owner ++ "." ++ name).toList = false := by
    intro xs
    rw [toList_member, hcs, List.cons_append, List.isPrefixOf, Bool.and_eq_false_iff]
    exact Or.inl (beq_eq_false_iff_ne.mpr hslash.symm)
  refine ⟨howner_ne, ne_empty_of_isPlainWord hname, ?_, ?_, fun c hc => ⟨hblank c hc, ?_⟩⟩
  · exact fun hmem => absurd (isNameChar_of_mem hname '.' hmem) (by decide)
  · have hne : owner ++ "." ++ name ≠ "" := by
      intro h
      have := congrArg String.toList h
      rw [toList_member] at this
      simp at this
    have hline : "//".toList.isPrefixOf (owner ++ "." ++ name).toList = false := hnone ['/']
    have hblock : "/*".toList.isPrefixOf (owner ++ "." ++ name).toList = false := hnone ['*']
    simp only [isSignature, hline, hblock, Bool.and_eq_true, List.all_eq_true, decide_eq_true_eq,
      Bool.not_eq_true', Bool.not_false, and_true]
    exact ⟨hne, hblank⟩
  · have hparen : isTypeChar '(' = false ∧ isTypeChar ')' = false := by decide
    have hne : c ≠ '(' ∧ c ≠ ')' := by
      rcases htype c hc with hc | rfl
      · constructor <;> rintro rfl <;> simp [hparen] at hc
      · decide
    simp [memberStop, hne]

/-- The last dot divides the owner from the name. -/
theorem splitMember_eq {m : Located String} {owner name : String} (h : IsMember owner name)
    (hm : m.value = owner ++ "." ++ name) : splitMember m = .ok (owner, name) := by
  have hback : m.value.toList.reverse = name.toList.reverse ++ '.' :: owner.toList.reverse := by
    rw [hm, toList_member, List.reverse_append, List.reverse_cons, List.append_assoc]
    rfl
  obtain ⟨htake, hdrop⟩ := Ty.takeWhile_ne_append owner.toList.reverse
    (fun hmem => h.dot (List.mem_reverse.mp hmem))
  unfold splitMember
  simp only [hback, htake, hdrop, List.drop_one, List.tail_cons, List.reverse_reverse,
    String.ofList_toList]
  rw [if_neg]
  simp [h.owner_ne, h.name_ne]

theorem Scan.reads_member {owner name : String} {before rest : List Char} (h : IsMember owner name)
    (hgap : BlanksTo before ((owner ++ "." ++ name).toList ++ rest))
    (hrest : EndsWord memberStop rest) :
    member.Reads before (splitMember · = .ok (owner, name)) rest := by
  have hne : owner ++ "." ++ name ≠ "" := by
    intro heq
    have := congrArg String.toList heq
    rw [toList_member] at this
    simp at this
  have hnone : NoTrivia ((owner ++ "." ++ name).toList ++ rest) :=
    noTrivia_of_isSignature h.signature ⟨head_ne_of_endsWord hrest rfl rfl,
      head_ne_of_endsWord hrest rfl rfl⟩
  unfold member
  refine (reads_skipTrivia hgap hnone).bind fun _ _ => ?_
  refine (reads_get _).bind ?_
  intro mark _
  refine (reads_requiredUpTo hne h.inWord hrest).bind ?_
  intro found hfound
  refine (reads_since mark rest).bind fun _ _ => ?_
  refine Reads.pure ?_ rest
  exact splitMember_eq h hfound

theorem HandleTag.isPlainWord_name (tag : HandleTag) : isPlainWord tag.name = true := by
  cases tag <;> decide

theorem HandleTag.ofName?_name (tag : HandleTag) : ofName? tag.name = some tag := by
  cases tag <;> decide

theorem HandleRef.toList_bodyText (h : HandleRef) (rest : List Char) :
    h.bodyText.toList ++ rest = h.tag.name.toList ++ ' ' :: ((h.owner ++ "." ++ h.name).toList
      ++ ' ' :: (h.desc.toList ++ rest)) := by
  simp [bodyText, String.toList_append]

theorem HandleRef.opens_bodyText (h : HandleRef) (close : Char)
    (hclose : isNameStart close = false) :
    Scan.Opens close h.bodyText.toList := by
  have := h.toList_bodyText []
  rw [List.append_nil] at this
  rw [this]
  exact (opens_of_isPlainWord h.tag.isPlainWord_name close hclose).append _

/-- Can the handle be written and read back? -/
structure HandleRef.IsWritten (h : HandleRef) : Prop where
  member : IsMember h.owner h.name
  desc : isDescText h.desc = true

theorem HandleRef.IsWritten.of_isPlain {h : HandleRef} (hplain : h.isPlain = true) :
    h.IsWritten := by
  simp only [isPlain, Bool.and_eq_true] at hplain
  exact ⟨.of_isPlain hplain.1.1 hplain.1.2, isDescText_of_isPlain hplain.2⟩

theorem Scan.reads_handleBody {h : HandleRef} {before rest : List Char} (hwritten : h.IsWritten)
    (hgap : BlanksTo before (h.bodyText.toList ++ rest)) :
    handleBody.Reads before (·.toRef = .ok h) rest := by
  have htag := h.tag.isPlainWord_name
  have hnone := (h.opens_bodyText ')' rfl).noTrivia rest
  unfold handleBody
  refine (reads_skipTrivia hgap hnone).bind fun _ _ => ?_
  refine (reads_get _).bind ?_
  intro mark _
  rw [h.toList_bodyText]
  refine (reads_requiredUpTo (ne_empty_of_isPlainWord htag) (inWord_of_isPlainWord htag fun c hc =>
    by simp [ne_of_isNameChar hc (x := ')') rfl]) ((atBlank_space _).endsWord _)).bind
    fun tag htag => ?_
  refine (reads_since mark _).bind ?_
  intro position _
  refine (reads_member hwritten.member (BlanksTo.space _) ((atBlank_space _).endsWord _)).bind ?_
  intro found hfound
  refine (reads_memberDesc hwritten.desc (BlanksTo.space _)).bind ?_
  intro desc hdesc
  refine Reads.pure ?_ rest
  show RawHandle.toRef ⟨⟨tag, position⟩, found, desc⟩ = _
  rw [RawHandle.toRef]
  simp only [htag, HandleTag.ofName?_name, hfound, hdesc]
  rfl

/-! ## Constants -/

/-- Can the constant be written and read back? -/
def Const.IsWritten : Const HandleRef → Prop
  | .literal _ => True
  | .type t => t.IsWritten
  | .handle h => h.IsWritten

theorem Const.IsWritten.of_isPlain {c : Const HandleRef} (h : c.isPlain = true) : c.IsWritten := by
  cases c with
  | literal l => trivial
  | type t => exact Ty.IsWritten.of_isPlain h
  | handle h' => exact HandleRef.IsWritten.of_isPlain h

/-- A word is no number if its first character is none of those that numbers start with. -/
theorem looksNumeric_eq_false {c : Char} {cs : List Char} (hdigit : c.isDigit = false)
    (hc : c ∉ ['.', '-', '+', 'N', 'I']) : looksNumeric (String.ofList (c :: cs)) = false := by
  simp only [List.mem_cons, List.not_mem_nil, or_false, not_or] at hc
  obtain ⟨hdot, hminus, hplus, hN, hI⟩ := hc
  have hsign : splitSign (c :: cs) = (false, c :: cs) := by
    unfold splitSign
    split <;> simp_all
  have hbare : ∀ (p : Char → Bool) (x : Char) (xs : List Char), c ≠ x →
      (((c :: cs).reverse.dropWhile p).reverse == x :: xs) = false := by
    intro p x xs hx
    rw [beq_eq_false_iff_ne]
    intro heq
    have hprefix := List.reverse_prefix.mpr (List.dropWhile_suffix p (l := (c :: cs).reverse))
    rw [heq, List.reverse_reverse] at hprefix
    exact hx (List.cons_prefix_cons.mp hprefix).1.symm
  unfold looksNumeric
  rw [String.toList_ofList, hsign]
  dsimp only
  split
  · rename_i heq
    exact absurd (List.cons.inj heq).1 hdot
  · rw [show "NaN".toList = 'N' :: ['a', 'N'] from rfl, hbare _ _ _ hN,
      show "Infinity".toList = 'I' :: ['n', 'f', 'i', 'n', 'i', 't', 'y'] from rfl, hbare _ _ _ hI]
    simp [hdigit]

namespace Scan

theorem reads_atLiteral_none {before : List Char} {c : Char} {cs : List Char}
    (hgap : BlanksTo before (c :: cs)) (hnone : NoTrivia (c :: cs)) (hquote : c ≠ '"' ∧ c ≠ '\'')
    (hnumber : looksNumeric
      (String.ofList ((c :: cs).take (wordLength listStop (c :: cs)))) = false) :
    atLiteral.Reads before (· = false) (c :: cs) := by
  unfold atLiteral
  refine (reads_skipTrivia hgap hnone).bind fun _ _ => ?_
  refine (reads_get _).bind ?_
  intro mark hmark
  rw [hmark]
  split
  · rename_i heq
    exact absurd (List.cons.inj heq).1 hquote.1
  · rename_i heq
    exact absurd (List.cons.inj heq).1 hquote.2
  · rename_i heq
    cases heq
  · rw [hnumber]
    exact Reads.pure_eq false _

theorem take_wordLength_cons (stop : Char → Bool) {c : Char} (cs : List Char)
    (h : isBlank c = false ∧ stop c = false) :
    ∃ tail, (c :: cs).take (wordLength stop (c :: cs)) = c :: tail := by
  refine ⟨cs.take (wordLength stop cs), ?_⟩
  have : wordLength stop (c :: cs) = wordLength stop cs + 1 := by
    simp [wordLength, spanLength, h]
  rw [this, List.take_succ_cons]

/-- A text that starts with a letter is no literal, unless the letter begins the name of a
number. -/
theorem reads_atLiteral_letter {before : List Char} {c : Char} {cs : List Char}
    (hgap : BlanksTo before (c :: cs)) (hc : isNameStart c = true ∨ c = '[' ∨ c = '(')
    (hletter : c ≠ 'N' ∧ c ≠ 'I') : atLiteral.Reads before (· = false) (c :: cs) := by
  have hfacts : (isBlank c = false ∧ listStop c = false) ∧ c ≠ '/' ∧ (c ≠ '"' ∧ c ≠ '\'')
      ∧ c.isDigit = false ∧ c ≠ '.' ∧ c ≠ '-' ∧ c ≠ '+' := by
    rcases hc with hc | rfl | rfl
    · have hname := isNameChar_of_isNameStart hc
      refine ⟨⟨isBlank_of_isVisible (isVisible_of_isNameChar hname), listStop_of_isNameChar hname⟩,
        ne_slash_of_isNameStart hc, ⟨ne_of_isNameChar hname rfl, ne_of_isNameChar hname rfl⟩,
        not_isDigit_of_isNameStart hc, ne_of_isNameChar hname rfl, ne_of_isNameChar hname rfl,
        ne_of_isNameChar hname rfl⟩
    all_goals decide
  obtain ⟨hword, hslash, hquote, hdigit, hdot, hminus, hplus⟩ := hfacts
  obtain ⟨tail, htail⟩ := take_wordLength_cons listStop cs hword
  refine reads_atLiteral_none hgap (noTrivia_cons hword.1 hslash cs) hquote ?_
  rw [htail]
  exact looksNumeric_eq_false hdigit (by simp [hdot, hminus, hplus, hletter])

/-! ### The keyword dialect -/

theorem opensGroup_cons {c k : Char} {cs : List Char} (ks : List Char) (h : c.toLower ≠ k) :
    opensGroup (String.ofList (c :: cs)) (String.ofList (k :: ks)) = false := by
  have hne : (k == c.toLower) = false := beq_eq_false_iff_ne.mpr h.symm
  simp [opensGroup, lowerCase, String.toList_append, List.isPrefixOf, hne]

theorem opensGroup_group {keyword : String} (h : lowerCase keyword = keyword) (tail : List Char) :
    opensGroup (String.ofList (keyword.toList ++ '(' :: tail)) keyword = true := by
  have hlower : (lowerCase (String.ofList (keyword.toList ++ '(' :: tail))).toList
      = (keyword ++ "(").toList ++ tail.map Char.toLower := by
    have hkeyword : keyword.toList.map Char.toLower = keyword.toList := by
      conv_rhs => rw [← h, lowerCase, String.toList_ofList]
    rw [lowerCase, String.toList_ofList, String.toList_ofList, List.map_append, hkeyword]
    simp [String.toList_append]
  rw [opensGroup, hlower, List.isPrefixOf_iff_prefix]
  exact ⟨_, rfl⟩

theorem reads_peekWord_cons {c : Char} {cs : List Char} (h : isBlank c = false) :
    peekWord.Reads (c :: cs) (fun w => ∃ tail, w = String.ofList (c :: tail)) (c :: cs) := by
  obtain ⟨tail, htail⟩ := take_wordLength_cons (fun _ => false) cs ⟨h, rfl⟩
  unfold peekWord
  refine (reads_get _).bind ?_
  intro mark hmark
  refine Reads.pure ?_ _
  exact ⟨tail, by rw [hmark, htail]⟩

/-- The word at a group starts with the keyword and the bracket. -/
theorem reads_peekWord_group (keyword : String) (h : isPlainWord keyword = true) (cs : List Char) :
    peekWord.Reads (keyword.toList ++ '(' :: cs)
      (fun w => ∃ tail, w = String.ofList (keyword.toList ++ '(' :: tail))
      (keyword.toList ++ '(' :: cs) := by
  unfold peekWord
  refine (reads_get _).bind ?_
  intro mark hmark
  refine Reads.pure ?_ _
  refine ⟨cs.take (wordLength (fun _ => false) cs), ?_⟩
  have hin : ∀ c ∈ keyword.toList ++ ['('], (!isBlank c && !false) = true := by
    intro c hc
    rcases List.mem_append.mp hc with hc | hc
    · simp [(isWord_of_isPlainWord h).inWord c hc]
    · obtain rfl := List.mem_singleton.mp hc
      rfl
  have htake : ∀ xs : List Char, xs.take (wordLength (fun _ => false) xs)
      = xs.takeWhile fun c => !isBlank c && !false :=
    fun xs => (List.prefix_iff_eq_take.mp (List.takeWhile_prefix _)).symm
  have happend : ∀ xs : List Char,
      keyword.toList ++ '(' :: xs = (keyword.toList ++ ['(']) ++ xs := by
    simp
  rw [hmark, htake, htake, happend cs, happend (cs.takeWhile _), List.takeWhile_append_of_pos hin]

theorem toList_handle_keyword (h : HandleRef) (rest : List Char) :
    (h.text .keyword).toList ++ rest
      = "handle".toList ++ '(' :: (h.bodyText.toList ++ ')' :: rest) := by
  simp [HandleRef.text, String.toList_append]

theorem reads_bracketedHandle {h : HandleRef} (hwritten : h.IsWritten) (rest : List Char) :
    bracketedHandle.Reads ((h.text .keyword).toList ++ rest) (·.toRef = .ok h) rest := by
  rw [toList_handle_keyword]
  unfold bracketedHandle
  refine (reads_expectKeyword_self (inWord_of_isPlainWord rfl fun _ => paren_of_isNameChar)
    (endsWord_cons rfl _)).bind fun _ _ => ?_
  refine (reads_expect '(' _).bind fun _ _ => ?_
  refine (reads_handleBody hwritten (BlanksTo.refl _)).bind ?_
  intro raw hraw
  refine (reads_skipTrivia (BlanksTo.refl _) (noTrivia_cons rfl (by decide) _)).bind fun _ _ => ?_
  refine (reads_expect ')' _).bind fun _ _ => ?_
  refine Reads.pure ?_ rest
  exact hraw

theorem reads_atLiteral_type (t : Ty) {before rest : List Char}
    (hgap : BlanksTo before (t.descriptor.toList ++ rest)) (hrest : EndsWord listStop rest) :
    atLiteral.Reads before (· = false) (t.descriptor.toList ++ rest) := by
  obtain ⟨c, cs, ht, hc, -, hN, hI⟩ := exists_descriptor t
  rw [ht] at hgap ⊢
  by_cases hint : c = 'I'
  · obtain rfl := hI hint
    subst hint
    refine reads_atLiteral_none hgap (noTrivia_cons rfl (by decide) _) (by decide) ?_
    have hword : wordLength listStop (['I'] ++ rest) = 1 :=
      wordLength_append (List.forall_mem_singleton.mpr ⟨rfl, rfl⟩) hrest
    show looksNumeric (String.ofList ((['I'] ++ rest).take (wordLength listStop (['I'] ++ rest))))
      = false
    rw [hword, show (['I'] ++ rest).take 1 = ['I'] from rfl]
    decide
  · exact reads_atLiteral_letter hgap hc ⟨hN, hint⟩

theorem toConst_literal {raw : Located RawLiteral} {l : Literal} (h : literalOf raw = .ok l) :
    (RawConst.literal raw).toConst = .ok (.literal l) := by
  rw [RawConst.toConst, h]
  rfl

theorem toConst_type {raw : Located String} {t : Ty} (ht : t.IsWritten)
    (h : raw.value = t.descriptor) : (RawConst.type raw).toConst = .ok (.type t) := by
  rw [RawConst.toConst, h, Ty.ofDescriptor?_eq_some_iff.mpr ⟨ht.described, rfl⟩]

theorem toConst_handle {raw : RawHandle} {h : HandleRef} (hraw : raw.toRef = .ok h) :
    (RawConst.handle raw).toConst = .ok (.handle h) := by
  rw [RawConst.toConst, hraw]
  rfl

theorem reads_keywordConst {c : Const HandleRef} (hwritten : c.IsWritten) {before rest : List Char}
    (hgap : BlanksTo before ((constText .keyword c).toList ++ rest))
    (hrest : EndsWord listStop rest) :
    keywordConst.Reads before (·.toConst = .ok c) rest := by
  unfold keywordConst
  cases c with
  | literal l =>
      refine (reads_atLiteral l hgap hrest).bind ?_
      intro found hfound
      subst hfound
      refine (reads_literal l (BlanksTo.refl _) hrest).bind ?_
      intro raw hraw
      refine Reads.pure ?_ rest
      exact toConst_literal hraw
  | type t =>
      obtain ⟨c, cs, ht, -, hletter, -⟩ := exists_descriptor t
      have hopens := opens_descriptor t ')' (by decide)
      refine (reads_atLiteral_type t hgap hrest).bind ?_
      intro found hfound
      subst hfound
      have hpeek : peekWord.Reads (t.descriptor.toList ++ rest)
          (fun w => opensGroup w "handle" = false) (t.descriptor.toList ++ rest) := by
        rw [ht]
        have hblank : isBlank c = false := by
          obtain ⟨x, xs, hx, hblank, -⟩ := hopens
          rw [ht] at hx
          rw [(List.cons.inj hx).1]
          exact hblank
        refine (reads_peekWord_cons hblank).mono ?_
        rintro _ ⟨tail, rfl⟩
        exact opensGroup_cons ['a', 'n', 'd', 'l', 'e'] fun heq => hletter (by simp [heq])
      refine hpeek.bind ?_
      intro w hw
      rw [hw]
      refine (reads_typeConstant hwritten (BlanksTo.refl _)).bind ?_
      intro raw hraw
      refine Reads.pure ?_ rest
      exact toConst_type hwritten hraw
  | handle h =>
      rw [constText, toList_handle_keyword] at hgap
      refine (reads_atLiteral_letter hgap (Or.inl rfl) (by decide)).bind ?_
      intro found hfound
      subst hfound
      refine (reads_peekWord_group "handle" rfl _).bind ?_
      rintro _ ⟨tail, rfl⟩
      rw [opensGroup_group (by decide), if_pos rfl, ← toList_handle_keyword]
      refine (reads_bracketedHandle hwritten rest).bind ?_
      intro raw hraw
      refine Reads.pure ?_ rest
      exact toConst_handle hraw

/-! ### The directive dialect -/

theorem reads_directiveConst {c : Const HandleRef} (hwritten : c.IsWritten)
    {before rest : List Char} (hgap : BlanksTo before ((constText .directive c).toList ++ rest))
    (hrest : AtBlank rest) : directiveConst.Reads before (·.toConst = .ok c) rest := by
  unfold directiveConst
  cases c with
  | literal l =>
      refine (reads_atLiteral l hgap (hrest.endsWord _)).bind ?_
      intro found hfound
      subst hfound
      refine (reads_literal l (BlanksTo.refl _) (hrest.endsWord _)).bind ?_
      intro raw hraw
      refine Reads.pure ?_ rest
      exact toConst_literal hraw
  | type t =>
      have hsplit : (constText .directive (.type t)).toList ++ rest
          = "type".toList ++ ' ' :: (t.descriptor.toList ++ rest) := by
        simp [constText, String.toList_append]
      rw [hsplit] at hgap
      refine (reads_atLiteral_letter hgap (Or.inl rfl) (by decide)).bind ?_
      intro found hfound
      subst hfound
      refine (reads_get _).bind ?_
      intro mark _
      refine (reads_word (w := "type") (isWord_of_isPlainWord rfl).inWord
        ((atBlank_space _).endsWord _)).bind ?_
      intro head hhead
      subst hhead
      refine (reads_typeConstant hwritten (BlanksTo.space _)).bind ?_
      intro raw hraw
      refine Reads.pure ?_ rest
      exact toConst_type hwritten hraw
  | handle h =>
      have hsplit : (constText .directive (.handle h)).toList ++ rest
          = "handle".toList ++ ' ' :: (h.bodyText.toList ++ rest) := by
        simp [constText, HandleRef.text, String.toList_append]
      rw [hsplit] at hgap
      refine (reads_atLiteral_letter hgap (Or.inl rfl) (by decide)).bind ?_
      intro found hfound
      subst hfound
      refine (reads_get _).bind ?_
      intro mark _
      refine (reads_word (w := "handle") (isWord_of_isPlainWord rfl).inWord
        ((atBlank_space _).endsWord _)).bind ?_
      intro head hhead
      subst hhead
      refine (reads_handleBody hwritten (BlanksTo.space _)).bind ?_
      intro raw hraw
      refine Reads.pure ?_ rest
      exact toConst_handle hraw

theorem reads_constant (d : Dialect) {c : Const HandleRef} (hwritten : c.IsWritten)
    {before rest : List Char} (hgap : BlanksTo before ((constText d c).toList ++ rest))
    (hrest : AtBlank rest) : (constant d).Reads before (·.toConst = .ok c) rest := by
  cases d with
  | keyword => exact reads_keywordConst hwritten hgap (hrest.endsWord _)
  | directive => exact reads_directiveConst hwritten hgap hrest

end Scan

end JvmListing
