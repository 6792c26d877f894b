/-
# Written operands

The operands of every instruction in both dialects.  What an instruction writes
after its mnemonic, `Scan.operands` reads as operands of the same operation; the
exception is a table switch of the directive dialect with a target that is called
`default`, which is read with too few targets.
-/
import JvmListing.Writing.Listing
import JvmListing.Proofs.Spelled

namespace JvmListing

open Lexeme

/-! ## Lists -/

theorem toList_joinWith {β : Type} (f : β → String) (tail : List Char) : ∀ vs : List β,
    (joinWith ", " (vs.map f)).toList ++ tail = Scan.listed (fun v => (f v).toList) tail vs
  | [] => rfl
  | [v] => rfl
  | v :: w :: vs => by
      have ih := toList_joinWith f tail (w :: vs)
      rw [Scan.listed, ← ih]
      simp [joinWith, String.toList_append]

/-- Items with a space after each. -/
def followed {β : Type} (text : β → List Char) (tail : List Char) : List β → List Char
  | [] => tail
  | v :: vs => text v ++ ' ' :: followed text tail vs

theorem followed_append {β : Type} (text : β → List Char) (tail rest : List Char) (vs : List β) :
    followed text tail vs ++ rest = followed text (tail ++ rest) vs := by
  induction vs with
  | nil => rfl
  | cons v vs ih =>
      rw [followed, followed, List.append_assoc, ← ih]
      rfl

theorem toList_spaced {β : Type} (f : β → String) (tail : List Char) (vs : List β) :
    (spaced (vs.map f)).toList ++ ' ' :: tail
      = ' ' :: followed (fun v => (f v).toList) tail vs := by
  induction vs with
  | nil => rfl
  | cons v vs ih =>
      rw [followed, ← ih]
      simp [spaced, String.join_cons, String.toList_append]

theorem length_le_followed {β : Type} (text : β → List Char) (tail : List Char) (vs : List β) :
    vs.length ≤ (followed text tail vs).length := by
  induction vs with
  | nil => exact Nat.zero_le _
  | cons v vs ih =>
      rw [followed, List.length_append, List.length_cons, List.length_cons]
      omega

theorem mapM_eq_ok {ε α β : Type} {f : α → Except ε β} {as : List α} {bs : List β}
    (h : List.Forall₂ (fun a b => f a = .ok b) as bs) : as.mapM f = .ok bs := by
  induction h with
  | nil => rfl
  | cons h _ ih =>
      rw [List.mapM_cons, h, ih]
      rfl

namespace Scan

variable {α β : Type}

/-- Items with a space after each, up to a text without an item. -/
theorem reads_followed {item : Scan (Option α)} {R : α → β → Prop} {text : β → List Char}
    {tail after : List Char} {vs : List β}
    (hitem : ∀ v ∈ vs, ∀ before rest, BlanksTo before (text v ++ ' ' :: rest) →
      item.Reads before (fun a => ∃ x, a = some x ∧ R x v) (' ' :: rest))
    (hend : ∀ before, BlanksTo before tail → item.Reads before (· = none) after) :
    (collect item).Reads (' ' :: followed text tail vs) (List.Forall₂ R · vs) after := by
  refine reads_collect (fun us before => (∀ v ∈ us, v ∈ vs)
    ∧ BlanksTo before (followed text tail us)) ?_ ?_ ⟨fun _ h => h, BlanksTo.space _⟩
    (Nat.le_succ_of_le (length_le_followed text tail vs))
  · rintro v us before ⟨hmem, hgap⟩
    exact ⟨_, ⟨fun u hu => hmem u (List.mem_cons_of_mem v hu), BlanksTo.space _⟩,
      hitem v (hmem v List.mem_cons_self) before _ hgap⟩
  · rintro before ⟨-, hgap⟩
    exact hend before hgap

theorem sameFolded_keywordOf {c k : Char} {cs : List Char} (ks : List Char)
    (h : c.toLower ≠ k.toLower) :
    sameFolded (keywordOf (c :: cs)) (String.ofList (k :: ks)) = false := by
  by_cases hstop : isBlank c = false ∧ decide (c = '(') = false
  · obtain ⟨tail, htail⟩ := take_wordLength_cons (· = '(') cs hstop
    rw [keywordOf, htail]
    exact sameFolded_cons h
  · have hzero : wordLength (· = '(') (c :: cs) = 0 := by
      have : (!isBlank c && !decide (c = '(')) = false := by
        rw [Bool.and_eq_false_iff]
        cases hblank : isBlank c <;> simp_all
      rw [wordLength, spanLength, List.takeWhile_cons_of_neg (by simpa using this)]
      rfl
    rw [keywordOf, hzero]
    simp [sameFolded]

/-- Does the text start with something other than trivia and the word `end`? -/
structure StartsItem (cs : List Char) : Prop where
  ne_nil : cs ≠ []
  noTrivia : NoTrivia cs
  notEnd : sameFolded (keywordOf cs) "end" = false

/-- Does the text begin with a character that opens no trivia and not the word `end`? -/
def OpensItem (cs : List Char) : Prop :=
  ∃ c rest, cs = c :: rest ∧ isBlank c = false ∧ c ≠ '/' ∧ c.toLower ≠ 'e'

theorem OpensItem.startsItem {cs : List Char} (h : OpensItem cs) (rest : List Char) :
    StartsItem (cs ++ rest) := by
  obtain ⟨c, cs, rfl, hblank, hslash, hletter⟩ := h
  exact ⟨List.cons_ne_nil _ _, noTrivia_cons hblank hslash _,
    sameFolded_keywordOf ['n', 'd'] hletter⟩

theorem reads_eatEnd_none {before cs : List Char} (hgap : BlanksTo before cs) (h : StartsItem cs) :
    eatEnd.Reads before (· = false) cs := by
  obtain ⟨c, cs, rfl⟩ := List.exists_cons_of_ne_nil h.ne_nil
  unfold eatEnd
  refine (reads_skipTrivia hgap h.noTrivia).bind fun _ _ => ?_
  refine (reads_atEnd _).bind ?_
  intro found hfound
  subst hfound
  exact reads_eatKeyword_none h.notEnd

/-- Items up to the word `end`, which begins none of them. -/
theorem reads_upToEnd {item : Scan α} {R : α → β → Prop} {text : β → List Char} {vs : List β}
    (hstarts : ∀ v ∈ vs, ∀ after, StartsItem (text v ++ ' ' :: after))
    (hitem : ∀ v ∈ vs, ∀ after, AtBlank after → item.Reads (text v ++ after) (R · v) after)
    {rest : List Char} (hrest : AtBlank rest) :
    (upToEnd item).Reads (' ' :: followed text ("end".toList ++ rest) vs)
      (List.Forall₂ R · vs) rest := by
  unfold upToEnd
  refine reads_followed (fun v hv before after hgap => ?_) (fun before hgap => ?_)
  · refine (reads_eatEnd_none hgap (hstarts v hv after)).bind ?_
    intro found hfound
    subst hfound
    refine (hitem v hv _ (atBlank_space _)).bind ?_
    intro x hx
    refine Reads.pure ?_ _
    exact ⟨x, rfl, hx⟩
  · have hend : eatEnd.Reads before (· = true) rest := by
      unfold eatEnd
      refine (reads_skipTrivia hgap (noTrivia_cons rfl (by decide) _)).bind fun _ _ => ?_
      refine (reads_atEnd _).bind ?_
      intro found hfound
      subst hfound
      exact reads_eatKeyword (sameFolded_self _)
        (inWord_of_isPlainWord rfl fun _ => paren_of_isNameChar) (hrest.endsWord _)
    refine hend.bind ?_
    intro found hfound
    subst hfound
    exact Reads.pure_eq none rest

theorem endsWord_of_item {after : List Char}
    (h : after.head? = some ',' ∨ after.head? = some ')') : EndsWord listStop after := by
  rcases h with h | h <;> rw [EndsWord, h] <;> rfl

/-! ## Bootstrap calls -/

theorem toLower_of_isDigit {c : Char} (h : c.isDigit = true) : c.toLower = c := by
  have hval : c.val.toNat = c.toNat := rfl
  rw [isDigit_iff] at h
  unfold Char.toLower
  rw [dif_neg]
  simp only [ge_iff_le, UInt32.le_iff_toNat_le, Char.reduceVal, UInt32.reduceToNat, hval]
  omega

/-- No number starts with the letter of `end`. -/
theorem opensItem_numberText (n : Number) : OpensItem n.text.toList := by
  obtain ⟨c, cs, hn, hc⟩ := exists_numberText n
  refine ⟨c, cs, hn, isBlank_of_isVisible (isVisible_of_isTextChar hc), ne_of_isTextChar hc rfl, ?_⟩
  intro hlower
  have hnumeric := n.looksNumeric_text
  have hstring : n.text = String.ofList (c :: cs) := by rw [← hn, String.ofList_toList]
  cases hdigit : c.isDigit with
  | true =>
      rw [toLower_of_isDigit hdigit] at hlower
      rw [hlower] at hdigit
      cases hdigit
  | false =>
      have hmem : c ∉ ['.', '-', '+', 'N', 'I'] := by
        intro hmem
        simp only [List.mem_cons, List.not_mem_nil, or_false] at hmem
        rcases hmem with rfl | rfl | rfl | rfl | rfl <;> revert hlower <;> decide
      rw [hstring, looksNumeric_eq_false hdigit hmem] at hnumeric
      cases hnumeric

theorem opensItem_constText (c : Const HandleRef) : OpensItem (constText .directive c).toList := by
  cases c with
  | literal l =>
      cases l with
      | number n => exact opensItem_numberText n
      | string s =>
          refine ⟨'"', s.toList.flatMap quoteChar ++ ['"'], ?_, rfl, by decide, by decide⟩
          rw [constText, Literal.text, quote, String.toList_ofList]
          rfl
  | type t =>
      exact ⟨'t', _, by rw [constText, String.toList_append]; rfl, rfl, by decide, by decide⟩
  | handle h =>
      exact ⟨'h', _, by rw [constText, HandleRef.text, String.toList_append]; rfl, rfl, by decide,
        by decide⟩

theorem opens_constText (c : Const HandleRef) : Opens ')' (constText .keyword c).toList := by
  cases c with
  | literal l => exact opens_literalText l ')' rfl (by decide)
  | type t => exact opens_descriptor t ')' (by decide)
  | handle h =>
      have htext := toList_handle_keyword h []
      rw [List.append_nil] at htext
      rw [constText, htext]
      exact ⟨'h', _, rfl, rfl, by decide, by decide⟩

/-- What follows a bootstrap call's descriptor. -/
def bootstrapText (d : Dialect) (h : HandleRef) (args : List (Const HandleRef)) : String :=
  " " ++ h.text d
    ++ match d with
      | .keyword => " args(" ++ joinWith ", " (args.map (constText d)) ++ ")"
      | .directive => " args" ++ spaced (args.map (constText d)) ++ " end"

theorem reads_bootstrap (d : Dialect) {h : HandleRef} {args : List (Const HandleRef)}
    (hhandle : h.IsWritten) (hwritten : ∀ c ∈ args, c.IsWritten) {rest : List Char}
    (hrest : AtBlank rest) :
    (bootstrap d).Reads ((bootstrapText d h args).toList ++ rest)
      (fun p => p.1.toRef = .ok h ∧ p.2.mapM RawConst.toConst = .ok args) rest := by
  cases d with
  | keyword =>
      have hsplit : (bootstrapText .keyword h args).toList ++ rest
          = ' ' :: ((h.text .keyword).toList ++ ' ' :: ("args".toList
            ++ '(' :: listed (fun c => (constText .keyword c).toList) (')' :: rest) args)) := by
        rw [← toList_joinWith]
        simp [bootstrapText, String.toList_append]
      have hopens : NoTrivia ((h.text .keyword).toList ++ ' ' :: ("args".toList
          ++ '(' :: listed (fun c => (constText .keyword c).toList) (')' :: rest) args)) := by
        rw [toList_handle_keyword]
        exact noTrivia_cons rfl (by decide) _
      rw [hsplit]
      unfold bootstrap
      refine (reads_skipTrivia (BlanksTo.space _) hopens).bind fun _ _ => ?_
      refine (reads_bracketedHandle hhandle _).bind ?_
      intro raw hraw
      refine (reads_skipTrivia (BlanksTo.space _) (noTrivia_cons rfl (by decide) _)).bind
        fun _ _ => ?_
      refine (reads_expectKeyword_self (inWord_of_isPlainWord rfl fun _ => paren_of_isNameChar)
        (endsWord_cons rfl _)).bind fun _ _ => ?_
      refine (reads_expect '(' _).bind fun _ _ => ?_
      refine (reads_delimited (by decide) (fun c _ => (opens_constText c).beginsItem)
        (fun c hc after hafter => reads_keywordConst (hwritten c hc) (BlanksTo.refl _)
          (endsWord_of_item hafter)) rest).bind ?_
      intro raws hraws
      refine Reads.pure ?_ rest
      exact ⟨hraw, mapM_eq_ok hraws⟩
  | directive =>
      have hsplit : (bootstrapText .directive h args).toList ++ rest
          = ' ' :: ("handle".toList ++ ' ' :: (h.bodyText.toList ++ ' ' :: ("args".toList
            ++ ' ' :: followed (fun c => (constText .directive c).toList)
              ("end".toList ++ rest) args))) := by
        rw [← toList_spaced]
        simp [bootstrapText, HandleRef.text, String.toList_append]
      rw [hsplit]
      unfold bootstrap
      refine (reads_skipTrivia (BlanksTo.space _) (noTrivia_cons rfl (by decide) _)).bind
        fun _ _ => ?_
      refine (reads_expectKeyword_self (inWord_of_isPlainWord rfl fun _ => paren_of_isNameChar)
        ((atBlank_space _).endsWord _)).bind fun _ _ => ?_
      refine (reads_handleBody hhandle (BlanksTo.space _)).bind ?_
      intro raw hraw
      refine (reads_skipTrivia (BlanksTo.space _) (noTrivia_cons rfl (by decide) _)).bind
        fun _ _ => ?_
      refine (reads_expectKeyword_self (inWord_of_isPlainWord rfl fun _ => paren_of_isNameChar)
        ((atBlank_space _).endsWord _)).bind fun _ _ => ?_
      refine (reads_upToEnd (fun c _ _ => (opensItem_constText c).startsItem _)
        (fun c hc after hafter => reads_directiveConst (hwritten c hc) (BlanksTo.refl _) hafter)
        hrest).bind ?_
      intro raws hraws
      refine Reads.pure ?_ rest
      exact ⟨hraw, mapM_eq_ok hraws⟩

/-! ## Switches -/

theorem reads_openGroup {keyword : String} (h : isPlainWord keyword = true) (rest : List Char) :
    (openGroup keyword).Reads (' ' :: (keyword.toList ++ '(' :: rest)) (fun _ => True) rest := by
  unfold openGroup
  refine (reads_skipTrivia (BlanksTo.space _)
    ((opens_of_isPlainWord h ')' rfl).noTrivia _)).bind fun _ _ => ?_
  refine (reads_expectKeyword_self (inWord_of_isPlainWord h fun _ => paren_of_isNameChar)
    (endsWord_cons rfl _)).bind fun _ _ => ?_
  exact reads_expect '(' rest

theorem reads_defaultGroup {label : String} (h : IsWordTo listStop label) (rest : List Char) :
    defaultGroup.Reads (' ' :: ("default".toList ++ '(' :: (label.toList ++ ')' :: rest)))
      (· = label) rest := by
  unfold defaultGroup
  refine (reads_openGroup rfl _).bind fun _ _ => ?_
  refine (reads_labelRef h (BlanksTo.refl _) (endsWord_cons rfl _)).bind ?_
  intro found hfound
  refine (reads_skipTrivia (BlanksTo.refl _) (noTrivia_cons rfl (by decide) _)).bind fun _ _ => ?_
  refine (reads_expect ')' rest).bind fun _ _ => ?_
  rw [hfound]
  exact Reads.pure_eq label rest

/-- Operands that stand for an operation with an opcode. -/
def StandFor (op : Opcode) (o : Operation) (parts : Operands) : Prop :=
  ∀ position, parts.toOperation op position = .ok o

theorem standFor_tableSwitch {op : Opcode} {rawMin rawMax : Located RawLiteral} {min max : Int32}
    {labels : List String} {default : String} (hmin : intOf rawMin = .ok min)
    (hmax : intOf rawMax = .ok max)
    (hlabels : max.toInt - min.toInt + 1 = labels.length ∧ labels ≠ []) :
    StandFor op (.tableSwitch min max labels default)
      (.tableSwitch rawMin rawMax labels default) := by
  intro position
  simp only [Operands.toOperation, hmin, hmax, bind, Except.bind]
  rw [if_pos hlabels]
  rfl

/-- A label begins an item wherever it ends. -/
theorem beginsItem_label {label : String} (h : IsWordTo listStop label) :
    BeginsItem ')' label.toList := by
  intro after hafter
  exact ⟨h.noTrivia (endsWord_of_item hafter) ⟨rfl, rfl⟩, h.head_ne rfl after⟩

theorem reads_tableSwitch_keyword {min max : Int32} {labels : List String} {default : String}
    (hcount : max.toInt - min.toInt + 1 = labels.length ∧ labels ≠ [])
    (hlabels : ∀ l ∈ labels, IsWordTo listStop l) (hdefault : IsWordTo listStop default)
    (op : Opcode) (rest : List Char) :
    (tableSwitch .keyword).Reads (' ' :: ("range".toList ++ '(' :: ((toString min.toInt).toList
      ++ ':' :: ((toString max.toInt).toList ++ ')' :: (' ' :: ("offsets".toList
      ++ '(' :: listed String.toList (')' :: ' ' :: ("default".toList
      ++ '(' :: (default.toList ++ ')' :: rest))) labels))))))
      (StandFor op (.tableSwitch min max labels default)) rest := by
  unfold tableSwitch
  refine (reads_openGroup rfl _).bind fun _ _ => ?_
  refine (reads_int min (BlanksTo.refl _) (endsWord_cons rfl _)).bind ?_
  intro rawMin hmin
  refine (reads_skipTrivia (BlanksTo.refl _) (noTrivia_cons rfl (by decide) _)).bind fun _ _ => ?_
  refine (reads_expect ':' _).bind fun _ _ => ?_
  refine (reads_int max (BlanksTo.refl _) (endsWord_cons rfl _)).bind ?_
  intro rawMax hmax
  refine (reads_skipTrivia (BlanksTo.refl _) (noTrivia_cons rfl (by decide) _)).bind fun _ _ => ?_
  refine (reads_expect ')' _).bind fun _ _ => ?_
  refine (reads_openGroup rfl _).bind fun _ _ => ?_
  refine (reads_delimited (R := fun a b => a = b) (by decide)
    (fun l hl => beginsItem_label (hlabels l hl))
    (fun l hl after hafter => reads_labelRef (hlabels l hl) (BlanksTo.refl _)
      (endsWord_of_item hafter)) _).bind fun found hfound => ?_
  rw [List.forall₂_eq_eq_eq] at hfound
  refine (reads_defaultGroup hdefault rest).bind ?_
  intro last hlast
  refine Reads.pure ?_ rest
  rw [hfound, hlast]
  exact standFor_tableSwitch hmin hmax hcount

/-- Targets up to a word that is read as `default`. -/
theorem reads_targets {labels : List String} {stop : String}
    (hlabels : ∀ l ∈ labels, isSignature l = true ∧ sameFolded l "default" = false)
    (hstop : isSignature stop = true ∧ sameFolded stop "default" = true) {rest : List Char}
    (hrest : AtBlank rest) :
    (collect tableTarget?).Reads (' ' :: followed String.toList (stop.toList ++ rest) labels)
      (· = labels) rest := by
  rw [← List.forall₂_eq_eq_eq]
  refine reads_followed (fun l hl before after hgap => ?_) (fun before hgap => ?_)
  · obtain ⟨hword, hfold⟩ := hlabels l hl
    unfold tableTarget?
    refine (reads_wordOf hword hgap (atBlank_space _)).bind ?_
    intro found hfound
    rw [hfound, hfold]
    refine Reads.pure ?_ _
    exact ⟨l, rfl, rfl⟩
  · unfold tableTarget?
    refine (reads_wordOf hstop.1 hgap hrest).bind ?_
    intro found hfound
    rw [hfound, hstop.2]
    exact Reads.pure_eq none rest

theorem reads_tableSwitch_directive {labels : List String} {stop last : String} (min max : Int32)
    (hlabels : ∀ l ∈ labels, isSignature l = true ∧ sameFolded l "default" = false)
    (hstop : isSignature stop = true ∧ sameFolded stop "default" = true)
    (hlast : isSignature last = true) {rest : List Char} (hrest : AtBlank rest) :
    (tableSwitch .directive).Reads (' ' :: ((toString min.toInt).toList
      ++ ' ' :: ((toString max.toInt).toList ++ ' ' :: followed String.toList
        (stop.toList ++ ' ' :: (last.toList ++ rest)) labels)))
      (fun parts => ∃ rawMin rawMax, intOf rawMin = .ok min ∧ intOf rawMax = .ok max
        ∧ parts = .tableSwitch rawMin rawMax labels last) rest := by
  unfold tableSwitch
  refine (reads_int min (BlanksTo.space _) ((atBlank_space _).endsWord _)).bind ?_
  intro rawMin hmin
  refine (reads_int max (BlanksTo.space _) ((atBlank_space _).endsWord _)).bind ?_
  intro rawMax hmax
  refine (reads_targets hlabels hstop (atBlank_space _)).bind ?_
  intro found hfound
  refine (reads_wordOf hlast (BlanksTo.space _) hrest).bind ?_
  intro word hword
  refine Reads.pure ?_ rest
  exact ⟨rawMin, rawMax, hmin, hmax, by rw [hfound, hword]⟩

/-- The target and the key of a case that was read. -/
def ReadCase (raw : Located RawLiteral × String) (c : SwitchCase) : Prop :=
  intOf raw.1 = .ok c.key ∧ raw.2 = c.label

theorem standFor_lookupSwitch {op : Opcode} {raws : List (Located RawLiteral × String)}
    {cases : List SwitchCase} {default : String} (h : List.Forall₂ ReadCase raws cases) :
    StandFor op (.lookupSwitch cases default) (.lookupSwitch raws default) := by
  intro position
  rw [Operands.toOperation, mapM_eq_ok (h.imp ?_)]
  · rfl
  · rintro ⟨key, label⟩ ⟨_, _⟩ ⟨hkey, rfl⟩
    simp only [hkey]
    rfl

theorem reads_lookupSwitch_keyword {cases : List SwitchCase} {default : String}
    (hcases : ∀ c ∈ cases, IsWordTo listStop c.label) (hdefault : IsWordTo listStop default)
    (op : Opcode) (rest : List Char) :
    (lookupSwitch .keyword).Reads (' ' :: ("mapping".toList ++ '(' :: listed
      (fun c => (toString c.key.toInt ++ "=" ++ c.label).toList) (')' :: ' ' :: ("default".toList
      ++ '(' :: (default.toList ++ ')' :: rest))) cases))
      (StandFor op (.lookupSwitch cases default)) rest := by
  have hsplit : ∀ (c : SwitchCase) (after : List Char),
      (toString c.key.toInt ++ "=" ++ c.label).toList ++ after
        = (toString c.key.toInt).toList ++ '=' :: (c.label.toList ++ after) := by
    intro c after
    simp [String.toList_append]
  have hopens : ∀ c ∈ cases, Opens ')' (toString c.key.toInt ++ "=" ++ c.label).toList := by
    intro c _
    have := hsplit c []
    rw [List.append_nil] at this
    rw [this]
    exact (opens_literalText (.number (.int c.key)) ')' rfl (by decide)).append _
  unfold lookupSwitch
  refine (reads_openGroup rfl _).bind fun _ _ => ?_
  refine (reads_delimited (R := ReadCase) (by decide) (fun c hc => (hopens c hc).beginsItem)
    (fun c hc after hafter => ?_) _).bind
    fun raws hraws => ?_
  · unfold keywordCase
    rw [hsplit]
    refine (reads_int c.key (BlanksTo.refl _) (endsWord_cons rfl _)).bind ?_
    intro key hkey
    refine (reads_skipTrivia (BlanksTo.refl _) (noTrivia_cons rfl (by decide) _)).bind fun _ _ => ?_
    refine (reads_expect '=' _).bind fun _ _ => ?_
    refine (reads_labelRef (hcases c hc) (BlanksTo.refl _) (endsWord_of_item hafter)).bind ?_
    intro label hlabel
    refine Reads.pure ?_ after
    exact ⟨hkey, hlabel⟩
  · refine (reads_defaultGroup hdefault rest).bind ?_
    intro last hlast
    refine Reads.pure ?_ rest
    rw [hlast]
    exact standFor_lookupSwitch hraws

theorem reads_lookupSwitch_directive {cases : List SwitchCase} {default : String}
    (hcases : ∀ c ∈ cases, isSignature c.label = true) (hdefault : isSignature default = true)
    (op : Opcode) {rest : List Char} (hrest : AtBlank rest) :
    (lookupSwitch .directive).Reads (' ' :: followed
      (fun c => ("case " ++ toString c.key.toInt ++ " " ++ c.label).toList)
      ("default".toList ++ ' ' :: (default.toList ++ rest)) cases)
      (StandFor op (.lookupSwitch cases default)) rest := by
  have hsplit : ∀ (c : SwitchCase) (after : List Char),
      ("case " ++ toString c.key.toInt ++ " " ++ c.label).toList ++ after
        = "case".toList ++ ' ' :: ((toString c.key.toInt).toList
          ++ ' ' :: (c.label.toList ++ after)) := by
    intro c after
    simp [String.toList_append]
  have hend : ∀ before, BlanksTo before ("default".toList ++ ' ' :: (default.toList ++ rest)) →
      directiveCase?.Reads before (· = none) (' ' :: (default.toList ++ rest)) := by
    intro before hgap
    unfold directiveCase?
    refine (reads_plainWord (w := "default") rfl hgap (atBlank_space _)).bind ?_
    intro head hhead
    rw [hhead]
    exact Reads.pure_eq none _
  unfold lookupSwitch
  refine (reads_followed (R := ReadCase) (fun c hc before after hgap => ?_) hend).bind
    fun raws hraws => ?_
  · rw [hsplit] at hgap
    unfold directiveCase?
    refine (reads_plainWord (w := "case") rfl hgap (atBlank_space _)).bind ?_
    intro head hhead
    rw [hhead]
    refine (reads_int c.key (BlanksTo.space _) ((atBlank_space _).endsWord _)).bind ?_
    intro key hkey
    refine (reads_wordOf (hcases c hc) (BlanksTo.space _) (atBlank_space _)).bind ?_
    intro label hlabel
    refine Reads.pure ?_ _
    exact ⟨_, rfl, hkey, hlabel⟩
  · refine (reads_wordOf hdefault (BlanksTo.space _) hrest).bind ?_
    intro last hlast
    refine Reads.pure ?_ rest
    rw [hlast]
    exact standFor_lookupSwitch hraws

end Scan

/-! ## All operands -/

/-- Is the next word something else than `itf`? -/
def NoMark (rest : List Char) : Prop :=
  ∃ cs, Scan.BlanksTo rest cs ∧ cs.head?.any isBlank = false
    ∧ sameFolded (Scan.keywordOf cs) "itf" = false

/-- Is it a call without the word `itf`, which is still looked for after it? -/
def Operation.isOpenCall : Operation → Bool
  | .method op _ _ _ itf => interfaceMark op itf = ""
  | _ => false

/-- The end of a line; after an open call, no line starts with the word `itf`. -/
structure EndsLine (isOpen : Bool) (rest : List Char) : Prop where
  blank : AtBlank rest
  next : isOpen = true → NoMark rest

/-- What the operation writes after its mnemonic is read as its operands. -/
def OperandsRead (d : Dialect) (op : Opcode) (o : Operation) : Prop :=
  ∃ tail, (o.text d).toList = (d.word op.mnemonic).toList ++ tail ∧ (tail = [] ∨ AtBlank tail)
    ∧ ∀ rest, EndsLine o.isOpenCall rest →
      (Scan.operands d op).Reads (tail ++ rest) (Scan.StandFor op o) rest

namespace Scan

variable {d : Dialect} {op : Opcode}

theorem operandsRead_plain (h : op.shape = .none) : OperandsRead d op (.plain op) := by
  refine ⟨[], by simp [Operation.text], Or.inl rfl, fun rest _ => ?_⟩
  unfold operands
  rw [h]
  refine Reads.pure ?_ rest
  exact fun _ => rfl

theorem operandsRead_int (h : op.shape = .int) (v : Int32) : OperandsRead d op (.int op v) := by
  refine ⟨' ' :: (toString v.toInt).toList, by simp [Operation.text, String.toList_append],
    Or.inr rfl, fun rest hrest => ?_⟩
  unfold operands
  rw [h]
  refine (reads_int v (BlanksTo.space _) (hrest.blank.endsWord _)).bind ?_
  intro raw hraw
  refine Reads.pure ?_ rest
  intro position
  rw [Operands.toOperation, hraw]
  rfl

/-- An operation with one word for an operand. -/
theorem operandsRead_word {what w : String} {o : Operation} (make : String → Operands)
    (hw : isSignature w = true)
    (htext : o.text d = d.word op.mnemonic ++ " " ++ w)
    (hscan : operands d op = do return make (← requiredWord what))
    (hmake : StandFor op o (make w)) : OperandsRead d op o := by
  refine ⟨' ' :: w.toList, by simp [htext, String.toList_append], Or.inr rfl, fun rest hrest => ?_⟩
  rw [hscan]
  refine (reads_wordOf hw (BlanksTo.space _) hrest.blank).bind ?_
  intro found hfound
  refine Reads.pure ?_ rest
  rw [hfound]
  exact hmake

theorem operandsRead_var (h : op.shape = .var) {name : String} (hname : isSignature name = true) :
    OperandsRead d op (.var op name) :=
  operandsRead_word .var hname rfl (by rw [operands, h]) fun _ => rfl

theorem operandsRead_type (h : op.shape = .type) {desc : String} (hdesc : isSignature desc = true) :
    OperandsRead d op (.type op desc) :=
  operandsRead_word .type hdesc rfl (by rw [operands, h]) fun _ => rfl

theorem operandsRead_jump (h : op.shape = .jump) {label : String}
    (hlabel : isSignature label = true) :
    OperandsRead d op (.jump op label) :=
  operandsRead_word .jump hlabel rfl (by rw [operands, h]) fun _ => rfl

theorem operandsRead_field (h : op.shape = .field) {owner name desc : String}
    (hmember : IsMember owner name) (hdesc : isDescText desc = true) :
    OperandsRead d op (.field op owner name desc) := by
  refine ⟨' ' :: ((owner ++ "." ++ name).toList ++ ' ' :: desc.toList),
    by simp [Operation.text, String.toList_append], Or.inr rfl, fun rest _ => ?_⟩
  unfold operands
  rw [h, List.cons_append, List.append_assoc, List.cons_append]
  refine (reads_member hmember (BlanksTo.space _) ((atBlank_space _).endsWord _)).bind ?_
  intro found hfound
  refine (reads_memberDesc hdesc (BlanksTo.space _)).bind ?_
  intro word hword
  refine Reads.pure ?_ rest
  intro position
  rw [Operands.toOperation, hfound, hword]
  rfl

/-- The word `itf` says what the opcode does not. -/
theorem reads_interfaceOwner {itf : Bool} (h : op ≠ .invokeinterface ∨ itf = true)
    {rest : List Char} (hrest : EndsLine (interfaceMark op itf = "") rest) :
    (interfaceOwner op).Reads ((interfaceMark op itf).toList ++ rest) (· = itf) rest := by
  have hnext : ¬ (itf && op != .invokeinterface) = true → NoMark rest := by
    intro hitf
    refine hrest.next (decide_eq_true ?_)
    rw [interfaceMark, if_neg hitf]
  unfold interfaceOwner interfaceMark
  refine (reads_get _).bind ?_
  intro mark hmark
  split at hmark <;> rename_i hitf
  · rw [if_pos hitf]
    simp only [Bool.and_eq_true] at hitf
    refine (reads_skipBlanks (BlanksTo.space _) rfl).bind fun _ _ => ?_
    refine (reads_eatKeyword (w := "itf") (sameFolded_self _)
      (inWord_of_isPlainWord rfl fun _ => paren_of_isNameChar) (hrest.blank.endsWord _)).bind ?_
    intro found hfound
    rw [hfound, hitf.1]
    exact Reads.pure_eq true rest
  · obtain ⟨cs, hgap, hblank, hfold⟩ := hnext hitf
    rw [if_neg hitf]
    refine (reads_skipBlanks hgap hblank).bind fun _ _ => ?_
    refine (reads_eatKeyword_none hfold).bind ?_
    intro found hfound
    rw [hfound]
    refine (reads_set mark _).bind fun _ _ => ?_
    rw [hmark]
    refine Reads.pure ?_ rest
    cases itf with
    | true =>
        simp only [Bool.true_and, bne_iff_ne, ne_eq, not_not] at hitf
        rw [hitf]
        rfl
    | false =>
        rcases h with h | h
        · exact beq_eq_false_iff_ne.mpr h
        · cases h

theorem operandsRead_method (h : op.shape = .method) {owner name desc : String} {itf : Bool}
    (hmember : IsMember owner name) (hdesc : isDescText desc = true)
    (hparen : desc.toList.head? = some '(') (hitf : op ≠ .invokeinterface ∨ itf = true) :
    OperandsRead d op (.method op owner name desc itf) := by
  refine ⟨' ' :: ((owner ++ "." ++ name).toList ++ (desc.toList ++ (interfaceMark op itf).toList)),
    by simp [Operation.text, String.toList_append], Or.inr rfl, fun rest hrest => ?_⟩
  have hends : ∀ after, EndsWord memberStop (desc.toList ++ after) := by
    intro after
    obtain ⟨cs, hcs⟩ := List.head?_eq_some_iff.mp hparen
    rw [hcs]
    exact endsWord_cons rfl _
  unfold operands
  rw [h, List.cons_append, List.append_assoc, List.append_assoc]
  refine (reads_member hmember (BlanksTo.space _) (hends _)).bind ?_
  intro found hfound
  refine (reads_memberDesc hdesc (BlanksTo.refl _)).bind ?_
  intro word hword
  refine (reads_interfaceOwner hitf hrest).bind ?_
  intro flag hflag
  refine Reads.pure ?_ rest
  intro position
  rw [Operands.toOperation, hfound, hword, hflag]
  rfl

-- The operations left have one opcode each.
attribute [local simp] Operation.text Opcode.mnemonic

theorem operandsRead_newArray {t : Ty} (h : Ty.ofFieldDescriptor? t.descriptor = some t)
    (hunbroken : ∀ c ∈ t.descriptor.toList, isBlank c = false) :
    OperandsRead d .newarray (.newArray t) := by
  refine ⟨' ' :: t.descriptor.toList, by simp [String.toList_append], Or.inr rfl,
    fun rest hrest => ?_⟩
  have hword : IsWord t.descriptor :=
    ⟨fun c hc => ⟨hunbroken c hc, rfl⟩, opens_descriptor t ')' (by decide)⟩
  unfold operands
  refine (reads_skipTrivia (BlanksTo.space _) (hword.opens.noTrivia rest)).bind fun _ _ => ?_
  refine (reads_get _).bind ?_
  intro mark _
  refine (reads_wordOf hword.isSignature (BlanksTo.refl _) hrest.blank).bind ?_
  intro found hfound
  refine reads_placed mark ?_ rest
  intro place position
  have helement : arrayElement ⟨found, place⟩ = .ok t := by
    simp only [arrayElement, hfound, h, Option.some_or]
  rw [Operands.toOperation, helement]
  rfl

theorem operandsRead_invokeDynamic {name desc : String} {bootstrap : HandleRef}
    {args : List (Const HandleRef)} (hname : isSignature name = true)
    (hdesc : isDescText desc = true)
    (hbootstrap : bootstrap.IsWritten) (hargs : ∀ c ∈ args, c.IsWritten) :
    OperandsRead d .invokedynamic (.invokeDynamic name desc bootstrap args) := by
  refine ⟨' ' :: (name.toList ++ ' ' :: (desc.toList ++ (bootstrapText d bootstrap args).toList)),
    ?_, Or.inr rfl, fun rest hrest => ?_⟩
  · simp only [Operation.text, bootstrapText, Opcode.mnemonic]
    cases d <;> simp [String.toList_append]
  · unfold operands
    rw [List.cons_append, List.append_assoc, List.cons_append, List.append_assoc]
    refine (reads_wordOf hname (BlanksTo.space _) (atBlank_space _)).bind ?_
    intro word hword
    refine (reads_memberDesc hdesc (BlanksTo.space _)).bind ?_
    intro found hfound
    refine (reads_bootstrap d hbootstrap hargs hrest.blank).bind ?_
    rintro ⟨raw, raws⟩ ⟨hraw, hraws⟩
    refine Reads.pure ?_ rest
    intro position
    rw [Operands.toOperation, hraw, hword, hfound]
    show (raws.mapM RawConst.toConst >>= _) = _
    rw [hraws]
    rfl

theorem operandsRead_ldc {c : Const HandleRef} (h : c.IsWritten) :
    OperandsRead d .ldc (.ldc c) := by
  refine ⟨' ' :: (constText d c).toList,
    by simp [String.toList_append], Or.inr rfl,
    fun rest hrest => ?_⟩
  unfold operands
  refine (reads_constant d h (BlanksTo.space _) hrest.blank).bind ?_
  intro raw hraw
  refine Reads.pure ?_ rest
  intro position
  rw [Operands.toOperation, hraw]
  rfl

theorem operandsRead_iinc {name : String} (h : isSignature name = true) (increment : Int32) :
    OperandsRead d .iinc (.iinc name increment) := by
  refine ⟨' ' :: (name.toList ++ ' ' :: (toString increment.toInt).toList),
    by simp [String.toList_append], Or.inr rfl,
    fun rest hrest => ?_⟩
  unfold operands
  rw [List.cons_append, List.append_assoc, List.cons_append]
  refine (reads_wordOf h (BlanksTo.space _) (atBlank_space _)).bind ?_
  intro found hfound
  refine (reads_int increment (BlanksTo.space _) (hrest.blank.endsWord _)).bind ?_
  intro raw hraw
  refine Reads.pure ?_ rest
  intro position
  rw [Operands.toOperation, hraw, hfound]
  rfl

/-- A natural number that fits an int. -/
theorem reads_nat {n : Nat} (h : n ≤ 2147483647) {before rest : List Char}
    (hgap : BlanksTo before ((toString n).toList ++ rest)) (hrest : EndsWord listStop rest) :
    literal.Reads before (fun l => ∃ v : Int32, intOf l = .ok v ∧ v.toInt = n) rest := by
  have hint : (Int32.ofNat n).toInt = n := Int32.toInt_ofNat_of_lt (by omega)
  refine (reads_int (Int32.ofNat n) ?_ hrest).mono fun l hl => ⟨_, hl, hint⟩
  rw [hint]
  exact hgap

theorem operandsRead_multiArray {desc : String} (h : isSignature desc = true) (dims : UInt8) :
    OperandsRead d .multianewarray (.multiArray desc dims) := by
  refine ⟨' ' :: (desc.toList ++ ' ' :: (toString dims.toNat).toList), ?_, Or.inr rfl,
    fun rest hrest => ?_⟩
  · rw [Operation.text]
    simp only [Opcode.mnemonic, String.toList_append, List.append_assoc]
    rfl
  have hlt : dims.toNat < 256 := dims.toNat_lt
  unfold operands
  rw [List.cons_append, List.append_assoc, List.cons_append]
  refine (reads_wordOf h (BlanksTo.space _) (atBlank_space _)).bind ?_
  intro found hfound
  refine (reads_nat (by omega) (BlanksTo.space _) (hrest.blank.endsWord _)).bind ?_
  rintro raw ⟨v, hraw, hv⟩
  refine Reads.pure ?_ rest
  intro position
  rw [Operands.toOperation, hraw, hfound]
  show (if 0 ≤ v.toInt ∧ v.toInt ≤ 255 then _ else _) = _
  rw [if_pos (by omega), hv, Int.toNat_natCast, UInt8.ofNat_toNat]
  rfl

theorem operandsRead_lookupSwitch {cases : List SwitchCase} {default : String}
    (hcases : ∀ c ∈ cases, IsWordTo (labelStop d) c.label)
    (hdefault : IsWordTo (labelStop d) default) :
    OperandsRead d .lookupswitch (.lookupSwitch cases default) := by
  cases d with
  | keyword =>
      refine ⟨' ' :: ("mapping".toList ++ '(' :: listed
        (fun c => (toString c.key.toInt ++ "=" ++ c.label).toList) (')' :: ' ' :: ("default".toList
        ++ '(' :: (default.toList ++ [')']))) cases), ?_, Or.inr rfl, fun rest _ => ?_⟩
      · rw [← toList_joinWith]
        simp [String.toList_append]
      · have hread := reads_lookupSwitch_keyword hcases hdefault .lookupswitch rest
        simp only [List.cons_append, List.append_assoc, listed_append] at hread ⊢
        exact hread
  | directive =>
      refine ⟨' ' :: followed
        (fun c => ("case " ++ toString c.key.toInt ++ " " ++ c.label).toList)
        ("default".toList ++ ' ' :: default.toList) cases, ?_, Or.inr rfl, fun rest hrest => ?_⟩
      · rw [← toList_spaced]
        simp [String.toList_append]
      · have hread := reads_lookupSwitch_directive (fun c hc => (hcases c hc).signature)
          hdefault.signature .lookupswitch hrest.blank
        simp only [List.cons_append, List.append_assoc, followed_append] at hread ⊢
        exact hread

theorem toList_tableSwitch_directive (min max : Int32) (labels : List String) (default : String) :
    ((Operation.tableSwitch min max labels default).text .directive).toList
      = (Dialect.directive.word Opcode.tableswitch.mnemonic).toList ++ ' ' ::
        ((toString min.toInt).toList ++ ' ' :: ((toString max.toInt).toList ++ ' ' ::
          followed String.toList ("default".toList ++ ' ' :: default.toList) labels)) := by
  have hspaced : (spaced labels).toList ++ ' ' :: ("default".toList ++ ' ' :: default.toList)
      = ' ' :: followed String.toList ("default".toList ++ ' ' :: default.toList) labels := by
    have := toList_spaced id ("default".toList ++ ' ' :: default.toList) labels
    rwa [List.map_id] at this
  rw [← hspaced]
  simp [String.toList_append]

theorem operandsRead_tableSwitch {min max : Int32} {labels : List String} {default : String}
    (hcount : max.toInt - min.toInt + 1 = labels.length ∧ labels ≠ [])
    (hlabels : ∀ l ∈ labels, IsWordTo (labelStop d) l) (hdefault : IsWordTo (labelStop d) default)
    (hfold : d = .directive → ∀ l ∈ labels, sameFolded l "default" = false) :
    OperandsRead d .tableswitch (.tableSwitch min max labels default) := by
  cases d with
  | keyword =>
      refine ⟨' ' :: ("range".toList ++ '(' :: ((toString min.toInt).toList
        ++ ':' :: ((toString max.toInt).toList ++ ')' :: (' ' :: ("offsets".toList
        ++ '(' :: listed String.toList (')' :: ' ' :: ("default".toList
        ++ '(' :: (default.toList ++ [')']))) labels))))), ?_, Or.inr rfl, fun rest _ => ?_⟩
      · have hjoined : (joinWith ", " labels).toList ++ (')' :: ' ' :: ("default".toList
            ++ '(' :: (default.toList ++ [')']))) = listed String.toList (')' :: ' ' ::
              ("default".toList ++ '(' :: (default.toList ++ [')']))) labels := by
          have := toList_joinWith id (')' :: ' ' :: ("default".toList
            ++ '(' :: (default.toList ++ [')']))) labels
          rwa [List.map_id] at this
        rw [← hjoined]
        simp [String.toList_append]
      · have hread := reads_tableSwitch_keyword hcount hlabels hdefault .tableswitch rest
        simp only [List.cons_append, List.append_assoc, listed_append] at hread ⊢
        exact hread
  | directive =>
      refine ⟨_, toList_tableSwitch_directive min max labels default, Or.inr rfl,
        fun rest hrest => ?_⟩
      have hstop : isSignature "default" = true ∧ sameFolded "default" "default" = true :=
        ⟨isSignature_of_isPlainWord rfl, rfl⟩
      have hread := reads_tableSwitch_directive min max
        (fun l hl => ⟨(hlabels l hl).signature, hfold rfl l hl⟩)
        hstop hdefault.signature hrest.blank
      simp only [List.cons_append, List.append_assoc, followed_append] at hread ⊢
      refine hread.mono ?_
      rintro _ ⟨rawMin, rawMax, hmin, hmax, rfl⟩
      exact standFor_tableSwitch hmin hmax hcount

/-- A list with an element that `p` accepts, split at the first of them. -/
theorem exists_first {γ : Type} {p : γ → Bool} {vs : List γ} (h : vs.any p = true) :
    ∃ good bad more, vs = good ++ bad :: more ∧ (∀ v ∈ good, p v = false) ∧ p bad = true := by
  obtain ⟨bad, hbad⟩ := Option.isSome_iff_exists.mp (List.find?_isSome.mpr (List.any_eq_true.mp h))
  obtain ⟨hp, good, more, hvs, hgood⟩ := List.find?_eq_some_iff_append.mp hbad
  exact ⟨good, bad, more, hvs, fun v hv => by simpa using hgood v hv, hp⟩

theorem followed_split (tail : List Char) (bad : String) (more : List String) :
    ∀ good : List String, followed String.toList tail (good ++ bad :: more)
      = followed String.toList (bad.toList ++ ' ' :: followed String.toList tail more) good
  | [] => rfl
  | v :: good => by
      rw [List.cons_append, followed, followed, followed_split tail bad more good]

/-- A target called `default` ends the targets, and there are too few of them. -/
theorem operands_tableSwitch_ambiguous {min max : Int32} {labels : List String} (default : String)
    (hcount : max.toInt - min.toInt + 1 = labels.length)
    (hlabels : ∀ l ∈ labels, isPlainWord l = true)
    (hfold : labels.any (sameFolded · "default") = true) :
    ∃ tail, ((Operation.tableSwitch min max labels default).text .directive).toList
        = (Dialect.directive.word Opcode.tableswitch.mnemonic).toList ++ tail ∧ AtBlank tail
      ∧ ∀ rest, AtBlank rest → ∃ after, (operands .directive .tableswitch).Reads (tail ++ rest)
          (fun parts => ∀ position, ∃ e,
            parts.toOperation .tableswitch position = .error e) after := by
  refine ⟨_, toList_tableSwitch_directive min max labels default, rfl, fun rest hrest => ?_⟩
  obtain ⟨good, bad, more, rfl, hgood, hbad⟩ := exists_first hfold
  have hplain : ∀ l ∈ good, isSignature l = true ∧ sameFolded l "default" = false :=
    fun l hl => ⟨isSignature_of_isPlainWord (hlabels l (List.mem_append_left _ hl)), hgood l hl⟩
  have hstop : isSignature bad = true ∧ sameFolded bad "default" = true :=
    ⟨isSignature_of_isPlainWord (hlabels bad (List.mem_append_right _ List.mem_cons_self)), hbad⟩
  -- the word after the target that ends the list is taken for the default
  obtain ⟨last, after, hnext, hlast, hafter⟩ : ∃ last after, followed String.toList
      ("default".toList ++ ' ' :: (default.toList ++ rest)) more = last.toList ++ ' ' :: after
        ∧ isPlainWord last = true ∧ AtBlank (' ' :: after) := by
    cases more with
    | nil => exact ⟨"default", _, rfl, rfl, rfl⟩
    | cons l more =>
        refine ⟨l, _, rfl, hlabels l ?_, rfl⟩
        exact List.mem_append_right _ (List.mem_cons_of_mem _ List.mem_cons_self)
  refine ⟨' ' :: after, ?_⟩
  have hread := reads_tableSwitch_directive min max hplain hstop (isSignature_of_isPlainWord hlast)
    hafter
  simp only [List.cons_append, List.append_assoc, followed_append, followed_split]
  rw [hnext]
  refine hread.mono ?_
  rintro _ ⟨rawMin, rawMax, hmin, hmax, rfl⟩ position
  have hne : ¬ (max.toInt - min.toInt + 1 = good.length ∧ good ≠ []) := by
    rw [List.length_append, List.length_cons] at hcount
    omega
  simp only [Operands.toOperation, hmin, hmax, bind, Except.bind]
  rw [if_neg hne]
  exact ⟨_, rfl⟩

/-- Every spelled operation with a divided text is read back. -/
theorem operandsRead_of_isSpelled {o : Operation} (hop : o.opcode? = some op)
    (h : o.isSpelled d = true) (hdivided : o.isDivided = true) : OperandsRead d op o := by
  cases o <;> cases hop <;> simp only [Operation.isSpelled, isUnbroken, isMember_iff, isWordTo_iff,
    HandleRef.isSpelled_iff, Const.isSpelled_iff, Bool.and_eq_true, Bool.or_eq_true,
    decide_eq_true_eq, List.all_eq_true, Bool.not_eq_true'] at h
  case plain => exact operandsRead_plain h
  case int value => exact operandsRead_int h value
  case newArray => exact operandsRead_newArray h.1 h.2
  case var => exact operandsRead_var h.1 h.2
  case type => exact operandsRead_type h.1 h.2
  case field => exact operandsRead_field h.1.1 h.1.2 h.2
  case method => exact operandsRead_method h.1.1.1 h.1.1.2 h.1.2 (of_decide_eq_true hdivided) h.2
  case invokeDynamic => exact operandsRead_invokeDynamic h.1.1.1 h.1.1.2 h.1.2 h.2
  case ldc => exact operandsRead_ldc h
  case jump => exact operandsRead_jump h.1 h.2
  case iinc name increment => exact operandsRead_iinc h increment
  case multiArray desc dims => exact operandsRead_multiArray h dims
  case lookupSwitch => exact operandsRead_lookupSwitch h.1 h.2
  case tableSwitch =>
      have htargets := h.1.2
      simp only [isTarget, isWordTo_iff, Bool.and_eq_true, Bool.or_eq_true, decide_eq_true_eq,
        Bool.not_eq_true'] at htargets
      refine operandsRead_tableSwitch h.1.1 (fun l hl => (htargets l hl).1) h.2 ?_
      rintro rfl l hl
      exact (htargets l hl).2.resolve_left (by decide)

end Scan

end JvmListing
