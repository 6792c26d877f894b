/-
# Clauses of written lines

Every line of a body with a construct on it is read as one clause, and that clause
enters the statement of the line into a listing.  Lines are independent of what stands
around them, but for the word `itf`: a call is read on to the next line to see whether
it stands there, so it matters which lines start with it (`Statement.opensMark`).
-/
import JvmListing.Proofs.Mnemonics
import JvmListing.Proofs.Operands

namespace JvmListing

open Lexeme

namespace Scan

variable {d : Dialect} {p : Progress}

/-- The clause at a word of the dialect. -/
def clauseAt (d : Dialect) (p : Progress) : Scan (Clause × Progress) :=
  match d with
  | .keyword => keywordClause p
  | .directive => directiveClause p

/-- A clause that satisfies `P` is read, and nothing else changes. -/
def Gives (P : Clause → Prop) (p : Progress) (r : Clause × Progress) : Prop := P r.1 ∧ r.2 = p

theorem reads_headClause {w : String} {head : Head} {rest after : List Char} {P : Clause → Prop}
    (hw : InWord (fun _ => false) w.toList) (hrest : EndsWord (fun _ => false) rest)
    (hhead : Head.ofWord? d w = some head)
    (hread : (construct d head).Reads (w.toList ++ rest) P after) :
    (clauseAt d p).Reads (w.toList ++ rest) (Gives P p) after := by
  obtain ⟨hmethod, hfield, hend, -⟩ := Head.ne_of_ofWord? hhead
  cases d with
  | keyword =>
      unfold clauseAt keywordClause
      refine (reads_peekWord hw hrest).bind ?_
      intro found hfound
      rw [hfound, hhead]
      refine hread.bind ?_
      intro clause hclause
      refine Reads.pure ?_ after
      exact ⟨hclause, rfl⟩
  | directive =>
      unfold clauseAt directiveClause
      refine (reads_get _).bind ?_
      intro mark _
      refine (reads_peekWord hw hrest).bind ?_
      intro found hfound
      rw [hfound, hhead]
      simp only [hmethod, hfield, hend, decide_false, Bool.false_and, Bool.false_eq_true, if_false]
      refine hread.bind ?_
      intro clause hclause
      refine Reads.pure ?_ after
      exact ⟨hclause, rfl⟩

/-- A word that is not reserved, once there is a definition. -/
theorem reads_wordClause {w : String} {rest after : List Char} {P : Clause → Prop}
    (hw : InWord (fun _ => false) w.toList) (hrest : EndsWord (fun _ => false) rest)
    (hfree : lowerCase w ∉ reservedWords) (hdefined : p.defined = true)
    (hread : (wordClause d w).Reads (w.toList ++ rest) P after) :
    (clauseAt d p).Reads (w.toList ++ rest) (Gives P p) after := by
  have hhead : Head.ofWord? d w = none :=
    Head.ofWord?_eq_none fun hmem => hfree (List.mem_append_left _ hmem)
  have hend : lowerCase w ≠ "end" := by
    intro heq
    rw [heq] at hfree
    exact hfree (by decide)
  cases d with
  | keyword =>
      unfold clauseAt keywordClause
      refine (reads_peekWord hw hrest).bind ?_
      intro found hfound
      rw [hfound, hhead, hdefined]
      refine (Reads.pure_eq none _).bind ?_
      intro _ hnone
      subst hnone
      refine hread.bind ?_
      intro clause hclause
      refine Reads.pure ?_ after
      exact ⟨hclause, rfl⟩
  | directive =>
      unfold clauseAt directiveClause
      refine (reads_get _).bind ?_
      intro mark _
      refine (reads_peekWord hw hrest).bind ?_
      intro found hfound
      rw [hfound, hhead]
      simp only [hdefined, hend, decide_false, Bool.not_true, Bool.and_false, Bool.false_and,
        Bool.false_eq_true, if_false]
      refine hread.bind ?_
      intro clause hclause
      refine Reads.pure ?_ after
      exact ⟨hclause, rfl⟩

/-- A word that introduces a construct, and what comes after it. -/
theorem reads_introduced {w : String} {head : Head} {rest after : List Char} {P : Clause → Prop}
    {parts : Cursor → Scan Clause} (hw : Head.Introduces d w head)
    (hrest : EndsWord (fun _ => false) rest)
    (hparts : construct d head = get >>= fun mark => word >>= fun _ => parts mark)
    (hread : ∀ mark, (parts mark).Reads rest P after) :
    (clauseAt d p).Reads (w.toList ++ rest) (Gives P p) after := by
  have hword := (isWord_of_isPlainWord hw.plain).inWord
  refine reads_headClause hword hrest hw.found ?_
  rw [hparts]
  refine (reads_get _).bind ?_
  intro mark _
  exact (reads_word hword hrest).bind fun _ _ => hread mark

/-! ## Attributes -/

/-- A construct that is one more word. -/
theorem reads_oneWordClause (what : String) (clause : Located String → Clause) {w s : String}
    {head : Head} (hw : Head.Introduces d w head) (h : isSignature s = true) {rest : List Char}
    (hrest : AtBlank rest)
    (hparts : construct d head = get >>= fun mark => word >>= fun _ =>
      requiredWord what >>= fun found => since mark >>= fun position =>
        pure (clause ⟨found, position⟩)) :
    (clauseAt d p).Reads (w.toList ++ ' ' :: (s.toList ++ rest))
      (Gives (fun found => ∃ position, found = clause ⟨s, position⟩) p) rest := by
  refine reads_introduced hw ((atBlank_space _).endsWord _) hparts ?_
  intro mark
  refine (reads_wordOf h (BlanksTo.space _) hrest).bind ?_
  intro found hfound
  refine reads_placed mark ?_ rest
  intro position
  rw [hfound]
  exact ⟨position, rfl⟩

theorem reads_signatureClause {s : String} (h : isSignature s = true) {rest : List Char}
    (hrest : AtBlank rest) :
    (clauseAt d p).Reads ((d.word "signature").toList ++ ' ' :: (s.toList ++ rest))
      (Gives (fun clause => ∃ position, clause = .signature ⟨s, position⟩) p) rest := by
  have hw : Head.Introduces d (d.word "signature") .signature :=
    Head.introduces_word d (by simp [Head.words])
  exact reads_oneWordClause "signature" .signature hw h hrest rfl

theorem reads_throwsClause {type : String} (h : isSignature type = true) {rest : List Char}
    (hrest : AtBlank rest) :
    (clauseAt d p).Reads ((d.word "throws").toList ++ ' ' :: (type.toList ++ rest))
      (Gives (fun clause => ∃ position, clause = .throws ⟨type, position⟩) p) rest := by
  have hw : Head.Introduces d (d.word "throws") .throws :=
    Head.introduces_word d (by simp [Head.words])
  exact reads_oneWordClause "exception type" .throws hw h hrest rfl

theorem reads_deprecatedClause {rest : List Char} (hrest : AtBlank rest) :
    (clauseAt d p).Reads ((d.word "deprecated").toList ++ rest)
      (Gives (· = .deprecated) p) rest := by
  have hw : Head.Introduces d (d.word "deprecated") .deprecated :=
    Head.introduces_word d (by simp [Head.words])
  refine reads_introduced hw (hrest.endsWord _) rfl ?_
  intro mark
  exact Reads.pure_eq _ rest

theorem reads_valueClause (l : Literal) {rest : List Char} (hrest : AtBlank rest) :
    (clauseAt d p).Reads ((d.word "value").toList ++ ' ' :: (l.text.toList ++ rest))
      (Gives (fun clause => ∃ raw, clause = .value raw ∧ literalOf raw = .ok l) p) rest := by
  have hw : Head.Introduces d (d.word "value") .value :=
    Head.introduces_word d (by simp [Head.words])
  refine reads_introduced hw ((atBlank_space _).endsWord _) rfl ?_
  intro mark
  refine (reads_literal l (BlanksTo.space _) (hrest.endsWord _)).bind ?_
  intro raw hraw
  refine Reads.pure ?_ rest
  exact ⟨raw, rfl, hraw⟩

/-! ## Lines and handlers -/

theorem reads_lineClause {label : String} {n : Nat} (hlabel : isSignature label = true)
    (hn : n ≤ 2147483647) {rest : List Char} (hrest : AtBlank rest) :
    (clauseAt d p).Reads
      ((d.word "line").toList ++ ' ' :: (label.toList ++ ' ' :: ((toString n).toList ++ rest)))
      (Gives (fun clause => ∃ raw position, clause = .line label raw position
        ∧ lineMarker label raw = .ok (.line label n)) p) rest := by
  have hw : Head.Introduces d (d.word "line") .line := Head.introduces_word d (by simp [Head.words])
  refine reads_introduced hw ((atBlank_space _).endsWord _) rfl ?_
  intro mark
  refine (reads_wordOf hlabel (BlanksTo.space _) (atBlank_space _)).bind ?_
  intro found hfound
  refine (reads_nat hn (BlanksTo.space _) (hrest.endsWord _)).bind ?_
  intro raw hraw
  obtain ⟨v, hraw, hv⟩ := hraw
  refine reads_placed mark ?_ rest
  intro position
  rw [hfound]
  refine ⟨raw, position, rfl, ?_⟩
  simp [lineMarker, hraw, hv, bind, Except.bind, pure, Except.pure]

/-- The word for what a handler catches stands for it. -/
theorem caughtType_getD {d : Dialect} {caught : Option String} (h : isCaught d caught = true) :
    caughtType (caught.getD "*") = caught := by
  cases caught with
  | none => rfl
  | some type =>
      refine if_neg ?_
      cases d <;> simp only [isCaught, Bool.and_eq_true, decide_eq_true_eq] at h <;> exact h.1

/-- The word in brackets, which may be missing. -/
theorem caughtWord_keyword {caught : Option String} (h : isCaught .keyword caught = true) :
    InWord (· = ')') (caught.getD "*").toList
      ∧ ∀ rest, NoTrivia ((caught.getD "*").toList ++ ')' :: rest) := by
  have hword : caught.getD "*" = "" ∨ IsWordTo (· = ')') (caught.getD "*") := by
    cases caught with
    | none => exact Or.inr (isWordTo_iff.mp rfl)
    | some type =>
        simp only [isCaught, Bool.and_eq_true, Bool.or_eq_true, decide_eq_true_eq,
          isWordTo_iff] at h
        exact h.2
  rcases hword with hword | hword
  · rw [hword]
    exact ⟨(fun _ hc => absurd hc List.not_mem_nil), (fun _ => noTrivia_cons rfl (by decide) _)⟩
  · exact ⟨hword.inWord, fun rest => hword.noTrivia (endsWord_cons rfl rest) ⟨rfl, rfl⟩⟩

theorem caughtWord_directive {caught : Option String} (h : isCaught .directive caught = true) :
    isSignature (caught.getD "*") = true := by
  cases caught with
  | none => rfl
  | some type => exact (Bool.and_eq_true_iff.mp h).2

theorem reads_tryClause {start stop handler : String} {caught : Option String}
    (hstart : isSignature start = true) (hstop : isSignature stop = true)
    (hhandler : isSignature handler = true) (hcaught : isCaught .keyword caught = true)
    {rest : List Char} (hrest : AtBlank rest) :
    (clauseAt .keyword p).Reads
      ("TRY".toList ++ ' ' :: (start.toList ++ ' ' :: (stop.toList ++ ' ' ::
        ("CATCH".toList
          ++ '(' :: ((caught.getD "*").toList ++ ')' :: ' ' :: (handler.toList ++ rest))))))
      (Gives (fun clause => ∃ position, clause = .tryCatch start stop handler caught position) p)
      rest := by
  obtain ⟨hin, hstarts⟩ := caughtWord_keyword hcaught
  refine reads_introduced Head.introduces_try ((atBlank_space _).endsWord _) rfl ?_
  intro mark
  refine (reads_wordOf hstart (BlanksTo.space _) (atBlank_space _)).bind ?_
  intro start' h₁
  refine (reads_wordOf hstop (BlanksTo.space _) (atBlank_space _)).bind ?_
  intro stop' h₂
  refine (reads_skipTrivia (BlanksTo.space _) (noTrivia_cons rfl (by decide) _)).bind fun _ _ => ?_
  refine (reads_expectKeyword_self (inWord_of_isPlainWord rfl fun _ => paren_of_isNameChar)
    (endsWord_cons rfl _)).bind fun _ _ => ?_
  refine (reads_expect '(' _).bind fun _ _ => ?_
  refine (reads_skipTrivia (BlanksTo.refl _) (hstarts _)).bind fun _ _ => ?_
  refine (reads_upTo hin (endsWord_cons rfl _)).bind ?_
  intro found h₃
  refine (reads_expect ')' _).bind fun _ _ => ?_
  refine (reads_wordOf hhandler (BlanksTo.space _) hrest).bind ?_
  intro handler' h₄
  refine reads_placed mark ?_ rest
  intro position
  rw [h₁, h₂, h₃, h₄, caughtType_getD hcaught]
  exact ⟨position, rfl⟩

theorem reads_catchClause {start stop handler : String} {caught : Option String}
    (hstart : isSignature start = true) (hstop : isSignature stop = true)
    (hhandler : isSignature handler = true) (hcaught : isCaught .directive caught = true)
    {rest : List Char} (hrest : AtBlank rest) :
    (clauseAt .directive p).Reads ("catch".toList ++ ' ' :: ((caught.getD "*").toList ++ ' ' ::
        (start.toList ++ ' ' :: (stop.toList ++ ' ' :: (handler.toList ++ rest)))))
      (Gives (fun clause => ∃ position, clause = .tryCatch start stop handler caught position) p)
      rest := by
  refine reads_introduced Head.introduces_catch ((atBlank_space _).endsWord _) rfl ?_
  intro mark
  refine (reads_wordOf (caughtWord_directive hcaught) (BlanksTo.space _) (atBlank_space _)).bind ?_
  intro found h₁
  refine (reads_wordOf hstart (BlanksTo.space _) (atBlank_space _)).bind ?_
  intro start' h₂
  refine (reads_wordOf hstop (BlanksTo.space _) (atBlank_space _)).bind ?_
  intro stop' h₃
  refine (reads_wordOf hhandler (BlanksTo.space _) hrest).bind ?_
  intro handler' h₄
  refine reads_placed mark ?_ rest
  intro position
  rw [h₁, h₂, h₃, h₄, caughtType_getD hcaught]
  exact ⟨position, rfl⟩

/-! ## Labels and instructions -/

/-- A word with a colon or a bracket in it is not reserved. -/
theorem not_mem_reservedWords {w : String} {c : Char} (hmem : c ∈ w.toList)
    (hc : c = ':' ∨ c = '(') :
    lowerCase w ∉ reservedWords := by
  intro hword
  have hlower : c ∈ (lowerCase w).toList := by
    rw [lowerCase, String.toList_ofList]
    refine List.mem_map.mpr ⟨c, hmem, ?_⟩
    rcases hc with rfl | rfl <;> decide
  have hnone : ∀ s ∈ reservedWords, ':' ∉ s.toList ∧ '(' ∉ s.toList := by decide
  rcases hc with rfl | rfl
  · exact (hnone _ hword).1 hlower
  · exact (hnone _ hword).2 hlower

theorem declaredLabel?_colon {name : String} (h : name ≠ "") :
    declaredLabel? (name ++ ":") = some name := by
  have hreverse : (name ++ ":").toList.reverse = ':' :: name.toList.reverse := by
    simp [String.toList_append]
  rw [declaredLabel?, hreverse]
  cases hname : name.toList.reverse with
  | nil => exact absurd (String.toList_eq_nil_iff.mp (List.reverse_eq_nil_iff.mp hname)) h
  | cons c cs =>
      show some (String.ofList (c :: cs).reverse) = some name
      rw [← hname, List.reverse_reverse, String.ofList_toList]

theorem declaredLabel?_plain {w : String} (h : isPlainWord w = true) : declaredLabel? w = none := by
  unfold declaredLabel?
  split
  · rename_i heq
    have hmem : ':' ∈ w.toList := List.mem_reverse.mp (heq ▸ List.mem_cons_self)
    exact absurd (isNameChar_of_mem h ':' hmem) (by decide)
  · rfl

theorem reads_labelClause {name : String} (hname : name ≠ "") (h : isSignature (name ++ ":") = true)
    (hdefined : p.defined = true) {rest : List Char} (hrest : AtBlank rest) :
    (clauseAt d p).Reads ((name ++ ":").toList ++ rest)
      (Gives (fun clause => ∃ position, clause = .label ⟨name, position⟩) p) rest := by
  have hw := (IsWordTo.of_isSignature h).inWord
  have hfree : lowerCase (name ++ ":") ∉ reservedWords :=
    not_mem_reservedWords (by simp [String.toList_append]) (Or.inl rfl)
  refine reads_wordClause hw (hrest.endsWord _) hfree hdefined ?_
  unfold wordClause
  refine (reads_get _).bind ?_
  intro mark _
  refine (reads_word hw (hrest.endsWord _)).bind fun _ _ => ?_
  rw [declaredLabel?_colon hname]
  refine reads_placed mark ?_ rest
  intro position
  exact ⟨position, rfl⟩

theorem reads_instructionClause {op : Opcode} {P : Operands → Prop} {tail after : List Char}
    (hdefined : p.defined = true) (htail : EndsWord (fun _ => false) tail)
    (hread : (operands d op).Reads tail P after) :
    (clauseAt d p).Reads ((d.word op.mnemonic).toList ++ tail)
      (Gives (fun clause => ∃ parts position, clause = .instruction op parts position ∧ P parts) p)
      after := by
  have hplain := op.isPlainWord_word d
  have hw := (isWord_of_isPlainWord hplain).inWord
  have hfree : lowerCase (d.word op.mnemonic) ∉ reservedWords := by
    rw [op.lowerCase_word d]
    exact op.mnemonic_not_mem
  refine reads_wordClause hw htail hfree hdefined ?_
  unfold wordClause
  refine (reads_get _).bind ?_
  intro mark _
  refine (reads_word hw htail).bind fun _ _ => ?_
  rw [declaredLabel?_plain hplain, op.ofMnemonic?_word d]
  refine hread.bind ?_
  intro parts hparts
  refine reads_placed mark ?_ after
  intro position
  exact ⟨parts, position, rfl, hparts⟩

end Scan

/-! ## Starts of lines -/

/-- Does the text start with a word? -/
def StartsLine (text : List Char) : Prop :=
  ∃ (w : String) (tail : List Char), text = w.toList ++ tail ∧ (tail = [] ∨ AtBlank tail)
    ∧ isSignature w = true

theorem endsWord_tail {tail rest : List Char} (htail : tail = [] ∨ AtBlank tail)
    (hrest : AtBlank rest) (stop : Char → Bool) : EndsWord stop (tail ++ rest) := by
  rcases htail with rfl | htail
  · exact hrest.endsWord stop
  · cases tail with
    | nil => cases htail
    | cons c cs =>
        have hblank : AtBlank (c :: (cs ++ rest)) := htail
        exact hblank.endsWord stop

theorem Head.Introduces.startsLine {d : Dialect} {w : String} {head : Head}
    (h : Head.Introduces d w head) {tail : List Char} (htail : tail = [] ∨ AtBlank tail) :
    StartsLine (w.toList ++ tail) :=
  ⟨w, tail, rfl, htail, isSignature_of_isPlainWord h.plain⟩

theorem Opcode.startsLine (d : Dialect) (op : Opcode) {tail : List Char}
    (htail : tail = [] ∨ AtBlank tail) : StartsLine ((d.word op.mnemonic).toList ++ tail) :=
  ⟨_, tail, rfl, htail, isSignature_of_isPlainWord (op.isPlainWord_word d)⟩

theorem StartsLine.noTrivia {text rest : List Char} (h : StartsLine text) (hrest : AtBlank rest) :
    NoTrivia (text ++ rest) := by
  obtain ⟨w, tail, rfl, htail, hw⟩ := h
  rw [List.append_assoc]
  exact (IsWordTo.of_isSignature hw).noTrivia (endsWord_tail htail hrest _) ⟨rfl, rfl⟩

theorem StartsLine.ne_nil {text : List Char} (h : StartsLine text) : text ≠ [] := by
  obtain ⟨w, tail, rfl, -, hw⟩ := h
  have hne := (isSignature_iff.mp hw).1
  simp [hne]

/-- The first word of a text does not go on into a blank after it. -/
theorem take_wordLength_append (stop : Char → Bool) (cs : List Char) {rest : List Char}
    (hrest : AtBlank rest) :
    (cs ++ rest).take (wordLength stop (cs ++ rest)) = cs.take (wordLength stop cs) := by
  have htake : ∀ xs : List Char, xs.take (wordLength stop xs)
      = xs.takeWhile fun c => !isBlank c && !stop c :=
    fun xs => (List.prefix_iff_eq_take.mp (List.takeWhile_prefix _)).symm
  have hnone : rest.takeWhile (fun c => !isBlank c && !stop c) = [] := by
    cases rest with
    | nil => rfl
    | cons c rest =>
        have hblank : isBlank c = true := hrest
        exact List.takeWhile_cons_of_neg (by simp [hblank])
  rw [htake, htake, List.takeWhile_append, hnone, List.append_nil]
  split
  · rename_i hlength
    rw [(List.takeWhile_prefix _).eq_of_length hlength]
  · rfl

theorem Scan.keywordOf_append (cs : List Char) {rest : List Char} (hrest : AtBlank rest) :
    keywordOf (cs ++ rest) = keywordOf cs :=
  congrArg String.ofList (take_wordLength_append _ cs hrest)

/-- Is the first word of a line `itf`? -/
def Statement.opensMark (d : Dialect) (st : Statement) : Bool :=
  sameFolded (Scan.keywordOf (st.text d).toList) "itf"

/-- A text that starts with another word. -/
theorem keywordOf_ne_mark {w : String} {tail : List Char} (htail : tail = [] ∨ AtBlank tail)
    (hw : InWord (· = '(') w.toList) (hne : lowerCase w ≠ "itf") :
    sameFolded (Scan.keywordOf (w.toList ++ tail)) "itf" = false := by
  have hends : EndsWord (· = '(') tail := by
    rcases htail with rfl | htail
    · rfl
    · exact htail.endsWord _
  rw [Scan.keywordOf, wordLength_append hw hends, List.take_left, String.ofList_toList,
    Bool.eq_false_iff]
  exact fun hfold => hne (sameFolded_iff.mp hfold)

/-! ## Statements -/

/-- The clause adds the statement to the body of a listing, up to positions. -/
def Enters (st : Statement) (clause : Clause) : Prop :=
  ∀ (source : List Char) (draft : Draft), draft.definition.isSome = true →
    ∃ e : Entry, e.value.unplaced = st.unplaced ∧ draft.add source clause
      = .ok { draft with joining := false, code := draft.code ++ [e] }

/-- Is it a call without the word `itf`? -/
def Statement.isOpenCall : Statement → Bool
  | .operation o => o.isOpenCall
  | _ => false

/-- The line of the statement is read as a clause that enters it. -/
structure StatementRead (d : Dialect) (st : Statement) : Prop where
  starts : StartsLine (st.text d).toList
  reads : ∀ (p : Scan.Progress) (rest : List Char), p.defined = true → EndsLine st.isOpenCall rest →
    (Scan.clauseAt d p).Reads ((st.text d).toList ++ rest) (Scan.Gives (Enters st) p) rest

namespace StatementRead

variable {d : Dialect}

/-- A statement whose text starts with a word. -/
theorem of_word {st : Statement} {w : String} {tail : List Char}
    (htext : (st.text d).toList = w.toList ++ tail) (hstarts : StartsLine (w.toList ++ tail))
    (hreads : ∀ (p : Scan.Progress) (rest : List Char), p.defined = true →
      EndsLine st.isOpenCall rest →
      (Scan.clauseAt d p).Reads (w.toList ++ (tail ++ rest)) (Scan.Gives (Enters st) p) rest) :
    StatementRead d st := by
  refine ⟨htext ▸ hstarts, ?_⟩
  intro p rest hdefined hrest
  rw [htext, List.append_assoc]
  exact hreads p rest hdefined hrest

theorem operation {o : Operation} {op : Opcode} (h : OperandsRead d op o) :
    StatementRead d (.operation o) := by
  obtain ⟨tail, htext, htail, hread⟩ := h
  refine of_word htext (op.startsLine d htail) ?_
  intro p rest hdefined hrest
  refine (Scan.reads_instructionClause hdefined (endsWord_tail htail hrest.blank _)
    (hread rest hrest)).mono ?_
  rintro ⟨_, _⟩ ⟨⟨parts, position, rfl, hparts⟩, rfl⟩
  refine ⟨fun source draft _ => ⟨⟨_, position⟩, rfl, ?_⟩, rfl⟩
  show (parts.toOperation op position >>= _) = _
  rw [hparts position]
  rfl

theorem line {label : String} {n : Nat} (hlabel : isSignature label = true) (hn : n ≤ 2147483647) :
    StatementRead d (.operation (.line label n)) := by
  have htext : ((Statement.operation (.line label n)).text d).toList
      = (d.word "line").toList ++ ' ' :: (label.toList ++ ' ' :: (toString n).toList) := by
    simp [Statement.text, Operation.text, String.toList_append]
  have hw : Head.Introduces d (d.word "line") .line := Head.introduces_word d (by simp [Head.words])
  refine of_word htext (hw.startsLine (Or.inr rfl)) ?_
  intro p rest _ hrest
  simp only [List.append_assoc, List.cons_append]
  refine (Scan.reads_lineClause hlabel hn hrest.blank).mono ?_
  rintro ⟨_, _⟩ ⟨⟨raw, position, rfl, hraw⟩, rfl⟩
  refine ⟨fun source draft _ => ⟨⟨_, position⟩, rfl, ?_⟩, rfl⟩
  show (lineMarker label raw >>= _) = _
  rw [hraw]
  rfl

theorem label {name : String} (hname : name ≠ "") (h : isSignature (name ++ ":") = true) :
    StatementRead d (.label name) := by
  refine ⟨⟨name ++ ":", [], (List.append_nil _).symm, Or.inl rfl, h⟩,
    fun p rest hdefined hrest => ?_⟩
  refine (Scan.reads_labelClause hname h hdefined hrest.blank).mono ?_
  rintro ⟨_, _⟩ ⟨⟨position, rfl⟩, rfl⟩
  exact ⟨fun source draft _ => ⟨⟨_, position⟩, rfl, rfl⟩, rfl⟩

theorem tryCatch {start stop handler : String} {caught : Option String}
    (hstart : isSignature start = true) (hstop : isSignature stop = true)
    (hhandler : isSignature handler = true) (hcaught : isCaught d caught = true) :
    StatementRead d (.tryCatch start stop handler caught) := by
  have hadds : ∀ r : Clause × Scan.Progress, ∀ p, Scan.Gives
      (fun clause => ∃ position, clause = .tryCatch start stop handler caught position) p r →
      Scan.Gives (Enters (.tryCatch start stop handler caught)) p r := by
    rintro ⟨_, _⟩ p ⟨⟨position, rfl⟩, rfl⟩
    exact ⟨fun source draft _ => ⟨⟨_, position⟩, rfl, rfl⟩, rfl⟩
  cases d with
  | keyword =>
      have htext : ((Statement.tryCatch start stop handler caught).text .keyword).toList
          = "TRY".toList ++ ' ' :: (start.toList ++ ' ' :: (stop.toList ++ ' ' :: ("CATCH".toList
            ++ '(' :: ((caught.getD "*").toList ++ ')' :: ' ' :: handler.toList)))) := by
        simp [Statement.text, String.toList_append]
      refine of_word htext (Head.introduces_try.startsLine (Or.inr rfl)) ?_
      intro p rest _ hrest
      simp only [List.append_assoc, List.cons_append]
      exact (Scan.reads_tryClause hstart hstop hhandler hcaught hrest.blank).mono (hadds · p)
  | directive =>
      have htext : ((Statement.tryCatch start stop handler caught).text .directive).toList
          = "catch".toList ++ ' ' :: ((caught.getD "*").toList ++ ' ' :: (start.toList ++ ' ' ::
            (stop.toList ++ ' ' :: handler.toList))) := by
        simp [Statement.text, String.toList_append]
      refine of_word htext (Head.introduces_catch.startsLine (Or.inr rfl)) ?_
      intro p rest _ hrest
      simp only [List.append_assoc, List.cons_append]
      exact (Scan.reads_catchClause hstart hstop hhandler hcaught hrest.blank).mono (hadds · p)

theorem throws {type : String} (h : isSignature type = true) : StatementRead d (.throws type) := by
  have htext : ((Statement.throws type).text d).toList
      = (d.word "throws").toList ++ ' ' :: type.toList := by
    simp [Statement.text, String.toList_append]
  have hw : Head.Introduces d (d.word "throws") .throws :=
    Head.introduces_word d (by simp [Head.words])
  refine of_word htext (hw.startsLine (Or.inr rfl)) ?_
  intro p rest _ hrest
  refine (Scan.reads_throwsClause h hrest.blank).mono ?_
  rintro ⟨_, _⟩ ⟨⟨position, rfl⟩, rfl⟩
  refine ⟨fun source draft hdefined => ⟨⟨_, position⟩, rfl, ?_⟩, rfl⟩
  obtain ⟨definition, hdefinition⟩ := Option.isSome_iff_exists.mp hdefined
  simp [Draft.add, Draft.addRecognized, Draft.push, hdefinition]

theorem signature {s : String} (h : isSignature s = true) : StatementRead d (.signature s) := by
  have htext : ((Statement.signature s).text d).toList
      = (d.word "signature").toList ++ ' ' :: s.toList := by
    simp [Statement.text, String.toList_append]
  have hw : Head.Introduces d (d.word "signature") .signature :=
    Head.introduces_word d (by simp [Head.words])
  refine of_word htext (hw.startsLine (Or.inr rfl)) ?_
  intro p rest _ hrest
  refine (Scan.reads_signatureClause h hrest.blank).mono ?_
  rintro ⟨_, _⟩ ⟨⟨position, rfl⟩, rfl⟩
  refine ⟨fun source draft hdefined => ⟨⟨_, position⟩, rfl, ?_⟩, rfl⟩
  obtain ⟨definition, hdefinition⟩ := Option.isSome_iff_exists.mp hdefined
  simp [Draft.add, Draft.addRecognized, Draft.push, hdefinition]

theorem value (l : Literal) : StatementRead d (.value l) := by
  have htext : ((Statement.value l).text d).toList
      = (d.word "value").toList ++ ' ' :: l.text.toList := by
    simp [Statement.text, String.toList_append]
  have hw : Head.Introduces d (d.word "value") .value :=
    Head.introduces_word d (by simp [Head.words])
  refine of_word htext (hw.startsLine (Or.inr rfl)) ?_
  intro p rest _ hrest
  refine (Scan.reads_valueClause l hrest.blank).mono ?_
  rintro ⟨_, _⟩ ⟨⟨raw, rfl, hraw⟩, rfl⟩
  refine ⟨fun source draft hdefined => ⟨⟨_, raw.position⟩, rfl, ?_⟩, rfl⟩
  obtain ⟨definition, hdefinition⟩ := Option.isSome_iff_exists.mp hdefined
  simp [Draft.add, Draft.addRecognized, Draft.push, hdefinition, locatedLiteralOf, hraw, bind,
    Except.bind, pure, Except.pure]

/-- An operation with operands that can stand after its mnemonic. -/
theorem of_operation {o : Operation} (h : o.isSpelled d = true) (hdivided : o.isDivided = true) :
    StatementRead d (.operation o) := by
  cases hop : o.opcode? with
  | some op => exact operation (Scan.operandsRead_of_isSpelled hop h hdivided)
  | none =>
      cases o <;> cases hop
      simp only [Operation.isSpelled, Bool.and_eq_true, decide_eq_true_eq] at h
      exact line h.1 h.2

theorem isSignature_label {name : String} (h : isPlainWord name = true) :
    isSignature (name ++ ":") = true := by
  refine IsWord.isSignature ⟨fun c hc => ?_, ?_⟩
  · rw [String.toList_append] at hc
    rcases List.mem_append.mp hc with hc | hc
    · exact (isWord_of_isPlainWord h).inWord c hc
    · obtain rfl := List.mem_singleton.mp hc
      exact ⟨rfl, rfl⟩
  · rw [String.toList_append]
    exact (opens_of_isPlainWord h ')' rfl).append _

/-- Every plain statement that is not ambiguous is read back. -/
theorem of_isPlain {st : Statement} (h : st.isPlain = true)
    (hclear : d = .directive → st.targetsDefault = false) : StatementRead d st := by
  cases st <;> simp only [Statement.isPlain, Bool.and_eq_true, Bool.false_eq_true] at h
  case operation o =>
      exact of_operation (Operation.isSpelled_of_isPlain h hclear)
        (Operation.isDivided_of_isPlain h)
  case label => exact label (ne_empty_of_isPlainWord h) (isSignature_label h)
  case tryCatch =>
      exact tryCatch (isSignature_of_isPlainWord h.1.1.1) (isSignature_of_isPlainWord h.1.1.2)
        (isSignature_of_isPlainWord h.1.2) (isCaught_of_isPlain h.2 d)
  case throws => exact throws (isSignature_of_isPlainWord h)
  case signature => exact signature h
  case value l => exact value l

end StatementRead

/-- The text of an operation starts with its mnemonic. -/
theorem Operation.exists_tail (d : Dialect) {o : Operation} {op : Opcode}
    (hop : o.opcode? = some op) :
    ∃ tail, (o.text d).toList = (d.word op.mnemonic).toList ++ tail
      ∧ (tail = [] ∨ AtBlank tail) := by
  cases o <;> cases hop
  case plain => exact ⟨[], (List.append_nil _).symm, Or.inl rfl⟩
  case lookupSwitch cases default =>
      refine ⟨_, String.toList_append, Or.inr ?_⟩
      cases d with
      | keyword =>
          simp only [String.toList_append, List.append_assoc]
          rfl
      | directive => cases cases <;> simp [spaced, AtBlank, String.toList_append] <;> rfl
  case tableSwitch =>
      refine ⟨_, String.toList_append, Or.inr ?_⟩
      cases d <;> simp only [String.toList_append, List.append_assoc] <;> rfl
  all_goals
    refine ⟨?_, ?_, Or.inr ?_⟩
    rotate_left
    · simp only [Operation.text, String.toList_append, List.append_assoc]
      rfl
    · rfl

/-- No plain statement starts with the word `itf`. -/
theorem Statement.opensMark_of_isPlain (d : Dialect) {st : Statement} (h : st.isPlain = true) :
    st.opensMark d = false := by
  have hword : ∀ {w : String} {tail : List Char}, isPlainWord w = true → lowerCase w ≠ "itf" →
      (st.text d).toList = w.toList ++ tail → (tail = [] ∨ AtBlank tail) →
        st.opensMark d = false := by
    intro w tail hw hne htext htail
    rw [opensMark, htext]
    exact keywordOf_ne_mark htail (inWord_of_isPlainWord hw fun _ => paren_of_isNameChar) hne
  have hhead : ∀ {w : String} {head : Head} {tail : List Char}, Head.Introduces d w head →
      (st.text d).toList = w.toList ++ ' ' :: tail → st.opensMark d = false :=
    fun hw htext => hword hw.plain (Head.ne_of_ofWord? hw.found).2.2.2 htext (Or.inr rfl)
  have hshared : ∀ {w : String} {head : Head} {tail : List Char}, (w, head) ∈ Head.words →
      (st.text d).toList = (d.word w).toList ++ ' ' :: tail → st.opensMark d = false :=
    fun hw htext => hhead (Head.introduces_word d hw) htext
  cases st <;> simp only [isPlain, Bool.and_eq_true, Bool.false_eq_true] at h
  case operation o =>
      cases hop : o.opcode? with
      | some op =>
          have hmnemonic : lowerCase (d.word op.mnemonic) ≠ "itf" := by
            rw [op.lowerCase_word d]
            exact fun heq => op.mnemonic_not_mem (heq ▸ by decide)
          obtain ⟨tail, htext, htail⟩ := o.exists_tail d hop
          exact hword (op.isPlainWord_word d) hmnemonic htext htail
      | none =>
          cases o <;> cases hop
          apply hshared (show ("line", Head.line) ∈ Head.words by simp [Head.words])
          simp only [text, Operation.text, String.toList_append, List.append_assoc]
          rfl
  case label name =>
      have hcolon : ':' ∈ (name ++ ":").toList := by simp [String.toList_append]
      have hfree := Scan.not_mem_reservedWords hcolon (Or.inl rfl)
      rw [opensMark]
      refine (List.append_nil (name ++ ":").toList) ▸ keywordOf_ne_mark (Or.inl rfl) ?_
        fun heq => hfree (heq ▸ by decide)
      intro c hc
      rw [String.toList_append] at hc
      rcases List.mem_append.mp hc with hc | hc
      · exact inWord_of_isPlainWord h (fun _ => paren_of_isNameChar) c hc
      · obtain rfl := List.mem_singleton.mp hc
        exact ⟨rfl, rfl⟩
  case tryCatch =>
      cases d with
      | keyword =>
          apply hhead Head.introduces_try
          simp only [text, String.toList_append, List.append_assoc]
          rfl
      | directive =>
          apply hhead Head.introduces_catch
          simp only [text, String.toList_append, List.append_assoc]
          rfl
  case throws =>
      apply hshared (show ("throws", Head.throws) ∈ Head.words by simp [Head.words])
      simp only [text, String.toList_append, List.append_assoc]
      rfl
  case signature =>
      apply hshared (show ("signature", Head.signature) ∈ Head.words by simp [Head.words])
      simp only [text, String.toList_append, List.append_assoc]
      rfl
  case value =>
      apply hshared (show ("value", Head.value) ∈ Head.words by simp [Head.words])
      simp only [text, String.toList_append, List.append_assoc]
      rfl

/-- A statement that is ambiguous is read as a table switch without a meaning. -/
theorem Statement.reads_of_targetsDefault {st : Statement} (h : st.isPlain = true)
    (hdefault : st.targetsDefault = true) : StartsLine (st.text .directive).toList
      ∧ ∀ (p : Scan.Progress) (rest : List Char), p.defined = true → AtBlank rest → ∃ after,
        (Scan.clauseAt .directive p).Reads ((st.text .directive).toList ++ rest)
          (fun r => ∀ (source : List Char) (draft : Draft), ∃ e, draft.add source r.1 = .error e)
          after := by
  obtain ⟨min, max, labels, default, rfl⟩ :
      ∃ min max labels default, st = .operation (.tableSwitch min max labels default) := by
    unfold targetsDefault at hdefault
    split at hdefault
    · exact ⟨_, _, _, _, rfl⟩
    · cases hdefault
  simp only [isPlain, Operation.isPlain, Bool.and_eq_true, decide_eq_true_eq, List.all_eq_true] at h
  obtain ⟨tail, htext, htail, hreads⟩ :=
    Scan.operands_tableSwitch_ambiguous default h.1.1.1 h.1.2 hdefault
  rw [text, htext]
  refine ⟨Opcode.startsLine .directive .tableswitch (Or.inr htail), ?_⟩
  intro p rest hdefined hrest
  obtain ⟨after, hread⟩ := hreads rest hrest
  refine ⟨after, ?_⟩
  rw [List.append_assoc]
  refine (Scan.reads_instructionClause hdefined (endsWord_tail (Or.inr htail) hrest _)
    hread).mono ?_
  rintro ⟨_, _⟩ ⟨⟨parts, position, rfl, hparts⟩, rfl⟩ source draft
  obtain ⟨e, he⟩ := hparts position
  refine ⟨e, ?_⟩
  show (parts.toOperation .tableswitch position >>= _) = _
  rw [he]
  rfl

end JvmListing
