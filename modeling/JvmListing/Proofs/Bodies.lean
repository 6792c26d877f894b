/-
# Bodies with loose text

The body of a listing that was read from a text also has annotations, comments, embedded
expressions and unmatched words.  Each of its entries is given back by its own line, if
nothing in the line is taken for something else:

* a comment has to end with its line, and a call has to have a method's descriptor
  (`Statement.isClosed`);
* an entry may not go on into the next one: two runs of unmatched words are read as one,
  and a call takes the word `itf` from the next line (`Statement.runsInto`);
* unmatched words inside a body of the directive dialect may not close it
  (`Statement.holdsEnd`).

Unmatched words are joined by their places in the source, which `Joining` keeps track of.
-/
import Mathlib.Data.List.Chain
import JvmListing.Proofs.AnnotatedListings
import JvmListing.Proofs.LooseText

namespace JvmListing

open Lexeme

/-! ## Statements -/

/-- Does the entry end where its line does? -/
def Statement.isClosed : Statement → Bool
  | .operation o => o.isDivided
  | .comment text => commentLength? (text.toList ++ ['\n']) = some text.toList.length
  | _ => true

/-- Does the entry go on into the one on the next line? -/
def Statement.runsInto (d : Dialect) (st next : Statement) : Bool :=
  st.isOpenCall && next.opensMark d || st.unmatched?.isSome && next.unmatched?.isSome

/-- Does unmatched text have the word `end` in it? -/
def Statement.holdsEnd (st : Statement) : Bool :=
  st.unmatched?.any fun text => (upToWord? "end" (text.toList.length + 1) text.toList).isSome

/-! ## Annotations and expressions -/

namespace StatementRead

variable {d : Dialect}

theorem annot {a : Annot} (h : a.isSpelled d = true) : StatementRead d (.annot a) := by
  refine ⟨a.startsLine_text d, fun p rest _ hrest => ?_⟩
  refine (Scan.reads_annotClause h hrest.blank).mono ?_
  rintro ⟨_, _⟩ ⟨⟨raw, a', rfl, hraw, ha'⟩, rfl⟩
  refine ⟨fun source draft hdefined => ⟨⟨.annot a', a'.position⟩, ?_, ?_⟩, rfl⟩
  · exact congrArg Statement.annot ha'
  · obtain ⟨definition, hdefinition⟩ := Option.isSome_iff_exists.mp hdefined
    show (raw.toAnnot >>= _) = _
    rw [hraw]
    simp [hdefinition, Draft.push, bind, Except.bind, pure, Except.pure]

end StatementRead

/-- The text of an expression up to its closing word. -/
theorem Scan.reads_textUpToWord {closing w code : String} (hfolded : sameFolded w closing = true)
    (hw : StandsAlone w) (hcode : code = "" ∨ WordsOf (Passes closing) code.toList)
    {rest : List Char} (hrest : AtBlank rest) :
    (textUpToWord closing).Reads (' ' :: (code.toList ++ ' ' :: (w.toList ++ rest)))
      (· = code) rest := by
  have hspace : AllBlank [' '] := List.forall_mem_singleton.mpr rfl
  have hclosing : ∀ {blanks : List Char} {fuel : Nat}, AllBlank blanks → 0 < fuel →
      upToWord? closing fuel (blanks ++ (w.toList ++ rest))
        = some (blanks.length, blanks.length + w.toList.length) := by
    intro blanks fuel hblanks hfuel
    obtain ⟨fuel, rfl⟩ : ∃ n, fuel = n + 1 := Nat.exists_eq_succ_of_ne_zero (by omega)
    rw [upToWord?_word hw hblanks (hrest.endsWord _), if_pos hfolded]
  -- the text before the closing word and what is trimmed off it
  have htext : (' ' :: (code.toList ++ ' ' :: (w.toList ++ rest)))
      = ([' '] ++ (code.toList ++ [' '])) ++ (w.toList ++ rest) := by simp
  have hfound : upToWord? closing ((' ' :: (code.toList ++ ' ' :: (w.toList ++ rest))).length + 1)
      (' ' :: (code.toList ++ ' ' :: (w.toList ++ rest)))
        = some (([' '] ++ (code.toList ++ [' '])).length,
          ([' '] ++ (code.toList ++ [' '])).length + w.toList.length) := by
    rcases hcode with rfl | hcode
    · exact hclosing (hspace.append hspace) (by simp)
    · have hfuel : code.toList.length
          < (' ' :: (code.toList ++ ' ' :: (w.toList ++ rest))).length + 1 := by
        simp only [List.length_cons, List.length_append]
        omega
      obtain ⟨more, hmore, heq⟩ :=
        upToWord?_append hcode (atBlank_space (w.toList ++ rest)) hspace hfuel
      have hlast : upToWord? closing more (' ' :: (w.toList ++ rest))
          = some (1, 1 + w.toList.length) :=
        hclosing hspace hmore
      refine heq.trans ?_
      rw [hlast]
      simp only [Option.map_some, List.length_append, List.length_cons, List.length_nil]
      congr 1
      simp only [Prod.mk.injEq]
      omega
  have htrim : trimBlanks ([' '] ++ (code.toList ++ [' '])) = code.toList := by
    refine trimBlanks_append hspace hspace ?_
    rcases hcode with rfl | hcode
    · exact Or.inl rfl
    · exact Or.inr (hcode.imp fun _ h => h.alone)
  have hpassed : (take (([' '] ++ (code.toList ++ [' '])).length + w.toList.length)).Reads
      (([' '] ++ (code.toList ++ [' '])) ++ (w.toList ++ rest)) (fun _ => True) rest := by
    generalize [' '] ++ (code.toList ++ [' ']) = before
    rw [← List.length_append, ← List.append_assoc]
    exact (reads_take _ rest).mono fun _ _ => trivial
  unfold textUpToWord
  refine (reads_get _).bind ?_
  intro mark hmark
  rw [hmark, hfound, htext]
  refine hpassed.bind fun _ _ => ?_
  refine Reads.pure ?_ rest
  rw [List.take_left, htrim, String.ofList_toList]

namespace StatementRead

variable {d : Dialect}

theorem expression {code : String}
    (h : code = "" ∨ WordsOf (Passes (Scan.expressionEnd d)) code.toList) :
    StatementRead d (.expression code) := by
  have htext : ((Statement.expression code).text d).toList = (d.word "expr").toList
      ++ ' ' :: (code.toList ++ ' ' :: (d.word "end").toList) := by
    simp [Statement.text, String.toList_append]
  have hw : Head.Introduces d (d.word "expr") .expression :=
    Head.introduces_word d (by simp [Head.words])
  have hfolded : sameFolded (d.word "end") (Scan.expressionEnd d) = true := by cases d <;> decide
  have halone : StandsAlone (d.word "end") := by
    refine .of_isSignature ?_
    cases d <;> decide
  refine of_word htext (hw.startsLine (Or.inr rfl)) ?_
  intro p rest _ hrest
  simp only [List.append_assoc, List.cons_append]
  refine (Scan.reads_introduced
    (P := fun clause => ∃ position, clause = .expression ⟨code, position⟩)
    hw ((atBlank_space _).endsWord _) rfl ?_).mono ?_
  · intro mark
    refine (Scan.reads_textUpToWord hfolded halone h hrest.blank).bind ?_
    intro found hfound
    refine Scan.reads_placed mark ?_ rest
    intro position
    rw [hfound]
    exact ⟨position, rfl⟩
  · rintro ⟨_, _⟩ ⟨⟨position, rfl⟩, rfl⟩
    exact ⟨fun source draft _ => ⟨⟨_, position⟩, rfl, rfl⟩, rfl⟩

/-- A spelled statement with a line that is one construct. -/
theorem of_spelled {st : Statement} (h : st.Spelled d) (hclosed : st.isClosed = true)
    (hcomment : ∀ text, st ≠ .comment text) (hunmatched : st.unmatched? = none) :
    StatementRead d st := by
  cases st with
  | operation o => exact of_operation h hclosed
  | label name => exact label h.1 h.2
  | tryCatch start stop handler caught => exact tryCatch h.1 h.2.1 h.2.2.1 h.2.2.2
  | throws type => exact throws h
  | signature s => exact signature h
  | value l => exact value l
  | annot a => exact annot h
  | comment text => exact absurd rfl (hcomment text)
  | unmatched text => cases hunmatched
  | expression code => exact expression h

end StatementRead

/-! ## Comments -/

theorem head_of_commentLength? {cs : List Char} {n : Nat} (h : commentLength? cs = some n) :
    cs.head?.any isBlank = false := by
  unfold commentLength? at h
  split at h
  · rfl
  · rfl
  · cases h

section Leads

variable {d : Dialect} {source : List Char} {Q : ReadResult Draft → Prop}
  {D : Option Definition → Prop} {inBody : Bool} {sts : List Statement}

theorem leads_comment {text : String} {rest : List Char}
    (hclosed : (Statement.comment text).isClosed = true)
    (hlead : Leads d source (Entered D (sts ++ [.comment text]) inBody) rest Q) :
    Leads d source (Entered D sts inBody) (text.toList ++ '\n' :: rest) Q := by
  have hclosed : commentLength? (text.toList ++ ['\n']) = some text.toList.length :=
    of_decide_eq_true hclosed
  have hcomment := commentLength?_append hclosed rest
  have hblank := head_of_commentLength? hcomment
  intro fuel p draft c hS hc hp hgap hfuel
  obtain ⟨fuel, rfl⟩ : ∃ n, fuel = n + 1 := Nat.exists_eq_succ_of_ne_zero (by omega)
  have hrest := Scan.rest_skipBlanks hgap hblank
  have hon := hc.advance (blanksLength c.rest)
  generalize hc' : c.advance (blanksLength c.rest) = c' at hrest hon
  have hstep :=
    Scan.clausesIn_comment d fuel p hc' (n := text.toList.length) (by rw [hrest]; exact hcomment)
  have hafter : (c'.advance text.toList.length).rest = '\n' :: rest := by
    rw [Cursor.rest_advance, hrest, List.drop_left]
  have hlength := hgap.length_le
  have hpos := two_le_commentLength hcomment
  rw [hrest, List.take_left, String.ofList_toList] at hstep
  generalize c'.span (c'.advance text.toList.length) = position at hstep
  have hcontinue : continueWith d source (fuel + 1) p draft c
      = continueWith d source fuel p
        { draft with joining := false, code := draft.code ++ [⟨.comment text, position⟩] }
        (c'.advance text.toList.length) := by
    rw [continueWith, hstep, continueWith]
    cases Scan.clausesIn d fuel p (c'.advance text.toList.length) <;> rfl
  rw [hcontinue]
  refine hlead fuel p _ _ ⟨hS.defined, hS.openMethod, hS.isSome, hS.definition, ?_⟩
    (hon.advance _) hp
    (hafter ▸ Scan.BlanksTo.newline rest) ?_
  · rw [List.map_append, List.map_append, hS.code]
    rfl
  · rw [hafter]
    simp only [List.length_append, List.length_cons] at hlength ⊢
    omega

/-! ## Unmatched words -/

/-- A stray word is kept, with its place. -/
theorem Scan.clauseAt_stray {w : String} (hw : IsStray d w) {p : Progress} (hp : p.defined = true)
    (hend : p.openMethod.isSome = true → sameFolded w "end" = false) {c : Cursor} {rest : List Char}
    (hc : c.rest = w.toList ++ rest) (hrest : EndsWord (fun _ => false) rest) :
    clauseAt d p c = .ok ((.unmatched ⟨w, c.span (c.advance w.toList.length)⟩, p),
      c.advance w.toList.length) := by
  have hin := hw.alone.inWord
  have hpeek : peekWord c = .ok (w, c) := by
    rw [peekWord_eq, Cursor.headWord, hc, wordLength_append hin hrest, List.take_left,
      String.ofList_toList]
  have hword : wordClause d w c
      = .ok (.unmatched ⟨w, c.span (c.advance w.toList.length)⟩, c.advance w.toList.length) := by
    unfold wordClause
    have htake : word c = .ok (w, c.advance w.toList.length) := by
      show Except.ok (String.ofList (c.rest.take (wordLength (fun _ => false) c.rest)),
        c.advance (wordLength (fun _ => false) c.rest)) = _
      rw [hc, wordLength_append hin hrest, List.take_left, String.ofList_toList]
    rw [hw.label, hw.mnemonic, run_bind (a := c) (b := c) rfl, run_bind htake]
    rfl
  cases d with
  | keyword =>
      show keywordClause p c = _
      rw [keywordClause, run_bind hpeek, hw.head, hp]
      exact (run_bind (a := none) (b := c) rfl).trans (run_bind hword)
  | directive =>
      have hnone : (lowerCase w = "end" && p.openMethod.isSome) = false := by
        cases hopen : p.openMethod.isSome with
        | false => exact Bool.and_false _
        | true =>
            rw [Bool.and_true, decide_eq_false_iff_not]
            intro heq
            have hfolded := hend hopen
            rw [Bool.eq_false_iff] at hfolded
            exact hfolded (sameFolded_iff.mpr heq)
      show directiveClause p c = _
      rw [directiveClause, run_bind (a := c) (b := c) rfl, run_bind hpeek, hw.head, hp, hnone]
      simp only [Bool.not_true, Bool.and_false, Bool.false_eq_true, if_false]
      exact run_bind hword

/-- The last entry is unmatched text that the next unmatched word joins: it is `seen`, and what
comes before it in the source is `pre`. -/
structure Joining (D : Option Definition → Prop) (sts : List Statement) (inBody : Bool)
    (pre seen : List Char) (p : Scan.Progress) (draft : Draft) : Prop where
  defined : p.defined = true
  openMethod : p.openMethod.isSome = inBody
  isSome : draft.definition.isSome = true
  definition : D draft.definition
  joining : draft.joining = true
  code : ∃ (before : Code) (position : Position),
    draft.code = before ++ [⟨.unmatched (String.ofList seen), position⟩]
      ∧ before.map (·.value.unplaced) = sts.map Statement.unplaced
      ∧ position.start = pre.length ∧ position.stop = (pre ++ seen).length

theorem Joining.entered {pre seen : List Char} {p : Scan.Progress} {draft : Draft}
    (h : Joining D sts inBody pre seen p draft) :
    Entered D (sts ++ [.unmatched (String.ofList seen)]) inBody p draft := by
  obtain ⟨before, position, hcode, hbefore, -, -⟩ := h.code
  refine ⟨h.defined, h.openMethod, h.isSome, h.definition, ?_⟩
  rw [hcode, List.map_append, List.map_append, hbefore]
  rfl

/-- A stray word that can be kept where a body may be open. -/
structure IsKept (d : Dialect) (inBody : Bool) (w : String) : Prop where
  stray : IsStray d w
  notEnd : inBody = true → sameFolded w "end" = false

/-- One stray word, wherever it stands in the source. -/
theorem leads_stray {S S' : Scan.Progress → Draft → Prop} {w : String} (hw : IsKept d inBody w)
    {pre after : List Char} (hsource : source = pre ++ (w.toList ++ after)) (hafter : AtBlank after)
    (hS : ∀ p draft, S p draft → p.defined = true ∧ p.openMethod.isSome = inBody)
    (hadd : ∀ p draft (position : Position), S p draft → position.start = pre.length →
      position.stop = (pre ++ w.toList).length → S' p (draft.addUnmatched source ⟨w, position⟩))
    (hlead : Leads d source S' after Q) : Leads d source S (w.toList ++ after) Q := by
  have hpos := hw.stray.alone.length_pos
  have htrivia :=
    (IsWordTo.of_isSignature hw.stray.signature).noTrivia (hafter.endsWord _) ⟨rfl, rfl⟩
  refine Leads.stepAt htrivia ?_ (fun p draft hstate c hc hrest => ?_)
    (Scan.BlanksTo.refl after) ?_ hlead
  · exact fun hnil => by simp [(List.append_eq_nil_iff.mp hnil).1] at hpos
  · obtain ⟨hdefined, hopen⟩ := hS p draft hstate
    have hoffset := hc.offset_eq hsource hrest
    refine ⟨_, _, Scan.clauseAt_stray hw.stray hdefined (fun h => hw.notEnd (hopen ▸ h)) hrest
      (hafter.endsWord _), ⟨_, rfl, hadd p draft _ hstate hoffset ?_⟩, ?_⟩
    · show (c.advance w.toList.length).offset = _
      rw [Cursor.offset_advance_word hrest, hoffset, List.length_append]
    · rw [Cursor.rest_advance, hrest, List.drop_left]
  · rw [List.length_append]
    omega

/-- The first of the words is an entry of its own. -/
theorem leads_firstStray {w : String} (hw : IsKept d inBody w) {pre after : List Char}
    (hsource : source = pre ++ (w.toList ++ after)) (hafter : AtBlank after)
    (hlast : ∀ st ∈ sts.getLast?, st.unmatched? = none)
    (hlead : Leads d source (Joining D sts inBody pre w.toList) after Q) :
    Leads d source (Entered D sts inBody) (w.toList ++ after) Q := by
  refine leads_stray hw hsource hafter (fun p draft hS => ⟨hS.defined, hS.openMethod⟩) ?_ hlead
  intro p draft position hS hstart hstop
  have hpush : draft.addUnmatched source ⟨w, position⟩
      = { draft.push (.unmatched w) position with joining := true } := by
    unfold Draft.addUnmatched
    split
    · rename_i hcode
      -- the last entry says what the last statement says
      have hmap := congrArg List.getLast? hS.code
      rw [List.getLast?_map, List.getLast?_map, hcode, Option.map_some] at hmap
      obtain ⟨st, hst, heq⟩ := Option.map_eq_some_iff.mp hmap.symm
      have hnone := hlast st hst
      cases st <;> cases heq
      cases hnone
    · rfl
  rw [hpush]
  refine ⟨hS.defined, hS.openMethod, hS.isSome, hS.definition, rfl, draft.code,
    position, ?_, hS.code, hstart, hstop⟩
  rw [String.ofList_toList]
  rfl

/-- A further word joins the words before it, with the blanks between them. -/
theorem leads_nextStray {w : String} (hw : IsKept d inBody w) {pre seen blanks after : List Char}
    (hsource : source = pre ++ (seen ++ (blanks ++ (w.toList ++ after)))) (hafter : AtBlank after)
    (hlead : Leads d source (Joining D sts inBody pre (seen ++ (blanks ++ w.toList))) after Q) :
    Leads d source (Joining D sts inBody pre seen) (w.toList ++ after) Q := by
  have hbefore : source = (pre ++ (seen ++ blanks)) ++ (w.toList ++ after) := by
    rw [hsource]
    simp
  refine leads_stray hw hbefore hafter (fun p draft hS => ⟨hS.defined, hS.openMethod⟩) ?_ hlead
  intro p draft position hS hstart hstop
  obtain ⟨before, last, hcode, hbefore, hfirst, hlast⟩ := hS.code
  simp only [List.length_append] at hstart hstop hlast
  have hmerged : (last.merge position).start = pre.length
      ∧ (last.merge position).stop = (pre ++ (seen ++ (blanks ++ w.toList))).length := by
    simp only [Position.merge, List.length_append]
    omega
  have hslice : Draft.slice source (last.merge position)
      = String.ofList (seen ++ (blanks ++ w.toList)) := by
    have hsplit : source = pre ++ ((seen ++ (blanks ++ w.toList)) ++ after) := by
      rw [hsource]
      simp
    exact Draft.slice_eq hsplit hmerged.1 hmerged.2
  have hjoin : draft.addUnmatched source ⟨w, position⟩ = { draft with
      code := before ++ [⟨.unmatched (String.ofList (seen ++ (blanks ++ w.toList))),
        last.merge position⟩] } := by
    rw [Draft.addUnmatched, hS.joining, hcode, List.getLast?_concat]
    simp only [List.dropLast_concat, hslice]
  rw [hjoin]
  exact ⟨hS.defined, hS.openMethod, hS.isSome, hS.definition, hS.joining, before, _, rfl, hbefore,
    hmerged.1, hmerged.2⟩

/-- Words that join the words before them. -/
theorem leads_nextStrays {text : List Char} (h : WordsOf (IsKept d inBody) text)
    {pre rest : List Char} (hrest : AtBlank rest) : ∀ {seen blanks : List Char},
    source = pre ++ (seen ++ (blanks ++ (text ++ rest))) → AllBlank blanks →
    Leads d source (Joining D sts inBody pre (seen ++ (blanks ++ text))) rest Q →
    Leads d source (Joining D sts inBody pre seen) (blanks ++ (text ++ rest)) Q := by
  induction h with
  | word hw =>
      intro seen blanks hsource hblanks hlead
      exact (leads_nextStray hw hsource hrest hlead).blanks ⟨blanks, hblanks, rfl⟩
  | @more w gap text hw hne hgap _ ih =>
      intro seen blanks hsource hblanks hlead
      refine Leads.blanks ?_ ⟨blanks, hblanks, rfl⟩
      rw [List.append_assoc, List.append_assoc] at hsource ⊢
      refine leads_nextStray hw hsource (hgap.atBlank hne _) (ih ?_ hgap ?_)
      · rw [hsource]
        simp
      · have hseen : (seen ++ (blanks ++ w.toList)) ++ (gap ++ text)
            = seen ++ (blanks ++ (w.toList ++ (gap ++ text))) := by simp
        rw [hseen]
        exact hlead

/-- The line of unmatched text, after an entry that is none. -/
theorem leads_unmatched {text : String} (h : WordsOf (IsKept d inBody) text.toList)
    (hlast : ∀ st ∈ sts.getLast?, st.unmatched? = none) {rest : List Char}
    (hlead : Leads d source (Entered D (sts ++ [.unmatched text]) inBody) rest Q) :
    Leads d source (Entered D sts inBody) (text.toList ++ '\n' :: rest) Q := by
  intro fuel p draft c hS hc hp hgap hfuel
  -- the blanks in front of the text belong to what comes before it in the source
  obtain ⟨blanks, hall, hblanks⟩ := hgap
  have hsource : source = (source.take c.offset ++ blanks) ++ (text.toList ++ '\n' :: rest) := by
    rw [List.append_assoc, ← hblanks, hc.rest, List.take_append_drop]
  suffices hleads : Leads d source (Entered D sts inBody) (text.toList ++ '\n' :: rest) Q from
    hleads fuel p draft c hS hc hp ⟨blanks, hall, hblanks⟩ hfuel
  have hlead : Leads d source
      (Joining D sts inBody (source.take c.offset ++ blanks) text.toList) ('\n' :: rest) Q := by
    refine (hlead.blanks (Scan.BlanksTo.newline rest)).imp fun p draft hS => ?_
    have := hS.entered
    rwa [String.ofList_toList] at this
  generalize source.take c.offset ++ blanks = pre at hsource hlead
  generalize text.toList = cs at h hsource hlead ⊢
  cases h with
  | word hw => exact leads_firstStray hw hsource (atBlank_newline rest) hlast hlead
  | @more w gap cs hw hne hgap hcs =>
      rw [List.append_assoc, List.append_assoc] at hsource ⊢
      exact leads_firstStray hw hsource (hgap.atBlank hne _) hlast
        (leads_nextStrays hcs (atBlank_newline rest) hsource hgap hlead)

/-! ## Lines -/

def Statement.isComment : Statement → Bool
  | .comment _ => true
  | _ => false

/-- Apart from comments, every line starts with a word. -/
theorem Statement.Spelled.startsLine {st : Statement} (h : st.Spelled d)
    (hclosed : st.isClosed = true)
    (hcomment : st.isComment = false) : StartsLine (st.text d).toList := by
  cases hst : st.unmatched? with
  | some text =>
      cases st <;> cases hst
      obtain ⟨w, tail, htext, htail, hw⟩ := WordsOf.exists_append h
      exact ⟨w, tail, htext, htail, hw.signature⟩
  | none =>
      refine (StatementRead.of_spelled h hclosed ?_ hst).starts
      rintro text rfl
      cases hcomment

theorem Statement.Spelled.head_line {st : Statement} (h : st.Spelled d)
    (hclosed : st.isClosed = true)
    (rest : List Char) : ((st.text d).toList ++ '\n' :: rest).head?.any isBlank = false := by
  cases hst : st.isComment with
  | false => exact ((h.startsLine hclosed hst).noTrivia (atBlank_newline rest)).blank
  | true =>
      cases st <;> cases hst
      exact head_of_commentLength? (commentLength?_append (of_decide_eq_true hclosed) rest)

/-- Is the entry given back by its line, in a body that may be open? -/
structure Statement.Kept (d : Dialect) (inBody : Bool) (st : Statement) : Prop where
  spelled : st.Spelled d
  closed : st.isClosed = true
  noEnd : inBody = true → st.holdsEnd = false

theorem Statement.Kept.words {text : String} (h : (Statement.unmatched text).Kept d inBody) :
    WordsOf (IsKept d inBody) text.toList := by
  cases inBody with
  | false => exact WordsOf.imp h.spelled fun w hw => ⟨hw, (nomatch ·)⟩
  | true =>
      have hnone : upToWord? "end" (text.toList.length + 1) text.toList = none :=
        Option.isSome_eq_false_iff.mp (h.noEnd rfl) |> Option.isNone_iff_eq_none.mp
      have hblanks : AllBlank [] := List.forall_mem_nil _
      refine (WordsOf.passes_of_upToWord? h.spelled (fun w hw => hw.alone) hblanks
        (Nat.lt_succ_self _) hnone).imp ?_
      exact fun w hw => ⟨hw.1, fun _ => hw.2⟩

/-- The line of an entry that the one before it does not run into. -/
theorem leads_entry {st : Statement} (h : st.Kept d inBody) {rest : List Char}
    (hlast : ∀ before ∈ sts.getLast?, before.runsInto d st = false)
    (hrest : st.isOpenCall = true → NoMark rest)
    (hlead : Leads d source (Entered D (sts ++ [st]) inBody) rest Q) :
    Leads d source (Entered D sts inBody) ((st.text d).toList ++ '\n' :: rest) Q := by
  cases hst : st.unmatched? with
  | some text =>
      cases st <;> cases hst
      refine leads_unmatched h.words (fun before hbefore => ?_) hlead
      have hruns := (Bool.or_eq_false_iff.mp (hlast before hbefore)).2
      have hnone : before.unmatched?.isSome = false := by simpa [Statement.unmatched?] using hruns
      exact Option.isNone_iff_eq_none.mp (Option.isSome_eq_false_iff.mp hnone)
  | none =>
      by_cases hcomment : ∃ text, st = .comment text
      · obtain ⟨text, rfl⟩ := hcomment
        exact leads_comment h.closed hlead
      · have hne : ∀ text, st ≠ .comment text := fun text heq => hcomment ⟨text, heq⟩
        exact leads_statement (.of_spelled h.spelled h.closed hne hst) hrest hlead

/-! ## Bodies -/

/-- No entry goes on into the next one. -/
def Apart (d : Dialect) (sts : List Statement) : Prop :=
  sts.IsChain fun st next => st.runsInto d next = false

theorem noMark_next {layout : Layout} (hindent : layout.indent.toList.all isBlank = true)
    {st : Statement} (hopen : st.isOpenCall = true) {code : Code}
    (hcode : ∀ e ∈ code, e.value.Kept layout.dialect inBody)
    (hapart : Apart layout.dialect (st :: code.map Located.value)) {tail : List Char}
    (htail : NoMark tail) : NoMark ((Code.text layout code).toList ++ tail) := by
  rw [toList_codeText]
  cases code with
  | nil => exact htail
  | cons e code =>
      have hruns := (List.isChain_cons_cons.mp hapart).1
      have hmark : e.value.opensMark layout.dialect = false := by
        simpa [Statement.runsInto, hopen] using (Bool.or_eq_false_iff.mp hruns).1
      have he := hcode e List.mem_cons_self
      rw [List.flatMap_cons, List.append_assoc]
      obtain ⟨cs, hgap, hcs⟩ := noMark_line (he.spelled.head_line he.closed
        ((code.flatMap fun e => (Entry.text layout e).toList) ++ tail)) hmark
      exact ⟨cs, (blanksTo_entryText layout hindent e _).trans hgap, hcs⟩

/-- The lines of a body, one entry after another. -/
theorem leads_body (layout : Layout) (hindent : layout.indent.toList.all isBlank = true)
    {tail : List Char} (htail : NoMark tail) {code : Code}
    (hcode : ∀ e ∈ code, e.value.Kept layout.dialect inBody) : ∀ {sts : List Statement},
    Apart layout.dialect (sts ++ code.map Located.value) →
    Leads layout.dialect source (Entered D (sts ++ code.map Located.value) inBody) tail Q →
      Leads layout.dialect source (Entered D sts inBody)
        ((Code.text layout code).toList ++ tail) Q := by
  induction code with
  | nil =>
      intro sts _ hlead
      rw [List.map_nil, List.append_nil] at hlead
      exact hlead
  | cons e code ih =>
      intro sts hapart hlead
      obtain ⟨he, hrest⟩ := List.forall_mem_cons.mp hcode
      obtain ⟨-, hafter, hbefore⟩ := List.isChain_append.mp hapart
      rw [toList_codeText, List.flatMap_cons, List.append_assoc, ← toList_codeText]
      refine Leads.blanks ?_ (blanksTo_entryText layout hindent e _)
      refine leads_entry he (fun before hmem => hbefore before hmem e.value rfl)
        (fun hopen => noMark_next hindent hopen hrest hafter htail) ?_
      have hassoc : sts ++ (e :: code).map Located.value
          = (sts ++ [e.value]) ++ code.map Located.value := by simp
      rw [hassoc] at hapart hlead
      exact ih hrest hapart hlead

/-! ### The end of a body -/

/-- Unmatched text that closes a body and is put back by the line that was to close it. -/
def Statement.isEnds (st : Statement) : Bool :=
  st.unmatched?.any fun text => text ++ "\nend" = "end\n" ++ text

/-- Does no entry close the body of a method, or only the last one with the same effect? -/
def keepsEnd (sts : List Statement) : Bool :=
  sts.dropLast.all (!·.holdsEnd) && sts.getLast?.all fun st => !st.holdsEnd || st.isEnds

theorem keepsEnd_cases {sts : List Statement} (h : keepsEnd sts = true) :
    (∀ st ∈ sts, st.holdsEnd = false) ∨ ∃ init text, sts = init ++ [.unmatched text]
      ∧ (∀ st ∈ init, st.holdsEnd = false) ∧ text ++ "\nend" = "end\n" ++ text := by
  obtain ⟨hinit, hlast⟩ := Bool.and_eq_true_iff.mp h
  have hinit : ∀ st ∈ sts.dropLast, st.holdsEnd = false := by simpa using hinit
  rcases List.eq_nil_or_concat sts with rfl | ⟨init, st, rfl⟩
  · exact Or.inl (List.forall_mem_nil _)
  · rw [List.concat_eq_append] at hinit hlast ⊢
    rw [List.dropLast_concat] at hinit
    rw [List.getLast?_concat, Option.all_some, Bool.or_eq_true, Bool.not_eq_true'] at hlast
    rcases hlast with hlast | hlast
    · left
      intro x hx
      rcases List.mem_append.mp hx with hx | hx
      · exact hinit x hx
      · rwa [List.mem_singleton.mp hx]
    · right
      cases hst : st.unmatched? with
      | none => simp [Statement.isEnds, hst] at hlast
      | some text =>
          refine ⟨init, text, ?_, hinit, by simpa [Statement.isEnds, hst] using hlast⟩
          cases st <;> cases hst
          rfl

/-- A body whose last entry closes it: the line after it takes the place of that entry. -/
theorem leads_endsBody {layout : Layout} (hdialect : layout.dialect = .directive)
    (hindent : layout.indent.toList.all isBlank = true) {code : Code} {text : String}
    {position : Position} (hcode : ∀ e ∈ code, e.value.Kept .directive true)
    (hlast : (Statement.unmatched text).Spelled .directive)
    (hapart : Apart .directive (code.map Located.value ++ [.unmatched text]))
    (hends : text ++ "\nend" = "end\n" ++ text)
    (hQ : ∀ p draft, Entered D (code.map Located.value ++ [.unmatched text]) false p draft →
      Q (.ok draft)) :
    Leads .directive source (Entered D [] true)
      ((Code.text layout (code ++ [⟨.unmatched text, position⟩])).toList
        ++ (endText .directive).toList) Q := by
  obtain ⟨_, indent⟩ := layout
  subst hdialect
  have hends : text.toList ++ '\n' :: ("end".toList ++ ['\n'])
      = "end".toList ++ '\n' :: (text.toList ++ '\n' :: []) := by
    have hlist := congrArg (fun s => s.toList ++ ['\n']) hends
    simpa [String.toList_append] using hlist
  have hgap : Scan.BlanksTo ((Entry.text ⟨.directive, indent⟩ ⟨.unmatched text, position⟩).toList
      ++ (endText .directive).toList) ("end".toList ++ '\n' :: (text.toList ++ '\n' :: [])) := by
    have := blanksTo_entryText ⟨.directive, indent⟩ hindent ⟨.unmatched text, position⟩
      (endText .directive).toList
    rw [toList_endText_directive] at this ⊢
    rw [← hends]
    exact this
  rw [toList_codeText, List.flatMap_append, List.append_assoc, ← toList_codeText,
    List.flatMap_singleton]
  refine leads_body ⟨.directive, indent⟩ hindent ⟨_, hgap, rfl, ?_⟩ hcode
    (List.IsChain.left_of_append hapart) (Leads.blanks ?_ hgap)
  · rw [Scan.keywordOf_append _ (atBlank_newline _)]
    decide
  · refine leads_bodyEnd (leads_unmatched ?_ ?_ (leads_done hQ))
    · exact WordsOf.imp hlast fun w hw => ⟨hw, (nomatch ·)⟩
    · intro before hbefore
      have hruns := (List.isChain_append.mp hapart).2.2 before hbefore (.unmatched text) rfl
      have hnone : before.unmatched?.isSome = false := by
        simpa [Statement.unmatched?] using (Bool.or_eq_false_iff.mp hruns).2
      exact Option.isNone_iff_eq_none.mp (Option.isSome_eq_false_iff.mp hnone)

/-- The header and the body of a method, after the attributes. -/
theorem leads_methodText (layout : Layout) (hindent : layout.indent.toList.all isBlank = true)
    {m : MethodDef} {v : Option Literal} (hm : m.Spelled layout.dialect)
    (hname : layout.dialect = .directive → Scan.isModifier m.name = false) {code : Code}
    (hcode : ∀ e ∈ code, e.value.Spelled layout.dialect ∧ e.value.isClosed = true)
    (hapart : Apart layout.dialect (code.map Located.value))
    (hend : layout.dialect = .directive → keepsEnd (code.map Located.value) = true)
    (hQ : ∀ p draft, Entered (IsMethod m) (code.map Located.value) false p draft → Q (.ok draft)) :
    Leads layout.dialect source (Attributed m.attributes v) ((headerLine m layout.dialect).toList
      ++ '\n' :: ((Code.text layout code).toList ++ (endText layout.dialect).toList)) Q := by
  refine leads_header hm hname ?_
  have hbody : ∀ inBody, inBody = decide (layout.dialect = .directive) →
      (inBody = true → ∀ e ∈ code, e.value.holdsEnd = false) →
      Leads layout.dialect source (Entered (IsMethod m) [] inBody)
        ((Code.text layout code).toList ++ (endText layout.dialect).toList) Q := by
    intro inBody hinBody hnoEnd
    refine leads_body layout hindent (noMark_endText _) (fun e he => ?_) hapart
      (leads_end hinBody hQ)
    exact ⟨(hcode e he).1, (hcode e he).2, fun h => hnoEnd h e he⟩
  by_cases hdialect : layout.dialect = .directive
  · rcases keepsEnd_cases (hend hdialect) with hnone | ⟨init, text, hinit, hnone, hends⟩
    · exact hbody _ rfl fun _ e he => hnone e.value (List.mem_map_of_mem he)
    · obtain ⟨before, last, rfl, rfl, hlast⟩ := List.map_eq_append_iff.mp hinit
      obtain ⟨⟨st, position⟩, rfl, heq⟩ := List.map_eq_singleton_iff.mp hlast
      obtain rfl : st = .unmatched text := heq
      rw [List.map_append] at hapart hQ
      rw [hdialect] at hapart hcode ⊢
      refine leads_endsBody hdialect hindent (fun e he => ?_) ?_ hapart hends hQ
      · obtain ⟨hspelled, hclosed⟩ := hcode e (List.mem_append_left _ he)
        exact ⟨hspelled, hclosed, fun _ => hnone e.value (List.mem_map_of_mem he)⟩
      · exact (hcode _ (List.mem_append_right _ (List.mem_singleton_self _))).1
  · exact hbody _ rfl fun h => absurd (of_decide_eq_true h) hdialect

end Leads

/-! ## Constants of fields -/

namespace Lexeme

/-- Enough fuel is as good as more. -/
theorem triviaLengthIn_congr : ∀ {fuel fuel' : Nat} {cs : List Char}, cs.length ≤ fuel →
    cs.length ≤ fuel' → triviaLengthIn fuel cs = triviaLengthIn fuel' cs
  | 0, 0, cs, _, _ => rfl
  | 0, fuel' + 1, cs, h, _ => by
      obtain rfl := List.length_eq_zero_iff.mp (Nat.le_zero.mp h)
      rfl
  | fuel + 1, 0, cs, _, h => by
      obtain rfl := List.length_eq_zero_iff.mp (Nat.le_zero.mp h)
      rfl
  | fuel + 1, fuel' + 1, cs, h, h' => by
      rw [triviaLengthIn, triviaLengthIn]
      cases hcomment : commentLength? (cs.drop (blanksLength cs)) with
      | none => rfl
      | some n =>
          have hn := two_le_commentLength hcomment
          have hlength : (cs.drop (blanksLength cs + n)).length ≤ min fuel fuel' := by
            rw [List.length_drop]
            omega
          obtain ⟨hfuel, hfuel'⟩ := Nat.le_min.mp hlength
          simp only [triviaLengthIn_congr hfuel hfuel']

/-- What comes after the blanks and comments in front. -/
def afterTrivia (cs : List Char) : List Char := cs.drop (triviaLength cs)

theorem afterTrivia_blanks {blanks cs : List Char} (hblanks : AllBlank blanks) (hcs : NoTrivia cs) :
    afterTrivia (blanks ++ cs) = cs := by
  rw [afterTrivia, triviaLength_append hblanks hcs, List.drop_left]

theorem afterTrivia_comment {blanks cs rest : List Char} (hblanks : AllBlank blanks)
    (hcs : commentLength? (cs ++ rest) = some cs.length) :
    afterTrivia (blanks ++ (cs ++ rest)) = afterTrivia rest := by
  have hlength := blanksLength_append hblanks (head_of_commentLength? hcs)
  have hpos := two_le_commentLength hcs
  obtain ⟨fuel, hfuel⟩ : ∃ n, (blanks ++ (cs ++ rest)).length = n + 1 :=
    Nat.exists_eq_succ_of_ne_zero (by simp only [List.length_append]; omega)
  have hrest : rest.length ≤ fuel := by
    simp only [List.length_append] at hfuel
    omega
  have htrivia : triviaLength (blanks ++ (cs ++ rest))
      = blanks.length + cs.length + triviaLength rest := by
    rw [triviaLength, hfuel, triviaLengthIn, hlength, List.drop_left, hcs]
    simp only [← List.drop_drop, List.drop_left]
    rw [triviaLength, triviaLengthIn_congr hrest (Nat.le_refl _)]
  rw [afterTrivia, htrivia, ← List.drop_drop, ← List.drop_drop, List.drop_left, List.drop_left,
    afterTrivia]

end Lexeme

namespace Scan

/-- Does the text start with what is read as a literal? -/
def looksLiteral (cs : List Char) : Bool :=
  cs.head? = some '"' || cs.head? = some '\''
    || looksNumeric (String.ofList (cs.take (wordLength listStop cs)))

theorem noLiteral_of_afterTrivia {cs : List Char} (h : looksLiteral (afterTrivia cs) = false) :
    NoLiteral cs := by
  refine ⟨afterTrivia cs, ?_⟩
  have hskip : skipTrivia.Reads cs (fun _ => True) (afterTrivia cs) := by
    intro c hc
    exact ⟨⟨⟩, _, rfl, trivial, by rw [Cursor.rest_advance, hc, afterTrivia]⟩
  unfold atLiteral
  refine hskip.bind fun _ _ => ?_
  refine (reads_get _).bind ?_
  intro c hc
  rw [hc]
  simp only [looksLiteral, Bool.or_eq_false_iff, decide_eq_false_iff_not] at h
  split
  · rename_i heq
    exact absurd (by rw [heq]; rfl) h.1.1
  · rename_i heq
    exact absurd (by rw [heq]; rfl) h.1.2
  · exact Reads.pure_eq false _
  · refine Reads.pure ?_ _
    exact h.2

end Scan

/-- Is the first entry that is no comment read as a literal, where one may stand? -/
def opensLiteral (d : Dialect) (sts : List Statement) : Bool :=
  (sts.find? (!·.isComment)).any fun st => Scan.looksLiteral (st.text d).toList

theorem looksLiteral_line {cs : List Char} (hne : cs ≠ []) (rest : List Char) :
    Scan.looksLiteral (cs ++ '\n' :: rest) = Scan.looksLiteral cs := by
  rw [Scan.looksLiteral, Scan.looksLiteral, take_wordLength_append _ cs (atBlank_newline rest)]
  cases cs with
  | nil => exact absurd rfl hne
  | cons c cs => rfl

theorem noLiteral_body {layout : Layout} (hindent : layout.indent.toList.all isBlank = true)
    {code : Code} (hcode : ∀ e ∈ code, e.value.Spelled layout.dialect ∧ e.value.isClosed = true)
    (hopens : opensLiteral layout.dialect (code.map Located.value) = false) :
    Scan.NoLiteral ('\n' :: (Code.text layout code).toList) := by
  refine Scan.noLiteral_of_afterTrivia ?_
  suffices hafter : ∀ blanks, AllBlank blanks →
      Scan.looksLiteral (afterTrivia (blanks ++ (Code.text layout code).toList)) = false from
    hafter ['\n'] (List.forall_mem_singleton.mpr rfl)
  induction code with
  | nil =>
      intro blanks hblanks
      have hempty : Scan.looksLiteral [] = false := by decide
      exact (congrArg Scan.looksLiteral (afterTrivia_blanks hblanks ⟨rfl, rfl⟩)).trans hempty
  | cons e code ih =>
      intro blanks hblanks
      obtain ⟨⟨hspelled, hclosed⟩, hrest⟩ := List.forall_mem_cons.mp hcode
      rw [toList_codeText, List.flatMap_cons, ← toList_codeText]
      obtain ⟨gap, hgap, htext⟩ :=
        blanksTo_entryText layout hindent e (Code.text layout code).toList
      have hgap : AllBlank (blanks ++ gap) := hblanks.append hgap
      rw [htext, ← List.append_assoc]
      cases hcomment : e.value.isComment with
      | false =>
          have hstarts := hspelled.startsLine hclosed hcomment
          rw [afterTrivia_blanks hgap (hstarts.noTrivia (atBlank_newline _)),
            looksLiteral_line hstarts.ne_nil]
          simpa [opensLiteral, List.find?_cons, hcomment] using hopens
      | true =>
          have hopens : opensLiteral layout.dialect (code.map Located.value) = false := by
            simpa [opensLiteral, List.find?_cons, hcomment] using hopens
          obtain ⟨st, position⟩ := e
          cases st <;> cases hcomment
          rename_i text
          have hlength := commentLength?_append (of_decide_eq_true hclosed)
            (Code.text layout code).toList
          show Scan.looksLiteral (afterTrivia (_ ++ (text.toList ++ _))) = false
          rw [afterTrivia_comment hgap hlength]
          exact ih hrest hopens ['\n'] (List.forall_mem_singleton.mpr rfl)

/-- The header and the body of a field, after the attributes. -/
theorem leads_fieldText {source : List Char} {Q : ReadResult Draft → Prop} (layout : Layout)
    (hindent : layout.indent.toList.all isBlank = true) {f : FieldDef}
    (hf : f.Spelled layout.dialect)
    (hname : layout.dialect = .directive → Scan.isModifier f.name = false) {code : Code}
    (hcode : ∀ e ∈ code, e.value.Spelled layout.dialect ∧ e.value.isClosed = true)
    (hapart : Apart layout.dialect (code.map Located.value))
    (hvalue : layout.dialect = .directive → f.value = none →
      opensLiteral layout.dialect (code.map Located.value) = false)
    (hQ : ∀ p draft, Entered (IsField f) (code.map Located.value) false p draft → Q (.ok draft)) :
    Leads layout.dialect source (Attributed f.attributes none)
      ((fieldLines f layout.dialect).toList ++ (Code.text layout code).toList) Q := by
  refine leads_field hf hname (fun hd hnone => noLiteral_body hindent hcode (hvalue hd hnone)) ?_
  have hend : NoMark [] := ⟨[], Scan.BlanksTo.refl _, rfl, rfl⟩
  rw [← List.append_nil (Code.text layout code).toList]
  refine leads_body layout hindent hend (fun e he => ?_) hapart (leads_done hQ)
  exact ⟨(hcode e he).1, (hcode e he).2, (nomatch ·)⟩

end JvmListing
