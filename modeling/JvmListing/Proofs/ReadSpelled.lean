/-
# Listings that are read

Whatever the text, a listing that is read from it has parts that can stand where its
dialect writes them: `Listing.spelled_of_read`.

The clause at a word has parts that can be written, if it has a meaning, or it is no more
than the word: a stray word, which is kept, or the `end` of a body (`Scan.ClauseRead`).  A
draft takes the clauses up in turn.  Stray words that follow each other are joined by
their places in the source, and the ends of bodies between them come along, so a draft
also has to know the source from the first of these words on (`Draft.SpelledAt`).
-/
import JvmListing.Proofs.LooseText
import JvmListing.Proofs.ReadHeaders

namespace JvmListing

open Lexeme

variable {d : Dialect}

/-! ## Clauses -/

/-- Is it more than a word, and can it be written, if it has a meaning? -/
def Clause.Spelled (d : Dialect) : Clause → Prop
  | .signature s => isSignature s.value = true
  | .throws type => isSignature type.value = true
  | .annot raw => ∀ a, raw.toAnnot = .ok a → a.isSpelled d = true
  | .method raws name params result position =>
      (Clause.method raws name params result position).DefinesSpelled d
  | .field raws name desc v position => (Clause.field raws name desc v position).DefinesSpelled d
  | .label name => (Statement.label name.value).Spelled d
  | .tryCatch start stop handler caught _ =>
    (Statement.tryCatch start stop handler caught).Spelled d
  | .line name number _ => ∀ o, lineMarker name number = .ok o → o.isSpelled d = true
  | .expression code => (Statement.expression code.value).Spelled d
  | .instruction op operands position =>
      ∀ o, operands.toOperation op position = .ok o → o.isSpelled d = true
  | .value _ | .deprecated | .comment _ => True
  | .bodyEnd | .unmatched _ => False

theorem Clause.DefinesSpelled.spelled {clause : Clause} (h : clause.DefinesSpelled d) :
    clause.Spelled d := by
  cases clause with
  | method | field => exact h
  | _ => exact h.elim

theorem declaredLabel?_eq_some {w name : String} (h : declaredLabel? w = some name) :
    w = name ++ ":" ∧ name ≠ "" := by
  unfold declaredLabel? at h
  split at h
  · rename_i c cs hreverse
    cases h
    have hw := congrArg List.reverse hreverse
    rw [List.reverse_reverse, List.reverse_cons] at hw
    refine ⟨?_, ?_⟩
    · rw [← String.toList_inj, String.toList_append, String.toList_ofList, hw]
      rfl
    · intro hempty
      simpa using congrArg String.toList hempty
  · cases h

/-- The word that ends a body starts nothing else. -/
theorem isStray_end {w : String} (hw : isSignature w = true) (hend : lowerCase w = "end") :
    IsStray d w where
  signature := hw
  head := Head.ofWord?_eq_none (by rw [hend]; decide)
  label := by
    cases hlabel : declaredLabel? w with
    | none => rfl
    | some name =>
        have hcolon : ':' ∈ w.toList := by
          rw [(declaredLabel?_eq_some hlabel).1, String.toList_append]
          exact List.mem_append_right _ List.mem_cons_self
        have hfree := Scan.not_mem_reservedWords hcolon (Or.inl rfl)
        rw [hend] at hfree
        exact absurd (by decide) hfree
  mnemonic := by
    cases hop : Opcode.ofMnemonic? w with
    | none => rfl
    | some op =>
        have hfree := op.mnemonic_not_mem
        rw [← Opcode.mnemonic_of_ofMnemonic? hop, hend] at hfree
        exact absurd (by decide) hfree

namespace Scan

theorem yields_textUpToWord (closing : String) : (textUpToWord closing).Yields fun code =>
    code = "" ∨ WordsOf (Passes closing) code.toList := by
  refine .after fun mark => ?_
  split
  · rename_i before through hfound
    refine .after fun _ => .pure ?_
    obtain ⟨left, text, right, hbefore, hleft, hright, htext⟩ := exists_words_of_upToWord? hfound
    rw [hbefore, trimBlanks_append hleft hright (htext.imp_right fun h => h.imp fun _ h => h.alone),
      String.toList_ofList]
    refine htext.imp_left fun hnil => ?_
    rw [hnil]
  · exact .after fun _ => .failSince _ _

/-- The type of a handler can be written again: `*` is none. -/
theorem isCaught_caughtType {w : String}
    (h : w ≠ "*" → isCaught d (some w) = true) : isCaught d (caughtType w) = true := by
  unfold caughtType
  split
  · cases d <;> rfl
  · rename_i hne
    exact h hne

theorem spelled_tryCatch (d : Dialect) (mark : Cursor) :
    (tryCatch d mark).Yields (Clause.Spelled d) := by
  cases d with
  | keyword =>
      refine .bind (yields_requiredWord _) fun start hstart => ?_
      refine .bind (yields_requiredWord _) fun stop hstop => ?_
      refine .after fun _ => .after fun _ => .after fun _ => ?_
      refine (from_skipTrivia.bind fun _ =>
        (from_upTo (· = ')')).bindYields fun caught cs h => ?_).yields
      obtain ⟨htrivia, hin, -⟩ := h
      refine .after fun _ => .bind (yields_requiredWord _) fun handler hhandler => ?_
      refine .after fun _ => .pure ⟨hstart, hstop, hhandler, isCaught_caughtType fun hne => ?_⟩
      by_cases hempty : caught = ""
      · subst hempty
        rfl
      · have hsignature := isSignature_of_noTrivia htrivia (fun c hc => (hin c hc).1) hempty
        simp [isCaught, hne, isWordTo_iff.mpr ⟨hsignature, hin⟩]
  | directive =>
      refine .bind (yields_requiredWord _) fun caught hcaught => ?_
      refine .bind (yields_requiredWord _) fun start hstart => ?_
      refine .bind (yields_requiredWord _) fun stop hstop => ?_
      refine .bind (yields_requiredWord _) fun handler hhandler => ?_
      refine .after fun _ => .pure ⟨hstart, hstop, hhandler, isCaught_caughtType fun hne => ?_⟩
      simp [isCaught, hne, hcaught]

theorem spelled_construct (d : Dialect) (head : Head) :
    (construct d head).Yields (Clause.Spelled d) := by
  refine .after fun mark => .after fun _ => ?_
  cases head with
  | signature | throws => exact .bind (yields_requiredWord _) fun _ h => .after fun _ => .pure h
  | value => exact .after fun _ => .pure trivial
  | deprecated => exact .pure trivial
  | annot visible =>
      refine .bind (yields_annot d visible) fun raw hraw => .after fun position =>
        .pure fun a ha => ?_
      exact Annot.isSpelled_of_all (hraw position a ha)
  | tryCatch => exact spelled_tryCatch d mark
  | line =>
      refine .bind (yields_requiredWord _) fun label hlabel => .after fun number =>
        .after fun _ => ?_
      exact .pure fun o ho => isSpelled_lineMarker hlabel ho
  | expression => exact .bind (yields_textUpToWord _) fun _ h => .after fun _ => .pure h

/-! ## The clause at a word -/

/-- What the clause at a word can be, and where it ends if it is no more than the word. -/
inductive ClauseRead (d : Dialect) (c : Cursor) : Clause → Cursor → Prop
  | spelled {clause : Clause} {c' : Cursor} (h : clause.Spelled d) : ClauseRead d c clause c'
  | stray (h : IsStray d c.headWord) :
      ClauseRead d c
        (.unmatched ⟨c.headWord, c.span (c.advance (wordLength (fun _ => false) c.rest))⟩)
        (c.advance (wordLength (fun _ => false) c.rest))
  | bodyEnd (h : IsStray d c.headWord) :
      ClauseRead d c .bodyEnd (c.advance (wordLength (fun _ => false) c.rest))

section ClauseRead

variable {c c' : Cursor}

theorem isSignature_headWord (htrivia : NoTrivia c.rest) (hne : c.rest ≠ []) :
    isSignature c.headWord = true := by
  have hpos := (atWord_of_noTrivia htrivia hne).wordLength_pos
  obtain ⟨hin, -⟩ := word_append (fun _ => false) c.rest
  have hword : c.headWord.toList = c.rest.take (wordLength (fun _ => false) c.rest) :=
    String.toList_ofList
  have hfront :
      NoTrivia (c.headWord.toList ++ c.rest.drop (wordLength (fun _ => false) c.rest)) := by
    rwa [hword, List.take_append_drop]
  refine isSignature_of_noTrivia hfront ?_ ?_
  · rw [hword]
    exact fun x hx => (hin x hx).1
  · intro hempty
    rw [hempty] at hword
    have hlength := congrArg List.length hword
    have hle : wordLength (fun _ => false) c.rest ≤ c.rest.length := spanLength_le _ _
    rw [List.length_take_of_le hle] at hlength
    exact absurd hlength.symm (Nat.ne_of_gt hpos)

theorem clauseRead_wordClause (hsignature : isSignature c.headWord = true)
    (hhead : Head.ofWord? d c.headWord = none) {clause : Clause}
    (hrun : wordClause d c.headWord c = .ok (clause, c')) : ClauseRead d c clause c' := by
  cases hlabel : declaredLabel? c.headWord with
  | some name =>
      have hyields : (wordClause d c.headWord).Yields (Clause.Spelled d) := by
        obtain ⟨hword, hname⟩ := declaredLabel?_eq_some hlabel
        rw [wordClause, hlabel]
        exact .after fun _ => .after fun _ => .after fun _ => .pure ⟨hname, hword ▸ hsignature⟩
      exact .spelled (hyields c clause c' hrun)
  | none =>
      cases hop : Opcode.ofMnemonic? c.headWord with
      | some op =>
          have hyields : (wordClause d c.headWord).Yields (Clause.Spelled d) := by
            rw [wordClause, hlabel, hop]
            refine .after fun _ => .after fun _ =>
              .bind (spelled_operands d op) fun parts hparts => ?_
            exact .after fun position => .pure (hparts position)
          exact .spelled (hyields c clause c' hrun)
      | none =>
          rw [wordClause, hlabel, hop] at hrun
          cases hrun
          exact .stray ⟨hsignature, hhead, hlabel, hop⟩

theorem clauseRead_keywordClause {source : List Char} (hc : c.On source) (htrivia : NoTrivia c.rest)
    (hne : c.rest ≠ []) {p : Progress} {r : Clause × Progress}
    (hrun : keywordClause p c = .ok (r, c')) : ClauseRead .keyword c r.1 c' := by
  rw [keywordClause, run_bind (peekWord_eq c)] at hrun
  cases hhead : Head.ofWord? .keyword c.headWord with
  | some head =>
      rw [hhead] at hrun
      obtain ⟨⟨clause, c₁⟩, hclause, hrun⟩ := except_bind_eq_ok.mp hrun
      cases hrun
      exact .spelled (spelled_construct .keyword head c _ _ hclause)
  | none =>
      have hword : ∀ r c', (wordClause .keyword c.headWord >>= fun clause => pure (clause, p)) c
          = .ok (r, c') → ClauseRead .keyword c r.1 c' := by
        intro r c' hrun
        obtain ⟨⟨clause, c₁⟩, hclause, hrun⟩ := except_bind_eq_ok.mp hrun
        cases hrun
        exact clauseRead_wordClause (isSignature_headWord htrivia hne) hhead hclause
      rw [hhead] at hrun
      cases hdefined : p.defined with
      | true =>
          rw [hdefined] at hrun
          exact hword r c' hrun
      | false =>
          rw [hdefined] at hrun
          obtain ⟨⟨found, c₁⟩, hfound, hrun⟩ := except_bind_eq_ok.mp hrun
          cases found with
          | some clause =>
              cases hrun
              have hdefines := from_keywordDefinition? c _ _ ⟨htrivia, hhead⟩ hfound clause rfl
              exact .spelled hdefines.spelled
          | none =>
              -- a definition that is given up leads back to the word
              have hends := ends_keywordDefinition? hc
              rw [show keywordDefinition? c = .ok (none, c₁) from hfound] at hends
              cases hends with
              | ok hc₁ _ hsame =>
                  rw [hc₁.eq_of_offset hc (hsame.1 rfl)] at hrun
                  exact hword r c' hrun

theorem clauseRead_directiveClause (htrivia : NoTrivia c.rest) (hne : c.rest ≠ []) {p : Progress}
    {r : Clause × Progress} (hrun : directiveClause p c = .ok (r, c')) :
    ClauseRead .directive c r.1 c' := by
  have hsignature := isSignature_headWord htrivia hne
  rw [directiveClause, run_bind (a := c) (b := c) rfl, run_bind (peekWord_eq c)] at hrun
  split at hrun
  · have hyields : (do
        let _ ← word
        let clause ← directiveMethod c
        return (clause, ⟨true, some (← since c)⟩) : Scan (Clause × Progress)).Yields
        (·.1.Spelled .directive) :=
      .after fun _ => .bind (yields_directiveMethod_spelled c) fun _ h => .after fun _ =>
        .pure h.spelled
    exact .spelled (hyields c r c' hrun)
  split at hrun
  · have hyields : (do
        let _ ← word
        return (← directiveField c, { p with defined := true }) : Scan (Clause × Progress)).Yields
        (·.1.Spelled .directive) :=
      .after fun _ => .bind (yields_directiveField_spelled c) fun _ h => .pure h.spelled
    exact .spelled (hyields c r c' hrun)
  split at hrun
  · rename_i hend
    cases hrun
    exact .bodyEnd (isStray_end hsignature (of_decide_eq_true (Bool.and_eq_true_iff.mp hend).1))
  cases hhead : Head.ofWord? .directive c.headWord with
  | some head =>
      rw [hhead] at hrun
      obtain ⟨⟨clause, c₁⟩, hclause, hrun⟩ := except_bind_eq_ok.mp hrun
      cases hrun
      exact .spelled (spelled_construct .directive head c _ _ hclause)
  | none =>
      rw [hhead] at hrun
      obtain ⟨⟨clause, c₁⟩, hclause, hrun⟩ := except_bind_eq_ok.mp hrun
      cases hrun
      exact clauseRead_wordClause hsignature hhead hclause

theorem clauseRead_clauseAt {source : List Char} (hc : c.On source) (htrivia : NoTrivia c.rest)
    (hne : c.rest ≠ []) {p : Progress} {r : Clause × Progress}
    (hrun : clauseAt d p c = .ok (r, c')) : ClauseRead d c r.1 c' := by
  cases d with
  | keyword => exact clauseRead_keywordClause hc htrivia hne hrun
  | directive => exact clauseRead_directiveClause htrivia hne hrun

end ClauseRead

end Scan

/-! ## Drafts -/

/-- Can the attributes stand where the dialect writes them? -/
structure Attributes.Spelled (d : Dialect) (a : Attributes) : Prop where
  bare : a.isSpelled = true
  annots : ∀ x ∈ a.annots, x.isSpelled d = true

/-- The same of a method or a field with its attributes. -/
def Definition.Spelled (d : Dialect) : Definition → Prop
  | .method m => m.Spelled d ∧ m.attributes.Spelled d
  | .field f => f.Spelled d ∧ f.attributes.Spelled d
  | .class _ => False

/-- The same of all that a draft holds, which lets a stray word join its last entry or not. -/
structure Draft.Spelled (d : Dialect) (joining : Bool) (draft : Draft) : Prop where
  attributes : draft.attributes.Spelled d
  definition : ∀ x ∈ draft.definition, x.Spelled d
  code : ∀ e ∈ draft.code, e.value.Spelled d
  joining : draft.joining = joining

theorem Attributes.spelled_empty : Attributes.Spelled d {} := ⟨rfl, List.forall_mem_nil _⟩

theorem Definition.Spelled.markDeprecated {x : Definition} (h : x.Spelled d) :
    x.markDeprecated.Spelled d := by
  cases x with
  | method m => exact ⟨{ h.1 with }, { h.2 with }⟩
  | field f => exact ⟨{ h.1 with }, { h.2 with }⟩
  | «class» => exact h

namespace Draft.Spelled

variable {joining : Bool} {draft draft' : Draft}

theorem empty : Draft.Spelled d false {} :=
  ⟨Attributes.spelled_empty, fun _ h => (nomatch h), List.forall_mem_nil _, rfl⟩

theorem push (h : draft.Spelled d joining) {s : Statement} (hs : s.Spelled d)
    (position : Position) : (draft.push s position).Spelled d joining := by
  refine ⟨h.attributes, h.definition, ?_, h.joining⟩
  exact List.forall_mem_append.mpr ⟨h.code, List.forall_mem_singleton.mpr hs⟩

theorem define (h : draft.Spelled d joining) {x : Definition} (hx : x.Spelled d)
    (hdefine : draft.define x = .ok draft') : draft'.Spelled d joining := by
  unfold Draft.define at hdefine
  split at hdefine
  · cases hdefine
  · cases hdefine
    refine ⟨Attributes.spelled_empty, ?_, h.code, h.joining⟩
    rintro _ ⟨⟩
    exact hx

theorem addMethod (h : draft.Spelled d joining) {raws : List (Located String)} {name : String}
    {params : List RawParam} {result : Option String} {position : Position}
    (hclause : (Clause.method raws name params result position).Spelled d)
    (hadd : draft.addMethod raws name params result position = .ok draft') :
    draft'.Spelled d joining := by
  cases result with
  | none => cases hadd
  | some result =>
      obtain ⟨access, haccess, hadd⟩ := except_bind_eq_ok.mp hadd
      refine h.define (x := .method _) ?_ hadd
      exact ⟨hclause access _ result haccess rfl, h.attributes⟩

theorem addField (h : draft.Spelled d joining) {raws : List (Located String)} {name desc : String}
    {value : Option (Located RawLiteral)} {position : Position}
    (hclause : (Clause.field raws name desc value position).Spelled d)
    (hadd : draft.addField raws name desc value position = .ok draft') :
    draft'.Spelled d joining := by
  obtain ⟨access, haccess, hadd⟩ := except_bind_eq_ok.mp hadd
  cases value with
  | none => exact h.define (x := .field _) ⟨hclause access _ _ haccess, h.attributes⟩ hadd
  | some l =>
      obtain ⟨own, -, hadd⟩ := except_bind_eq_ok.mp hadd
      exact h.define (x := .field _) ⟨hclause access _ _ haccess, h.attributes⟩ hadd

/-- A clause that is read before the definition changes the attributes, and after it adds an
entry. -/
theorem addRecognized (h : draft.Spelled d joining) {clause : Clause} (hclause : clause.Spelled d)
    (hadd : draft.addRecognized clause = .ok draft') : draft'.Spelled d joining := by
  cases clause with
  | bodyEnd | unmatched => exact hclause.elim
  | method => exact h.addMethod hclause hadd
  | field => exact h.addField hclause hadd
  | label =>
      cases hadd
      exact h.push (s := .label _) hclause _
  | tryCatch =>
      cases hadd
      exact h.push (s := .tryCatch ..) hclause _
  | expression =>
      cases hadd
      exact h.push (s := .expression _) hclause _
  | comment =>
      cases hadd
      exact h.push (s := .comment _) trivial _
  | line | instruction =>
      obtain ⟨o, ho, hadd⟩ := except_bind_eq_ok.mp hadd
      cases hadd
      exact h.push (s := .operation o) (hclause o ho) _
  | signature s =>
      rw [Draft.addRecognized] at hadd
      split at hadd
      · cases hadd
        refine ⟨⟨?_, h.attributes.annots⟩, h.definition, h.code, h.joining⟩
        have hbare := h.attributes.bare
        simp only [Attributes.isSpelled, Bool.and_eq_true] at hbare ⊢
        exact ⟨hclause, hbare.2⟩
      · cases hadd
        exact h.push (s := .signature _) hclause _
  | throws type =>
      rw [Draft.addRecognized] at hadd
      split at hadd
      · cases hadd
        refine ⟨⟨?_, h.attributes.annots⟩, h.definition, h.code, h.joining⟩
        have hbare := h.attributes.bare
        simp only [Attributes.isSpelled, Bool.and_eq_true, List.all_append, List.all_cons,
          List.all_nil, Bool.and_true] at hbare ⊢
        exact ⟨hbare.1, hbare.2, hclause⟩
      · cases hadd
        exact h.push (s := .throws _) hclause _
  | value l =>
      obtain ⟨v, -, hadd⟩ := except_bind_eq_ok.mp hadd
      split at hadd
      · cases hadd
        exact ⟨h.attributes, h.definition, h.code, h.joining⟩
      · cases hadd
        exact h.push (s := .value _) trivial _
  | deprecated =>
      rw [Draft.addRecognized] at hadd
      split at hadd
      · cases hadd
        exact ⟨⟨h.attributes.bare, h.attributes.annots⟩, h.definition, h.code, h.joining⟩
      · rename_i x hx
        cases hadd
        refine ⟨h.attributes, ?_, h.code, h.joining⟩
        rintro _ ⟨⟩
        exact (h.definition x hx).markDeprecated
  | annot raw =>
      obtain ⟨a, ha, hadd⟩ := except_bind_eq_ok.mp hadd
      split at hadd
      · cases hadd
        refine ⟨⟨h.attributes.bare, ?_⟩, h.definition, h.code, h.joining⟩
        exact List.forall_mem_append.mpr
          ⟨h.attributes.annots, List.forall_mem_singleton.mpr (hclause a ha)⟩
      · cases hadd
        exact h.push (s := .annot a) (hclause a ha) _

end Draft.Spelled

/-! ## Stray words -/

/-- The last entry of the draft began with the first of the stray words `seen`, and the last of them
ends in front of `rest`.  The ends of bodies are among them, so the entry may have ended before. -/
structure Draft.Joined (d : Dialect) (source rest : List Char) (position : Position) : Prop where
  ends : EndsWord (fun _ => false) rest
  seen : ∃ before seen, source = before ++ (seen ++ rest) ∧ WordsOf (IsStray d) seen
    ∧ position.start = before.length ∧ position.stop ≤ (before ++ seen).length

/-- All that the draft holds can be written, and so will be what the next stray word makes of its
last entry, if it joins that. -/
structure Draft.SpelledAt (d : Dialect) (source rest : List Char) (draft : Draft) : Prop where
  spelled : draft.Spelled d draft.joining
  joined : draft.joining = true → ∀ text position,
    draft.code.getLast? = some ⟨.unmatched text, position⟩ → Joined d source rest position

section Strays

variable {source blanks after : List Char} {w : String} {draft : Draft}

/-- A further word after blanks. -/
theorem Draft.Joined.word {rest : List Char} {position : Position}
    (h : Draft.Joined d source rest position) (hw : IsStray d w)
    (hrest : rest = blanks ++ (w.toList ++ after))
    (hblanks : AllBlank blanks) (hafter : EndsWord (fun _ => false) after) :
    Draft.Joined d source after position := by
  obtain ⟨before, seen, hsource, hseen, hstart, hstop⟩ := h.seen
  -- the words before end in front of a blank
  have hne : blanks ≠ [] := by
    rintro rfl
    obtain ⟨c, cs, hcs, hc⟩ := hw.alone.exists_cons
    have hends := h.ends
    rw [hrest, hcs] at hends
    simp [EndsWord, hc] at hends
  refine ⟨hafter, before, seen ++ (blanks ++ w.toList), ?_,
    hseen.append hne hblanks (.word hw), hstart, ?_⟩
  · rw [hsource, hrest]
    simp
  · simp only [List.length_append] at hstop ⊢
    omega

namespace Draft.SpelledAt

/-- After a clause that is more than a word, no stray word joins what was before. -/
theorem recognized {rest : List Char} (h : SpelledAt d source rest draft) {clause : Clause}
    (hclause : clause.Spelled d) {draft' : Draft} (hadd : draft.add source clause = .ok draft')
    (rest' : List Char) : SpelledAt d source rest' draft' := by
  have hapart : Draft.Spelled d false { draft with joining := false } :=
    { h.spelled with joining := rfl }
  have hdraft' : draft'.Spelled d false := by
    cases clause with
    | bodyEnd | unmatched => exact hclause.elim
    | _ => exact hapart.addRecognized hclause hadd
  refine ⟨{ hdraft' with joining := rfl }, fun hjoining => ?_⟩
  rw [hdraft'.joining] at hjoining
  cases hjoining

theorem bodyEnd {rest : List Char} (h : SpelledAt d source rest draft) (hw : IsStray d w)
    (hrest : rest = blanks ++ (w.toList ++ after)) (hblanks : AllBlank blanks)
    (hafter : EndsWord (fun _ => false) after) : SpelledAt d source after draft :=
  ⟨h.spelled, fun hjoining text position hlast =>
    (h.joined hjoining text position hlast).word hw hrest hblanks hafter⟩

theorem stray {before rest : List Char} (h : SpelledAt d source rest draft) (hw : IsStray d w)
    (hrest : rest = blanks ++ (w.toList ++ after)) (hblanks : AllBlank blanks)
    (hafter : EndsWord (fun _ => false) after) (hsource : source = before ++ rest)
    {position : Position} (hstart : position.start = (before ++ blanks).length)
    (hstop : position.stop = (before ++ (blanks ++ w.toList)).length) :
    SpelledAt d source after (draft.addUnmatched source ⟨w, position⟩) := by
  unfold Draft.addUnmatched
  split
  · rename_i text last hjoining hlast
    have hjoined := h.joined hjoining text last hlast
    have hbefore : last.start ≤ before.length := by
      obtain ⟨first, seen, hseen, -, hfirst, -⟩ := hjoined.seen
      have hlength := congrArg List.length (hsource.symm.trans hseen)
      simp only [List.length_append] at hlength
      omega
    obtain ⟨first, seen, hseen, hwords, hfirst, hend⟩ := (hjoined.word hw hrest hblanks hafter).seen
    have hmerged : (last.merge position).start = first.length
        ∧ (last.merge position).stop = (first ++ seen).length := by
      have hlength := congrArg List.length (hsource.symm.trans hseen)
      rw [hrest] at hlength
      simp only [List.length_append] at hlength hstart hstop hend
      simp only [Position.merge, List.length_append]
      omega
    have hslice := Draft.slice_eq hseen hmerged.1 hmerged.2
    have hspelled : (Statement.unmatched (Draft.slice source (last.merge position))).Spelled d := by
      rw [hslice, Statement.Spelled, String.toList_ofList]
      exact hwords
    refine ⟨⟨h.spelled.attributes, h.spelled.definition, ?_, rfl⟩,
      fun _ text' position' hlast' => ?_⟩
    · refine List.forall_mem_append.mpr ⟨fun e he => ?_, List.forall_mem_singleton.mpr hspelled⟩
      exact h.spelled.code e (List.mem_of_mem_dropLast he)
    · rw [List.getLast?_concat] at hlast'
      cases hlast'
      exact ⟨hafter, first, seen, hseen, hwords, hmerged.1, Nat.le_of_eq hmerged.2⟩
  · have hspelled : (Statement.unmatched w).Spelled d := .word hw
    have hpush := h.spelled.push hspelled position
    refine ⟨{ hpush with joining := rfl }, fun _ text' position' hlast' => ?_⟩
    have hlast' : (draft.code ++ [(⟨.unmatched w, position⟩ : Entry)]).getLast? = _ := hlast'
    rw [List.getLast?_concat] at hlast'
    cases hlast'
    refine ⟨hafter, before ++ blanks, w.toList, ?_, .word hw, hstart, ?_⟩
    · rw [hsource, hrest, List.append_assoc]
    · rw [hstop, List.append_assoc]

end Draft.SpelledAt

end Strays

/-! ## Whole texts -/

section Run

variable {source : List Char}

/-- The source around the word after the blanks at a cursor. -/
theorem Cursor.On.exists_word {c c₁ c₂ : Cursor} (hc : c.On source)
    (h₁ : c.advance (blanksLength c.rest) = c₁)
    (h₂ : c₁.advance (wordLength (fun _ => false) c₁.rest) = c₂) :
    ∃ before blanks, source = before ++ c.rest ∧ c.rest = blanks ++ (c₁.headWord.toList ++ c₂.rest)
      ∧ AllBlank blanks ∧ EndsWord (fun _ => false) c₂.rest ∧ c₁.offset = (before ++ blanks).length
      ∧ c₂.offset = (before ++ (blanks ++ c₁.headWord.toList)).length := by
  have hsource : source = source.take c.offset ++ c.rest := by
    rw [hc.rest, List.take_append_drop]
  have hblanks : c.rest = c.rest.take (blanksLength c.rest) ++ c₁.rest := by
    rw [← h₁, Cursor.rest_advance, List.take_append_drop]
  have hword : c₁.rest = c₁.headWord.toList ++ c₂.rest := by
    rw [← h₂, Cursor.rest_advance, Cursor.headWord, String.toList_ofList, List.take_append_drop]
  have hon₁ : c₁.On source := h₁ ▸ hc.advance _
  have hon₂ : c₂.On source := h₂ ▸ hon₁.advance _
  refine ⟨source.take c.offset, c.rest.take (blanksLength c.rest), hsource, hword ▸ hblanks,
    allBlank_take c.rest, ?_, hon₁.offset_eq ?_ rfl, hon₂.offset_eq ?_ rfl⟩
  · rw [← h₂, Cursor.rest_advance]
    exact (word_append (fun _ => false) c₁.rest).2
  · rw [List.append_assoc, ← hblanks]
    exact hsource
  · rw [List.append_assoc, List.append_assoc, ← hword, ← hblanks]
    exact hsource

/-- The clause at the word after the blanks at a cursor. -/
theorem Draft.SpelledAt.clause {c : Cursor} {draft draft' : Draft}
    (h : draft.SpelledAt d source c.rest) (hc : c.On source) {clause : Clause} {c' : Cursor}
    (hclause : Scan.ClauseRead d (c.advance (blanksLength c.rest)) clause c')
    (hadd : draft.add source clause = .ok draft') : draft'.SpelledAt d source c'.rest := by
  obtain ⟨before, blanks, hsource, hrest, hblanks, hafter, hstart, hstop⟩ := hc.exists_word rfl rfl
  cases hclause with
  | spelled hclause => exact h.recognized hclause hadd _
  | stray hw =>
      cases hadd
      exact h.stray hw hrest hblanks hafter hsource hstart hstop
  | bodyEnd hw =>
      cases hadd
      exact h.bodyEnd hw hrest hblanks hafter

/-- What the clauses from a place on make of a draft. -/
theorem Draft.SpelledAt.continueWith {fuel : Nat} : ∀ {p : Scan.Progress} {c : Cursor}
    {draft result : Draft}, draft.SpelledAt d source c.rest → c.On source → p.On source →
    JvmListing.continueWith d source fuel p draft c = .ok result →
      result.Spelled d result.joining := by
  induction fuel with
  | zero =>
      intro p c draft result h _ _ hrun
      cases hrun
      exact h.spelled
  | succ fuel ih =>
      intro p c draft result h hc hp hrun
      obtain ⟨⟨clauses, _⟩, hclauses, hfold⟩ := except_bind_eq_ok.mp hrun
      have hon := hc.advance (blanksLength c.rest)
      cases hcomment : commentLength? (c.advance (blanksLength c.rest)).rest with
      | some n =>
          rw [Scan.clausesIn_comment d fuel p rfl hcomment] at hclauses
          obtain ⟨⟨more, c'⟩, hmore, hclauses⟩ := except_bind_eq_ok.mp hclauses
          cases hclauses
          obtain ⟨draft', hadd, hfold⟩ := except_bind_eq_ok.mp hfold
          have hspelled : ∀ text, Clause.Spelled d (.comment text) := fun _ => trivial
          refine ih (h.recognized (hspelled _) hadd _) (hon.advance n) hp ?_
          exact except_bind_eq_ok.mpr ⟨_, hmore, hfold⟩
      | none =>
          by_cases hne : (c.advance (blanksLength c.rest)).rest = []
          · rw [Scan.clausesIn_end d fuel p hne] at hclauses
            split at hclauses
            · cases hclauses
            · cases hclauses
              cases hfold
              exact h.spelled
          · have htrivia : NoTrivia (c.advance (blanksLength c.rest)).rest := by
              refine ⟨?_, hcomment⟩
              rw [Cursor.rest_advance]
              exact head_drop_spanLength isBlank c.rest
            rw [Scan.clausesIn_clause d fuel p rfl hcomment hne] at hclauses
            obtain ⟨⟨r, c₁⟩, hclause, hclauses⟩ := except_bind_eq_ok.mp hclauses
            obtain ⟨⟨more, c'⟩, hmore, hclauses⟩ := except_bind_eq_ok.mp hclauses
            cases hclauses
            obtain ⟨draft', hadd, hfold⟩ := except_bind_eq_ok.mp hfold
            obtain ⟨hon₁, hp₁⟩ :=
              Scan.on_of_clauseAt hp hon (Scan.atWord_of_noTrivia htrivia hne) hclause
            refine ih
              (h.clause hc (Scan.clauseRead_clauseAt hon htrivia hne hclause) hadd) hon₁ hp₁ ?_
            exact except_bind_eq_ok.mpr ⟨_, hmore, hfold⟩

/-- Whatever the text, what is read from it has parts that can be written. -/
theorem Listing.spelled_of_read {text : String} {l : Listing} (h : Listing.read d text = .ok l) :
    l.definition.Spelled d ∧ ∃ code, l.code = some code ∧ ∀ e ∈ code, e.value.Spelled d := by
  rw [Listing.read_eq] at h
  obtain ⟨draft, hdraft, h⟩ := except_bind_eq_ok.mp h
  have hstart : Draft.SpelledAt d text.toList (Cursor.start text).rest {} :=
    ⟨Draft.Spelled.empty, fun hjoining => nomatch hjoining⟩
  have hnone : Scan.Progress.On text.toList {} := fun p hp => absurd hp (Option.not_mem_none p)
  have hspelled := hstart.continueWith (Cursor.on_start text) hnone hdraft
  split at h
  · rename_i definition hdefinition
    cases h
    exact ⟨hspelled.definition definition hdefinition, _, rfl, hspelled.code⟩
  · cases h

end Run

end JvmListing
