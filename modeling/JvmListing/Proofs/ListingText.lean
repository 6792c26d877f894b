/-
# Written listings are read back

A plain method listing is given back by its text up to positions, whatever its
indent.  The keyword dialect has no exception.  The directive dialect has two, and
there reading fails: a method with the name of a modifier, and a table switch with
a target called `default` (`Listing.isAmbiguous`).

The text is followed line by line.  `Leads S cs Q` says that reading on from `cs`
ends in a result that satisfies `Q`, whenever it has come as far as `S` says and the
cursor is in its place in the source; each line leads from one such state to the next.
-/
import JvmListing.Proofs.ClausePositions
import JvmListing.Proofs.Headers

namespace JvmListing

open Lexeme

/-! ## Reading on -/

/-- What the clauses from a cursor on make of a draft. -/
def continueWith (d : Dialect) (source : List Char) (fuel : Nat) (p : Scan.Progress) (draft : Draft)
    (c : Cursor) : ReadResult Draft := do
  let (clauses, _) ← Scan.clausesIn d fuel p c
  clauses.foldlM (Draft.add source) draft

theorem Listing.read_eq (d : Dialect) (text : String) :
    Listing.read d text = (do
      let draft ← continueWith d text.toList (text.toList.length + 1) {} {} (Cursor.start text)
      match draft.definition with
      | some definition => return ⟨definition, some draft.code⟩
      | none => throw ⟨.noDefinition, ⟨1, 1, 0, text.toList.length⟩⟩) := by
  rw [continueWith, bind_assoc]
  rfl

namespace Scan

/-- A first step whose outcome is known. -/
theorem run_bind {α β : Type} {s : Scan α} {k : α → Scan β} {a : α} {c b : Cursor}
    (h : s c = .ok (a, b)) : (s >>= k) c = k a b := by
  show (s c >>= fun r => k r.1 r.2) = _
  rw [h]
  rfl

section Clauses

variable (d : Dialect) (fuel : Nat) (p : Progress) {c c' : Cursor}

/-- The clauses from a place on where a clause starts: that clause and those after it. -/
theorem clausesIn_clause (hc : c.advance (blanksLength c.rest) = c')
    (hcomment : commentLength? c'.rest = none) (hne : c'.rest ≠ []) :
    clausesIn d (fuel + 1) p c = (do
      let ((clause, next), c') ← clauseAt d p c'
      let (clauses, c') ← clausesIn d fuel next c'
      return (clause :: clauses, c')) := by
  have hend : atEnd c' = .ok (false, c') := by
    show Except.ok (c'.rest.isEmpty, c') = _
    simp [hne]
  rw [clausesIn, run_bind (skipBlanks_eq c), hc, run_bind (a := c') (b := c') rfl,
    run_bind (comment?_eq_none hcomment)]
  refine (run_bind hend).trans ?_
  cases d <;> rfl

/-- The clauses from a comment on. -/
theorem clausesIn_comment (hc : c.advance (blanksLength c.rest) = c') {n : Nat}
    (hcomment : commentLength? c'.rest = some n) :
    clausesIn d (fuel + 1) p c = (do
      let (clauses, c'') ← clausesIn d fuel p (c'.advance n)
      return (.comment ⟨String.ofList (c'.rest.take n), c'.span (c'.advance n)⟩ :: clauses,
        c'')) := by
  rw [clausesIn, run_bind (skipBlanks_eq c), hc, run_bind (a := c') (b := c') rfl,
    run_bind (comment?_eq_some hcomment)]
  rfl

/-- At the end of the text there are no more clauses, unless a method is still open. -/
theorem clausesIn_end (hc : (c.advance (blanksLength c.rest)).rest = []) :
    clausesIn d (fuel + 1) p c = match p.openMethod with
      | some position => .error ⟨.unclosedMethod, position⟩
      | none => .ok ([], c.advance (blanksLength c.rest)) := by
  rw [clausesIn, run_bind (skipBlanks_eq c)]
  generalize c.advance (blanksLength c.rest) = c' at hc ⊢
  have hend : atEnd c' = .ok (true, c') := by
    show Except.ok (c'.rest.isEmpty, c') = _
    simp [hc]
  rw [run_bind (a := c') (b := c') rfl, run_bind (comment?_eq_none (by rw [hc]; rfl))]
  refine (run_bind hend).trans ?_
  cases p.openMethod <;> rfl

end Clauses

/-- The cursor after the blanks in front of a text. -/
theorem rest_skipBlanks {c : Cursor} {cs : List Char} (hgap : BlanksTo c.rest cs)
    (hcs : cs.head?.any isBlank = false) : (c.advance (blanksLength c.rest)).rest = cs := by
  obtain ⟨blanks, hblanks, hrest⟩ := hgap
  rw [Cursor.rest_advance, hrest, blanksLength_append hblanks hcs, List.drop_left]

theorem atWord_of_noTrivia {c : Cursor} (htrivia : NoTrivia c.rest) (hne : c.rest ≠ []) :
    c.AtWord := by
  obtain ⟨x, rest, hrest⟩ := List.exists_cons_of_ne_nil hne
  have hblank := htrivia.blank
  rw [hrest] at hblank
  exact ⟨x, rest, hrest, hblank⟩

/-- A clause that is read keeps to the source. -/
theorem on_of_clauseAt {d : Dialect} {p : Progress} {c c' : Cursor} {r : Clause × Progress}
    {source : List Char} (hp : p.On source) (hc : c.On source) (hword : c.AtWord)
    (h : clauseAt d p c = .ok (r, c')) : c'.On source ∧ r.2.On source := by
  have hends : Ends source c.offset (fun r n => r.1.Laid source c.offset n ∧ r.2.On source)
      (clauseAt d p c) := ends_clause d hp hc hword
  rw [h] at hends
  cases hends with
  | ok hc' _ hr => exact ⟨hc', hr.2⟩

end Scan

/-! ## States and lines -/

section Leads

variable {d : Dialect} {source : List Char} {Q : ReadResult Draft → Prop}

theorem continueWith_step (source : List Char) (fuel : Nat) (draft : Draft) {p : Scan.Progress}
    {c : Cursor} {cs after : List Char} {P : Clause × Scan.Progress → Prop} (hc : c.On source)
    (hp : p.On source) (hgap : Scan.BlanksTo c.rest cs) (htrivia : NoTrivia cs) (hne : cs ≠ [])
    (hread : ∀ c : Cursor, c.On source → c.rest = cs →
      ∃ r c', Scan.clauseAt d p c = .ok (r, c') ∧ P r ∧ c'.rest = after) :
    ∃ r c', P r ∧ c'.On source ∧ r.2.On source ∧ c'.rest = after
      ∧ continueWith d source (fuel + 1) p draft c = (do
        let (clauses, _) ← Scan.clausesIn d fuel r.2 c'
        let draft ← draft.add source r.1
        clauses.foldlM (Draft.add source) draft) := by
  have hrest := Scan.rest_skipBlanks hgap htrivia.blank
  have hon := hc.advance (blanksLength c.rest)
  have hstep := Scan.clausesIn_clause d fuel p (c := c) rfl (by rw [hrest]; exact htrivia.comment)
    (by rw [hrest]; exact hne)
  generalize c.advance (blanksLength c.rest) = c₁ at hrest hon hstep
  subst hrest
  obtain ⟨r, c₂, hrun, hr, hc₂⟩ := hread c₁ hon rfl
  obtain ⟨hon₂, hnext⟩ := Scan.on_of_clauseAt hp hon (Scan.atWord_of_noTrivia htrivia hne) hrun
  refine ⟨r, c₂, hr, hon₂, hnext, hc₂, ?_⟩
  rw [continueWith, hstep, hrun]
  cases hclauses : Scan.clausesIn d fuel r.2 c₂ with
  | error e => simp [bind, Except.bind, hclauses]
  | ok clauses => simp [bind, Except.bind, hclauses, pure, Except.pure]

/-- Reading on from the text `rest`, or from blanks in front of it, in a state that satisfies `S`
ends in a result that satisfies `Q`. -/
def Leads (d : Dialect) (source : List Char) (S : Scan.Progress → Draft → Prop) (rest : List Char)
    (Q : ReadResult Draft → Prop) : Prop :=
  ∀ (fuel : Nat) (p : Scan.Progress) (draft : Draft) (c : Cursor), S p draft → c.On source →
    p.On source → Scan.BlanksTo c.rest rest → c.rest.length < fuel →
    Q (continueWith d source fuel p draft c)

namespace Leads

variable {S S' : Scan.Progress → Draft → Prop} {rest : List Char}

theorem imp (h : Leads d source S' rest Q) (hS : ∀ p draft, S p draft → S' p draft) :
    Leads d source S rest Q :=
  fun fuel p draft c hp => h fuel p draft c (hS p draft hp)

theorem blanks {cs : List Char} (h : Leads d source S rest Q) (hgap : Scan.BlanksTo cs rest) :
    Leads d source S cs Q := by
  intro fuel p draft c hS hc hp hrest
  exact h fuel p draft c hS hc hp (hrest.trans hgap)

/-- One clause, with blanks after it.  What it adds may depend on the place it stands at. -/
theorem stepAt {cs after : List Char} (htrivia : NoTrivia cs) (hne : cs ≠ [])
    (hread : ∀ p draft, S p draft → ∀ c : Cursor, c.On source → c.rest = cs →
      ∃ r c', Scan.clauseAt d p c = .ok (r, c')
        ∧ (∃ draft', draft.add source r.1 = .ok draft' ∧ S' r.2 draft') ∧ c'.rest = after)
    (hafter : Scan.BlanksTo after rest) (hless : after.length < cs.length)
    (h : Leads d source S' rest Q) : Leads d source S cs Q := by
  intro fuel p draft c hS hc hp hgap hfuel
  obtain ⟨fuel, rfl⟩ : ∃ n, fuel = n + 1 := Nat.exists_eq_succ_of_ne_zero (by omega)
  obtain ⟨r, c', ⟨draft', hadd, hS'⟩, hon, hnext, hc', hstep⟩ :=
    continueWith_step source fuel draft hc hp hgap htrivia hne (hread p draft hS)
  have hcontinue : continueWith d source (fuel + 1) p draft c
      = continueWith d source fuel r.2 draft' c' := by
    rw [hstep, hadd]
    rfl
  have hlength := hgap.length_le
  rw [hcontinue]
  refine h fuel r.2 draft' c' hS' hon hnext (hc' ▸ hafter) ?_
  rw [hc']
  omega

theorem step {cs after : List Char} (htrivia : NoTrivia cs) (hne : cs ≠ [])
    (hread : ∀ p draft, S p draft → (Scan.clauseAt d p).Reads cs
      (fun r => ∃ draft', draft.add source r.1 = .ok draft' ∧ S' r.2 draft') after)
    (hafter : Scan.BlanksTo after rest) (hless : after.length < cs.length)
    (h : Leads d source S' rest Q) : Leads d source S cs Q :=
  stepAt htrivia hne (fun p draft hS c _ => hread p draft hS c) hafter hless h

/-- One line that adds a clause. -/
theorem line {text : List Char} (htrivia : NoTrivia (text ++ '\n' :: rest)) (hne : text ≠ [])
    (hread : ∀ p draft, S p draft → (Scan.clauseAt d p).Reads (text ++ '\n' :: rest)
      (fun r => ∃ draft', draft.add source r.1 = .ok draft' ∧ S' r.2 draft') ('\n' :: rest))
    (h : Leads d source S' rest Q) : Leads d source S (text ++ '\n' :: rest) Q := by
  refine step htrivia (by simp) hread (Scan.BlanksTo.newline rest) ?_ h
  have := List.length_pos_of_ne_nil hne
  rw [List.length_append]
  omega

theorem finish (hS : ∀ p draft, S p draft → p.openMethod = none ∧ Q (.ok draft)) :
    Leads d source S [] Q := by
  intro fuel p draft c hstate _ _ hgap hfuel
  obtain ⟨fuel, rfl⟩ : ∃ n, fuel = n + 1 := Nat.exists_eq_succ_of_ne_zero (by omega)
  obtain ⟨hp, hQ⟩ := hS p draft hstate
  rw [continueWith, Scan.clausesIn_end d fuel p (Scan.rest_skipBlanks hgap rfl), hp]
  exact hQ

/-- A line that breaks off. -/
theorem of_fails (hQ : ∀ e, Q (.error e)) (htrivia : NoTrivia rest) (hne : rest ≠ [])
    (hfail : ∀ p draft, S p draft → (Scan.clauseAt d p).Fails rest) : Leads d source S rest Q := by
  intro fuel p draft c hS _ _ hgap hfuel
  obtain ⟨fuel, rfl⟩ : ∃ n, fuel = n + 1 := Nat.exists_eq_succ_of_ne_zero (by omega)
  have hrest := Scan.rest_skipBlanks hgap htrivia.blank
  obtain ⟨e, he⟩ := hfail p draft hS _ hrest
  rw [continueWith, Scan.clausesIn_clause d fuel p rfl (by rw [hrest]; exact htrivia.comment)
    (by rw [hrest]; exact hne), he]
  exact hQ e

/-- A line without a meaning.  A later line may break off, which is reported first. -/
theorem of_meaningless (hQ : ∀ e, Q (.error e)) (htrivia : NoTrivia rest) (hne : rest ≠ [])
    (hread : ∀ p draft, S p draft → ∃ after, (Scan.clauseAt d p).Reads rest
      (fun r => ∀ (source : List Char) (draft : Draft), ∃ e,
        draft.add source r.1 = .error e) after) :
    Leads d source S rest Q := by
  intro fuel p draft c hS hc hp hgap hfuel
  obtain ⟨fuel, rfl⟩ : ∃ n, fuel = n + 1 := Nat.exists_eq_succ_of_ne_zero (by omega)
  obtain ⟨after, hread⟩ := hread p draft hS
  obtain ⟨r, c', hadd, -, -, -, hstep⟩ :=
    continueWith_step source fuel draft hc hp hgap htrivia hne fun c _ => hread c
  obtain ⟨e, he⟩ := hadd source draft
  rw [hstep, he]
  cases Scan.clausesIn d fuel r.2 c' with
  | error e' => exact hQ e'
  | ok _ => exact hQ e

end Leads

/-! ## Attributes -/

/-- The attributes `a` and the value `v` have been read, and no definition yet. -/
structure Attributed (a : Attributes) (v : Option Literal) (p : Scan.Progress) (draft : Draft) :
    Prop where
  defined : p.defined = false
  openMethod : p.openMethod = none
  definition : draft.definition = none
  code : draft.code = []
  attributes : draft.attributes.unplaced = a.unplaced
  pending : draft.pending.map Located.value = v

variable {v : Option Literal}

/-- A line that changes the attributes. -/
theorem leads_attribute {a a' : Attributes} {text rest : List Char} {P : Clause → Prop}
    (hstarts : StartsLine text)
    (hread : ∀ p, (Scan.clauseAt d p).Reads (text ++ '\n' :: rest) (Scan.Gives P p) ('\n' :: rest))
    (hadd : ∀ clause draft, P clause → draft.definition = none →
      draft.attributes.unplaced = a.unplaced → ∃ attributes, attributes.unplaced = a'.unplaced
        ∧ Draft.add source draft clause = .ok
          { draft with joining := false, attributes := attributes })
    (h : Leads d source (Attributed a' v) rest Q) :
    Leads d source (Attributed a v) (text ++ '\n' :: rest) Q := by
  refine Leads.line (hstarts.noTrivia (atBlank_newline rest)) hstarts.ne_nil
    (fun p draft hS => ?_) h
  refine (hread p).mono ?_
  rintro ⟨clause, _⟩ ⟨hclause, rfl⟩
  obtain ⟨attributes, hattributes, hdraft⟩ := hadd clause draft hclause hS.definition hS.attributes
  exact ⟨_, hdraft, hS.defined, hS.openMethod, hS.definition, hS.code, hattributes, hS.pending⟩

theorem leads_signature {s : Located String} (h : isSignature s.value = true) {a : Attributes}
    {rest : List Char}
    (hlead : Leads d source (Attributed { a with signature := some s } v) rest Q) :
    Leads d source (Attributed a v)
      ((textLine (d.word "signature" ++ " " ++ s.value)).toList ++ rest)
      Q := by
  have htext : (textLine (d.word "signature" ++ " " ++ s.value)).toList ++ rest
      = ((d.word "signature").toList ++ ' ' :: s.value.toList) ++ '\n' :: rest := by
    simp [textLine, String.toList_append]
  have hw : Head.Introduces d (d.word "signature") .signature :=
    Head.introduces_word d (by simp [Head.words])
  have hstarts : StartsLine ((d.word "signature").toList ++ ' ' :: s.value.toList) :=
    hw.startsLine (Or.inr rfl)
  rw [htext]
  refine leads_attribute (P := fun clause => ∃ position, clause = .signature ⟨s.value, position⟩)
    hstarts (fun p => ?_) ?_ hlead
  · rw [List.append_assoc]
    exact Scan.reads_signatureClause h (atBlank_newline rest)
  · rintro _ draft ⟨position, rfl⟩ hnone hattributes
    refine ⟨{ draft.attributes with signature := some ⟨s.value, position⟩ }, ?_, ?_⟩
    · simp only [Attributes.unplaced, Attributes.mk.injEq] at hattributes ⊢
      exact ⟨rfl, hattributes.2⟩
    · simp [Draft.add, Draft.addRecognized, hnone]

theorem leads_throws {type : Located String} (h : isSignature type.value = true) {a : Attributes}
    {rest : List Char}
    (hlead : Leads d source (Attributed { a with thrown := a.thrown ++ [type] } v) rest Q) :
    Leads d source (Attributed a v)
      ((textLine (d.word "throws" ++ " " ++ type.value)).toList ++ rest)
      Q := by
  have htext : (textLine (d.word "throws" ++ " " ++ type.value)).toList ++ rest
      = ((d.word "throws").toList ++ ' ' :: type.value.toList) ++ '\n' :: rest := by
    simp [textLine, String.toList_append]
  have hw : Head.Introduces d (d.word "throws") .throws :=
    Head.introduces_word d (by simp [Head.words])
  have hstarts : StartsLine ((d.word "throws").toList ++ ' ' :: type.value.toList) :=
    hw.startsLine (Or.inr rfl)
  rw [htext]
  refine leads_attribute (P := fun clause => ∃ position, clause = .throws ⟨type.value, position⟩)
    hstarts (fun p => ?_) ?_ hlead
  · rw [List.append_assoc]
    exact Scan.reads_throwsClause h (atBlank_newline rest)
  · rintro _ draft ⟨position, rfl⟩ hnone hattributes
    refine ⟨{ draft.attributes with
      thrown := draft.attributes.thrown ++ [⟨type.value, position⟩] }, ?_, ?_⟩
    · simp only [Attributes.unplaced, Attributes.mk.injEq, List.map_append] at hattributes ⊢
      exact ⟨hattributes.1, by rw [hattributes.2.1]; rfl, hattributes.2.2⟩
    · simp [Draft.add, Draft.addRecognized, hnone]

theorem leads_deprecated {a : Attributes} {rest : List Char}
    (hlead : Leads d source (Attributed { a with deprecated := true } v) rest Q) :
    Leads d source (Attributed a v) ((textLine (d.word "deprecated")).toList ++ rest) Q := by
  have htext : (textLine (d.word "deprecated")).toList ++ rest
      = (d.word "deprecated").toList ++ '\n' :: rest := by
    simp [textLine, String.toList_append]
  have hw : Head.Introduces d (d.word "deprecated") .deprecated :=
    Head.introduces_word d (by simp [Head.words])
  have hstarts : StartsLine ((d.word "deprecated").toList ++ []) := hw.startsLine (Or.inl rfl)
  rw [List.append_nil] at hstarts
  rw [htext]
  refine leads_attribute hstarts (fun p => Scan.reads_deprecatedClause (atBlank_newline rest)) ?_
    hlead
  rintro _ draft rfl hnone hattributes
  refine ⟨{ draft.attributes with deprecated := true }, ?_, ?_⟩
  · simp only [Attributes.unplaced, Attributes.mk.injEq] at hattributes ⊢
    exact ⟨hattributes.1, hattributes.2.1, hattributes.2.2.1, trivial⟩
  · simp [Draft.add, Draft.addRecognized, hnone]

theorem leads_thrown {types : List (Located String)}
    (h : ∀ type ∈ types, isSignature type.value = true) {rest : List Char} : ∀ {a : Attributes},
    Leads d source (Attributed { a with thrown := a.thrown ++ types } v) rest Q →
      Leads d source (Attributed a v)
        ((String.join (types.map fun t => textLine (d.word "throws" ++ " " ++ t.value))).toList
          ++ rest)
        Q := by
  induction types with
  | nil =>
      intro a hlead
      rw [List.append_nil] at hlead
      exact hlead
  | cons type types ih =>
      intro a hlead
      rw [List.map_cons, String.join_cons, String.toList_append, List.append_assoc]
      refine leads_throws (h type List.mem_cons_self) ?_
      refine ih (fun t ht => h t (List.mem_cons_of_mem type ht)) ?_
      rw [List.append_assoc]
      exact hlead

/-- Can the attributes other than the annotations stand where they are written? -/
def Attributes.isSpelled (a : Attributes) : Bool :=
  a.signature.all (isSignature ·.value) && a.thrown.all (isSignature ·.value)

theorem Attributes.isSpelled_of_isPlain {a : Attributes} (h : a.isPlain = true) :
    a.isSpelled = true := by
  simp only [isPlain, Bool.and_eq_true, List.all_eq_true] at h
  simp only [isSpelled, Bool.and_eq_true, List.all_eq_true]
  exact ⟨h.1.1, fun type htype => isSignature_of_isPlainWord (h.1.2 type htype)⟩

theorem Attributes.annots_of_isPlain {a : Attributes} (h : a.isPlain = true) : a.annots = [] :=
  List.isEmpty_iff.mp (Bool.and_eq_true_iff.mp h).2

/-- The lines in front of the header, up to those of the annotations. -/
theorem leads_attributes {a : Attributes} (h : a.isSpelled = true) (hannots : a.annots = [])
    {rest : List Char} (hlead : Leads d source (Attributed a v) rest Q) :
    Leads d source (Attributed {} v) ((a.text d).toList ++ rest) Q := by
  obtain ⟨signature, thrown, annots, deprecated⟩ := a
  obtain rfl : annots = [] := hannots
  simp only [Attributes.isSpelled, Bool.and_eq_true, List.all_eq_true] at h
  obtain ⟨hsignature, hthrown⟩ := h
  have hdeprecated : Leads d source (Attributed ⟨signature, thrown, [], false⟩ v)
      ((if deprecated then textLine (d.word "deprecated") else "").toList ++ rest) Q := by
    cases deprecated with
    | false => exact hlead
    | true => exact leads_deprecated hlead
  have hthrows := leads_thrown (a := ⟨signature, [], [], false⟩) hthrown hdeprecated
  have hannots : String.join (([] : List Annot).map fun x => textLine (x.text d)) = "" := rfl
  rw [Attributes.text, hannots, String.append_empty, String.toList_append, String.toList_append,
    List.append_assoc, List.append_assoc]
  cases signature with
  | none => exact hthrows
  | some s =>
      have hsingle : String.join ((some s).toList.map fun s : Located String =>
          textLine (d.word "signature" ++ " " ++ s.value))
            = textLine (d.word "signature" ++ " " ++ s.value) := by
        rw [Option.toList_some, List.map_singleton, String.join_cons]
        exact String.append_empty
      rw [hsingle]
      exact leads_signature hsignature hthrows

/-! ## Bodies -/

/-- There is a definition, which is as `D` says, and the statements have been entered, up to
positions; `inBody` says whether an `end` is still to come. -/
structure Entered (D : Option Definition → Prop) (sts : List Statement) (inBody : Bool)
    (p : Scan.Progress) (draft : Draft) : Prop where
  defined : p.defined = true
  openMethod : p.openMethod.isSome = inBody
  isSome : draft.definition.isSome = true
  definition : D draft.definition
  code : draft.code.map (·.value.unplaced) = sts.map Statement.unplaced

variable {D : Option Definition → Prop} {inBody : Bool}

theorem leads_statement {st : Statement} (hst : StatementRead d st) {sts : List Statement}
    {rest : List Char} (hrest : st.isOpenCall = true → NoMark rest)
    (hlead : Leads d source (Entered D (sts ++ [st]) inBody) rest Q) :
    Leads d source (Entered D sts inBody) ((st.text d).toList ++ '\n' :: rest) Q := by
  have hends : EndsLine st.isOpenCall ('\n' :: rest) := by
    refine ⟨atBlank_newline rest, fun hopen => ?_⟩
    obtain ⟨cs, hgap, hcs⟩ := hrest hopen
    exact ⟨cs, (Scan.BlanksTo.newline rest).trans hgap, hcs⟩
  refine Leads.line (hst.starts.noTrivia hends.blank) hst.starts.ne_nil (fun p draft hS => ?_) hlead
  refine (hst.reads p _ hS.defined hends).mono ?_
  rintro ⟨clause, _⟩ ⟨hclause, rfl⟩
  obtain ⟨e, he, hadd⟩ := hclause source draft hS.isSome
  refine ⟨_, hadd, hS.defined, hS.openMethod, hS.isSome, hS.definition, ?_⟩
  simp [hS.code, he]

/-- Lines of a body, with blanks in front of each. -/
theorem blanksTo_entryText (layout : Layout) (hindent : layout.indent.toList.all isBlank = true)
    (e : Entry) (rest : List Char) : Scan.BlanksTo ((Entry.text layout e).toList ++ rest)
      ((e.value.text layout.dialect).toList ++ '\n' :: rest) := by
  have hindented : (textLine (layout.indent ++ e.value.text layout.dialect)).toList ++ rest
      = layout.indent.toList ++ ((e.value.text layout.dialect).toList ++ '\n' :: rest) := by
    simp [textLine, String.toList_append]
  have hflush : (textLine (e.value.text layout.dialect)).toList ++ rest
      = (e.value.text layout.dialect).toList ++ '\n' :: rest := by
    simp [textLine, String.toList_append]
  unfold Entry.text
  split
  · rw [hflush]
    exact Scan.BlanksTo.refl _
  · rw [hindented]
    exact ⟨layout.indent.toList, List.all_eq_true.mp hindent, rfl⟩

theorem toList_codeText (layout : Layout) (code : Code) :
    (Code.text layout code).toList = code.flatMap fun e => (Entry.text layout e).toList := by
  unfold Code.text
  induction code with
  | nil => rfl
  | cons e code ih =>
      rw [List.map_cons, String.join_cons, String.toList_append, ih, List.flatMap_cons]

/-- A line that does not start with the word `itf`. -/
theorem noMark_line {st : Statement} {rest : List Char}
    (hblank : ((st.text d).toList ++ '\n' :: rest).head?.any isBlank = false)
    (hmark : st.opensMark d = false) : NoMark ((st.text d).toList ++ '\n' :: rest) := by
  refine ⟨_, Scan.BlanksTo.refl _, hblank, ?_⟩
  rw [Scan.keywordOf_append _ (atBlank_newline rest)]
  exact hmark

theorem noMark_code {layout : Layout} (hindent : layout.indent.toList.all isBlank = true)
    {code : Code} (hcode : ∀ e ∈ code, StatementRead layout.dialect e.value)
    (hmark : ∀ e ∈ code, e.value.opensMark layout.dialect = false) {tail : List Char}
    (htail : NoMark tail) : NoMark ((Code.text layout code).toList ++ tail) := by
  rw [toList_codeText]
  cases code with
  | nil => exact htail
  | cons e code =>
      rw [List.flatMap_cons, List.append_assoc]
      obtain ⟨cs, hgap, hcs⟩ := noMark_line ((hcode e List.mem_cons_self).starts.noTrivia
        (atBlank_newline ((code.flatMap fun e => (Entry.text layout e).toList) ++ tail))).blank
        (hmark e List.mem_cons_self)
      exact ⟨cs, (blanksTo_entryText layout hindent e _).trans hgap, hcs⟩

/-- The lines of a body, one statement after another. -/
theorem leads_code (layout : Layout) (hindent : layout.indent.toList.all isBlank = true)
    {tail : List Char} (htail : NoMark tail) {code : Code}
    (hcode : ∀ e ∈ code, StatementRead layout.dialect e.value)
    (hmark : ∀ e ∈ code, e.value.opensMark layout.dialect = false) : ∀ {sts : List Statement},
    Leads layout.dialect source (Entered D (sts ++ code.map Located.value) inBody) tail Q →
      Leads layout.dialect source (Entered D sts inBody)
        ((Code.text layout code).toList ++ tail) Q := by
  induction code with
  | nil =>
      intro sts hlead
      rw [List.map_nil, List.append_nil] at hlead
      exact hlead
  | cons e code ih =>
      intro sts hlead
      obtain ⟨he, hrest⟩ := List.forall_mem_cons.mp hcode
      obtain ⟨-, hmarks⟩ := List.forall_mem_cons.mp hmark
      rw [toList_codeText, List.flatMap_cons, List.append_assoc, ← toList_codeText]
      refine Leads.blanks ?_ (blanksTo_entryText layout hindent e _)
      refine leads_statement he (fun _ => noMark_code hindent hrest hmarks htail) ?_
      refine ih hrest hmarks ?_
      rw [List.append_assoc]
      exact hlead

/-- What comes after the body. -/
def endText : Dialect → String
  | .keyword => ""
  | .directive => textLine "end"

theorem toList_endText_directive : (endText .directive).toList = "end".toList ++ ['\n'] := by
  rw [endText, textLine, String.toList_append]
  rfl

theorem noMark_endText (d : Dialect) : NoMark (endText d).toList := by
  cases d with
  | keyword => exact ⟨[], Scan.BlanksTo.refl _, rfl, rfl⟩
  | directive =>
      rw [toList_endText_directive]
      exact ⟨_, Scan.BlanksTo.refl _, rfl, by decide⟩

theorem Scan.reads_endClause {p : Progress} (hp : p.openMethod.isSome = true) (rest : List Char) :
    (clauseAt .directive p).Reads ("end".toList ++ '\n' :: rest)
      (fun r => r.1 = .bodyEnd ∧ r.2 = { p with openMethod := none }) ('\n' :: rest) := by
  have hw : InWord (fun _ => false) "end".toList := (isWord_of_isPlainWord rfl).inWord
  have hrest := (atBlank_newline rest).endsWord fun _ => false
  have hlower : lowerCase "end" = "end" := by decide
  unfold clauseAt directiveClause
  refine (reads_get _).bind ?_
  intro mark _
  refine (reads_peekWord hw hrest).bind ?_
  intro found hfound
  rw [hfound, hlower, hp]
  refine (reads_word hw hrest).bind fun _ _ => ?_
  refine Reads.pure ?_ _
  exact ⟨rfl, rfl⟩

/-- At the end of the text the listing is complete. -/
theorem leads_done {sts : List Statement}
    (hQ : ∀ p draft, Entered D sts false p draft → Q (.ok draft)) :
    Leads d source (Entered D sts false) [] Q := by
  refine Leads.finish fun p draft hS => ⟨?_, hQ p draft hS⟩
  exact Option.isSome_eq_false_iff.mp hS.openMethod |> Option.isNone_iff_eq_none.mp

/-- The line that closes a body. -/
theorem leads_bodyEnd {sts : List Statement} {rest : List Char}
    (hlead : Leads .directive source (Entered D sts false) rest Q) :
    Leads .directive source (Entered D sts true) ("end".toList ++ '\n' :: rest) Q := by
  refine Leads.line (noTrivia_cons rfl (by decide) _) (List.cons_ne_nil _ _)
    (fun p draft hS => ?_) hlead
  refine (Scan.reads_endClause hS.openMethod rest).mono ?_
  rintro ⟨_, _⟩ ⟨rfl, rfl⟩
  exact ⟨draft, rfl, hS.defined, rfl, hS.isSome, hS.definition, hS.code⟩

/-- After the body the listing is complete. -/
theorem leads_end {sts : List Statement} (hinBody : inBody = decide (d = .directive))
    (hQ : ∀ p draft, Entered D sts false p draft → Q (.ok draft)) :
    Leads d source (Entered D sts inBody) (endText d).toList Q := by
  subst hinBody
  cases d with
  | keyword => exact leads_done hQ
  | directive =>
      rw [toList_endText_directive]
      exact leads_bodyEnd (leads_done hQ)

/-! ## Headers -/

variable {m : MethodDef}

/-- The method is defined, up to positions. -/
def IsMethod (m : MethodDef) (found : Option Definition) : Prop :=
  ∃ m' : MethodDef, found = some (.method m') ∧ m'.unplaced = m.unplaced

/-- The line of the header. -/
def headerLine (m : MethodDef) : Dialect → String
  | .keyword => m.header
  | .directive => "method " ++ String.ofList (spaceBeforeParen m.header.toList)

theorem toList_headerLine_directive (m : MethodDef) :
    (headerLine m .directive).toList = "method".toList
      ++ ' ' :: spaceBeforeParen m.header.toList := by
  simp [headerLine, String.toList_append]

theorem headerLine_ne_nil (m : MethodDef) (d : Dialect) : (headerLine m d).toList ≠ [] := by
  cases d with
  | keyword => simp [headerLine, MethodDef.header, String.toList_append]
  | directive => simp [headerLine, String.toList_append]

theorem noTrivia_headerLine (h : m.Spelled d) (rest : List Char) :
    NoTrivia ((headerLine m d).toList ++ rest) := by
  cases d with
  | keyword => exact Scan.noTrivia_header h rest
  | directive =>
      rw [toList_headerLine_directive]
      exact noTrivia_cons rfl (by decide) _

theorem Defines.entered {clause : Clause} (h : Defines m clause) {p next : Scan.Progress}
    {draft : Draft} (hS : Attributed m.attributes v p draft) (hdefined : next.defined = true)
    (hopen : next.openMethod.isSome = inBody) :
    ∃ draft', draft.add source clause = .ok draft'
      ∧ Entered (IsMethod m) [] inBody next draft' := by
  obtain ⟨m', hm', hadd⟩ := h source draft hS.definition hS.attributes
  exact ⟨_, hadd, hdefined, hopen, rfl, ⟨m', rfl, hm'⟩, by rw [hS.code]; rfl⟩

theorem leads_header (h : m.Spelled d)
    (hclear : d = .directive → Scan.isModifier m.name = false) {rest : List Char}
    (hlead : Leads d source (Entered (IsMethod m) [] (decide (d = .directive))) rest Q) :
    Leads d source (Attributed m.attributes v) ((headerLine m d).toList ++ '\n' :: rest) Q := by
  refine Leads.line (noTrivia_headerLine h _) (headerLine_ne_nil m d)
    (fun p draft hS => ?_) hlead
  cases d with
  | keyword =>
      refine (Scan.reads_keywordHeader h hS.defined _).mono ?_
      rintro ⟨clause, _⟩ ⟨hclause, rfl⟩
      exact hclause.entered hS rfl (by rw [hS.openMethod]; rfl)
  | directive =>
      rw [toList_headerLine_directive, List.append_assoc]
      refine (Scan.reads_directiveHeader h (hclear rfl) hS.defined _).mono ?_
      rintro ⟨clause, _⟩ ⟨hclause, hdefined, hopen⟩
      exact hclause.entered hS hdefined hopen

/-! ## Whole listings -/

theorem toList_write (m : MethodDef) (code : Code) (layout : Layout) :
    (Listing.write layout ⟨.method m, some code⟩).toList
      = (m.attributes.text layout.dialect).toList
        ++ ((headerLine m layout.dialect).toList ++ '\n' ::
        ((Code.text layout code).toList ++ (endText layout.dialect).toList)) := by
  unfold Listing.write MethodDef.text
  cases layout.dialect with
  | keyword => simp [headerLine, endText, textLine, String.toList_append, Listing.body]
  | directive => simp [headerLine, endText, textLine, String.toList_append, Listing.body]

theorem Listing.exists_of_isPlain {l : Listing} (h : l.isPlain = true) : ∃ m code,
    l = ⟨.method m, some code⟩ ∧ m.isPlain = true ∧ ∀ e ∈ code, e.value.isPlain = true := by
  unfold Listing.isPlain at h
  split at h
  · rename_i m code hdefinition hcode
    rw [Bool.and_eq_true, List.all_eq_true] at h
    exact ⟨m, code, by rw [← hdefinition, ← hcode], h⟩
  · cases h

/-- Reading a text, from what it leads to. -/
theorem Listing.read_of_leads {text : String}
    (h : Leads d text.toList (Attributed {} none) text.toList Q) : ∃ result, Q result
      ∧ Listing.read d text = (do
        let draft ← result
        match draft.definition with
        | some definition => return ⟨definition, some draft.code⟩
        | none => throw ⟨.noDefinition, ⟨1, 1, 0, text.toList.length⟩⟩) := by
  refine ⟨_, ?_, Listing.read_eq d text⟩
  exact h _ {} {} (Cursor.start text) ⟨rfl, rfl, rfl, rfl, rfl, rfl⟩ (Cursor.on_start text)
    (fun _ hp => nomatch hp) (Scan.BlanksTo.refl _) (Nat.lt_succ_self _)

/-- The header and the body, after the attributes. -/
theorem leads_method {code : Code} (layout : Layout) (h : m.Spelled layout.dialect)
    (hcode : ∀ e ∈ code, StatementRead layout.dialect e.value)
    (hmark : ∀ e ∈ code, e.value.opensMark layout.dialect = false)
    (hindent : layout.indent.toList.all isBlank = true)
    (hname : layout.dialect = .directive → Scan.isModifier m.name = false)
    (hQ : ∀ p draft, Entered (IsMethod m) (code.map Located.value) false p draft → Q (.ok draft)) :
    Leads layout.dialect source (Attributed m.attributes v) ((headerLine m layout.dialect).toList
      ++ '\n' :: ((Code.text layout code).toList ++ (endText layout.dialect).toList)) Q :=
  leads_header h hname (leads_code layout hindent (noMark_endText _) hcode hmark (leads_end rfl hQ))

theorem leads_write_clear {code : Code} {layout : Layout} (hm : m.isPlain = true)
    (hcode : ∀ e ∈ code, StatementRead layout.dialect e.value)
    (hmark : ∀ e ∈ code, e.value.opensMark layout.dialect = false)
    (hindent : layout.indent.toList.all isBlank = true)
    (hname : layout.dialect = .directive → Scan.isModifier m.name = false)
    (hQ : ∀ p draft, Entered (IsMethod m) (code.map Located.value) false p draft → Q (.ok draft)) :
    Leads layout.dialect source (Attributed {} none)
      (Listing.write layout ⟨.method m, some code⟩).toList Q := by
  rw [toList_write]
  obtain ⟨hspelled, -, hattributes⟩ := MethodDef.spelled_of_isPlain hm
  exact leads_attributes (Attributes.isSpelled_of_isPlain hattributes)
    (Attributes.annots_of_isPlain hattributes)
    (leads_method layout (hspelled _) hcode hmark hindent hname hQ)

theorem leads_write_ambiguous {code : Code} {indent : String} (hm : m.isPlain = true)
    (hcode : ∀ e ∈ code, e.value.isPlain = true) (hindent : indent.toList.all isBlank = true)
    (hambiguous : Listing.isAmbiguous ⟨.method m, some code⟩ = true) (hQ : ∀ e, Q (.error e)) :
    Leads .directive source (Attributed {} none)
      (Listing.write ⟨.directive, indent⟩ ⟨.method m, some code⟩).toList Q := by
  obtain ⟨hspelled, hword, hattributes⟩ := MethodDef.spelled_of_isPlain hm
  rw [toList_write]
  refine leads_attributes (Attributes.isSpelled_of_isPlain hattributes)
    (Attributes.annots_of_isPlain hattributes) ?_
  cases hname : Scan.isModifier m.name with
  | true =>
      refine Leads.of_fails hQ (noTrivia_headerLine (hspelled _) _) (by simp) ?_
      intro p draft hS
      rw [toList_headerLine_directive, List.append_assoc]
      exact Scan.fails_directiveHeader hword hname hS.defined _
  | false =>
      have hany : code.any (·.value.targetsDefault) = true := by
        have h : (Scan.isModifier m.name || code.any (·.value.targetsDefault)) = true := hambiguous
        rwa [hname, Bool.false_or] at h
      obtain ⟨good, bad, more, rfl, hgood, hbad⟩ := Scan.exists_first hany
      have hreads : ∀ e ∈ good, StatementRead .directive e.value := fun e he =>
        .of_isPlain (hcode e (List.mem_append_left _ he)) fun _ => hgood e he
      obtain ⟨hstarts, hread⟩ := Statement.reads_of_targetsDefault
        (hcode bad (List.mem_append_right _ List.mem_cons_self)) hbad
      refine leads_header (hspelled _) (fun _ => hname) ?_
      rw [toList_codeText, List.flatMap_append, List.flatMap_cons, List.append_assoc,
        List.append_assoc, ← toList_codeText, ← toList_codeText]
      have hgap := blanksTo_entryText ⟨.directive, indent⟩ hindent bad
        ((Code.text ⟨.directive, indent⟩ more).toList ++ (endText .directive).toList)
      have htrivia := hstarts.noTrivia (atBlank_newline
        ((Code.text ⟨.directive, indent⟩ more).toList ++ (endText .directive).toList))
      have hmark : ∀ e ∈ good ++ bad :: more, e.value.opensMark .directive = false :=
        fun e he => Statement.opensMark_of_isPlain .directive (hcode e he)
      obtain ⟨cs, hnext, hcs⟩ :=
        noMark_line htrivia.blank (hmark bad (List.mem_append_right _ List.mem_cons_self))
      refine leads_code ⟨.directive, indent⟩ hindent ⟨cs, hgap.trans hnext, hcs⟩ hreads
        (fun e he => hmark e (List.mem_append_left _ he)) ?_
      refine Leads.blanks ?_ hgap
      refine Leads.of_meaningless hQ htrivia (by simp) ?_
      intro p draft hS
      exact hread p _ hS.defined (atBlank_newline _)

end Leads

/-- A plain method listing is given back by its text up to positions, whatever its indent; only an
ambiguous one is not, in the directive dialect, where its text is not readable. -/
theorem Listing.read_write (l : Listing) (layout : Layout) (hplain : l.isPlain = true)
    (hindent : layout.indent.toList.all isBlank = true) :
    (layout.dialect = .keyword ∨ l.isAmbiguous = false →
      ∃ l', Listing.read layout.dialect (l.write layout) = .ok l' ∧ l'.unplaced = l.unplaced)
    ∧ (layout.dialect = .directive ∧ l.isAmbiguous = true →
      ∃ e, Listing.read layout.dialect (l.write layout) = .error e) := by
  obtain ⟨m, code, rfl, hm, hcode⟩ := Listing.exists_of_isPlain hplain
  constructor
  · intro hclear
    have hclear : layout.dialect = .directive →
        Listing.isAmbiguous ⟨.method m, some code⟩ = false := by
      intro hd
      rcases hclear with hkeyword | hclear
      · rw [hkeyword] at hd
        cases hd
      · exact hclear
    have hname : layout.dialect = .directive → Scan.isModifier m.name = false :=
      fun hd => (Bool.or_eq_false_iff.mp (hclear hd)).1
    have hreads : ∀ e ∈ code, StatementRead layout.dialect e.value := by
      refine fun e he => .of_isPlain (hcode e he) ?_
      intro hd
      exact Bool.eq_false_iff.mpr
        (List.any_eq_false.mp (Bool.or_eq_false_iff.mp (hclear hd)).2 e he)
    obtain ⟨_, ⟨draft, rfl, ⟨m', hdefinition, hm'⟩, hdraft⟩, hread⟩ := Listing.read_of_leads
      (Q := fun r => ∃ draft, r = .ok draft
        ∧ (∃ m' : MethodDef, draft.definition = some (.method m') ∧ m'.unplaced = m.unplaced)
        ∧ draft.code.map (·.value.unplaced) = code.map (·.value.unplaced))
      (leads_write_clear hm hreads
        (fun e he => Statement.opensMark_of_isPlain _ (hcode e he)) hindent hname
        fun p draft hS => ⟨draft, rfl, hS.definition, hS.code.trans (List.map_map ..)⟩)
    refine ⟨⟨.method m', some draft.code⟩, ?_, ?_⟩
    · rw [hread]
      show (match draft.definition with | some _ => _ | none => _) = _
      rw [hdefinition]
      rfl
    · simp [unplaced, Definition.unplaced, hm', Code.unplaced_congr hdraft]
  · rintro ⟨hd, hambiguous⟩
    obtain ⟨_, indent⟩ := layout
    subst hd
    obtain ⟨_, ⟨e, rfl⟩, hread⟩ := Listing.read_of_leads (Q := fun r => ∃ e, r = .error e)
      (leads_write_ambiguous hm hcode hindent hambiguous fun e => ⟨e, rfl⟩)
    exact ⟨e, hread⟩

/-- A method with a switch, a handler, a call in front of a label `itf`, and a quoted text. -/
def Listing.dispatch : Listing where
  definition := .method
    { access := 9, name := "dispatch", params := [⟨"I", "key", {}⟩, ⟨"[La/B;", "table", {}⟩],
      result := "V",
      attributes := { signature := some ⟨"<T:La/B;>(I[TT;)V", {}⟩, deprecated := true } }
  code := some
    [⟨.tryCatch "itf" "stop" "stop" none, {}⟩, ⟨.operation (.var .iload "key"), {}⟩,
     ⟨.operation (.tableSwitch (-1) 0 ["itf", "stop"] "itf"), {}⟩,
     ⟨.operation (.method .invokestatic "a/B" "c" "()V" false), {}⟩, ⟨.label "itf", {}⟩,
     ⟨.operation (.line "itf" 7), {}⟩, ⟨.operation (.ldc (.literal (.string "say \"hi\"\n"))), {}⟩,
     ⟨.operation (.plain .pop), {}⟩, ⟨.label "stop", {}⟩, ⟨.operation (.plain .vreturn), {}⟩]

/-- A method that is called `static`. -/
def Listing.namedStatic : Listing where
  definition := .method { access := 0, name := "static", params := [], result := "V" }
  code := some [⟨.operation (.plain .vreturn), {}⟩]

theorem Listing.read_write_dispatch :
    (dispatch.isPlain = true ∧ dispatch.isAmbiguous = false
      ∧ ∃ l', Listing.read .directive (dispatch.write ⟨.directive, "  "⟩) = .ok l'
        ∧ l'.unplaced = dispatch.unplaced)
    ∧ namedStatic.isPlain = true ∧ namedStatic.isAmbiguous = true
    ∧ (∃ l', Listing.read .keyword (namedStatic.write ⟨.keyword, "  "⟩) = .ok l'
      ∧ l'.unplaced = namedStatic.unplaced)
    ∧ ∃ e, Listing.read .directive (namedStatic.write ⟨.directive, "  "⟩) = .error e := by
  have hdispatch : dispatch.isPlain = true ∧ dispatch.isAmbiguous = false := by decide +kernel
  have hstatic : namedStatic.isPlain = true ∧ namedStatic.isAmbiguous = true := by decide +kernel
  have hindent : "  ".toList.all isBlank = true := by decide +kernel
  refine ⟨⟨hdispatch.1, hdispatch.2, ?_⟩, hstatic.1, hstatic.2, ?_, ?_⟩
  · exact (read_write dispatch ⟨.directive, "  "⟩ hdispatch.1 hindent).1 (Or.inr hdispatch.2)
  · exact (read_write namedStatic ⟨.keyword, "  "⟩ hstatic.1 hindent).1 (Or.inl rfl)
  · exact (read_write namedStatic ⟨.directive, "  "⟩ hstatic.1 hindent).2 ⟨rfl, hstatic.2⟩

end JvmListing
