/-
# Written fields

The header of a field is read as its definition, if its parts can stand where they are
written (`FieldDef.Spelled`).  In the keyword dialect the constant of the field is a line
before the header; in the directive dialect it is the last part of the header, and where
there is none the scan looks for it past the end of the line (`NoLiteral`).

The name of a field stands between blanks in both dialects, where a modifier may
stand.  A field of the keyword dialect without modifiers starts with its name, which
then may not introduce a construct (`FieldDef.isAmbiguous`).
-/
import JvmListing.Proofs.ListingText

namespace JvmListing

open Lexeme

/-- Has the field a plain header?  Its flags are all modifiers of fields. -/
def FieldDef.isPlain (f : FieldDef) : Bool :=
  f.access = Access.applicable f.access .field && isPlainWord f.name && isPlainFieldDesc f.desc
    && f.attributes.isPlain

/-- Does the dialect write the header of the field as it would write something else? -/
def FieldDef.isAmbiguous (d : Dialect) (f : FieldDef) : Bool :=
  Scan.isModifier f.name || d = .keyword && (Access.modifiers f.access .field).isEmpty
    && (Head.ofWord? .keyword f.name).isSome

/-- Can the parts of the header stand where the dialect writes them? -/
structure FieldDef.Spelled (d : Dialect) (f : FieldDef) : Prop where
  access : f.access = Access.applicable f.access .field
  name : f.name ≠ ""
  inName : InWord (fun _ => false) f.name.toList
  desc : isDescText f.desc = true
  isField : Scan.isFieldDesc f.desc = true
  modifier : d = .keyword → Scan.isModifier f.name = false
  /-- In the directive dialect a comment may stand before the name, and without modifiers the header
  starts with it. -/
  starts : d = .directive ∨ Access.modifiers f.access .field = [] → isSignature f.name = true
  paren : d = .keyword → '(' ∉ f.name.toList
  label : d = .keyword → declaredLabel? f.name = none
  head : d = .keyword → Access.modifiers f.access .field = [] → Head.ofWord? .keyword f.name = none

theorem isFieldDesc_of_isPlain {desc : String} (h : isPlainFieldDesc desc = true) :
    Scan.isFieldDesc desc = true := by
  obtain ⟨t, ht, rfl⟩ := isPlainFieldDesc_iff.mp h
  have := (Ty.head_descriptor_ne (Ty.IsField.of_isPlain ht).1 []).1
  rw [List.append_nil] at this
  simpa [Scan.isFieldDesc] using this

theorem FieldDef.spelled_of_isPlain {d : Dialect} {f : FieldDef} (h : f.isPlain = true)
    (hclear : f.isAmbiguous d = false) :
    f.Spelled d ∧ Scan.isModifier f.name = false ∧ f.attributes.isPlain = true := by
  simp only [isPlain, Bool.and_eq_true, decide_eq_true_eq] at h
  obtain ⟨⟨⟨haccess, hname⟩, hdesc⟩, hattributes⟩ := h
  obtain ⟨hmodifier, hhead⟩ := Bool.or_eq_false_iff.mp hclear
  refine ⟨?_, hmodifier, hattributes⟩
  exact
    { access := haccess
      name := ne_empty_of_isPlainWord hname
      inName := (isWord_of_isPlainWord hname).inWord
      desc := isDescText_of_isPlain (by simp [isPlainDesc, hdesc])
      isField := isFieldDesc_of_isPlain hdesc
      modifier := fun _ => hmodifier
      starts := fun _ => isSignature_of_isPlainWord hname
      paren := fun _ hmem => absurd (isNameChar_of_mem hname '(' hmem) (by decide)
      label := fun _ => Scan.declaredLabel?_plain hname
      head := fun hd hnone => by
        rw [hnone, hd] at hhead
        simpa using hhead }

theorem FieldDef.Spelled.isEmpty_name {d : Dialect} {f : FieldDef} (h : f.Spelled d) :
    f.name.isEmpty = false :=
  Bool.eq_false_iff.mpr fun hempty => h.name (String.isEmpty_iff.mp hempty)

theorem FieldDef.toList_header (f : FieldDef) (rest : List Char) :
    f.header.toList ++ rest = followed String.toList
      (f.name.toList ++ ' ' :: (f.desc.toList ++ rest)) (Access.modifiers f.access .field) := by
  rw [← toList_modifiersText]
  simp [header, String.toList_append]

/-! ## Definitions -/

/-- The clause defines the field, once its attributes and the value `v` have been read. -/
def DefinesField (f : FieldDef) (v : Option Literal) (clause : Clause) : Prop :=
  ∀ (source : List Char) (draft : Draft), draft.definition = none →
    draft.attributes.unplaced = f.attributes.unplaced → draft.pending.map Located.value = v →
    ∃ f' : FieldDef, f'.unplaced = f.unplaced ∧ draft.add source clause
      = .ok { draft with joining := false, definition := some (.field f'), attributes := {} }

/-- Values that say the same are the same up to positions. -/
theorem unplaced_value_congr {v v' : Option (Located Literal)}
    (h : v.map Located.value = v'.map Located.value) :
    v.map Located.unplaced = v'.map Located.unplaced := by
  have hmap : ∀ w : Option (Located Literal),
      w.map Located.unplaced = (w.map Located.value).map fun l => ⟨l, {}⟩ := by
    intro w
    rw [Option.map_map]
    rfl
  rw [hmap, hmap, h]

theorem definesField_pending {f : FieldDef} (h : f.access = Access.applicable f.access .field)
    {raws : List (Located String)}
    (hraws : raws.map Located.value = Access.modifiers f.access .field) (position : Position) :
    DefinesField f (f.value.map Located.value) (.field raws f.name f.desc none position) := by
  intro source draft hnone hattributes hpending
  have haccess := accessOf_modifiers (Or.inr rfl) h hraws
  refine ⟨⟨f.access, f.name, f.desc, draft.pending, draft.attributes, position⟩, ?_, ?_⟩
  · simp only [FieldDef.unplaced, hattributes, unplaced_value_congr hpending]
  · show (accessOf .field raws >>= _) = _
    rw [haccess]
    simp [bind, Except.bind, Draft.define, hnone]

theorem definesField_own {f : FieldDef} (h : f.access = Access.applicable f.access .field)
    {value : Located Literal}
    (hvalue : f.value = some value) {raws : List (Located String)}
    (hraws : raws.map Located.value = Access.modifiers f.access .field)
    {raw : Located RawLiteral} (hraw : literalOf raw = .ok value.value) (position : Position) :
    DefinesField f none (.field raws f.name f.desc (some raw) position) := by
  intro source draft hnone hattributes _
  have haccess := accessOf_modifiers (Or.inr rfl) h hraws
  refine ⟨⟨f.access, f.name, f.desc, some ⟨value.value, raw.position⟩, draft.attributes, position⟩,
    ?_, ?_⟩
  · simp [FieldDef.unplaced, hattributes, hvalue, Located.unplaced]
  · show (accessOf .field raws >>= _) = _
    rw [haccess]
    simp [bind, Except.bind, locatedLiteralOf, hraw, Draft.define, hnone, pure, Except.pure]

/-! ## Headers of the keyword dialect -/

namespace Scan

variable {p : Progress} {f : FieldDef}

/-- The name is not taken for a modifier, whatever comes after the blank. -/
theorem reads_fieldName_none {d : Dialect} (h : f.Spelled d) (hmodifier : isModifier f.name = false)
    (rest : List Char) :
    modifier?.Reads (f.name.toList ++ ' ' :: rest) (· = none) (f.name.toList ++ ' ' :: rest) := by
  have hin : ∀ cs : List Char, (∀ c ∈ cs, c ∈ f.name.toList) → '(' ∉ cs → InWord (· = '(') cs := by
    intro cs hcs hparen c hc
    refine ⟨(h.inName c (hcs c hc)).1, decide_eq_false ?_⟩
    rintro rfl
    exact hparen hc
  by_cases hparen : '(' ∈ f.name.toList
  · -- what could be a modifier ends before the bracket, where no blank follows
    obtain ⟨before, after, hname, hbefore⟩ := List.eq_append_cons_of_mem hparen
    have hword : InWord (· = '(') (String.ofList before).toList := by
      rw [String.toList_ofList]
      exact hin before (fun c hc => hname ▸ List.mem_append_left _ hc) hbefore
    have hread := @reads_modifier_none _ ('(' :: (after ++ ' ' :: rest)) hword (endsWord_cons rfl _)
      (Or.inr rfl)
    rw [hname, List.append_assoc]
    rwa [String.toList_ofList] at hread
  · exact reads_modifier_none (hin _ (fun _ h => h) hparen) ((atBlank_space _).endsWord _)
      (Or.inl hmodifier)

theorem noTrivia_fieldHeader {d : Dialect} (h : f.Spelled d) (rest : List Char) :
    NoTrivia (f.header.toList ++ rest) := by
  rw [f.toList_header]
  refine noTrivia_followed
    (fun s hs => (FlagTarget.OfMember.modifiers_written (Or.inr rfl) f.access s hs).1)
    fun hnone => ?_
  exact (IsWordTo.of_isSignature (h.starts (Or.inr hnone))).noTrivia ((atBlank_space _).endsWord _)
    ⟨rfl, rfl⟩

/-- The first word of the header introduces nothing else. -/
theorem reads_peekWord_fieldHeader (h : f.Spelled .keyword) (rest : List Char) :
    peekWord.Reads (f.header.toList ++ rest) (fun w => Head.ofWord? .keyword w = none)
      (f.header.toList ++ rest) := by
  rw [f.toList_header]
  have hmodifiers := FlagTarget.OfMember.modifiers_written (Or.inr rfl) f.access
  have hhead := h.head rfl
  generalize Access.modifiers f.access .field = ms at hmodifiers hhead
  cases ms with
  | nil =>
      refine (reads_peekWord h.inName ((atBlank_space _).endsWord _)).mono ?_
      intro w hw
      rw [hw]
      exact hhead rfl
  | cons s ms =>
      obtain ⟨hplain, -, hfree⟩ := hmodifiers s List.mem_cons_self
      refine (reads_peekWord_modifier hplain hfree _).mono ?_
      intro w hw
      exact Head.ofWord?_eq_none fun hmem => hw (List.mem_append_left _ hmem)

theorem reads_keywordFieldHeader (h : f.Spelled .keyword) (hp : p.defined = false)
    {rest : List Char} (hrest : AtBlank rest) :
    (clauseAt .keyword p).Reads (f.header.toList ++ rest)
      (fun r => DefinesField f (f.value.map Located.value) r.1 ∧ r.2 = { p with defined := true })
      rest := by
  have hends := (atBlank_space (f.desc.toList ++ rest)).endsWord (· = '(')
  have hname : InWord (· = '(') f.name.toList := by
    refine fun c hc => ⟨(h.inName c hc).1, decide_eq_false ?_⟩
    rintro rfl
    exact h.paren rfl hc
  unfold clauseAt keywordClause
  refine (reads_peekWord_fieldHeader h rest).bind ?_
  intro found hfound
  rw [hfound, hp]
  have hdefinition : keywordDefinition?.Reads (f.header.toList ++ rest)
      (fun a => ∃ clause, a = some clause
        ∧ DefinesField f (f.value.map Located.value) clause) rest := by
    rw [f.toList_header]
    unfold keywordDefinition?
    refine (reads_get _).bind ?_
    intro mark _
    refine (reads_headerModifiers (Or.inr rfl) f.access (head_any_isBlank h.name h.inName _)
      (reads_fieldName_none h (h.modifier rfl) _)).bind ?_
    intro raws hraws
    refine (reads_upTo hname hends).bind ?_
    intro name hname
    rw [hname, h.isEmpty_name, h.label rfl]
    refine (reads_peek? _).bind ?_
    intro next hnext
    subst hnext
    refine (reads_skipBlanks (BlanksTo.space _) (noTrivia_descText h.desc rest).blank).bind
      fun _ _ => ?_
    refine (reads_descriptor? h.desc rest).bind ?_
    intro desc hfound
    subst hfound
    refine (reads_peek? _).bind ?_
    intro next hnext
    have hblank : (next.map isBlank).getD true = true := by
      rw [hnext]
      cases rest with
      | nil => rfl
      | cons c cs => exact hrest
    rw [h.isField, hblank]
    refine reads_placed mark ?_ rest
    intro position
    exact ⟨_, rfl, definesField_pending h.access hraws position⟩
  refine hdefinition.bind ?_
  rintro _ ⟨clause, rfl, hclause⟩
  refine Reads.pure ?_ rest
  exact ⟨hclause, rfl⟩

/-! ## Headers of the directive dialect -/

/-- The constant after a descriptor, or the field without one. -/
def fieldValue (mark : Cursor) (found : List (Located String)) (name desc : String) :
    Scan Clause := do
  let afterDesc ← get
  if ← atLiteral then
    let value ← literal
    return .field found name desc (some value) (← since mark)
  set afterDesc
  return .field found name desc none (← since mark)

theorem reads_directiveFieldHeader (h : f.Spelled .directive)
    (hmodifier : isModifier f.name = false) (hp : p.defined = false)
    {tail after : List Char}
    (hvalue : ∀ (mark : Cursor) (raws : List (Located String)),
      raws.map Located.value = Access.modifiers f.access .field →
      (fieldValue mark raws f.name f.desc).Reads tail (DefinesField f none) after) :
    (clauseAt .directive p).Reads ("field".toList ++ ' ' :: (f.header.toList ++ tail))
      (fun r => DefinesField f none r.1 ∧ r.2 = { p with defined := true }) after := by
  have hw : InWord (fun _ => false) "field".toList := (isWord_of_isPlainWord rfl).inWord
  have hstart := (atBlank_space (f.header.toList ++ tail)).endsWord fun _ => false
  have hlower : lowerCase "field" = "field" := by decide
  unfold clauseAt directiveClause
  refine (reads_get _).bind ?_
  intro mark _
  refine (reads_peekWord hw hstart).bind ?_
  intro found hfound
  rw [hfound, hlower, hp]
  refine (reads_word hw hstart).bind fun _ _ => ?_
  have hfield : (directiveField mark).Reads (' ' :: (f.header.toList ++ tail)) (DefinesField f none)
      after := by
    unfold directiveField
    refine (reads_skipTrivia (BlanksTo.space _) (noTrivia_fieldHeader h tail)).bind fun _ _ => ?_
    rw [f.toList_header]
    refine (reads_headerModifiers (Or.inr rfl) f.access (head_any_isBlank h.name h.inName _)
      (reads_fieldName_none h hmodifier _)).bind ?_
    intro raws hraws
    refine (reads_wordOf (h.starts (Or.inl rfl)) (BlanksTo.refl _) (atBlank_space _)).bind ?_
    intro name hname
    refine (reads_skipTrivia (BlanksTo.space _) (noTrivia_descText h.desc tail)).bind fun _ _ => ?_
    refine (reads_descriptor? h.desc tail).bind ?_
    intro desc hfound
    subst hfound
    dsimp only
    rw [h.isField, hname]
    exact hvalue mark raws hraws
  refine hfield.bind ?_
  intro clause hclause
  refine Reads.pure ?_ after
  exact ⟨hclause, rfl⟩

theorem reads_fieldValue_some (h : f.access = Access.applicable f.access .field)
    {value : Located Literal}
    (hvalue : f.value = some value) (mark : Cursor) {raws : List (Located String)}
    (hraws : raws.map Located.value = Access.modifiers f.access .field) {rest : List Char}
    (hrest : AtBlank rest) :
    (fieldValue mark raws f.name f.desc).Reads (' ' :: (value.value.text.toList ++ rest))
      (DefinesField f none) rest := by
  unfold fieldValue
  refine (reads_get _).bind ?_
  intro afterDesc _
  refine (reads_atLiteral value.value (BlanksTo.space _) (hrest.endsWord _)).bind ?_
  intro found hfound
  subst hfound
  refine (reads_literal value.value (BlanksTo.refl _) (hrest.endsWord _)).bind ?_
  intro raw hraw
  refine reads_placed mark ?_ rest
  intro position
  exact definesField_own h hvalue hraws hraw position

/-- Is there no literal next, trivia apart? -/
structure NoLiteral (cs : List Char) : Prop where
  reads : ∃ after, atLiteral.Reads cs (· = false) after

theorem noLiteral_end : NoLiteral ['\n'] := by
  refine ⟨[], ?_⟩
  unfold atLiteral
  refine (reads_skipTrivia (BlanksTo.newline []) ⟨rfl, rfl⟩).bind fun _ _ => ?_
  refine (reads_get _).bind ?_
  intro c hc
  rw [hc]
  exact Reads.pure_eq false []

/-- Without a literal next there is no constant, and the look for it leaves no trace. -/
theorem reads_fieldValue_none (h : f.access = Access.applicable f.access .field)
    (hvalue : f.value = none) (mark : Cursor) {raws : List (Located String)}
    (hraws : raws.map Located.value = Access.modifiers f.access .field) {rest : List Char}
    (hrest : NoLiteral rest) :
    (fieldValue mark raws f.name f.desc).Reads rest (DefinesField f none) rest := by
  obtain ⟨after, hliteral⟩ := hrest.reads
  unfold fieldValue
  refine (reads_get _).bind ?_
  intro afterDesc hafter
  refine hliteral.bind ?_
  intro found hfound
  subst hfound
  refine (reads_set afterDesc after).bind fun _ _ => ?_
  rw [hafter]
  refine reads_placed mark ?_ _
  intro position
  have := definesField_pending h hraws position
  rwa [hvalue] at this

end Scan

/-! ## Whole fields -/

section Leads

variable {d : Dialect} {source : List Char} {Q : ReadResult Draft → Prop} {f : FieldDef}

/-- The field is defined, up to positions. -/
def IsField (f : FieldDef) (found : Option Definition) : Prop :=
  ∃ f' : FieldDef, found = some (.field f') ∧ f'.unplaced = f.unplaced

theorem DefinesField.entered {v : Option Literal} {clause : Clause} (h : DefinesField f v clause)
    {p : Scan.Progress} {draft : Draft} (hS : Attributed f.attributes v p draft) :
    ∃ draft', draft.add source clause = .ok draft'
      ∧ Entered (IsField f) [] false { p with defined := true } draft' := by
  obtain ⟨f', hf', hadd⟩ := h source draft hS.definition hS.attributes hS.pending
  refine ⟨_, hadd, rfl, ?_, rfl, ⟨f', rfl, hf'⟩, ?_⟩
  · rw [hS.openMethod]
    rfl
  · rw [hS.code]
    rfl

/-- A constant before the header. -/
theorem leads_value {a : Attributes} (l : Literal) {rest : List Char}
    (hlead : Leads d source (Attributed a (some l)) rest Q) :
    Leads d source (Attributed a none) ((textLine (d.word "value" ++ " " ++ l.text)).toList ++ rest)
      Q := by
  have htext : (textLine (d.word "value" ++ " " ++ l.text)).toList ++ rest
      = ((d.word "value").toList ++ ' ' :: l.text.toList) ++ '\n' :: rest := by
    simp [textLine, String.toList_append]
  have hw : Head.Introduces d (d.word "value") .value :=
    Head.introduces_word d (by simp [Head.words])
  have hstarts : StartsLine ((d.word "value").toList ++ ' ' :: l.text.toList) :=
    hw.startsLine (Or.inr rfl)
  rw [htext]
  refine Leads.line (hstarts.noTrivia (atBlank_newline rest)) hstarts.ne_nil
    (fun p draft hS => ?_) hlead
  rw [List.append_assoc]
  refine (Scan.reads_valueClause l (atBlank_newline rest)).mono ?_
  rintro ⟨_, _⟩ ⟨⟨raw, rfl, hraw⟩, rfl⟩
  refine ⟨{ draft with joining := false, pending := some ⟨l, raw.position⟩ }, ?_, hS.defined,
    hS.openMethod, hS.definition, hS.code, hS.attributes, rfl⟩
  show (locatedLiteralOf raw >>= _) = _
  simp [locatedLiteralOf, hraw, hS.definition, bind, Except.bind, pure, Except.pure]

/-- The lines of a field after its attributes. -/
def fieldLines (f : FieldDef) (d : Dialect) : String :=
  match d, f.value with
  | .keyword, some v => textLine ("VALUE " ++ v.value.text) ++ textLine f.header
  | .keyword, none => textLine f.header
  | .directive, some v => textLine ("field " ++ f.header ++ " " ++ v.value.text)
  | .directive, none => textLine ("field " ++ f.header)

theorem leads_keywordField (h : f.Spelled .keyword) {rest : List Char}
    (hlead : Leads .keyword source (Entered (IsField f) [] false) rest Q) :
    Leads .keyword source (Attributed f.attributes none) ((fieldLines f .keyword).toList ++ rest)
      Q := by
  have hheader : Leads .keyword source (Attributed f.attributes (f.value.map Located.value))
      ((textLine f.header).toList ++ rest) Q := by
    have htext : (textLine f.header).toList ++ rest = f.header.toList ++ '\n' :: rest := by
      simp [textLine, String.toList_append]
    rw [htext]
    refine Leads.line (Scan.noTrivia_fieldHeader h _) ?_ (fun p draft hS => ?_) hlead
    · simp [FieldDef.header, String.toList_append]
    · refine (Scan.reads_keywordFieldHeader h hS.defined (atBlank_newline rest)).mono ?_
      rintro ⟨clause, _⟩ ⟨hclause, rfl⟩
      exact hclause.entered hS
  unfold fieldLines
  cases hvalue : f.value with
  | none =>
      rw [hvalue] at hheader
      exact hheader
  | some v =>
      rw [hvalue] at hheader
      rw [String.toList_append, List.append_assoc]
      exact leads_value v.value hheader

theorem leads_directiveField (h : f.Spelled .directive) (hmodifier : Scan.isModifier f.name = false)
    {rest : List Char}
    (hliteral : f.value = none → Scan.NoLiteral ('\n' :: rest))
    (hlead : Leads .directive source (Entered (IsField f) [] false) rest Q) :
    Leads .directive source (Attributed f.attributes none)
      ((fieldLines f .directive).toList ++ rest)
      Q := by
  have hline : ∀ tail : List Char, (∀ (mark : Cursor) (raws : List (Located String)),
      raws.map Located.value = Access.modifiers f.access .field →
      (Scan.fieldValue mark raws f.name f.desc).Reads (tail ++ '\n' :: rest) (DefinesField f none)
        ('\n' :: rest)) →
      Leads .directive source (Attributed f.attributes none)
        (("field".toList ++ ' ' :: (f.header.toList ++ tail)) ++ '\n' :: rest) Q := by
    intro tail hvalue
    refine Leads.line (noTrivia_cons rfl (by decide) _) (by simp) (fun p draft hS => ?_) hlead
    rw [List.append_assoc, List.cons_append, List.append_assoc]
    refine (Scan.reads_directiveFieldHeader h hmodifier hS.defined hvalue).mono ?_
    rintro ⟨clause, _⟩ ⟨hclause, rfl⟩
    exact hclause.entered hS
  unfold fieldLines
  cases hvalue : f.value with
  | none =>
      have htext : (textLine ("field " ++ f.header)).toList ++ rest
          = ("field".toList ++ ' ' :: (f.header.toList ++ [])) ++ '\n' :: rest := by
        simp [textLine, String.toList_append]
      dsimp only
      rw [htext]
      exact hline [] fun mark raws hraws =>
        Scan.reads_fieldValue_none h.access hvalue mark hraws (hliteral hvalue)
  | some v =>
      have htext : (textLine ("field " ++ f.header ++ " " ++ v.value.text)).toList ++ rest
          = ("field".toList ++ ' ' :: (f.header.toList ++ ' ' :: v.value.text.toList))
            ++ '\n' :: rest := by
        simp [textLine, String.toList_append]
      dsimp only
      rw [htext]
      refine hline _ fun mark raws hraws => ?_
      exact Scan.reads_fieldValue_some h.access hvalue mark hraws (atBlank_newline rest)

/-- The lines of a field, after which its body is read on. -/
theorem leads_field (h : f.Spelled d) (hclear : d = .directive → Scan.isModifier f.name = false)
    {rest : List Char}
    (hliteral : d = .directive → f.value = none → Scan.NoLiteral ('\n' :: rest))
    (hlead : Leads d source (Entered (IsField f) [] false) rest Q) :
    Leads d source (Attributed f.attributes none) ((fieldLines f d).toList ++ rest) Q := by
  cases d with
  | keyword => exact leads_keywordField h hlead
  | directive => exact leads_directiveField h (hclear rfl) (hliteral rfl) hlead

theorem toList_writeField (f : FieldDef) (code : Code) (layout : Layout) :
    (Listing.write layout ⟨.field f, some code⟩).toList = (f.attributes.text layout.dialect).toList
      ++ ((fieldLines f layout.dialect).toList ++ (Code.text layout code).toList) := by
  show (f.attributes.text layout.dialect ++ fieldLines f layout.dialect
    ++ Code.text layout code).toList = _
  rw [String.toList_append, String.toList_append, List.append_assoc]

end Leads

end JvmListing
