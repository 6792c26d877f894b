/-
# Written headers

The header of a method is read as its definition, in both dialects, if its parts can
stand where they are written (`MethodDef.Spelled`).  In the keyword dialect the bracket
right after the name tells it from a modifier.  The directive dialect has a blank there,
so a method with the name of a modifier has no name left when its header is read.
-/
import JvmListing.Proofs.Clauses
import JvmListing.Proofs.Positions

namespace JvmListing

open Lexeme

/-! ## Parts of headers -/

/-- Does the character end a part of a parameter? -/
def paramStop (c : Char) : Bool := decide (c = ',' ∨ c = ')')

/-- Can the parameter stand in a list of them?  A descriptor that is none is kept as it is written,
so it has to be taken for none again. -/
structure Param.IsSpelled (q : Param) : Prop where
  name : q.name ≠ ""
  inName : InWord paramStop q.name.toList
  desc : isDescText q.desc = true ∨ q.desc ≠ "" ∧ InWord paramStop q.desc.toList
    ∧ ∀ rest, AtBlank rest → descriptorLength? (q.desc.toList ++ rest) = none

/-- Can the parts of the header stand where the dialect writes them? -/
structure MethodDef.Spelled (d : Dialect) (m : MethodDef) : Prop where
  access : m.access = Access.applicable m.access .method
  name : m.name ≠ ""
  inName : InWord (· = '(') m.name.toList
  /-- Without modifiers the header starts with the name. -/
  starts : Access.modifiers m.access .method = [] → isSignature m.name = true
  label : d = .keyword → declaredLabel? m.name = none
  params : ∀ q ∈ m.params, q.IsSpelled
  result : isResultText m.result = true

theorem Param.isSpelled_of_isPlain {q : Param} (hdesc : isPlainFieldDesc q.desc = true)
    (hname : isPlainWord q.name = true) : q.IsSpelled := by
  obtain ⟨t, ht, hdesc⟩ := isPlainFieldDesc_iff.mp hdesc
  have hwritten : t.IsWritten := .of_isPlain (Ty.isPlainConstant_of_isPlain ht)
  refine ⟨ne_empty_of_isPlainWord hname, inWord_of_isPlainWord hname fun c hc => ?_, Or.inl ?_⟩
  · simp [paramStop, ne_of_isNameChar hc (x := ',') rfl, ne_of_isNameChar hc (x := ')') rfl]
  · rw [hdesc]
    exact hwritten.isDescText

/-- A parameter starts with neither a blank nor the bracket that closes the list. -/
theorem Param.IsSpelled.exists_cons {q : Param} (h : q.IsSpelled) :
    ∃ c cs, q.desc.toList = c :: cs ∧ isBlank c = false ∧ c ≠ ')' := by
  rcases h.desc with hdesc | ⟨hne, hin, -⟩
  · obtain ⟨c, cs, hcs, hc⟩ := exists_descText hdesc
    refine ⟨c, cs, hcs, ?_⟩
    rcases hc with hc | rfl | rfl
    · have hname := isNameChar_of_isNameStart hc
      exact ⟨isBlank_of_isVisible (isVisible_of_isNameChar hname), ne_of_isNameChar hname rfl⟩
    · exact ⟨rfl, by decide⟩
    · exact ⟨rfl, by decide⟩
  · cases hcs : q.desc.toList with
    | nil => exact absurd (String.toList_eq_nil_iff.mp hcs) hne
    | cons c cs =>
        rw [hcs] at hin
        obtain ⟨hblank, hstop⟩ := hin c List.mem_cons_self
        refine ⟨c, cs, rfl, hblank, ?_⟩
        rintro rfl
        exact absurd hstop (by decide)

theorem isResultText_of_isPlain {result : String}
    (h : result = "V" ∨ isPlainFieldDesc result = true) : isResultText result = true := by
  rcases h with rfl | h
  · rfl
  · obtain ⟨t, ht, rfl⟩ := isPlainFieldDesc_iff.mp h
    exact isResultText_of_isPlainResult (by simp [Ty.isPlainResult, ht])

theorem MethodDef.spelled_of_isPlain {m : MethodDef} (h : m.isPlain = true) :
    (∀ d, m.Spelled d) ∧ isPlainWord m.name = true ∧ m.attributes.isPlain = true := by
  simp only [isPlain, Bool.and_eq_true, Bool.or_eq_true, decide_eq_true_eq, List.all_eq_true] at h
  obtain ⟨⟨⟨⟨haccess, hname⟩, hparams⟩, hresult⟩, hattributes⟩ := h
  refine ⟨fun d => ?_, hname, hattributes⟩
  exact
    { access := haccess
      name := ne_empty_of_isPlainWord hname
      inName := inWord_of_isPlainWord hname fun _ => paren_of_isNameChar
      starts := fun _ => isSignature_of_isPlainWord hname
      label := fun _ => Scan.declaredLabel?_plain hname
      params := fun q hq => Param.isSpelled_of_isPlain (hparams q hq).1 (hparams q hq).2
      result := isResultText_of_isPlain hresult }

theorem MethodDef.Spelled.isEmpty_name {d : Dialect} {m : MethodDef} (h : m.Spelled d) :
    m.name.isEmpty = false :=
  Bool.eq_false_iff.mpr fun hempty => h.name (String.isEmpty_iff.mp hempty)

/-! ## Modifiers -/

/-- Is the target a member of a class?  Their modifiers are told apart from names. -/
def FlagTarget.OfMember (target : FlagTarget) : Prop := target = .method ∨ target = .field

theorem FlagTarget.OfMember.modifiers_spec {target : FlagTarget} (h : target.OfMember) :
    ∀ m ∈ target.modifiers, isPlainWord m.1 = true ∧ lowerCase m.1 ∉ reservedWords
      ∧ Access.ofModifier? target m.1 = some m.2 := by
  rcases h with rfl | rfl <;> decide

/-- The flags that spelled modifiers stand for are those that the spelled ones came from. -/
theorem accessOf_map_fst {target : FlagTarget} (h : target.OfMember) :
    ∀ {ms : List (String × Access)} {raws : List (Located String)},
    (∀ m ∈ ms, m ∈ target.modifiers) → raws.map Located.value = ms.map Prod.fst →
      accessOf target raws = .ok (ms.foldr (fun m acc => m.2 ||| acc) 0)
  | [], [], _, _ => rfl
  | m :: ms, raw :: raws, hms, hraws => by
      obtain ⟨hraw, hraws⟩ := List.cons.inj hraws
      have hm := (h.modifiers_spec m (hms m List.mem_cons_self)).2.2
      have ih := accessOf_map_fst h (fun x hx => hms x (List.mem_cons_of_mem m hx)) hraws
      rw [accessOf, hraw, hm, ih]
      rfl

theorem foldl_or (ms : List (String × Access)) : ∀ acc : Access,
    ms.foldl (fun acc m => acc ||| m.2) acc = acc ||| ms.foldr (fun m acc => m.2 ||| acc) 0 := by
  induction ms with
  | nil => simp
  | cons m ms ih =>
      intro acc
      rw [List.foldl_cons, List.foldr_cons, ih, UInt32.or_assoc]

theorem accessOf_modifiers {target : FlagTarget} (htarget : target.OfMember) {access : Access}
    (h : access = Access.applicable access target) {raws : List (Located String)}
    (hraws : raws.map Located.value = Access.modifiers access target) :
    accessOf target raws = .ok access := by
  rw [accessOf_map_fst htarget (fun m hm => List.mem_of_mem_filter hm) hraws]
  conv => rhs; rw [h, Access.applicable, foldl_or, UInt32.zero_or]

namespace Scan

theorem reads_modifier {m : String} (hplain : isPlainWord m = true)
    (hmodifier : isModifier m = true) {rest : List Char} (hrest : rest.head?.any isBlank = false) :
    modifier?.Reads (m.toList ++ ' ' :: rest) (fun a => ∃ x, a = some x ∧ x.value = m) rest := by
  unfold modifier?
  refine (reads_get _).bind ?_
  intro mark _
  refine (reads_upTo (inWord_of_isPlainWord hplain fun _ => paren_of_isNameChar)
    ((atBlank_space rest).endsWord _)).bind ?_
  intro found hfound
  refine (reads_since mark _).bind ?_
  intro position _
  refine (reads_peek? _).bind ?_
  intro next hnext
  have hblank : (next.map isBlank).getD false = true := by
    rw [hnext]
    rfl
  rw [hfound, hmodifier, hblank]
  refine (reads_skipBlanks (BlanksTo.space rest) hrest).bind fun _ _ => ?_
  refine Reads.pure ?_ rest
  exact ⟨_, rfl, rfl⟩

theorem reads_modifier_none {w : String} {rest : List Char} (hw : InWord (· = '(') w.toList)
    (hrest : EndsWord (· = '(') rest) (h : isModifier w = false ∨ rest.head?.any isBlank = false) :
    modifier?.Reads (w.toList ++ rest) (· = none) (w.toList ++ rest) := by
  unfold modifier?
  refine (reads_get _).bind ?_
  intro mark hmark
  refine (reads_upTo hw hrest).bind ?_
  intro found hfound
  refine (reads_since mark _).bind ?_
  intro position _
  refine (reads_peek? _).bind ?_
  intro next hnext
  have hnone : (isModifier found && (next.map isBlank).getD false) = false := by
    rw [hfound, hnext, Bool.and_eq_false_iff]
    refine h.imp_right ?_
    intro h
    cases rest with
    | nil => rfl
    | cons c cs => exact h
  rw [hnone]
  refine (reads_set mark rest).bind fun _ _ => ?_
  rw [hmark]
  exact Reads.pure_eq none _

theorem reads_modifiers {ms : List String}
    (hms : ∀ m ∈ ms, isPlainWord m = true ∧ isModifier m = true) {text : List Char}
    (htext : text.head?.any isBlank = false) (hnone : modifier?.Reads text (· = none) text) :
    modifiers.Reads (followed String.toList text ms)
      (fun raws => raws.map Located.value = ms) text := by
  have hcollect : modifiers.Reads (followed String.toList text ms)
      (List.Forall₂ (fun raw m => raw.value = m) · ms) text := by
    refine reads_collect
      (fun us before => (∀ u ∈ us, u ∈ ms) ∧ before = followed String.toList text us) ?_ ?_
      ⟨fun _ h => h, rfl⟩ (length_le_followed _ _ ms)
    · rintro m us _ ⟨hmem, rfl⟩
      obtain ⟨hplain, hmodifier⟩ := hms m (hmem m List.mem_cons_self)
      have hus : ∀ u ∈ us, u ∈ ms := fun u hu => hmem u (List.mem_cons_of_mem m hu)
      refine ⟨followed String.toList text us, ⟨hus, rfl⟩, reads_modifier hplain hmodifier ?_⟩
      cases us with
      | nil => exact htext
      | cons u us =>
          exact ((isWord_of_isPlainWord
            (hms u (hus u List.mem_cons_self)).1).opens.noTrivia _).blank
    · rintro _ ⟨-, rfl⟩
      exact hnone
  refine hcollect.mono ?_
  intro raws hraws
  rwa [← List.forall₂_eq_eq_eq, List.forall₂_map_left_iff]

/-! ## Parameters and results -/

/-- The raw parameter has the descriptor and the name of a parameter. -/
def IsParam (raw : RawParam) (q : Param) : Prop := raw.desc = q.desc ∧ raw.name = q.name

def paramText (q : Param) : List Char := (q.desc ++ " " ++ q.name).toList

/-- The text after a parameter: a comma, which is passed, or the bracket, which is not. -/
def EndsParam (rest after : List Char) : Prop :=
  rest = ',' :: after ∨ rest = after ∧ after.head? = some ')'

theorem EndsParam.exists_cons {rest after : List Char} (h : EndsParam rest after) :
    ∃ c cs, rest = c :: cs ∧ (c = ',' ∨ c = ')') := by
  rcases h with rfl | ⟨rfl, h⟩
  · exact ⟨',', after, rfl, Or.inl rfl⟩
  · obtain ⟨cs, hcs⟩ := List.head?_eq_some_iff.mp h
    exact ⟨')', cs, hcs, Or.inr rfl⟩

theorem EndsParam.reads_comma {rest after : List Char} (h : EndsParam rest after) :
    (eat ',').Reads rest (fun _ => True) after := by
  rcases h with rfl | ⟨rfl, h⟩
  · exact (reads_eat ',' after).mono fun _ _ => trivial
  · refine (reads_eat_none ?_).mono fun _ _ => trivial
    rw [h]
    decide

theorem head_any_isBlank {stop : Char → Bool} {w : String} (hne : w ≠ "")
    (hw : InWord stop w.toList)
    (rest : List Char) : (w.toList ++ rest).head?.any isBlank = false := by
  cases hcs : w.toList with
  | nil => exact absurd (String.toList_eq_nil_iff.mp hcs) hne
  | cons c cs =>
      rw [hcs] at hw
      exact (hw c List.mem_cons_self).1

/-- The name of a parameter, after its descriptor, and the comma after it, if there is one. -/
theorem reads_paramName {q : Param} (h : q.IsSpelled) {rest after : List Char}
    (hrest : EndsParam rest after) (mark : Cursor) :
    (do
      skipBlanks
      let name ← upTo paramStop
      if name.isEmpty then failSince mark (.missing "parameter name")
      let position ← since mark
      skipBlanks
      let _ ← eat ','
      return some ⟨q.desc, name, position⟩ : Scan (Option RawParam)).Reads
      (' ' :: (q.name.toList ++ rest)) (fun a => ∃ raw, a = some raw ∧ IsParam raw q) after := by
  obtain ⟨c, cs, hcs, hc⟩ := hrest.exists_cons
  have hblank : rest.head?.any isBlank = false := by
    rw [hcs]
    rcases hc with rfl | rfl <;> rfl
  have hends : EndsWord paramStop rest := by
    rw [hcs]
    exact endsWord_cons (by simp [paramStop, hc]) cs
  have hempty : q.name.isEmpty = false :=
    Bool.eq_false_iff.mpr fun hempty => h.name (String.isEmpty_iff.mp hempty)
  refine (reads_skipBlanks (BlanksTo.space _) (head_any_isBlank h.name h.inName rest)).bind
    fun _ _ => ?_
  refine (reads_upTo h.inName hends).bind ?_
  intro name hname
  rw [hname, hempty]
  refine (reads_since mark rest).bind ?_
  intro position _
  refine (reads_skipBlanks (BlanksTo.refl rest) hblank).bind fun _ _ => ?_
  refine hrest.reads_comma.bind fun _ _ => ?_
  refine Reads.pure ?_ after
  exact ⟨_, rfl, rfl, rfl⟩

/-- A parameter and the comma after it, if there is one. -/
theorem reads_param {q : Param} (h : q.IsSpelled) {before rest after : List Char}
    (hgap : BlanksTo before (paramText q ++ rest)) (hrest : EndsParam rest after) :
    param?.Reads before (fun a => ∃ raw, a = some raw ∧ IsParam raw q) after := by
  have htext : paramText q ++ rest = q.desc.toList ++ ' ' :: (q.name.toList ++ rest) := by
    simp [paramText, String.toList_append]
  obtain ⟨c, cs, hcs, hblank, hclose⟩ := h.exists_cons
  have hended : (q.desc.toList ++ ' ' :: (q.name.toList ++ rest)).isEmpty = false := by
    rw [hcs]
    rfl
  rw [htext] at hgap
  unfold param?
  refine (reads_skipBlanks hgap (by rw [hcs]; exact hblank)).bind fun _ _ => ?_
  refine (reads_eat_none (by rw [hcs]; simpa using hclose)).bind ?_
  intro closed hclosed
  subst hclosed
  refine (reads_atEnd _).bind ?_
  intro ended hend
  rw [hend, hended]
  refine (reads_get _).bind ?_
  intro mark _
  rcases h.desc with hdesc | ⟨-, hin, hnone⟩
  · refine (reads_descriptor? hdesc _).bind ?_
    intro found hfound
    subst hfound
    refine (Reads.pure_eq q.desc _).bind ?_
    intro desc hdesc
    subst hdesc
    exact reads_paramName h hrest mark
  · refine (reads_descriptor?_none (hnone _ (atBlank_space _))).bind ?_
    intro found hfound
    subst hfound
    refine (reads_upTo hin ((atBlank_space _).endsWord _)).bind ?_
    intro desc hdesc
    subst hdesc
    exact reads_paramName h hrest mark

theorem reads_params {params : List Param} (h : ∀ q ∈ params, q.IsSpelled) (rest : List Char) :
    (collect param?).Reads (listed paramText (')' :: rest) params) (List.Forall₂ IsParam · params)
      rest := by
  refine reads_collect (fun qs before => (∀ q ∈ qs, q ∈ params)
    ∧ BlanksTo before (listed paramText (')' :: rest) qs)) ?_ ?_ ⟨fun _ h => h, BlanksTo.refl _⟩
    (length_le_listed paramText (List.cons_ne_nil _ _) params)
  · rintro q qs before ⟨hmem, hgap⟩
    have hqs : ∀ q' ∈ qs, q' ∈ params := fun q' hq' => hmem q' (List.mem_cons_of_mem q hq')
    have hq := h q (hmem q List.mem_cons_self)
    cases qs with
    | nil => exact ⟨')' :: rest, ⟨hqs, BlanksTo.refl _⟩, reads_param hq hgap (Or.inr ⟨rfl, rfl⟩)⟩
    | cons q' qs =>
        exact ⟨' ' :: listed paramText (')' :: rest) (q' :: qs), ⟨hqs, BlanksTo.space _⟩,
          reads_param hq hgap (Or.inl rfl)⟩
  · rintro before ⟨-, hgap⟩
    unfold param?
    refine (reads_skipBlanks hgap rfl).bind fun _ _ => ?_
    refine (reads_eat ')' rest).bind fun closed hclosed => ?_
    subst hclosed
    exact Reads.pure_eq none rest

/-- The parameters and the result as they are written, in front of a text. -/
def signatureText (m : MethodDef) (rest : List Char) : List Char :=
  '(' :: listed paramText (')' :: (m.result.toList ++ rest)) m.params

theorem reads_methodSignature {m : MethodDef} (hparams : ∀ q ∈ m.params, q.IsSpelled)
    (hresult : isResultText m.result = true) (rest : List Char) :
    methodSignature.Reads (signatureText m rest)
      (fun r => List.Forall₂ IsParam r.1 m.params ∧ r.2 = some m.result) rest := by
  unfold methodSignature signatureText
  refine (reads_expect '(' _).bind fun _ _ => ?_
  refine (reads_params hparams _).bind ?_
  intro params hparams
  refine (reads_resultType? hresult rest).bind ?_
  intro found hfound
  refine Reads.pure ?_ rest
  exact ⟨hparams, hfound⟩

end Scan

/-! ## Texts of headers -/

theorem toList_modifiersText (access : Access) (target : FlagTarget) (tail : List Char) :
    (modifiersText access target).toList ++ tail
      = followed String.toList tail (Access.modifiers access target) := by
  unfold modifiersText
  induction Access.modifiers access target with
  | nil => rfl
  | cons m ms ih =>
      rw [followed, ← ih]
      simp [String.join_cons, String.toList_append]

theorem MethodDef.toList_header (m : MethodDef) (rest : List Char) :
    m.header.toList ++ rest = followed String.toList (m.name.toList ++ Scan.signatureText m rest)
      (Access.modifiers m.access .method) := by
  rw [← toList_modifiersText, Scan.signatureText]
  have hparams := toList_joinWith (fun q : Param => q.desc ++ " " ++ q.name)
    (')' :: (m.result.toList ++ rest)) m.params
  unfold Scan.paramText
  rw [← hparams]
  simp [header, String.toList_append]

theorem spaceBeforeParen_append {cs : List Char} (h : '(' ∉ cs) (rest : List Char) :
    spaceBeforeParen (cs ++ rest) = cs ++ spaceBeforeParen rest := by
  induction cs with
  | nil => rfl
  | cons c cs ih =>
      have hc : c ≠ '(' := fun heq => h (heq ▸ List.mem_cons_self)
      rw [List.cons_append, spaceBeforeParen, if_neg hc,
        ih fun hmem => h (List.mem_cons_of_mem c hmem)]
      rfl

theorem spaceBeforeParen_followed {ms : List String} (h : ∀ m ∈ ms, isPlainWord m = true)
    (tail : List Char) : spaceBeforeParen (followed String.toList tail ms)
      = followed String.toList (spaceBeforeParen tail) ms := by
  induction ms with
  | nil => rfl
  | cons m ms ih =>
      have hm : '(' ∉ m.toList ++ [' '] := by
        intro hmem
        rcases List.mem_append.mp hmem with hmem | hmem
        · exact absurd (isNameChar_of_mem (h m List.mem_cons_self) '(' hmem) (by decide)
        · exact absurd hmem (by decide)
      have happend : ∀ cs : List Char, m.toList ++ ' ' :: cs = (m.toList ++ [' ']) ++ cs := by simp
      rw [followed, followed, happend (followed _ tail ms), happend (followed _ _ ms),
        spaceBeforeParen_append hm, ih fun x hx => h x (List.mem_cons_of_mem m hx)]

theorem FlagTarget.OfMember.modifiers_written {target : FlagTarget} (h : target.OfMember)
    (access : Access) : ∀ s ∈ Access.modifiers access target,
    isPlainWord s = true ∧ Scan.isModifier s = true ∧ lowerCase s ∉ reservedWords := by
  intro s hs
  obtain ⟨p, hp, rfl⟩ := List.mem_map.mp hs
  obtain ⟨hplain, hfree, hflag⟩ := h.modifiers_spec p (List.mem_of_mem_filter hp)
  refine ⟨hplain, ?_, hfree⟩
  rcases h with rfl | rfl <;> simp [Scan.isModifier, hflag]

theorem MethodDef.modifiers_spec (m : MethodDef) : ∀ s ∈ Access.modifiers m.access .method,
    isPlainWord s = true ∧ Scan.isModifier s = true ∧ lowerCase s ∉ reservedWords :=
  FlagTarget.OfMember.modifiers_written (Or.inl rfl) m.access

theorem MethodDef.toList_spacedHeader {m : MethodDef} (h : InWord (· = '(') m.name.toList)
    (rest : List Char) : spaceBeforeParen m.header.toList ++ rest
      = followed String.toList (m.name.toList ++ ' ' :: Scan.signatureText m rest)
        (Access.modifiers m.access .method) := by
  have hname : '(' ∉ m.name.toList := fun hmem => absurd (h '(' hmem).2 (by decide)
  have hspaced : spaceBeforeParen (Scan.signatureText m []) = ' ' :: Scan.signatureText m [] := rfl
  rw [← List.append_nil m.header.toList, m.toList_header,
    spaceBeforeParen_followed fun s hs => (m.modifiers_spec s hs).1, spaceBeforeParen_append hname,
    hspaced, followed_append]
  simp [Scan.signatureText, Scan.listed_append]

/-! ## Definitions -/

/-- The clause defines the method, once its attributes have been read. -/
def Defines (m : MethodDef) (clause : Clause) : Prop :=
  ∀ (source : List Char) (draft : Draft), draft.definition = none →
    draft.attributes.unplaced = m.attributes.unplaced →
    ∃ m' : MethodDef, m'.unplaced = m.unplaced ∧ draft.add source clause
      = .ok { draft with joining := false, definition := some (.method m'), attributes := {} }

theorem defines_method {m : MethodDef} (h : m.access = Access.applicable m.access .method)
    {raws : List (Located String)}
    {params : List RawParam} (hraws : raws.map Located.value = Access.modifiers m.access .method)
    (hparams : List.Forall₂ Scan.IsParam params m.params) (position : Position) :
    Defines m (.method raws m.name params (some m.result) position) := by
  intro source draft hnone hattributes
  have haccess := accessOf_modifiers (Or.inl rfl) h hraws
  refine ⟨⟨m.access, m.name, params.map fun q => ⟨q.desc, q.name, q.position⟩, m.result,
    draft.attributes, position⟩, ?_, ?_⟩
  · have hunplaced : (params.map fun q => Param.mk q.desc q.name q.position).map Param.unplaced
        = m.params.map Param.unplaced := by
      rw [← List.forall₂_eq_eq_eq, List.forall₂_map_right_iff, List.map_map,
        List.forall₂_map_left_iff]
      refine hparams.imp ?_
      intro raw q hq
      simp [Param.unplaced, hq.1, hq.2]
    simp only [MethodDef.unplaced, hunplaced, hattributes]
  · show (accessOf .method raws >>= _) = _
    rw [haccess]
    simp [bind, Except.bind, Draft.define, hnone]

namespace Scan

variable {p : Progress} {m : MethodDef}

/-- A header that starts with a modifier starts with a word that introduces nothing else. -/
theorem reads_peekWord_modifier {s : String} (hplain : isPlainWord s = true)
    (hfree : lowerCase s ∉ reservedWords) (rest : List Char) :
    peekWord.Reads (s.toList ++ ' ' :: rest) (fun w => lowerCase w ∉ reservedWords)
      (s.toList ++ ' ' :: rest) := by
  refine (reads_peekWord (isWord_of_isPlainWord hplain).inWord
    ((atBlank_space _).endsWord _)).mono ?_
  intro w hw
  rw [hw]
  exact hfree

/-- The word that the header of a method starts with introduces nothing else. -/
theorem reads_peekWord_header (h : InWord (· = '(') m.name.toList) (rest : List Char) :
    peekWord.Reads (m.header.toList ++ rest) (fun w => lowerCase w ∉ reservedWords)
      (m.header.toList ++ rest) := by
  rw [m.toList_header]
  have hmodifiers := m.modifiers_spec
  generalize Access.modifiers m.access .method = ms at hmodifiers
  cases ms with
  | nil =>
      refine (reads_get _).bind ?_
      intro c hc
      refine Reads.pure ?_ _
      refine not_mem_reservedWords (c := '(') ?_ (Or.inr rfl)
      rw [String.toList_ofList, hc, wordLength, spanLength,
        ← List.prefix_iff_eq_take.mp (List.takeWhile_prefix _), followed, signatureText,
        List.takeWhile_append_of_pos fun x hx => by simp [(h x hx).1],
        List.takeWhile_cons_of_pos (by decide)]
      simp
  | cons s ms =>
      obtain ⟨hplain, -, hfree⟩ := hmodifiers s List.mem_cons_self
      exact reads_peekWord_modifier hplain hfree _

/-- The modifiers in front of a text that does not start with one. -/
theorem reads_headerModifiers {target : FlagTarget} (htarget : target.OfMember) (access : Access)
    {text : List Char} (htext : text.head?.any isBlank = false)
    (hnone : modifier?.Reads text (· = none) text) :
    modifiers.Reads (followed String.toList text (Access.modifiers access target))
      (fun raws => raws.map Located.value = Access.modifiers access target) text := by
  refine reads_modifiers ?_ htext hnone
  intro s hs
  have hspec := htarget.modifiers_written access s hs
  exact ⟨hspec.1, hspec.2.1⟩

theorem noTrivia_followed {ms : List String} (h : ∀ s ∈ ms, isPlainWord s = true) {tail : List Char}
    (htail : ms = [] → NoTrivia tail) : NoTrivia (followed String.toList tail ms) := by
  cases ms with
  | nil => exact htail rfl
  | cons s ms => exact (isWord_of_isPlainWord (h s List.mem_cons_self)).opens.noTrivia _

theorem noTrivia_header {d : Dialect} (h : m.Spelled d) (rest : List Char) :
    NoTrivia (m.header.toList ++ rest) := by
  rw [m.toList_header]
  refine noTrivia_followed (fun s hs => (m.modifiers_spec s hs).1) fun hnone => ?_
  exact IsWordTo.noTrivia ⟨h.starts hnone, h.inName⟩ (endsWord_cons rfl _) ⟨rfl, rfl⟩

theorem noTrivia_spacedHeader {d : Dialect} (h : m.Spelled d) (rest : List Char) :
    NoTrivia (spaceBeforeParen m.header.toList ++ rest) := by
  rw [m.toList_spacedHeader h.inName]
  refine noTrivia_followed (fun s hs => (m.modifiers_spec s hs).1) fun hnone => ?_
  exact IsWordTo.noTrivia ⟨h.starts hnone, h.inName⟩ ((atBlank_space _).endsWord _) ⟨rfl, rfl⟩

/-! ## Headers of the keyword dialect -/

theorem reads_keywordDefinition (h : m.Spelled .keyword) (rest : List Char) :
    keywordDefinition?.Reads (m.header.toList ++ rest)
      (fun a => ∃ clause, a = some clause ∧ Defines m clause) rest := by
  have hends : EndsWord (· = '(') (signatureText m rest) := endsWord_cons rfl _
  rw [m.toList_header]
  unfold keywordDefinition?
  refine (reads_get _).bind ?_
  intro mark _
  refine (reads_headerModifiers (Or.inl rfl) m.access (head_any_isBlank h.name h.inName _)
    (reads_modifier_none h.inName hends (Or.inr rfl))).bind ?_
  intro raws hraws
  refine (reads_upTo h.inName hends).bind ?_
  intro name hname
  rw [hname, h.isEmpty_name, h.label rfl]
  refine (reads_peek? _).bind ?_
  intro next hnext
  subst hnext
  refine (reads_methodSignature h.params h.result rest).bind ?_
  intro r hr
  refine reads_placed mark ?_ rest
  intro position
  refine ⟨_, rfl, ?_⟩
  rw [hr.2]
  exact defines_method h.access hraws hr.1 position

theorem reads_keywordHeader (h : m.Spelled .keyword) (hp : p.defined = false) (rest : List Char) :
    (clauseAt .keyword p).Reads (m.header.toList ++ rest)
      (fun r => Defines m r.1 ∧ r.2 = { p with defined := true }) rest := by
  unfold clauseAt keywordClause
  refine (reads_peekWord_header h.inName rest).bind ?_
  intro found hfound
  rw [Head.ofWord?_eq_none fun hmem => hfound (List.mem_append_left _ hmem), hp]
  refine (reads_keywordDefinition h rest).bind ?_
  rintro _ ⟨clause, rfl, hclause⟩
  refine Reads.pure ?_ rest
  exact ⟨hclause, rfl⟩

/-! ## Headers of the directive dialect -/

/-- The word `method` opens a method, as long as there is no definition. -/
theorem directiveClause_method (hp : p.defined = false) {c : Cursor} {text : List Char}
    (hc : c.rest = "method".toList ++ ' ' :: text) :
    ∃ c' : Cursor, c'.rest = ' ' :: text ∧ directiveClause p c = (do
      let clause ← directiveMethod c
      return (clause, ⟨true, some (← since c)⟩) : Scan (Clause × Progress)) c' := by
  have hmethod : InWord (fun _ => false) "method".toList := (isWord_of_isPlainWord rfl).inWord
  have hends := (atBlank_space text).endsWord fun _ => false
  have hlower : lowerCase "method" = "method" := by decide
  obtain ⟨_, c₁, rfl, hc₁, hpeek⟩ := (reads_peekWord hmethod hends).run (Clause × Progress) hc
  obtain ⟨_, c₂, -, hc₂, hword⟩ := (reads_word hmethod hends).run (Clause × Progress) hc₁
  have hget : ∀ k : Cursor → Scan (Clause × Progress), (get >>= k) c = k c c := fun _ => rfl
  refine ⟨c₂, hc₂, ?_⟩
  unfold directiveClause
  rw [hget, hpeek, hlower, hp]
  exact hword _

theorem reads_directiveMethod (h : m.Spelled .directive) (hname : isModifier m.name = false)
    (mark : Cursor) (rest : List Char) :
    (directiveMethod mark).Reads (' ' :: (spaceBeforeParen m.header.toList ++ rest)) (Defines m)
      rest := by
  have hends := (atBlank_space (signatureText m rest)).endsWord (· = '(')
  unfold directiveMethod
  refine (reads_skipTrivia (BlanksTo.space _) (noTrivia_spacedHeader h rest)).bind fun _ _ => ?_
  rw [m.toList_spacedHeader h.inName]
  refine (reads_headerModifiers (Or.inl rfl) m.access (head_any_isBlank h.name h.inName _)
    (reads_modifier_none h.inName hends (Or.inl hname))).bind ?_
  intro raws hraws
  refine (reads_upTo h.inName hends).bind ?_
  intro name hfound
  rw [hfound, h.isEmpty_name]
  refine (reads_skipBlanks (BlanksTo.space _) rfl).bind fun _ _ => ?_
  refine (reads_peek? _).bind ?_
  intro next hnext
  subst hnext
  refine (reads_methodSignature h.params h.result rest).bind ?_
  intro r hr
  refine reads_placed mark ?_ rest
  intro position
  rw [hr.2]
  exact defines_method h.access hraws hr.1 position

theorem reads_directiveHeader (h : m.Spelled .directive) (hname : isModifier m.name = false)
    (hp : p.defined = false) (rest : List Char) :
    (clauseAt .directive p).Reads
      ("method".toList ++ ' ' :: (spaceBeforeParen m.header.toList ++ rest))
      (fun r => Defines m r.1 ∧ r.2.defined = true ∧ r.2.openMethod.isSome = true) rest := by
  intro c hc
  obtain ⟨c', hc', hclause⟩ := directiveClause_method hp hc
  rw [clauseAt, hclause]
  refine Reads.bind (reads_directiveMethod h hname c rest) ?_ c' hc'
  intro clause hdefines
  refine reads_placed c ?_ rest
  intro position
  exact ⟨hdefines, rfl, rfl⟩

/-- The name is taken for a modifier, and there is no name after it. -/
theorem fails_directiveMethod (h : isPlainWord m.name = true) (hname : isModifier m.name = true)
    (mark : Cursor) (rest : List Char) :
    (directiveMethod mark).Fails (' ' :: (spaceBeforeParen m.header.toList ++ rest)) := by
  have hms : ∀ s ∈ Access.modifiers m.access .method ++ [m.name],
      isPlainWord s = true ∧ isModifier s = true := by
    intro s hs
    rcases List.mem_append.mp hs with hs | hs
    · exact ⟨(m.modifiers_spec s hs).1, (m.modifiers_spec s hs).2.1⟩
    · obtain rfl := List.mem_singleton.mp hs
      exact ⟨h, hname⟩
  have hnone : modifier?.Reads (signatureText m rest) (· = none) (signatureText m rest) :=
    reads_modifier_none (w := "") (fun _ hc => nomatch hc) (endsWord_cons rfl _) (Or.inr rfl)
  have htext : spaceBeforeParen m.header.toList ++ rest = followed String.toList
      (signatureText m rest) (Access.modifiers m.access .method ++ [m.name]) := by
    rw [m.toList_spacedHeader (inWord_of_isPlainWord h fun _ => paren_of_isNameChar),
      followed_split]
    rfl
  unfold directiveMethod
  rw [htext]
  refine (reads_skipTrivia (BlanksTo.space _)
    (noTrivia_followed (fun s hs => (hms s hs).1) fun hnone => absurd hnone (by simp))).bind_fails
    fun _ _ => ?_
  refine (reads_modifiers hms rfl hnone).bind_fails fun _ _ => ?_
  refine (reads_upTo (w := "") (fun _ hc => nomatch hc) (endsWord_cons rfl _)).bind_fails ?_
  intro name hfound
  subst hfound
  exact fun c _ => ⟨_, rfl⟩

theorem fails_directiveHeader (h : isPlainWord m.name = true) (hname : isModifier m.name = true)
    (hp : p.defined = false) (rest : List Char) :
    (clauseAt .directive p).Fails
      ("method".toList ++ ' ' :: (spaceBeforeParen m.header.toList ++ rest)) := by
  intro c hc
  obtain ⟨c', hc', hclause⟩ := directiveClause_method hp hc
  rw [clauseAt, hclause]
  exact (fails_directiveMethod h hname c rest).bind _ c' hc'

end Scan

end JvmListing
