/-
# Headers that are read

Whatever the text, the definition that is read from it has a header that can be written:
`MethodDef.Spelled` and `FieldDef.Spelled` hold of it, if its modifiers have a meaning.

What is known of a name depends on where the modifiers before it end.  They end at the
first word that is none or that no blank follows (`NoModifier`); without modifiers the
header starts with its name, and then nothing else was found to start there.
-/
import JvmListing.Proofs.FieldText
import JvmListing.Proofs.ReadParts

namespace JvmListing

open Lexeme

/-! ## Flags -/

section Flags

variable {target : FlagTarget} {raws : List (Located String)} {access : Access}

theorem applicable_of_accessOf (h : accessOf target raws = .ok access) :
    access = Access.applicable access target := by
  rw [applicable_eq_and, mask_accessOf h]

/-- A modifier that is read is written again. -/
theorem eq_nil_of_modifiers (h : accessOf target raws = .ok access)
    (hnone : Access.modifiers access target = []) : raws = [] := by
  cases raws with
  | nil => rfl
  | cons m raws =>
      rw [accessOf] at h
      split at h
      · cases h
      · rename_i flag hflag
        obtain ⟨others, -, h⟩ := except_bind_eq_ok.mp h
        cases h
        obtain ⟨p, hp, rfl⟩ := Option.map_eq_some_iff.mp hflag
        have hset : Access.has (p.2 ||| others) p.2 = true := by
          rw [Access.has, UInt32.or_comm, or_and_self, beq_self_eq_true]
        have hmem : p.1 ∈ Access.modifiers (p.2 ||| others) target :=
          List.mem_map_of_mem (List.mem_filter.mpr ⟨List.mem_of_find?_eq_some hp, hset⟩)
        rw [hnone] at hmem
        cases hmem

end Flags

namespace Scan

variable {α β : Type} {S : List Char → Prop}

/-! ## Places -/

theorem from_since (mark : Cursor) : From S (since mark) fun _ cs => S cs :=
  from_get.bind fun _ => .pure fun _ h => h.1

theorem from_peek? : From S peek? fun next cs => S cs ∧ next = cs.head? := by
  refine from_get.bind fun mark => .pure ?_
  rintro cs ⟨hS, rfl⟩
  exact ⟨hS, rfl⟩

theorem from_set (mark : Cursor) :
    From S (set mark) fun _ cs => cs = mark.rest ∧ ∃ before, S before := by
  intro c a c' hS hrun
  cases hrun
  exact ⟨rfl, c.rest, hS⟩

/-- After blanks there is none, and what was before them is known. -/
theorem from_skipBlanks : From S skipBlanks fun _ cs => cs.head?.any isBlank = false
    ∧ ∃ before, S before ∧ cs = before.drop (blanksLength before) := by
  intro c a c' hS hrun
  cases hrun
  rw [Cursor.rest_advance]
  exact ⟨head_drop_spanLength isBlank c.rest, c.rest, hS, rfl⟩

/-- The word in front of a text. -/
def frontWord (cs : List Char) : String := String.ofList (cs.take (wordLength (fun _ => false) cs))

theorem frontWord_append {w : String} {rest : List Char} (hw : InWord (fun _ => false) w.toList)
    (hrest : EndsWord (fun _ => false) rest) : frontWord (w.toList ++ rest) = w := by
  rw [frontWord, wordLength_append hw hrest, List.take_left, String.ofList_toList]

/-! ## Modifiers -/

/-- Is the word in front not taken for a modifier? -/
def NoModifier (cs : List Char) : Prop :=
  isModifier (keywordOf cs) = true → ¬ AtBlank (cs.drop (wordLength (· = '(') cs))

theorem noModifier_append {w : String} {rest : List Char} (hw : InWord (· = '(') w.toList)
    (hrest : EndsWord (· = '(') rest) :
    NoModifier (w.toList ++ rest) ↔ (isModifier w = true → ¬ AtBlank rest) := by
  rw [NoModifier, keywordOf, wordLength_append hw hrest, List.take_left, List.drop_left,
    String.ofList_toList]

theorem from_modifier? : From S modifier? fun found cs => (found = none → S cs ∧ NoModifier cs)
    ∧ ∀ m, found = some m → cs.head?.any isBlank = false
      ∧ ∃ before, S before ∧ cs.length < before.length := by
  refine from_get.bind fun mark => (from_upTo (· = '(')).bind fun found => ?_
  refine (from_since mark).bind fun position => from_peek?.bind fun next => ?_
  refine .ite_prop (fun hmodifier => ?_) fun hmodifier => ?_
  · have hne : found.toList ≠ [] := by
      intro hnil
      obtain rfl := String.toList_eq_nil_iff.mp hnil
      exact absurd (Bool.and_eq_true_iff.mp hmodifier).1 (by decide)
    have hpos := List.length_pos_of_ne_nil hne
    refine from_skipBlanks.bind fun _ => .pure ?_
    rintro cs ⟨hblank, before, ⟨⟨⟨hS, -⟩, -⟩, -⟩, rfl⟩
    refine ⟨fun hnone => (nomatch hnone), fun m _ => ⟨hblank, _, hS, ?_⟩⟩
    simp only [List.length_drop, List.length_append]
    omega
  · refine (from_set mark).bind fun _ => .pure ?_
    rintro cs ⟨rfl, before, ⟨⟨hS, hmark⟩, hin, hends⟩, rfl⟩
    refine ⟨fun _ => ?_, fun m hm => nomatch hm⟩
    rw [hmark]
    refine ⟨hS, (noModifier_append hin hends).mpr fun hfound hblank => hmodifier ?_⟩
    rw [hfound, Bool.true_and]
    cases before with
    | nil => cases hblank
    | cons c cs => exact hblank

/-- What stands after modifiers: without any it is what stood before them. -/
structure AfterModifiers (S : List Char → Prop) (raws : List (Located String)) (cs : List Char) :
    Prop where
  noModifier : NoModifier cs
  first : raws = [] → S cs
  next : raws ≠ [] → cs.head?.any isBlank = false

theorem from_repeatModifiers : ∀ (fuel : Nat) {S : List Char → Prop},
    From (fun cs => S cs ∧ cs.length < fuel) (repeatUntil modifier? fuel) (AfterModifiers S)
  | 0, _ => fun _ _ _ h _ => absurd h.2 (Nat.not_lt_zero _)
  | fuel + 1, S => by
      rw [repeatUntil]
      refine from_modifier?.bind fun found => ?_
      cases found with
      | none =>
          refine .pure fun cs h => ?_
          obtain ⟨⟨hS, -⟩, hnone⟩ := h.1 rfl
          exact ⟨hnone, fun _ => hS, fun hne => absurd rfl hne⟩
      | some m =>
          -- a modifier has characters, so what is left of the fuel is still enough
          have ih := from_repeatModifiers fuel (S := fun cs => cs.head?.any isBlank = false)
          refine (ih.mono (fun cs h => ?_) fun _ _ h => h).bind fun raws => .pure fun cs h => ?_
          · obtain ⟨hblank, before, ⟨-, hfuel⟩, hless⟩ := h.2 m rfl
            exact ⟨hblank, by omega⟩
          · refine ⟨h.noModifier, fun hnil => absurd hnil (List.cons_ne_nil _ _), fun _ => ?_⟩
            by_cases hraws : raws = []
            · exact h.first hraws
            · exact h.next hraws

theorem from_modifiers : From S modifiers (AfterModifiers S) := by
  refine from_get.bind fun mark => (from_repeatModifiers _).mono ?_ fun _ _ h => h
  rintro cs ⟨hS, rfl⟩
  exact ⟨hS, Nat.lt_succ_self _⟩

/-! ## Parameters -/

/-- A text that is no descriptor before one blank is none before any other. -/
theorem descriptorLength?_eq_none {w rest rest' : List Char} (hrest' : AtBlank rest')
    (h : descriptorLength? (w ++ rest) = none) :
    descriptorLength? (w ++ rest') = none := by
  cases hlength : descriptorLength? (w ++ rest') with
  | none => rfl
  | some n =>
      obtain ⟨-, hle, hfront⟩ := descriptorLength?_front hlength
      -- no blank is part of a descriptor
      have hn : n ≤ w.length := by
        by_contra hlt
        obtain ⟨x, tail, rfl⟩ : ∃ x tail, rest' = x :: tail := by
          cases rest' with
          | nil => cases hrest'
          | cons x tail => exact ⟨x, tail, rfl⟩
        have hmem : x ∈ (w ++ x :: tail).take n := by
          rw [List.take_append, List.mem_append]
          right
          obtain ⟨k, hk⟩ : ∃ k, n - w.length = k + 1 := ⟨n - w.length - 1, by omega⟩
          rw [hk]
          exact List.mem_cons_self
        have hblank : isBlank x = true := hrest'
        rw [unbroken_descriptorLength? hlength x hmem] at hblank
        cases hblank
      have htake : (w ++ rest').take n = (w ++ rest).take n := by
        rw [List.take_append_of_le_length hn, List.take_append_of_le_length hn]
      have hsame := hfront ((w ++ rest).drop n)
      rw [htake, List.take_append_drop, h] at hsame
      cases hsame

/-- What is known of the descriptor of a parameter, before its name is read. -/
def ParamDesc (desc : String) (cs : List Char) : Prop :=
  isDescText desc = true ∨ EndsWord paramStop cs
    ∧ (AtBlank cs → desc ≠ "" ∧ InWord paramStop desc.toList
    ∧ ∀ rest, AtBlank rest → descriptorLength? (desc.toList ++ rest) = none)

theorem from_paramDesc_none :
    From (fun cs => cs.head?.any isBlank = false ∧ descriptorLength? cs = none) (upTo paramStop)
      ParamDesc := by
  refine (from_upTo paramStop).mono (fun _ h => h) ?_
  rintro desc cs ⟨⟨hblank, hnone⟩, hin, hends⟩
  refine Or.inr ⟨hends, fun hcs => ⟨?_, hin, fun rest hrest => ?_⟩⟩
  · rintro rfl
    have hcs : cs.head?.any isBlank = true := hcs
    rw [show ("" : String).toList ++ cs = cs from rfl, hcs] at hblank
    cases hblank
  · exact descriptorLength?_eq_none hrest hnone

/-- A name after a descriptor that is none stands after a blank. -/
theorem ParamDesc.isSpelled {desc name : String} {before cs : List Char}
    (hdesc : ParamDesc desc before)
    (hbefore : name.toList ++ cs = before.drop (blanksLength before))
    (hin : InWord paramStop name.toList)
    (hne : name ≠ "") (position : Position) : (Param.mk desc name position).IsSpelled := by
  refine ⟨hne, hin, ?_⟩
  rcases hdesc with hdesc | ⟨hends, hdesc⟩
  · exact Or.inl hdesc
  · refine Or.inr (hdesc ?_)
    cases hname : name.toList with
    | nil => exact absurd (String.toList_eq_nil_iff.mp hname) hne
    | cons x xs =>
        rw [hname] at hbefore hin
        cases before with
        | nil => simp at hbefore
        | cons c before =>
            by_cases hc : isBlank c = true
            · exact hc
            · have hc : isBlank c = false := Bool.eq_false_iff.mpr hc
              have hzero : blanksLength (c :: before) = 0 := by simp [blanksLength, spanLength, hc]
              rw [hzero] at hbefore
              obtain ⟨rfl, -⟩ := List.cons.inj hbefore
              have hstop := (hin x List.mem_cons_self).2
              simp [EndsWord, hc, hstop] at hends

/-- Can the parameter be written as it was spelled? -/
def IsSpelledParam (raw : RawParam) : Prop := (Param.mk raw.desc raw.name raw.position).IsSpelled

theorem from_paramName (mark : Cursor) (desc : String) : From (ParamDesc desc) (do
      skipBlanks
      let name ← upTo paramStop
      if name.isEmpty then failSince mark (.missing "parameter name")
      let position ← since mark
      skipBlanks
      let _ ← eat ','
      return some ⟨desc, name, position⟩ : Scan (Option RawParam))
    fun found _ => ∀ raw, found = some raw → IsSpelledParam raw := by
  refine from_skipBlanks.bind fun _ => (from_upTo paramStop).bindYields fun name cs h => ?_
  obtain ⟨⟨-, before, hdesc, hbefore⟩, hin, -⟩ := h
  dsimp only
  split
  · exact .bind (.failSince (P := fun _ => False) _ _) fun _ h => h.elim
  · rename_i hname
    have hne : name ≠ "" := fun h => hname (String.isEmpty_iff.mpr h)
    refine .after fun position => .after fun _ => .after fun _ => .pure ?_
    rintro raw ⟨⟩
    exact hdesc.isSpelled hbefore hin hne position

theorem yields_param? :
    param?.Yields fun found => ∀ raw, found = some raw → IsSpelledParam raw := by
  refine (from_skipBlanks.bind fun _ => (from_eat ')').bind fun closed => ?_).yields
  cases closed with
  | true => exact .of_yields (.pure fun raw hraw => nomatch hraw)
  | false =>
      refine from_atEnd.bind fun ended => .ite ?_ ?_
      · exact .of_yields (.bind (.fail (P := fun _ => False) _) fun _ h => h.elim)
      refine from_get.bind fun mark => from_descriptor?.bind fun found => ?_
      cases found with
      | some desc =>
          exact (from_paramName mark desc).mono (fun cs h => Or.inl (h.1 desc rfl).2) fun _ _ h => h
      | none =>
          refine (from_paramDesc_none.mono (fun cs h => ?_) fun _ _ h => h).bind
            (from_paramName mark)
          obtain ⟨⟨hblank, -⟩, hnone⟩ := h.2 rfl
          exact ⟨((hblank rfl).1).1, hnone⟩

theorem yields_resultType? : resultType?.Yields fun found =>
    ∀ result, found = some result → isResultText result = true := by
  rw [resultType?_eq_piece?]
  refine (from_get.bind fun mark => ?_).yields
  split
  · rename_i n hn
    rintro c found c' ⟨-, hmark⟩ hrun result ⟨⟩
    cases hrun
    rw [hmark] at hn
    exact isResultText_take hn
  · exact .pure fun _ _ result hresult => nomatch hresult

theorem yields_methodSignature : methodSignature.Yields fun r =>
    (∀ raw ∈ r.1, IsSpelledParam raw)
      ∧ ∀ result, r.2 = some result → isResultText result = true := by
  refine .after fun _ =>
    .bind (.after fun c => yields_repeatUntil yields_param? _) fun params hparams => ?_
  exact .bind yields_resultType? fun result hresult => .pure ⟨hparams, hresult⟩

end Scan

/-! ## Definitions -/

/-- Is it a definition that can be written, if its modifiers have a meaning? -/
def Clause.DefinesSpelled (d : Dialect) : Clause → Prop
  | .method raws name params result position => ∀ access attributes text,
      accessOf .method raws = .ok access → result = some text →
        MethodDef.Spelled d ⟨access, name, params.map fun p => ⟨p.desc, p.name, p.position⟩, text,
          attributes, position⟩
  | .field raws name desc _ position => ∀ access value attributes,
    accessOf .field raws = .ok access →
      FieldDef.Spelled d ⟨access, name, desc, value, attributes, position⟩
  | _ => False

namespace Scan

variable {d : Dialect} {raws : List (Located String)} {name : String} {cs : List Char}

/-- What is known of the name of a method where its parameters begin. -/
structure MethodName (d : Dialect) (raws : List (Located String)) (name : String) : Prop where
  ne_empty : name ≠ ""
  inWord : InWord (· = '(') name.toList
  starts : raws = [] → isSignature name = true
  label : d = .keyword → declaredLabel? name = none

theorem MethodName.of_noTrivia {S : List Char → Prop} (hne : name ≠ "")
    (hin : InWord (· = '(') name.toList) (hafter : AfterModifiers S raws (name.toList ++ cs))
    (hS : ∀ cs, S cs → NoTrivia cs) (hlabel : d = .keyword → declaredLabel? name = none) :
    MethodName d raws name :=
  ⟨hne, hin, fun hraws =>
    isSignature_of_noTrivia (hS _ (hafter.first hraws)) (fun c hc => (hin c hc).1) hne, hlabel⟩

theorem MethodName.definesSpelled (h : MethodName d raws name) {params : List RawParam}
    {result : Option String} (hparams : ∀ raw ∈ params, IsSpelledParam raw)
    (hresult : ∀ text, result = some text → isResultText text = true) (position : Position) :
    (Clause.method raws name params result position).DefinesSpelled d := by
  intro access attributes text haccess htext
  exact
    { access := applicable_of_accessOf haccess
      name := h.ne_empty
      inName := h.inWord
      starts := fun hnone => h.starts (eq_nil_of_modifiers haccess hnone)
      label := h.label
      params := List.forall_mem_map.mpr hparams
      result := hresult text htext }

/-- Nothing starts with a word of its own here, and no trivia. -/
structure AtDefinition (cs : List Char) : Prop where
  noTrivia : NoTrivia cs
  head : Head.ofWord? .keyword (frontWord cs) = none

/-- A field of the keyword dialect: a blank stands between its name and its descriptor, so the
name is no modifier. -/
theorem definesSpelled_keywordField (hne : name ≠ "") (hlabel : declaredLabel? name = none)
    (hin : InWord (· = '(') name.toList) (hends : EndsWord (· = '(') cs) (hblank : AtBlank cs)
    (hafter : AfterModifiers AtDefinition raws (name.toList ++ cs)) {desc : String}
    (hdesc : isDescText desc = true) (hfield : isFieldDesc desc = true)
    (value : Option (Located RawLiteral)) (position : Position) :
    (Clause.field raws name desc value position).DefinesSpelled .keyword := by
  have hword : InWord (fun _ => false) name.toList := fun c hc => ⟨(hin c hc).1, rfl⟩
  have hfirst : raws = [] → isSignature name = true ∧ Head.ofWord? .keyword name = none := by
    intro hraws
    have hstart := hafter.first hraws
    refine ⟨isSignature_of_noTrivia hstart.noTrivia (fun c hc => (hin c hc).1) hne, ?_⟩
    rw [← frontWord_append hword (hblank.endsWord _)]
    exact hstart.head
  intro access value attributes haccess
  have hnil : Access.modifiers access .field = [] → raws = [] := eq_nil_of_modifiers haccess
  exact
    { access := applicable_of_accessOf haccess
      name := hne
      inName := hword
      desc := hdesc
      isField := hfield
      modifier := fun _ => Bool.eq_false_iff.mpr fun hmodifier =>
        (noModifier_append hin hends).mp hafter.noModifier hmodifier hblank
      starts := fun h => (hfirst (hnil (h.resolve_left (nomatch ·)))).1
      paren := fun _ hmem => by simpa using (hin '(' hmem).2
      label := fun _ => hlabel
      head := fun _ hnone => (hfirst (hnil hnone)).2 }

theorem from_keywordDefinition? : From AtDefinition keywordDefinition? fun found _ =>
    ∀ clause, found = some clause → clause.DefinesSpelled .keyword := by
  refine from_get.bind fun mark =>
    (from_modifiers.mono (fun _ h => h.1) fun _ _ h => h).bind fun raws => ?_
  refine (from_upTo (· = '(')).bind fun name => .ite_prop (fun _ => ?_) fun hname => ?_
  · exact .of_yields (.after fun _ => .pure fun clause h => nomatch h)
  have hne : name ≠ "" := by
    rintro rfl
    exact hname rfl
  have hlabel : declaredLabel? name = none := by
    cases hdeclared : declaredLabel? name with
    | none => rfl
    | some label => simp [hdeclared] at hname
  refine from_peek?.bind fun next => .ite_prop (fun _ => ?_) fun hparen => ?_
  · refine .knowing ?_
    rintro cs ⟨⟨hafter, hin, -⟩, -⟩
    have hmethod : MethodName .keyword raws name :=
      .of_noTrivia hne hin hafter (fun _ h => h.noTrivia) fun _ => hlabel
    refine .bind yields_methodSignature fun r hr => .after fun position => .pure ?_
    rintro clause ⟨⟩
    exact hmethod.definesSpelled hr.1 hr.2 position
  · refine from_skipBlanks.bind fun _ => from_descriptor?.bindYields fun found cs h => ?_
    cases found with
    | none => exact .after fun _ => .pure fun clause h => nomatch h
    | some desc =>
        obtain ⟨⟨-, before, ⟨⟨hafter, hin, hends⟩, hnext⟩, hbefore⟩, hdesc⟩ := h.1 desc rfl
        refine .after fun next => ?_
        split
        · rename_i hfield
          refine .after fun position => .pure ?_
          rintro clause ⟨⟩
          have hblank : AtBlank before := by
            cases before with
            | nil =>
                obtain ⟨x, xs, hxs, -⟩ := exists_descText hdesc
                rw [hxs] at hbefore
                cases hbefore
            | cons x before =>
                have hx : x ≠ '(' := by
                  rintro rfl
                  exact hparen hnext
                simpa [AtBlank, EndsWord, hx] using hends
          exact definesSpelled_keywordField hne hlabel hin hends hblank hafter hdesc
            (Bool.and_eq_true_iff.mp hfield).1 _ _
        · exact .after fun _ => .pure fun clause h => nomatch h

theorem yields_directiveMethod_spelled (mark : Cursor) :
    (directiveMethod mark).Yields (Clause.DefinesSpelled .directive) := by
  refine (from_skipTrivia.bind fun _ => from_modifiers.bind fun raws => ?_).yields
  refine (from_upTo (· = '(')).bindYields fun name cs h => ?_
  obtain ⟨hafter, hin, -⟩ := h
  dsimp only
  split
  · exact .bind (.failSince (P := fun _ => False) _ _) fun _ h => h.elim
  · rename_i hname
    have hne : name ≠ "" := fun h => hname (String.isEmpty_iff.mpr h)
    have hmethod : MethodName .directive raws name :=
      .of_noTrivia hne hin hafter (fun _ h => h) fun h => nomatch h
    refine .after fun _ => .after fun next => ?_
    split
    · exact .bind (.fail (P := fun _ => False) _) fun _ h => h.elim
    · refine .bind yields_methodSignature fun r hr => .after fun position => .pure ?_
      exact hmethod.definesSpelled hr.1 hr.2 position

theorem definesSpelled_directiveField {name desc : String} (hname : isSignature name = true)
    (hdesc : isDescText desc = true) (hfield : isFieldDesc desc = true)
    (raws : List (Located String)) (value : Option (Located RawLiteral)) (position : Position) :
    (Clause.field raws name desc value position).DefinesSpelled .directive := by
  have hword := isSignature_iff.mp hname
  intro access value attributes haccess
  exact
    { access := applicable_of_accessOf haccess
      name := hword.1
      inName := hword.2.1
      desc := hdesc
      isField := hfield
      modifier := fun h => nomatch h
      starts := fun _ => hname
      paren := fun h => nomatch h
      label := fun h => nomatch h
      head := fun h => nomatch h }

theorem yields_directiveField_spelled (mark : Cursor) :
    (directiveField mark).Yields (Clause.DefinesSpelled .directive) := by
  refine .after fun _ => .after fun raws => .bind (yields_requiredWord _) fun name hname => ?_
  refine .after fun _ =>
    (From.bindYields (from_descriptor? (S := fun _ => True)) fun found cs h => ?_).yields
  cases found with
  | none => exact .after fun _ => .fail _
  | some desc =>
      dsimp only
      split
      · exact .after fun _ => .bind (.fail (P := fun _ => False) _) fun _ h => h.elim
      · rename_i hfield
        have hspelled :=
          definesSpelled_directiveField hname (h.1 desc rfl).2 (by simpa using hfield) raws
        refine .after fun afterDesc => .after fun isLiteral => .ite ?_ ?_
        · exact .after fun value => .after fun position => .pure (hspelled _ _)
        · exact .after fun _ => .after fun position => .pure (hspelled _ _)

end Scan

end JvmListing
