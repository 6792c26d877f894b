/-
# Listings with annotations

A definition that carries annotations is written with a line for each of them above its
header.  Main statements, one for each dialect: if all of them are readable, the text
gives the listing back up to positions; if one of them is not, no text at all does.
-/
import JvmListing.Proofs.ReadSpelled

namespace JvmListing

open Lexeme

/-! ## Lines of annotations -/

section Leads

variable {d : Dialect} {source : List Char} {Q : ReadResult Draft → Prop} {v : Option Literal}

theorem Annot.startsLine_text (d : Dialect) (a : Annot) : StartsLine (a.text d).toList := by
  refine ⟨headWord d a.visible, ' ' :: (a.bodyText d).toList, ?_, Or.inr rfl, ?_⟩
  · simp [Annot.text, String.toList_append]
  · cases d <;> cases a.visible <;> decide

theorem leads_annot {x : Annot} (h : x.isSpelled d = true) {a : Attributes} {rest : List Char}
    (hlead : Leads d source (Attributed { a with annots := a.annots ++ [x] } v) rest Q) :
    Leads d source (Attributed a v) ((textLine (x.text d)).toList ++ rest) Q := by
  have htext : (textLine (x.text d)).toList ++ rest = (x.text d).toList ++ '\n' :: rest := by
    simp [textLine, String.toList_append]
  rw [htext]
  refine leads_attribute (Annot.startsLine_text d x)
    (fun p => Scan.reads_annotClause h (atBlank_newline rest)) ?_ hlead
  rintro _ draft ⟨raw, x', rfl, hraw, hx'⟩ hnone hattributes
  refine ⟨{ draft.attributes with annots := draft.attributes.annots ++ [x'] }, ?_, ?_⟩
  · simp only [Attributes.unplaced, Attributes.mk.injEq, List.map_append, List.map_singleton]
      at hattributes ⊢
    exact ⟨hattributes.1, hattributes.2.1, by rw [hattributes.2.2.1, hx'], hattributes.2.2.2⟩
  · show (raw.toAnnot >>= _) = _
    rw [hraw]
    simp [hnone, bind, Except.bind, pure, Except.pure]

theorem leads_annots {xs : List Annot} (h : ∀ x ∈ xs, x.isSpelled d = true) {rest : List Char} :
    ∀ {a : Attributes},
    Leads d source (Attributed { a with annots := a.annots ++ xs } v) rest Q →
      Leads d source (Attributed a v)
        ((String.join (xs.map fun x => textLine (x.text d))).toList ++ rest) Q := by
  induction xs with
  | nil =>
      intro a hlead
      rw [List.append_nil] at hlead
      exact hlead
  | cons x xs ih =>
      intro a hlead
      obtain ⟨hx, hxs⟩ := List.forall_mem_cons.mp h
      rw [List.map_cons, String.join_cons, String.toList_append, List.append_assoc]
      refine leads_annot hx (ih hxs ?_)
      rw [List.append_assoc]
      exact hlead

/-- The attributes without the annotations. -/
def Attributes.bare (a : Attributes) : Attributes := { a with annots := [] }

/-- The lines in front of the header, those of the annotations last. -/
theorem leads_annotated {a : Attributes} (h : a.bare.isSpelled = true)
    (hannots : ∀ x ∈ a.annots, x.isSpelled d = true) {rest : List Char}
    (hlead : Leads d source (Attributed a v) rest Q) :
    Leads d source (Attributed {} v) ((a.text d).toList ++ rest) Q := by
  have htext : a.text d
      = a.bare.text d ++ String.join (a.annots.map fun x => textLine (x.text d)) := by
    have hnone : String.join (([] : List Annot).map fun x => textLine (x.text d)) = "" := rfl
    rw [Attributes.text, Attributes.text, Attributes.bare, hnone, String.append_empty]
  rw [htext, String.toList_append, List.append_assoc]
  exact leads_attributes h rfl (leads_annots hannots hlead)

end Leads

/-! ## Whole listings -/

/-- Is it a method with a body or a field without one, plain apart from annotations and not written
as something else in the dialect? -/
def Listing.isClear (d : Dialect) (l : Listing) : Bool :=
  match l.definition, l.code with
  | .method m, some code => { m with attributes := m.attributes.bare }.isPlain
      && code.all (·.value.isPlain) && (d = .keyword || !l.isAmbiguous)
  | .field f, some [] => { f with attributes := f.attributes.bare }.isPlain && !f.isAmbiguous d
  | _, _ => false

section Read

variable {d : Dialect} {l : Listing}

/-- A text that leads to the definition and the statements of a listing gives it back. -/
theorem Listing.read_of_entered {text : String} {D : Option Definition → Prop} {code : Code}
    (hcode : l.code = some code)
    (hD : ∀ found, D found → ∃ definition, found = some definition
      ∧ definition.unplaced = l.definition.unplaced)
    (h : ∀ Q : ReadResult Draft → Prop,
      (∀ p draft, Entered D (code.map Located.value) false p draft → Q (.ok draft)) →
        Leads d text.toList (Attributed {} none) text.toList Q) :
    ∃ l', Listing.read d text = .ok l' ∧ l'.unplaced = l.unplaced := by
  obtain ⟨_, ⟨draft, rfl, hfound, hdraft⟩, hread⟩ := Listing.read_of_leads (h
    (fun r => ∃ draft, r = .ok draft ∧ D draft.definition
      ∧ draft.code.map (·.value.unplaced) = code.map (·.value.unplaced))
    fun p draft hS => ⟨draft, rfl, hS.definition, hS.code.trans (List.map_map ..)⟩)
  obtain ⟨definition, hdefinition, hunplaced⟩ := hD _ hfound
  refine ⟨⟨definition, some draft.code⟩, ?_, ?_⟩
  · simp [hread, hdefinition, bind, Except.bind, pure, Except.pure]
  · simp [unplaced, hcode, hunplaced, Code.unplaced_congr hdraft]

theorem MethodDef.read_write_annotated {m : MethodDef} {code : Code} {indent : String}
    (hm : { m with attributes := m.attributes.bare }.isPlain = true)
    (hcode : ∀ e ∈ code, e.value.isPlain = true)
    (hclear : d = .keyword ∨ Listing.isAmbiguous ⟨.method m, some code⟩ = false)
    (hindent : indent.toList.all isBlank = true)
    (hformed : ∀ a ∈ m.attributes.annots, a.isFormed = true)
    (hreadable : ∀ a ∈ m.attributes.annots, a.isReadable d = true) :
    ∃ l', Listing.read d (Listing.write ⟨d, indent⟩ ⟨.method m, some code⟩) = .ok l'
      ∧ l'.unplaced = Listing.unplaced ⟨.method m, some code⟩ := by
  obtain ⟨hspelled, -, hattributes⟩ := MethodDef.spelled_of_isPlain hm
  -- a header does not depend on the attributes above it
  have hspelled : m.Spelled d := { hspelled d with }
  have hbare : m.attributes.bare.isSpelled = true := Attributes.isSpelled_of_isPlain hattributes
  have hdirective : d = .directive →
      Scan.isModifier m.name = false ∧ code.any (·.value.targetsDefault) = false := by
    rintro rfl
    exact Bool.or_eq_false_iff.mp (hclear.resolve_left (by decide))
  have hreads : ∀ e ∈ code, StatementRead d e.value := by
    refine fun e he => .of_isPlain (hcode e he) fun hd => ?_
    exact Bool.eq_false_iff.mpr (List.any_eq_false.mp (hdirective hd).2 e he)
  refine Listing.read_of_entered (D := IsMethod m) rfl ?_ fun Q hQ => ?_
  · rintro _ ⟨m', rfl, hm'⟩
    exact ⟨.method m', rfl, congrArg Definition.method hm'⟩
  · rw [toList_write]
    refine leads_annotated hbare
      (fun a ha => Annot.isSpelled_of_isReadable (hformed a ha) (hreadable a ha)) ?_
    exact leads_method ⟨d, indent⟩ hspelled hreads
      (fun e he => Statement.opensMark_of_isPlain d (hcode e he)) hindent
      (fun hd => (hdirective hd).1) hQ

theorem FieldDef.read_write_annotated {f : FieldDef} (indent : String)
    (hf : { f with attributes := f.attributes.bare }.isPlain = true)
    (hclear : f.isAmbiguous d = false)
    (hformed : ∀ a ∈ f.attributes.annots, a.isFormed = true)
    (hreadable : ∀ a ∈ f.attributes.annots, a.isReadable d = true) :
    ∃ l', Listing.read d (Listing.write ⟨d, indent⟩ ⟨.field f, some []⟩) = .ok l'
      ∧ l'.unplaced = Listing.unplaced ⟨.field f, some []⟩ := by
  obtain ⟨hspelled, hmodifier, hattributes⟩ := FieldDef.spelled_of_isPlain hf hclear
  have hspelled : f.Spelled d := { hspelled with }
  have hbare : f.attributes.bare.isSpelled = true := Attributes.isSpelled_of_isPlain hattributes
  refine Listing.read_of_entered (D := IsField f) rfl ?_ fun Q hQ => ?_
  · rintro _ ⟨f', rfl, hf'⟩
    exact ⟨.field f', rfl, congrArg Definition.field hf'⟩
  · rw [toList_writeField]
    refine leads_annotated hbare
      (fun a ha => Annot.isSpelled_of_isReadable (hformed a ha) (hreadable a ha)) ?_
    exact leads_field hspelled (fun _ => hmodifier) (fun _ _ => Scan.noLiteral_end) (leads_done hQ)

/-- With readable annotations a clear listing is given back by its text. -/
theorem Listing.read_write_of_isReadable {indent : String} (hclear : l.isClear d = true)
    (hindent : indent.toList.all isBlank = true)
    (hformed : ∀ a ∈ l.definition.attributes.annots, a.isFormed = true)
    (hreadable : ∀ a ∈ l.definition.attributes.annots, a.isReadable d = true) :
    ∃ l', Listing.read d (l.write ⟨d, indent⟩) = .ok l' ∧ l'.unplaced = l.unplaced := by
  obtain ⟨definition, code⟩ := l
  unfold isClear at hclear
  split at hclear
  · rename_i m code hdefinition hcode
    cases hdefinition
    cases hcode
    simp only [Bool.and_eq_true, List.all_eq_true, Bool.or_eq_true, decide_eq_true_eq,
      Bool.not_eq_true'] at hclear
    obtain ⟨⟨hm, hcode⟩, hclear⟩ := hclear
    exact m.read_write_annotated hm hcode hclear hindent hformed hreadable
  · rename_i f hdefinition hcode
    cases hdefinition
    cases hcode
    simp only [Bool.and_eq_true, Bool.not_eq_true'] at hclear
    exact f.read_write_annotated indent hclear.1 hclear.2 hformed hreadable
  · cases hclear

theorem Definition.annots_unplaced (definition : Definition) :
    definition.unplaced.attributes.annots = definition.attributes.annots.map Annot.unplaced := by
  cases definition <;> rfl

theorem Listing.isReadable_of_read {text : String} (h : Listing.read d text = .ok l) :
    ∀ a ∈ l.definition.attributes.annots, a.isReadable d = true := by
  have hspelled := (Listing.spelled_of_read h).1
  intro a ha
  refine Annot.isReadable_of_isSpelled ?_
  cases hdefinition : l.definition with
  | method m | field f =>
      rw [hdefinition] at hspelled ha
      exact hspelled.2.annots a ha
  | «class» =>
      rw [hdefinition] at hspelled
      exact hspelled.elim

/-- No text gives a listing with an annotation that is not readable. -/
theorem Listing.unplaced_ne_of_read {a : Annot} (ha : a ∈ l.definition.attributes.annots)
    (hreadable : a.isReadable d = false) {text : String} {l' : Listing}
    (hread : Listing.read d text = .ok l') : l'.unplaced ≠ l.unplaced := by
  intro heq
  have hannots : l'.definition.attributes.annots.map Annot.unplaced
      = l.definition.attributes.annots.map Annot.unplaced := by
    rw [← Definition.annots_unplaced, ← Definition.annots_unplaced]
    exact congrArg (fun l : Listing => l.definition.attributes.annots) heq
  -- what was read has an annotation that says the same, and no test looks at positions
  obtain ⟨a', ha', hunplaced⟩ := List.mem_map.mp (hannots ▸ List.mem_map_of_mem ha)
  have hall := Listing.isReadable_of_read hread a' ha'
  rw [Annot.isReadable, ← Annot.all_unplaced, hunplaced, Annot.all_unplaced] at hall
  rw [Annot.isReadable, hall] at hreadable
  cases hreadable

theorem Code.unmatchedTexts_unplaced (code : Code) :
    unmatchedTexts (unplaced code) = unmatchedTexts code := by
  rw [unmatchedTexts, unplaced, List.filterMap_map]
  refine List.filterMap_congr fun e _ => ?_
  obtain ⟨st, position⟩ := e
  cases st <;> rfl

/-- What says the same as a clear listing has no text that was not recognised. -/
theorem Listing.unmatchedTexts_eq_nil {l' : Listing} (hclear : l.isClear d = true)
    (h : l'.unplaced = l.unplaced) : l'.body.unmatchedTexts = [] := by
  have hplain : ∀ e ∈ l.body, e.value.isPlain = true := by
    unfold isClear at hclear
    split at hclear
    · rename_i hcode
      simp only [Bool.and_eq_true, List.all_eq_true] at hclear
      rw [body, hcode]
      exact hclear.1.2
    · rename_i hcode
      rw [body, hcode]
      exact List.forall_mem_nil _
    · cases hclear
  have hbody : ∀ l : Listing, l.unplaced.body = Code.unplaced l.body := by
    rintro ⟨definition, _ | code⟩ <;> rfl
  rw [← Code.unmatchedTexts_unplaced, ← hbody, h, hbody, Code.unmatchedTexts_unplaced,
    Code.unmatchedTexts, List.filterMap_eq_nil_iff]
  intro e he
  have hst := hplain e he
  obtain ⟨st, position⟩ := e
  cases st with
  | unmatched => cases hst
  | _ => rfl

end Read

/-! ## The keyword dialect -/

/-- A clear listing whose annotations are formed is given back by its keyword text up to positions,
if all of them are readable: no constant is an array type or has a blank in its descriptor, and
every handle refers to a member.  No text of the dialect gives any other one. -/
theorem Listing.read_write_keywordAnnots (l : Listing) (indent : String)
    (hclear : l.isClear .keyword = true) (hindent : indent.toList.all isBlank = true)
    (hformed : ∀ a ∈ l.definition.attributes.annots, a.isFormed = true) :
    ((∀ a ∈ l.definition.attributes.annots, a.isReadable .keyword = true) →
      ∃ l', Listing.read .keyword (l.write ⟨.keyword, indent⟩) = .ok l' ∧ l'.unplaced = l.unplaced)
    ∧ ((∃ a ∈ l.definition.attributes.annots, a.isReadable .keyword = false) →
      ∀ text l', Listing.read .keyword text = .ok l' → l'.unplaced ≠ l.unplaced) := by
  refine ⟨Listing.read_write_of_isReadable hclear hindent hformed, ?_⟩
  rintro ⟨a, ha, hreadable⟩ text l' hread
  exact Listing.unplaced_ne_of_read ha hreadable hread

/-- An annotation with arguments of every kind; the name of one and the type in another are
given. -/
def Annot.route (name : String) (type : Ty) : Annot :=
  .mk true "a/Route"
    [("path", .const (.literal (.string "say \"hi\",)=[\n"))),
     (name, .list [.const (.literal (.number (.int (-1)))), .enum "a/Kind" "end", .list []]),
     ("on", .annot (.mk true "a/On" [("type", .const (.type type)),
       ("map", .const (.type (.method [.array (.prim .int), .object "a/B"] (.prim .void))))] {})),
     ("by", .const (.handle ⟨.invokeStatic, "a/B", "c", "([I)V"⟩))] {}

/-- An annotation whose list is called `end`. -/
def Annot.endNamed : Annot := route "end" (.object "a/B")

/-- An annotation that holds an array type. -/
def Annot.arrayTyped : Annot := route "codes" (.array (.prim .int))

/-- A method that carries an annotation. -/
def Listing.annotated (a : Annot) : Listing where
  definition := .method
    { access := 9, name := "run", params := [⟨"I", "key", {}⟩], result := "V",
      attributes := { annots := [a], deprecated := true } }
  code := some [⟨.label "start", {}⟩, ⟨.operation (.plain .vreturn), {}⟩]

theorem Listing.read_write_keywordAnnots_route :
    ((annotated .endNamed).isClear .keyword = true ∧ Annot.endNamed.isFormed = true
      ∧ Annot.endNamed.isReadable .keyword = true
      ∧ ∃ l', Listing.read .keyword ((annotated .endNamed).write ⟨.keyword, "  "⟩) = .ok l'
        ∧ l'.unplaced = (annotated .endNamed).unplaced)
    ∧ (annotated .arrayTyped).isClear .keyword = true ∧ Annot.arrayTyped.isFormed = true
    ∧ Annot.arrayTyped.isReadable .keyword = false
    ∧ ∀ text l', Listing.read .keyword text = .ok l' →
      l'.unplaced ≠ (annotated .arrayTyped).unplaced := by
  have hindent : "  ".toList.all isBlank = true := by decide +kernel
  have hend : (annotated .endNamed).isClear .keyword = true ∧ Annot.endNamed.isFormed = true
      ∧ Annot.endNamed.isReadable .keyword = true := by decide +kernel
  have harray : (annotated .arrayTyped).isClear .keyword = true ∧ Annot.arrayTyped.isFormed = true
      ∧ Annot.arrayTyped.isReadable .keyword = false := by decide +kernel
  refine ⟨⟨hend.1, hend.2.1, hend.2.2, ?_⟩, harray.1, harray.2.1, harray.2.2, ?_⟩
  · refine (read_write_keywordAnnots _ _ hend.1 hindent ?_).1 ?_
    · exact List.forall_mem_singleton.mpr hend.2.1
    · exact List.forall_mem_singleton.mpr hend.2.2
  · refine (read_write_keywordAnnots _ "  " harray.1 hindent ?_).2 ?_
    · exact List.forall_mem_singleton.mpr harray.2.1
    · exact ⟨_, List.mem_singleton_self _, harray.2.2⟩

/-! ## The directive dialect -/

/-- A clear listing whose annotations are formed is given back by its directive text up to
positions, with no text in it that is not recognised, if all of them are readable: no argument has
a name that folds to `end`, no constant has a blank in its descriptor, and every handle refers to
a member.  No text of the dialect gives any other one. -/
theorem Listing.read_write_directiveAnnots (l : Listing) (indent : String)
    (hclear : l.isClear .directive = true) (hindent : indent.toList.all isBlank = true)
    (hformed : ∀ a ∈ l.definition.attributes.annots, a.isFormed = true) :
    ((∀ a ∈ l.definition.attributes.annots, a.isReadable .directive = true) →
      ∃ l', Listing.read .directive (l.write ⟨.directive, indent⟩) = .ok l'
        ∧ l'.unplaced = l.unplaced ∧ l'.body.unmatchedTexts = [])
    ∧ ((∃ a ∈ l.definition.attributes.annots, a.isReadable .directive = false) →
      ∀ text l', Listing.read .directive text = .ok l' → l'.unplaced ≠ l.unplaced) := by
  constructor
  · intro hreadable
    obtain ⟨l', hread, hunplaced⟩ :=
      Listing.read_write_of_isReadable hclear hindent hformed hreadable
    exact ⟨l', hread, hunplaced, Listing.unmatchedTexts_eq_nil hclear hunplaced⟩
  · rintro ⟨a, ha, hreadable⟩ text l' hread
    exact Listing.unplaced_ne_of_read ha hreadable hread

theorem Listing.read_write_directiveAnnots_route :
    ((annotated .arrayTyped).isClear .directive = true ∧ Annot.arrayTyped.isFormed = true
      ∧ Annot.arrayTyped.isReadable .directive = true
      ∧ ∃ l', Listing.read .directive ((annotated .arrayTyped).write ⟨.directive, "  "⟩) = .ok l'
        ∧ l'.unplaced = (annotated .arrayTyped).unplaced ∧ l'.body.unmatchedTexts = [])
    ∧ (annotated .endNamed).isClear .directive = true ∧ Annot.endNamed.isFormed = true
    ∧ Annot.endNamed.isReadable .directive = false
    ∧ ∀ text l', Listing.read .directive text = .ok l' →
      l'.unplaced ≠ (annotated .endNamed).unplaced := by
  have hindent : "  ".toList.all isBlank = true := by decide +kernel
  have harray : (annotated .arrayTyped).isClear .directive = true ∧ Annot.arrayTyped.isFormed = true
      ∧ Annot.arrayTyped.isReadable .directive = true := by decide +kernel
  have hend : (annotated .endNamed).isClear .directive = true ∧ Annot.endNamed.isFormed = true
      ∧ Annot.endNamed.isReadable .directive = false := by decide +kernel
  refine ⟨⟨harray.1, harray.2.1, harray.2.2, ?_⟩, hend.1, hend.2.1, hend.2.2, ?_⟩
  · refine (read_write_directiveAnnots _ _ harray.1 hindent ?_).1 ?_
    · exact List.forall_mem_singleton.mpr harray.2.1
    · exact List.forall_mem_singleton.mpr harray.2.2
  · refine (read_write_directiveAnnots _ "  " hend.1 hindent ?_).2 ?_
    · exact List.forall_mem_singleton.mpr hend.2.1
    · exact ⟨_, List.mem_singleton_self _, hend.2.2⟩

end JvmListing
