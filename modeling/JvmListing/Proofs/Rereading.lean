/-
# Reading what was read

A listing that was read from a text is written in the same dialect and read again.  Main
statement: that gives the listing back up to positions, whatever the text was, if the
listing is faithful (`Listing.isFaithful`).  What is read can always be written
(`Listing.spelled_of_read`), so a listing is only unfaithful where a part of it is taken
for something else in its new place:

* a comment that the end of the text closed goes on into the line after it, and a call
  with the descriptor of a field has nothing between its name and its descriptor
  (`Statement.isClosed`);
* two runs of unmatched words with no more than a definition or a comment between them in
  the text, or a call before the word `itf`, come together (`Apart`);
* in the directive dialect, a word `end` in front of the definition or after the body
  stands inside the body and closes it (`keepsEnd`), what follows a field without a value
  is taken for its value (`opensLiteral`), and a name for a modifier.
-/
import JvmListing.Proofs.Bodies

namespace JvmListing

open Lexeme

instance (d : Dialect) (sts : List Statement) : Decidable (Apart d sts) :=
  inferInstanceAs (Decidable (sts.IsChain _))

/-- Is every part of the listing taken for itself where the dialect writes it? -/
def Listing.isFaithful (d : Dialect) (l : Listing) : Bool :=
  let sts := l.body.map Located.value
  sts.all Statement.isClosed && Apart d sts && match d, l.definition with
    | .directive, .method m => !Scan.isModifier m.name && keepsEnd sts
    | .directive, .field f => !Scan.isModifier f.name && (f.value.isSome || !opensLiteral d sts)
    | _, _ => true

section Reread

variable {d : Dialect} {indent : String} {code : Code}

theorem Listing.closed_of_isFaithful {definition : Definition}
    (h : Listing.isFaithful d ⟨definition, some code⟩ = true) :
    (∀ e ∈ code, e.value.isClosed = true) ∧ Apart d (code.map Located.value) := by
  obtain ⟨hclosed, hapart⟩ := Bool.and_eq_true_iff.mp (Bool.and_eq_true_iff.mp h).1
  exact ⟨List.forall_mem_map.mp (List.all_eq_true.mp hclosed), of_decide_eq_true hapart⟩

theorem MethodDef.read_write_spelled {m : MethodDef} (hindent : indent.toList.all isBlank = true)
    (hm : m.Spelled d) (hattributes : m.attributes.Spelled d)
    (hcode : ∀ e ∈ code, e.value.Spelled d)
    (hfaithful : Listing.isFaithful d ⟨.method m, some code⟩ = true) :
    ∃ l', Listing.read d (Listing.write ⟨d, indent⟩ ⟨.method m, some code⟩) = .ok l'
      ∧ l'.unplaced = Listing.unplaced ⟨.method m, some code⟩ := by
  obtain ⟨hclosed, hapart⟩ := Listing.closed_of_isFaithful hfaithful
  have hdirective : d = .directive →
      Scan.isModifier m.name = false ∧ keepsEnd (code.map Located.value) = true := by
    rintro rfl
    simpa [Listing.body] using (Bool.and_eq_true_iff.mp hfaithful).2
  refine Listing.read_of_entered (D := IsMethod m) rfl ?_ fun Q hQ => ?_
  · rintro _ ⟨m', rfl, hm'⟩
    exact ⟨.method m', rfl, congrArg Definition.method hm'⟩
  · rw [toList_write]
    refine leads_annotated hattributes.bare hattributes.annots ?_
    exact leads_methodText ⟨d, indent⟩ hindent hm (fun hd => (hdirective hd).1)
      (fun e he => ⟨hcode e he, hclosed e he⟩) hapart
      (fun hd => (hdirective hd).2) hQ

theorem FieldDef.read_write_spelled {f : FieldDef} (hindent : indent.toList.all isBlank = true)
    (hf : f.Spelled d) (hattributes : f.attributes.Spelled d)
    (hcode : ∀ e ∈ code, e.value.Spelled d)
    (hfaithful : Listing.isFaithful d ⟨.field f, some code⟩ = true) :
    ∃ l', Listing.read d (Listing.write ⟨d, indent⟩ ⟨.field f, some code⟩) = .ok l'
      ∧ l'.unplaced = Listing.unplaced ⟨.field f, some code⟩ := by
  obtain ⟨hclosed, hapart⟩ := Listing.closed_of_isFaithful hfaithful
  have hdirective : d = .directive → Scan.isModifier f.name = false
      ∧ (f.value = none → opensLiteral d (code.map Located.value) = false) := by
    rintro rfl
    obtain ⟨hname, hvalue⟩ := Bool.and_eq_true_iff.mp (Bool.and_eq_true_iff.mp hfaithful).2
    refine ⟨by simpa using hname, fun hnone => ?_⟩
    simpa [hnone, Listing.body] using hvalue
  refine Listing.read_of_entered (D := IsField f) rfl ?_ fun Q hQ => ?_
  · rintro _ ⟨f', rfl, hf'⟩
    exact ⟨.field f', rfl, congrArg Definition.field hf'⟩
  · rw [toList_writeField]
    refine leads_annotated hattributes.bare hattributes.annots ?_
    exact leads_fieldText ⟨d, indent⟩ hindent hf (fun hd => (hdirective hd).1)
      (fun e he => ⟨hcode e he, hclosed e he⟩) hapart
      (fun hd => (hdirective hd).2) hQ

end Reread

/-- Whatever the text, a faithful listing that is read from it is given back by its own text in the
same dialect, up to positions. -/
theorem Listing.read_write_of_read (d : Dialect) (text : String) (l : Listing)
    (hread : Listing.read d text = .ok l) (hfaithful : l.isFaithful d = true) :
    ∃ l', Listing.read d (l.write { dialect := d }) = .ok l' ∧ l'.unplaced = l.unplaced := by
  obtain ⟨definition, code⟩ := l
  obtain ⟨hdefinition, code, rfl, hcode⟩ := Listing.spelled_of_read hread
  have hindent : "    ".toList.all isBlank = true := by decide
  cases definition with
  | method m => exact m.read_write_spelled hindent hdefinition.1 hdefinition.2 hcode hfaithful
  | field f => exact f.read_write_spelled hindent hdefinition.1 hdefinition.2 hcode hfaithful
  | «class» => exact hdefinition.elim

/-- A text with entries of every loose kind, before and after the definition and after its end. -/
def looseText : String :=
  "// about\nmethod run ()V\n expr 1 + 2 END\n nop /* a\n comment */ what\n is  END\nstart: end"

theorem Listing.read_write_of_read_looseText :
    ∃ l, Listing.read .directive looseText = .ok l ∧ l.isFaithful .directive = true
      ∧ l.body.length = 7
      ∧ ∃ l', Listing.read .directive (l.write { dialect := .directive }) = .ok l'
        ∧ l'.unplaced = l.unplaced := by
  have hread : (Listing.read .directive looseText).toOption.any
      (fun l => l.isFaithful .directive && l.body.length = 7) = true := by decide +kernel
  cases h : Listing.read .directive looseText with
  | error e =>
      rw [h] at hread
      cases hread
  | ok l =>
      rw [h] at hread
      have hl : l.isFaithful .directive = true ∧ l.body.length = 7 := by
        simpa [Except.toOption] using hread
      exact ⟨l, rfl, hl.1, hl.2, read_write_of_read .directive looseText l h hl.1⟩

end JvmListing
