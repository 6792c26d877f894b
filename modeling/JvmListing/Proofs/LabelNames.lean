/-
# Generated label names are distinct

A generated name is a number in base 26 with the digits 1 to 26, so it can be read
back, and names with different indices differ.  `LabelNames.Numbered` says that the
names of a method are those with the indices below `count`, each handed out once.
-/
import JvmListing.Disassembly.Member
import JvmListing.Proofs.SlotTable
import Mathlib.Data.List.Nodup
import Mathlib.Data.List.Range
import Mathlib.Tactic.Common

namespace JvmListing

/-! ## Reading a name back -/

/-- One more than the index of the name with the given letters. -/
def letterCount (letters : List Char) : Nat :=
  letters.foldl (fun n c => n * 26 + (c.toNat - 'A'.toNat + 1)) 0

theorem letterCount_concat (letters : List Char) (c : Char) :
    letterCount (letters ++ [c]) = letterCount letters * 26 + (c.toNat - 'A'.toNat + 1) := by
  unfold letterCount
  rw [List.foldl_append]
  rfl

theorem toNat_capitalLetter {i : Nat} (h : i < 26) : (capitalLetter i).toNat = 'A'.toNat + i := by
  have hall : ∀ i < 26, (capitalLetter i).toNat = 'A'.toNat + i := by decide
  exact hall i h

theorem letterCount_labelLetters : ∀ {fuel index : Nat}, index ≤ fuel →
    letterCount (labelLetters fuel index) = index + 1
  | 0, index, h => by
      obtain rfl := Nat.le_zero.mp h
      rfl
  | fuel + 1, index, h => by
      rw [labelLetters]
      split
      · rename_i hsmall
        simp [letterCount, toNat_capitalLetter hsmall]
      · have hrest : index / 26 - 1 ≤ fuel := by omega
        rw [letterCount_concat, letterCount_labelLetters hrest,
          toNat_capitalLetter (Nat.mod_lt index (by decide))]
        omega

theorem labelName_injective : Function.Injective labelName := by
  intro i j h
  have hletters : labelLetters i i = labelLetters j j := by
    simpa [labelName] using congrArg String.toList h
  have hcount := congrArg letterCount hletters
  rw [letterCount_labelLetters (Nat.le_refl i), letterCount_labelLetters (Nat.le_refl j)] at hcount
  exact Nat.succ.inj hcount

/-- A generated name is made of capital letters. -/
theorem isUpper_of_mem_labelLetters : ∀ {fuel index : Nat} {c : Char},
    c ∈ labelLetters fuel index → c.isUpper = true := by
  have hupper : ∀ i < 26, (capitalLetter i).isUpper = true := by decide
  intro fuel
  induction fuel with
  | zero =>
      intro index c hc
      rw [List.mem_singleton.mp hc]
      exact hupper _ (Nat.mod_lt index (by decide))
  | succ fuel ih =>
      intro index c hc
      rw [labelLetters] at hc
      split at hc
      · rename_i hsmall
        rw [List.mem_singleton.mp hc]
        exact hupper _ hsmall
      · rcases List.mem_append.mp hc with hc | hc
        · exact ih hc
        · rw [List.mem_singleton.mp hc]
          exact hupper _ (Nat.mod_lt index (by decide))

/-! ## The names of a method -/

namespace LabelNames

/-- The name with an index, after a stem. -/
def nameAt (stem : String) (index : Nat) : String := stem ++ labelName index

theorem nameAt_injective (stem : String) : Function.Injective (nameAt stem) := by
  intro i j h
  exact labelName_injective (String.append_right_inj stem |>.mp h)

/-- The names so far, with the one in front first, are those with the indices below
`count`. -/
def Numbered (l : LabelNames) : Prop :=
  l.leading.toList ++ l.names.map (·.2) = (List.range l.count).map (nameAt l.stem)

namespace Numbered

variable {l : LabelNames}

theorem empty (stem : String) : Numbered { stem := stem } := rfl

theorem add (h : l.Numbered) (id : LabelId) : (l.add id).Numbered := by
  unfold LabelNames.add
  split
  · exact h
  · unfold Numbered at h ⊢
    rw [List.map_append, ← List.append_assoc, List.range_succ, List.map_append, h]
    rfl

theorem lead (h : l.Numbered) : l.lead.Numbered := by
  unfold LabelNames.lead
  split
  · rename_i hcount
    rw [Numbered, hcount, List.range_zero, List.map_nil, List.append_eq_nil_iff] at h
    simp [Numbered, h.2, next, hcount, nameAt]
  · exact h

theorem visit (h : l.Numbered) (insn : Insn) : (l.visit insn).Numbered := by
  cases insn with
  | label id => exact h.add id
  | var => exact h.lead
  | _ => exact h

theorem foldl : ∀ {insns : List Insn} {l : LabelNames}, l.Numbered →
    (insns.foldl LabelNames.visit l).Numbered
  | [], _, h => h
  | insn :: insns, _, h => by
      rw [List.foldl_cons]
      exact (h.visit insn).foldl

theorem ofInsns (stem : String) (insns : List Insn) : (ofInsns stem insns).Numbered := by
  unfold LabelNames.ofInsns
  dsimp only
  split
  · exact (empty stem).foldl
  · exact (empty stem).foldl.lead

theorem nodup (h : l.Numbered) : (l.leading.toList ++ l.names.map (·.2)).Nodup := by
  rw [show _ = _ from h]
  exact List.nodup_range.map (nameAt_injective l.stem)

/-- A name of a label is a generated one, and not the one in front or the next. -/
theorem of_lookup (h : l.Numbered) {id : LabelId} {name : String}
    (hname : l.names.lookup id = some name) :
    (∃ index, name = nameAt l.stem index) ∧ name ∉ l.leading ∧ name ≠ l.next := by
  have hmem : name ∈ l.names.map (·.2) :=
    List.mem_map.mpr ⟨_, mem_of_lookup hname, rfl⟩
  have hrange : name ∈ (List.range l.count).map (nameAt l.stem) :=
    h ▸ List.mem_append_right _ hmem
  obtain ⟨index, hindex, rfl⟩ := List.mem_map.mp hrange
  refine ⟨⟨index, rfl⟩, ?_, ?_⟩
  · intro hleading
    exact (List.nodup_append.mp h.nodup).2.2 _ (Option.mem_toList.mpr hleading) _ hmem rfl
  · intro hnext
    have hlt := List.mem_range.mp hindex
    rw [nameAt_injective l.stem hnext] at hlt
    exact Nat.lt_irrefl _ hlt

/-- The name in front is a generated one. -/
theorem of_leading (h : l.Numbered) {name : String} (hname : name ∈ l.leading) :
    ∃ index, name = nameAt l.stem index := by
  have hrange : name ∈ (List.range l.count).map (nameAt l.stem) :=
    h ▸ List.mem_append_left _ (Option.mem_toList.mpr hname)
  obtain ⟨index, -, rfl⟩ := List.mem_map.mp hrange
  exact ⟨index, rfl⟩

/-- Labels with the same name are the same. -/
theorem lookup_inj (h : l.Numbered) {i j : LabelId} {name : String}
    (hi : l.names.lookup i = some name) (hj : l.names.lookup j = some name) : i = j := by
  have hnames : (l.names.map (·.2)).Nodup := (List.nodup_append.mp h.nodup).2.1
  have hpair := List.inj_on_of_nodup_map hnames (mem_of_lookup hi) (mem_of_lookup hj) rfl
  exact congrArg Prod.fst hpair

end Numbered

/-! ## Renaming -/

/-- What a label is called after its number `ids` was named, if it has one.  The name
of any other label is kept apart by a mark that no generated name has. -/
def rename (l : LabelNames) (ids : List (String × LabelId)) (name : String) : String :=
  ((ids.lookup name).bind fun id => l.names.lookup id).getD (l.stem ++ ("!" ++ name))

section Rename

variable {l : LabelNames} {ids : List (String × LabelId)}

theorem nameAt_ne_marked (stem : String) (index : Nat) (name : String) :
    nameAt stem index ≠ stem ++ ("!" ++ name) := by
  intro h
  have hname : labelName index = "!" ++ name := (String.append_right_inj stem).mp h
  have hletters : labelLetters index index = '!' :: name.toList := by
    simpa [labelName] using congrArg String.toList hname
  have hupper := isUpper_of_mem_labelLetters (hletters ▸ List.mem_cons_self)
  exact absurd hupper (by decide)

theorem rename_eq {id : LabelId} {name written : String} (hid : ids.lookup name = some id)
    (hwritten : l.names.lookup id = some written) : l.rename ids name = written := by
  simp [rename, hid, hwritten]

/-- A renamed label has a generated name or one with a mark. -/
theorem rename_cases (l : LabelNames) (ids : List (String × LabelId)) (name : String) :
    (∃ id, ids.lookup name = some id ∧ l.names.lookup id = some (l.rename ids name))
      ∨ l.rename ids name = l.stem ++ ("!" ++ name) := by
  cases h : (ids.lookup name).bind (fun id => l.names.lookup id) with
  | none => exact Or.inr (by simp [rename, h])
  | some written =>
      obtain ⟨id, hid, hwritten⟩ := Option.bind_eq_some_iff.mp h
      exact Or.inl ⟨id, hid, by rw [rename_eq hid hwritten, hwritten]⟩

/-- Labels with numbers of their own are not confused. -/
theorem rename_injective (h : l.Numbered)
    (hids : ∀ x y id, ids.lookup x = some id → ids.lookup y = some id → x = y) :
    Function.Injective (l.rename ids) := by
  intro x y hxy
  rcases rename_cases l ids x with ⟨i, hi, hx⟩ | hx
  · rcases rename_cases l ids y with ⟨j, hj, hy⟩ | hy
    · have hij := h.lookup_inj (hxy ▸ hx) hy
      exact hids x y j (hij ▸ hi) hj
    · obtain ⟨⟨index, hindex⟩, -⟩ := h.of_lookup hx
      exact absurd (hindex.symm.trans (hxy.trans hy)) (nameAt_ne_marked _ _ _)
  · rcases rename_cases l ids y with ⟨j, hj, hy⟩ | hy
    · obtain ⟨⟨index, hindex⟩, -⟩ := h.of_lookup hy
      exact absurd (hindex.symm.trans (hxy.symm.trans hx)) (nameAt_ne_marked _ _ _)
    · rw [hx, hy, String.append_right_inj, String.append_right_inj] at hxy
      exact hxy

/-- The labels in front and at the end are new. -/
theorem rename_fresh (ids : List (String × LabelId)) (h : l.Numbered) (name : String) :
    l.rename ids name ∉ l.leading ∧ l.rename ids name ≠ l.next := by
  rcases rename_cases l ids name with ⟨id, -, hname⟩ | hname
  · exact (h.of_lookup hname).2
  · rw [hname]
    refine ⟨fun hleading => ?_, fun hnext => ?_⟩
    · obtain ⟨index, hindex⟩ := h.of_leading hleading
      exact nameAt_ne_marked _ _ _ hindex.symm
    · exact nameAt_ne_marked _ _ _ hnext.symm

end Rename

end LabelNames

end JvmListing
