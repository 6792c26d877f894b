/-
# Slot allocation accepts exactly the consistent code

A slot table keeps the last recorded type of a slot, from which vague references
are left out, and a set of slots whose successor is reserved, which only narrow
stores shrink.  Here the same is said from the history of a method alone: the
declarations and references so far, the latest first.  A reference is
`Consistent` with a history when

* the latest use of its slot held a value of the class that it loads, or an int
  if it updates in place;
* the latest use of the slot below was no long or double;
* the value ends below the slot limit.

`Follows` ties a table to a history.  It is kept by every reference that is
consistent, and a reference that is not is refused with the fault of the first
condition that fails (`addReference_of_follows`).  So `allocate` succeeds exactly
on code that is consistent throughout, and otherwise reports the first reference
that is not (`allocate_iff_consistent`).
-/
import JvmListing.Proofs.Descriptor
import JvmListing.Proofs.Variables
import Mathlib.Algebra.Ring.Nat

namespace JvmListing

/-! ## Classes of values -/

/-- The kinds of values that loads tell apart. -/
inductive ValueClass where
  | int | float | long | double | reference
  deriving DecidableEq, Repr

/-- The class of the values of a type; `void` and methods have no values. -/
def Ty.valueClass? : Ty → Option ValueClass
  | .prim .void | .method .. => none
  | .prim .float => some .float
  | .prim .long => some .long
  | .prim .double => some .double
  | .prim _ => some .int
  | .array _ | .object _ => some .reference

theorem Ty.isWide_iff (t : Ty) :
    t.isWide = true ↔ t.valueClass? = some .long ∨ t.valueClass? = some .double := by
  cases t with
  | prim p => cases p <;> decide
  | array c => simp [isWide, size, valueClass?]
  | object n => simp [isWide, size, valueClass?]
  | method ps r => simp [isWide, size, valueClass?]

theorem Ty.ne_void_of_valueClass? {t : Ty} (h : t.valueClass?.isSome) : t ≠ .void := by
  rintro rfl
  cases h

theorem Ty.isIntFamily_iff {t : Ty} (h : t.valueClass?.isSome) :
    t.kind.isIntFamily = true ↔ t.valueClass? = some .int := by
  cases t with
  | prim p => cases p <;> first | decide | simp [valueClass?] at h
  | array c => simp [kind, TypeKind.isIntFamily, valueClass?]
  | object n => simp [kind, TypeKind.isIntFamily, valueClass?]
  | method ps r => simp [valueClass?] at h

theorem Ty.isReference_iff (t : Ty) :
    t.kind.isReference = true ↔ t.valueClass? = some .reference := by
  cases t with
  | prim p => cases p <;> decide
  | array c => simp [kind, TypeKind.isReference, valueClass?]
  | object n => simp [kind, TypeKind.isReference, valueClass?]
  | method ps r => simp [kind, TypeKind.isReference, valueClass?]

/-- The one primitive type of a class that has no other type. -/
def ValueClass.only? : ValueClass → Option Prim
  | .float => some .float
  | .long => some .long
  | .double => some .double
  | .int | .reference => none

theorem Ty.eq_prim_of_only? {t : Ty} {c : ValueClass} {p : Prim} (hc : c.only? = some p)
    (h : t.valueClass? = some c) : t = .prim p := by
  cases t with
  | prim q => cases q <;> cases h <;> cases hc <;> rfl
  | array _ | object _ =>
      cases h
      cases hc
  | method _ _ => cases h

theorem Ty.loadable_iff {a b : Ty} (ha : a.valueClass?.isSome) (hb : b.valueClass?.isSome) :
    SlotTable.loadable a.kind b.kind = true ↔ a.valueClass? = b.valueClass? := by
  simp only [SlotTable.loadable, Bool.or_eq_true, Bool.and_eq_true, beq_iff_eq,
    isIntFamily_iff ha, isIntFamily_iff hb, isReference_iff]
  constructor
  · rintro ((h | ⟨h₁, h₂⟩) | ⟨h₁, h₂⟩)
    · cases a <;> cases b <;> simp_all [kind, valueClass?]
    · rw [h₁, h₂]
    · rw [h₁, h₂]
  · intro h
    cases hc : a.valueClass? with
    | none => simp [hc] at ha
    | some c =>
        rw [hc] at h
        cases c with
        | int => exact Or.inl (Or.inr ⟨rfl, h.symm⟩)
        | reference => exact Or.inr ⟨rfl, h.symm⟩
        | float | long | double =>
            refine Or.inl (Or.inl ?_)
            rw [eq_prim_of_only? rfl hc, eq_prim_of_only? rfl h.symm]

theorem Ty.IsField.valueClass? {t : Ty} (h : t.IsField) : t.valueClass?.isSome := by
  cases t with
  | prim p =>
      cases p with
      | void => exact absurd rfl h.2
      | _ => rfl
  | array _ | object _ => rfl
  | method _ _ => exact h.1.elim

/-! ## Histories -/

/-- One declaration of a slot or reference to it. -/
structure SlotUse where
  name : String
  slot : Nat
  type : Ty
  deriving DecidableEq

/-- The declarations and references so far, the latest first. -/
abbrev History := List SlotUse

namespace History

/-- The type of the latest use of a slot. -/
def current? (h : History) (slot : Nat) : Option Ty := (h.find? (·.slot == slot)).map (·.type)

/-- The slot that a name was last used for. -/
def bound? (h : History) (name : String) : Option Nat :=
  (h.find? (·.name == name)).map (·.slot)

/-- The first slot above all values so far. -/
def top (h : History) : Nat := h.foldr (fun u n => max n (u.slot + u.type.size)) 0

/-- The slot that a reference resolves to: the one of its name, else the one it is
the number of, else the first one above. -/
def slotOf (h : History) (name : String) : Nat := ((h.bound? name).or (rawSlot? name)).getD h.top

/-- The history after one more reference. -/
def after (h : History) (r : VarRef) : History := ⟨r.name, h.slotOf r.name, r.type⟩ :: h

/-- Does the latest use of its slot admit the reference? -/
def Admits (h : History) (r : VarRef) : Prop :=
  match h.current? (h.slotOf r.name), r.use with
  | none, _ | _, .assign => True
  | some held, .load => r.type.valueClass? = held.valueClass?
  | some held, .update => held.valueClass? = some .int

/-- Is the slot not the upper half of a long or double? -/
def Free (h : History) (slot : Nat) : Prop :=
  slot = 0 ∨ ∀ held ∈ h.current? (slot - 1), held ≠ .prim .long ∧ held ≠ .prim .double

/-- Does the value of the reference end below the slot limit? -/
def Fits (h : History) (r : VarRef) : Prop := h.slotOf r.name + r.type.size ≤ slotLimit

instance (h : History) (r : VarRef) : Decidable (h.Admits r) := by
  unfold Admits
  split <;> infer_instance

instance (h : History) (slot : Nat) : Decidable (h.Free slot) := by
  unfold Free
  infer_instance

instance (h : History) (r : VarRef) : Decidable (h.Fits r) := by
  unfold Fits
  infer_instance

/-- Does the reference go with what was before? -/
def Consistent (h : History) (r : VarRef) : Prop :=
  h.Admits r ∧ h.Free (h.slotOf r.name) ∧ h.Fits r

instance (h : History) (r : VarRef) : Decidable (h.Consistent r) := by
  unfold Consistent
  infer_instance

/-- The kind of fault of a reference that is not consistent: that of the first
condition it breaks. -/
def faultKind (h : History) (r : VarRef) : AssemblyFaultKind :=
  if ¬h.Admits r then .typeConsistency
  else if ¬h.Free (h.slotOf r.name) then .wideSlot
  else .structural

/-- The history after more references. -/
def afterAll (h : History) (refs : List SlotTable.Reference) : History :=
  refs.foldl (fun h r => h.after r.ref) h

/-- The history after parameters, each in the first slot above. -/
def declare (h : History) : List Param → History
  | [] => h
  | p :: rest =>
    match Ty.ofFieldDescriptor? p.desc with
    | some type => declare (⟨p.name, h.top, type⟩ :: h) rest
    | none => declare h rest

/-- The history at the start of the body of a method. -/
def ofMethod (selfType : String) (m : MethodDef) : History :=
  declare (if Access.isStatic m.access then [] else [⟨"this", 0, .object selfType⟩]) m.params

/-- The history before the reference of a body with an index. -/
def before (selfType : String) (m : MethodDef) (code : Code) (k : Nat) : History :=
  (ofMethod selfType m).afterAll ((SlotTable.references code).take k)

end History

/-- The slots that `this` and the parameters take. -/
def MethodDef.declaredSize (m : MethodDef) : Nat :=
  (if Access.isStatic m.access then 0 else 1)
    + (m.params.map fun p => ((Ty.ofFieldDescriptor? p.desc).map Ty.size).getD 0).sum

/-! ## Tables that follow a history -/

/-- The table holds what the history says, as far as references can tell. -/
structure SlotTable.Follows (t : SlotTable) (h : History) : Prop where
  sound : t.Sound
  names : ∀ name : String, t.slotOf? name = h.bound? name
  cap : t.cap = h.top
  held : ∀ s : Nat,
    (t.info? s).map (·.lastType.valueClass?) = (h.current? s).map Ty.valueClass?
  wide : ∀ s : Nat, s ∈ t.wide ↔ ∃ held ∈ h.current? s, held.isWide = true
  valued : ∀ u ∈ h, u.type.valueClass?.isSome

namespace History

theorem current?_cons (u : SlotUse) (h : History) (s : Nat) :
    current? (u :: h) s = if s = u.slot then some u.type else current? h s := by
  by_cases hs : s = u.slot
  · simp [current?, hs]
  · have hb : (u.slot == s) = false := beq_eq_false_iff_ne.mpr fun e => hs e.symm
    simp [current?, hs, hb]

theorem bound?_cons (u : SlotUse) (h : History) (name : String) :
    bound? (u :: h) name = if name = u.name then some u.slot else bound? h name := by
  by_cases hs : name = u.name
  · simp [bound?, hs]
  · have hb : (u.name == name) = false := beq_eq_false_iff_ne.mpr fun e => hs e.symm
    simp [bound?, hs, hb]

theorem top_cons (u : SlotUse) (h : History) :
    top (u :: h) = max (top h) (u.slot + u.type.size) := rfl

theorem valueClass?_of_current? {h : History} (hv : ∀ u ∈ h, u.type.valueClass?.isSome)
    {s : Nat} {held : Ty} (hs : h.current? s = some held) : held.valueClass?.isSome := by
  obtain ⟨u, hu, rfl⟩ := Option.map_eq_some_iff.mp hs
  exact hv u (List.mem_of_find?_eq_some hu)

end History

namespace SlotTable

theorem Follows.slotFor {t : SlotTable} {h : History} (f : t.Follows h) (name : String) :
    t.slotFor name = h.slotOf name := by
  unfold SlotTable.slotFor History.slotOf
  rw [f.names, f.cap]

theorem Follows.isReserved {t : SlotTable} {h : History} (f : t.Follows h) (slot : Nat) :
    t.isReserved slot = false ↔ h.Free slot := by
  unfold SlotTable.isReserved History.Free
  cases slot with
  | zero => simp
  | succ s =>
      have hw := f.wide s
      simp only [gt_iff_lt, Nat.zero_lt_succ, decide_true, Nat.add_sub_cancel, Bool.true_and,
        Nat.add_one_ne_zero, false_or]
      rw [← Bool.not_eq_true, List.contains_iff_mem, hw]
      constructor
      · intro hno held hheld
        refine ⟨fun e => hno ⟨held, hheld, ?_⟩, fun e => hno ⟨held, hheld, ?_⟩⟩ <;> subst e <;> rfl
      · rintro hfree ⟨held, hheld, hwide⟩
        rcases (Ty.isWide_iff held).mp hwide with hc | hc
        · exact (hfree held hheld).1 (Ty.eq_prim_of_only? rfl hc)
        · exact (hfree held hheld).2 (Ty.eq_prim_of_only? rfl hc)

/-- The type that the table keeps for a slot has the class of its latest use. -/
theorem Follows.lastType {t : SlotTable} {h : History} (f : t.Follows h) {s : Nat}
    {info : VarInfo} (hi : t.info? s = some info) :
    ∃ held, h.current? s = some held ∧ info.lastType.valueClass? = held.valueClass?
      ∧ held.valueClass?.isSome := by
  have hs := f.held s
  rw [hi] at hs
  obtain ⟨held, hheld, hc⟩ := Option.map_eq_some_iff.mp hs.symm
  exact ⟨held, hheld, hc.symm, History.valueClass?_of_current? f.valued hheld⟩

theorem Follows.info?_none {t : SlotTable} {h : History} (f : t.Follows h) {s : Nat} :
    t.info? s = none ↔ h.current? s = none := by
  rw [← Option.map_eq_none_iff, f.held, Option.map_eq_none_iff]

/-! ## One reference -/

/-- The check of a slot that is held asks for what `Admits` asks for. -/
theorem Follows.checkSlot_ok {t : SlotTable} {h : History} (f : t.Follows h) {r : Reference}
    (hr : r.ref.type.valueClass?.isSome) :
    t.checkSlot (h.slotOf r.ref.name) r = .ok () ↔ h.Admits r.ref := by
  unfold SlotTable.checkSlot History.Admits
  cases hi : t.info? (h.slotOf r.ref.name) with
  | none => simp [f.info?_none.mp hi]
  | some info =>
      obtain ⟨held, hheld, hclass, hsome⟩ := f.lastType hi
      have hlast : info.lastType.valueClass?.isSome := hclass ▸ hsome
      rw [hheld]
      unfold checkHeld
      cases huse : r.ref.use with
      | assign => simp
      | update =>
          simp only [← hclass, ← Ty.isIntFamily_iff hlast]
          split <;> simp_all
      | load =>
          simp only [← hclass, ← Ty.loadable_iff hr hlast]
          split <;> simp_all

theorem checkSlot_error {t : SlotTable} {slot : Nat} {r : Reference}
    (hno : t.checkSlot slot r ≠ .ok ()) :
    ∃ fault : AssemblyFault, t.checkSlot slot r = .error ⟨fault, r.position⟩
      ∧ fault.kind = .typeConsistency := by
  unfold SlotTable.checkSlot at hno ⊢
  cases hi : t.info? slot with
  | none => simp [hi] at hno
  | some info =>
      simp only [hi] at hno ⊢
      unfold checkHeld at hno ⊢
      cases huse : r.ref.use with
      | assign => simp [huse] at hno
      | update =>
          simp only [huse] at hno ⊢
          split
          · rename_i hint
            simp [hint] at hno
          · exact ⟨_, rfl, rfl⟩
      | load =>
          simp only [huse] at hno ⊢
          split
          · rename_i hload
            simp [hload] at hno
          · exact ⟨_, rfl, rfl⟩

/-- A slot that a reference may use keeps a type of the class of the reference. -/
theorem valueClass?_use {info : VarInfo} {r : Reference} {source : VarSource}
    (hr : r.ref.type.valueClass?.isSome) (hlast : info.lastType.valueClass?.isSome)
    (hcheck : checkHeld info r = .ok ())
    (hprim : r.ref.use = .update → r.ref.type.isPrimitive = true) :
    (info.use r.ref.name r.ref.type (.instruction r.ref.use) source).lastType.valueClass? =
      r.ref.type.valueClass? := by
  simp only [VarInfo.use]
  split
  · rfl
  · -- not recorded: a vague reference over a reference, or a load, which was checked
    rename_i hrec
    simp only [VarInfo.records, Bool.and_eq_true, Bool.or_eq_true, Bool.not_eq_true',
      Bool.and_eq_false_iff, beq_iff_eq, UsageKind.instruction.injEq, not_and, not_or] at hrec
    cases huse : r.ref.use with
    | assign =>
        have hvague := hrec (Or.inr huse)
        simp only [Bool.not_eq_false] at hvague
        have href : r.ref.type.valueClass? = some .reference := by
          cases ht : r.ref.type with
          | object n => rfl
          | _ => simp [ht, Ty.isRootClass] at hvague
        rw [href, (Ty.isReference_iff _).mp hvague.2]
    | update =>
        have hvague := hrec (Or.inl (hprim huse))
        simp only [Bool.not_eq_false] at hvague
        have := hprim huse
        cases ht : r.ref.type with
        | prim p => simp [ht, Ty.isRootClass] at hvague
        | _ => simp [ht, Ty.isPrimitive, Ty.kind, TypeKind.isPrimitive] at this
    | load =>
        unfold checkHeld at hcheck
        rw [huse] at hcheck
        simp only at hcheck
        split at hcheck
        · rename_i hload
          exact ((Ty.loadable_iff hr hlast).mp hload).symm
        · cases hcheck

/-- A use that is recorded puts itself in front of the history, provided the type
kept for its slot is of its class and no reservation of its slot is left over. -/
theorem Follows.record {t : SlotTable} {h : History} (f : t.Follows h) {slot : Nat}
    {name : String} {type : Ty} {kind : UsageKind} {source : VarSource}
    (hv : type.valueClass?.isSome)
    (hclass : ∀ info ∈ t.info? slot,
      (info.use name type kind source).lastType.valueClass? = type.valueClass?)
    (hwide : type.isWide = false → kind ≠ .instruction .assign → slot ∉ t.wide) :
    (t.record slot name type kind source).Follows (⟨name, slot, type⟩ :: h) where
  sound := f.sound.record ..
  names := by
    intro k
    rw [slotOf?_record, History.bound?_cons, f.names]
  cap := by
    have := Ty.one_le_size (Ty.ne_void_of_valueClass? hv)
    rw [cap_record, History.top_cons, f.cap, Nat.max_eq_left this]
  held := by
    intro s
    rw [info?_record, History.current?_cons]
    by_cases hs : s = slot
    · subst hs
      cases hi : t.info? s with
      | none => simp [nextInfo, VarInfo.first]
      | some info => simp [nextInfo, hclass info hi]
    · simpa [hs] using f.held s
  wide := by
    intro s
    rw [mem_wide_record, History.current?_cons]
    by_cases hs : s = slot
    · subst hs
      by_cases hw : type.isWide = true
      · simp [hw]
      · have hw' : type.isWide = false := by simpa using hw
        by_cases hk : kind = .instruction .assign
        · simp [hw', hk]
        · simp [hw', hk, hwide hw' hk]
    · have hold := f.wide s
      simp only [hs, false_or, if_false, ne_eq, not_false_eq_true, and_true, ite_self]
      exact hold
  valued := by
    intro u hu
    rcases List.mem_cons.mp hu with rfl | hu
    · exact hv
    · exact f.valued u hu

/-- What the opcode of a reference implies about its type. -/
def Reference.WellTyped (r : Reference) : Prop :=
  r.ref.type.valueClass?.isSome ∧ (r.ref.use = .update → r.ref.type = .int)

theorem wellTyped_of_mem {code : Code} {r : Reference} (hr : r ∈ references code) :
    r.WellTyped := by
  obtain ⟨⟨e, i⟩, -, he⟩ := List.mem_filterMap.mp hr
  obtain ⟨ref, href, rfl⟩ := Option.map_eq_some_iff.mp he
  obtain ⟨op, -, hop⟩ := Option.bind_eq_some_iff.mp href
  cases op with
  | var o name =>
      simp only [Operation.varRef?] at hop
      split at hop
      · rename_i t use ht hu
        cases hop
        constructor
        · show t.valueClass?.isSome
          cases o <;> cases ht <;> rfl
        · intro (e : use = .update)
          show t = .int
          subst e
          cases o <;> cases hu
          cases ht
          rfl
      · cases hop
  | iinc name n =>
      cases hop
      exact ⟨rfl, fun _ => rfl⟩
  | _ => cases hop

theorem Follows.after {t : SlotTable} {h : History} (f : t.Follows h) {r : Reference}
    (hr : r.WellTyped) (hadm : h.Admits r.ref) (source : VarSource) :
    (t.record (h.slotOf r.ref.name) r.ref.name r.ref.type (.instruction r.ref.use)
      source).Follows (h.after r.ref) := by
  have hcheck := (f.checkSlot_ok hr.1).mpr hadm
  have hheld : ∀ info ∈ t.info? (h.slotOf r.ref.name),
      (info.use r.ref.name r.ref.type (.instruction r.ref.use) source).lastType.valueClass? =
        r.ref.type.valueClass? := by
    intro info hi
    have hi : t.info? (h.slotOf r.ref.name) = some info := hi
    obtain ⟨held, -, hclass, hsome⟩ := f.lastType hi
    simp only [SlotTable.checkSlot, hi] at hcheck
    exact valueClass?_use hr.1 (hclass ▸ hsome) hcheck fun hu => by rw [hr.2 hu]; rfl
  refine f.record hr.1 hheld ?_
  -- a narrow load or update of a slot that holds a long or double is not admitted
  intro hnarrow hkind hmem
  obtain ⟨held, hcur, hwide⟩ := (f.wide _).mp hmem
  have hcur : h.current? (h.slotOf r.ref.name) = some held := hcur
  simp only [History.Admits, hcur] at hadm
  have hclass := (Ty.isWide_iff held).mp hwide
  cases huse : r.ref.use with
  | assign => exact hkind (by rw [huse])
  | load =>
      rw [huse] at hadm
      have := (Ty.isWide_iff r.ref.type).mpr (by rw [hadm]; exact hclass)
      rw [hnarrow] at this
      cases this
  | update =>
      rw [huse] at hadm
      rw [hadm] at hclass
      rcases hclass with e | e <;> cases e

/-- What a reference does to a table that follows a history: it is recorded if it is
consistent, and refused for the first condition that it breaks. -/
theorem addReference_of_follows {t : SlotTable} {h : History} (f : t.Follows h)
    {r : Reference} (hr : r.WellTyped) :
    (h.Consistent r.ref ∧ ∃ t', t.addReference r = .ok t' ∧ t'.Follows (h.after r.ref))
      ∨ (¬h.Consistent r.ref ∧ ∃ fault : AssemblyFault,
          t.addReference r = .error ⟨fault, r.position⟩ ∧ fault.kind = h.faultKind r.ref) := by
  rw [f.sound.addReference_eq, f.slotFor]
  by_cases hadm : h.Admits r.ref
  · rw [(f.checkSlot_ok hr.1).mpr hadm]
    simp only [bind, Except.bind, use_eq]
    by_cases hfree : h.Free (h.slotOf r.ref.name)
    · rw [(f.isReserved _).mpr hfree]
      have hsize := Nat.max_eq_left (Ty.one_le_size (Ty.ne_void_of_valueClass? hr.1))
      by_cases hfits : h.Fits r.ref
      · have hlim : ¬slotLimit < h.slotOf r.ref.name + max r.ref.type.size 1 := by
          rw [hsize]
          exact Nat.not_lt.mpr hfits
        simp only [hlim, if_false, Bool.false_eq_true]
        exact Or.inl ⟨⟨hadm, hfree, hfits⟩, _, rfl, f.after hr hadm _⟩
      · have hlim : slotLimit < h.slotOf r.ref.name + max r.ref.type.size 1 := by
          rw [hsize]
          exact Nat.not_le.mp hfits
        simp only [hlim, if_true, Bool.false_eq_true, if_false]
        refine Or.inr ⟨fun hc => hfits hc.2.2, _, rfl, ?_⟩
        simp [History.faultKind, hadm, hfree, AssemblyFault.kind]
    · have hres : t.isReserved (h.slotOf r.ref.name) = true := by
        rw [← Bool.not_eq_false, f.isReserved]
        exact hfree
      simp only [hres, if_true]
      refine Or.inr ⟨fun hc => hfree hc.2.1, _, rfl, ?_⟩
      simp [History.faultKind, hadm, hfree, AssemblyFault.kind]
  · obtain ⟨fault, hfault, hkind⟩ :=
      checkSlot_error fun hok => hadm ((f.checkSlot_ok hr.1).mp hok)
    rw [hfault]
    refine Or.inr ⟨fun hc => hadm hc.1, fault, rfl, ?_⟩
    simp [History.faultKind, hadm, hkind]

/-! ## Whole methods -/

/-- Are all references consistent with what is before them? -/
def AllConsistent (h : History) (refs : List Reference) : Prop :=
  ∀ k r, refs[k]? = some r → (h.afterAll (refs.take k)).Consistent r.ref

/-- Is the reference with an index the first that is not consistent? -/
structure FirstViolation (h : History) (refs : List Reference) (k : Nat) (r : Reference) :
    Prop where
  at_index : refs[k]? = some r
  earlier : ∀ j r', j < k → refs[j]? = some r' → (h.afterAll (refs.take j)).Consistent r'.ref
  violates : ¬(h.afterAll (refs.take k)).Consistent r.ref

theorem FirstViolation.unique {h : History} {refs : List Reference} {k k' : Nat}
    {r r' : Reference} (v : FirstViolation h refs k r) (v' : FirstViolation h refs k' r') :
    k = k' ∧ r = r' := by
  have hk : k = k' := by
    rcases Nat.lt_trichotomy k k' with hlt | heq | hgt
    · exact absurd (v'.earlier k r hlt v.at_index) v.violates
    · exact heq
    · exact absurd (v.earlier k' r' hgt v'.at_index) v'.violates
  subst hk
  exact ⟨rfl, Option.some.inj (v.at_index.symm.trans v'.at_index)⟩

theorem allConsistent_cons {h : History} {r : Reference} {refs : List Reference}
    (hr : h.Consistent r.ref) (hrest : AllConsistent (h.after r.ref) refs) :
    AllConsistent h (r :: refs) := by
  intro k r' hk
  cases k with
  | zero =>
      cases hk
      exact hr
  | succ k => exact hrest k r' hk

theorem FirstViolation.cons {h : History} {r r' : Reference} {refs : List Reference} {k : Nat}
    (hr : h.Consistent r.ref) (v : FirstViolation (h.after r.ref) refs k r') :
    FirstViolation h (r :: refs) (k + 1) r' where
  at_index := v.at_index
  earlier := by
    intro j r'' hj hget
    cases j with
    | zero =>
        cases hget
        exact hr
    | succ j => exact v.earlier j r'' (Nat.lt_of_succ_lt_succ hj) hget
  violates := v.violates

/-- A run over references either records them all, and all are consistent, or ends
at the first that is not. -/
theorem run_of_follows : ∀ (refs : List Reference) {t : SlotTable} {h : History},
    t.Follows h → (∀ r ∈ refs, r.WellTyped) →
    (AllConsistent h refs ∧ ∃ t', refs.foldlM addReference t = .ok t')
      ∨ ∃ k r, ∃ fault : AssemblyFault, FirstViolation h refs k r
          ∧ refs.foldlM addReference t = .error ⟨fault, r.position⟩
          ∧ fault.kind = (h.afterAll (refs.take k)).faultKind r.ref
  | [], t, h, _, _ => by
      refine Or.inl ⟨?_, t, rfl⟩
      intro k r hk
      cases hk
  | r :: refs, t, h, f, hall => by
      have hr := hall r List.mem_cons_self
      simp only [List.foldlM_cons]
      rcases addReference_of_follows f hr with
        ⟨hcons, t₁, hstep, f₁⟩ | ⟨hbad, fault, hstep, hkind⟩
      · simp only [hstep, bind, Except.bind]
        rcases run_of_follows refs f₁ fun r' hr' => hall r' (List.mem_cons_of_mem _ hr') with
          ⟨hrest, hok⟩ | ⟨k, r', fault, v, herr, hkind⟩
        · exact Or.inl ⟨allConsistent_cons hcons hrest, hok⟩
        · exact Or.inr ⟨k + 1, r', fault, v.cons hcons, herr, hkind⟩
      · refine Or.inr ⟨0, r, fault, ⟨rfl, ?_, hbad⟩, ?_, hkind⟩
        · intro j _ hj _
          cases hj
        · simp only [hstep, bind, Except.bind]

theorem follows_empty : Follows {} [] where
  sound := sound_empty
  names := fun _ => rfl
  cap := rfl
  held := fun _ => rfl
  wide := by simp [History.current?]
  valued := by simp

/-- A declaration takes the next slot, which nothing holds or reserves. -/
theorem Follows.declare {t : SlotTable} {h : History} (f : t.Follows h) (name : String)
    {type : Ty} (source : VarSource) (hv : type.valueClass?.isSome)
    (hfit : h.top + type.size ≤ slotLimit) :
    ∃ t', t.use h.top name type .declared source = .ok t'
      ∧ t'.Follows (⟨name, h.top, type⟩ :: h) := by
  have hnone : t.info? h.top = none := f.cap ▸ f.sound.info?_cap
  refine ⟨_, (use_eq_ok ..).mpr ⟨?_, ?_, rfl⟩, f.record hv ?_ ?_⟩
  · rw [← Bool.not_eq_true]
    intro hres
    simp only [SlotTable.isReserved, gt_iff_lt, Bool.and_eq_true, decide_eq_true_eq,
      List.contains_iff_mem] at hres
    have := f.sound.reserved hres.2
    have := f.cap
    omega
  · rw [Nat.max_eq_left (Ty.one_le_size (Ty.ne_void_of_valueClass? hv))]
    exact hfit
  · intro info hi
    rw [hnone] at hi
    cases hi
  · intro _ _ hmem
    have := f.sound.reserved hmem
    have := f.cap
    omega

theorem addParams_of_follows (m : MethodDef) : ∀ (params : List Param) {t : SlotTable}
    {h : History}, t.Follows h → (∀ p ∈ params, p.isValid = true) →
    h.top + (params.map fun p => ((Ty.ofFieldDescriptor? p.desc).map Ty.size).getD 0).sum
      ≤ slotLimit →
    ∃ t', params.foldlM (addParam m) t = .ok t' ∧ t'.Follows (h.declare params)
  | [], t, _, f, _, _ => ⟨t, rfl, f⟩
  | p :: params, t, h, f, hvalid, hfit => by
      obtain ⟨type, htype⟩ := Option.isSome_iff_exists.mp (hvalid p List.mem_cons_self)
      have hclass := (Ty.ofFieldDescriptor?_eq_some_iff.mp htype).1.valueClass?
      simp only [List.map_cons, List.sum_cons, htype, Option.map_some, Option.getD_some] at hfit
      obtain ⟨t₁, huse, f₁⟩ := f.declare p.name ⟨p.position, none⟩ hclass (by omega)
      have hstep : addParam m t p = .ok t₁ := by
        simp only [addParam, htype, f.cap]
        exact huse
      have htop : History.top (⟨p.name, h.top, type⟩ :: h) = h.top + type.size := by
        rw [History.top_cons]
        exact Nat.max_eq_right (Nat.le_add_right ..)
      obtain ⟨t', hrun, f'⟩ := addParams_of_follows m params f₁
        (fun q hq => hvalid q (List.mem_cons_of_mem _ hq)) (by rw [htop]; omega)
      refine ⟨t', ?_, ?_⟩
      · simp only [List.foldlM_cons, hstep, bind, Except.bind]
        exact hrun
      · simp only [History.declare, htype]
        exact f'

/-- `this` and parameters that fit are all declared. -/
theorem declared_of_fits (selfType : String) {m : MethodDef}
    (hvalid : ∀ p ∈ m.params, p.isValid = true) (hfit : m.declaredSize ≤ slotLimit) :
    ∃ t, declared selfType m = .ok t ∧ t.Follows (History.ofMethod selfType m) := by
  unfold MethodDef.declaredSize at hfit
  unfold declared addThis History.ofMethod
  by_cases hs : Access.isStatic m.access = true
  · simp only [hs, if_true] at hfit ⊢
    obtain ⟨t', hrun, f'⟩ := addParams_of_follows m m.params follows_empty hvalid
      (by simpa [History.top] using hfit)
    exact ⟨t', hrun, f'⟩
  · simp only [hs, if_false, Bool.false_eq_true] at hfit ⊢
    obtain ⟨t, huse, f⟩ := follows_empty.declare "this" ⟨m.position, none⟩
      (show (Ty.object selfType).valueClass?.isSome from rfl)
      (show 0 + 1 ≤ slotLimit by decide)
    obtain ⟨t', hrun, f'⟩ := addParams_of_follows m m.params f hvalid
      (by simpa [History.top, Ty.size] using hfit)
    exact ⟨t', except_bind_eq_ok.mpr ⟨t, huse, hrun⟩, f'⟩

/-- Slots are allocated exactly where every reference is consistent with the
declarations and references before it.  Otherwise the fault is that of the first
reference that is not, at its position. -/
theorem allocate_iff_consistent (selfType : String) (m : MethodDef) (code : Code)
    (hvalid : ∀ p ∈ m.params, p.isValid = true) (hfit : m.declaredSize ≤ slotLimit) :
    ((∃ t, allocate selfType m code = .ok t) ↔
        ∀ k r, (references code)[k]? = some r →
          (History.before selfType m code k).Consistent r.ref)
      ∧ ∀ k r, (references code)[k]? = some r →
          (∀ j r', j < k → (references code)[j]? = some r' →
            (History.before selfType m code j).Consistent r'.ref) →
          ¬(History.before selfType m code k).Consistent r.ref →
          ∃ fault : AssemblyFault, allocate selfType m code = .error ⟨fault, r.position⟩
            ∧ fault.kind = (History.before selfType m code k).faultKind r.ref := by
  obtain ⟨t, hdeclared, f⟩ := declared_of_fits selfType hvalid hfit
  have hallocate : allocate selfType m code = (references code).foldlM addReference t := by
    rw [allocate_eq, hdeclared]
    rfl
  rw [hallocate]
  rcases run_of_follows (references code) f fun r hr => wellTyped_of_mem hr with
    ⟨hall, hok⟩ | ⟨k, r, fault, v, herr, hkind⟩
  · refine ⟨⟨fun _ => hall, fun _ => hok⟩, ?_⟩
    intro k r hk _ hbad
    exact absurd (hall k r hk) hbad
  · refine ⟨⟨?_, fun hall => absurd (hall k r v.at_index) v.violates⟩, ?_⟩
    · rintro ⟨t'', hok⟩
      rw [herr] at hok
      cases hok
    · intro k' r' hk hearlier hbad
      obtain ⟨rfl, rfl⟩ := FirstViolation.unique v ⟨hk, hearlier, hbad⟩
      exact ⟨fault, herr, hkind⟩

/-- A static method with a long in slots 0 and 1. -/
def longParam : MethodDef := ⟨0x0008, "m", [⟨"J", "a", {}⟩], "V", {}, {}⟩

/-- Slot 1 is stored to after an int took the place of the long, which is then
loaded in vain. -/
def narrowedLong : Code :=
  [⟨.operation (.var .lload "a"), ⟨1, 1, 0, 7⟩⟩, ⟨.operation (.var .istore "0"), ⟨2, 1, 8, 16⟩⟩,
   ⟨.label "A", ⟨3, 1, 17, 19⟩⟩, ⟨.operation (.var .astore "1"), ⟨4, 1, 20, 28⟩⟩,
   ⟨.operation (.var .lload "a"), ⟨5, 1, 29, 36⟩⟩]

theorem allocate_narrowedLong :
    (∀ p ∈ longParam.params, p.isValid = true) ∧ longParam.declaredSize ≤ slotLimit
      ∧ ∃ fault : AssemblyFault,
        allocate "A" longParam narrowedLong = .error ⟨fault, ⟨5, 1, 29, 36⟩⟩
          ∧ fault.kind = .typeConsistency := by
  have hvalid : ∀ p ∈ longParam.params, p.isValid = true := by decide +kernel
  have hfit : longParam.declaredSize ≤ slotLimit := by decide +kernel
  have hearlier : ∀ j < 3, ∀ r' ∈ (references narrowedLong)[j]?,
      (History.before "A" longParam narrowedLong j).Consistent r'.ref := by
    decide +kernel
  refine ⟨hvalid, hfit, ?_⟩
  exact (allocate_iff_consistent "A" longParam narrowedLong hvalid hfit).2 3 _ rfl
    (fun j r' hj hr' => hearlier j hj r' hr') (by decide +kernel)

end SlotTable

end JvmListing
