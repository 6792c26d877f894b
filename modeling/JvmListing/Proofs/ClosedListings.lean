/-
# Which methods have listings, and their labels

A stored method may be broken: its descriptor may not be one, an instruction or a
handler may go to a label that is nowhere, `newarray` may have an operand without a
meaning.  Such a method has no listing, and every other method has one
(`MethodNode.Listable`).

Names are given to labels in a pass of their own, before anything is written.

  `LabelNames.exists_get_iff`   a label has a name exactly if it is declared
  `liftInsns_ok_iff`            nothing else than the parts above keeps a body from being written
  `Written`                     what an entry has to do with its instruction, label by label
  `disassembleMethod_closed`    labels are told apart, and every one that is used is declared
-/
import JvmListing.Proofs.LabelClosure
import JvmListing.Proofs.LabelNames
import JvmListing.Proofs.Reassembly
import Mathlib.Data.List.Dedup

namespace JvmListing

/-! ## Methods that can be listed -/

/-- Is the text a descriptor of a method?  The first `)` ends the parameters, so no class name
among them holds one. -/
def Ty.IsMethodDescriptor (desc : String) : Prop :=
  ∃ params result, (∀ t ∈ params, Ty.IsField t) ∧ ')' ∉ (Ty.descriptors params).toList
    ∧ Ty.Readable result ∧ desc = (Ty.method params result).descriptor

/-- Can the instruction be written, if certain labels have names? -/
structure Insn.Listable (named : LabelId → Prop) (insn : Insn) : Prop where
  labels : ∀ id ∈ insn.labelRefs, named id
  /-- The operand of `newarray` is the code of a type. -/
  array : ∀ code, insn = .int .newarray code → 4 ≤ code.toInt ∧ code.toInt ≤ 11
  /-- The opcode says what type of variable it is about. -/
  typed : ∀ op slot, insn = .var op slot → op.varType?.isSome

/-- Is there nothing in the method that has no written form? -/
structure MethodNode.Listable (m : MethodNode) : Prop where
  desc : Ty.IsMethodDescriptor m.desc
  insns : ∀ insn ∈ m.insns, insn.Listable (· ∈ declaredLabels m.insns)
  blocks : ∀ b ∈ m.blocks, ∀ id ∈ b.labels, id ∈ declaredLabels m.insns

theorem Ty.isMethodDescriptor_iff {desc : String} :
    IsMethodDescriptor desc ↔ ∃ types result, readMethod? desc = some (types, result) := by
  simp only [IsMethodDescriptor, readMethod?_eq_some_iff]

/-! ## Labels with names -/

namespace LabelNames

variable {l : LabelNames} {id : LabelId}

theorem isSome_lookup_add (l : LabelNames) (id : LabelId) :
    ((l.add id).names.lookup id).isSome := by
  unfold add
  split
  · assumption
  · simp [List.lookup_append]

/-- A label that has a name keeps it. -/
theorem isSome_lookup_visit (h : (l.names.lookup id).isSome) (insn : Insn) :
    ((l.visit insn).names.lookup id).isSome := by
  cases insn with
  | label id' =>
      simp only [visit, add]
      split
      · exact h
      · simp [List.lookup_append, h]
  | var => simpa only [visit, names_lead] using h
  | _ => exact h

theorem isSome_lookup_foldl : ∀ {insns : List Insn} {l : LabelNames},
    (l.names.lookup id).isSome ∨ .label id ∈ insns →
    ((insns.foldl visit l).names.lookup id).isSome
  | [], l, h => h.resolve_right List.not_mem_nil
  | insn :: insns, l, h => by
      rw [List.foldl_cons]
      refine isSome_lookup_foldl ?_
      rcases h with h | h
      · exact Or.inl (isSome_lookup_visit h insn)
      · rcases List.mem_cons.mp h with rfl | h
        · exact Or.inl (isSome_lookup_add l id)
        · exact Or.inr h

theorem names_ofInsns (stem : String) (insns : List Insn) :
    (ofInsns stem insns).names = (insns.foldl visit { stem := stem }).names := by
  unfold ofInsns
  dsimp only
  split
  · rfl
  · rw [names_lead]

/-- A label has a name exactly if it is declared. -/
theorem exists_get_iff {stem : String} {insns : List Insn} :
    (∃ name, (ofInsns stem insns).get id = .ok name) ↔ id ∈ declaredLabels insns := by
  simp only [get_ok]
  constructor
  · rintro ⟨name, h⟩
    exact mem_declaredLabels.mpr (mem_of_lookup_ofInsns h)
  · intro h
    rw [names_ofInsns]
    exact Option.isSome_iff_exists.mp (isSome_lookup_foldl (Or.inr (mem_declaredLabels.mp h)))

/-! ## The label in front -/

/-- Does the instruction settle whether a label is put in front? -/
def settles : Insn → Bool
  | .label _ | .var .. => true
  | _ => false

theorem isSome_leading_lead (h : l.leading.isSome) : l.lead.leading.isSome := by
  unfold lead
  split
  · rfl
  · exact h

theorem isSome_leading_foldl : ∀ (insns : List Insn) {l : LabelNames}, l.leading.isSome →
    (insns.foldl visit l).leading.isSome
  | [], _, h => h
  | insn :: insns, l, h => by
      rw [List.foldl_cons]
      refine isSome_leading_foldl insns ?_
      cases insn with
      | label id =>
          simp only [visit, add]
          split
          · exact h
          · exact h
      | var => exact isSome_leading_lead h
      | _ => exact h

/-- Without a label in front, a label comes before every variable. -/
theorem isLabel_of_find? {stem : String} : ∀ {insns : List Insn} {insn : Insn},
    (insns.foldl visit { stem := stem }).leading = none → insns.find? settles = some insn →
    ∃ id, insn = .label id
  | [], _, _, hfind => by cases hfind
  | first :: insns, insn, hnone, hfind => by
      rw [List.foldl_cons] at hnone
      cases first with
      | label id =>
          cases hfind
          exact ⟨id, rfl⟩
      | var op slot =>
          have hsome : (visit { stem := stem } (.var op slot)).leading.isSome := rfl
          have := isSome_leading_foldl insns hsome
          rw [hnone] at this
          cases this
      -- any other instruction leaves the names as they were
      | _ => exact isLabel_of_find? hnone hfind

theorem leading_foldl_of_ofInsns {stem : String} {insns : List Insn}
    (h : (ofInsns stem insns).leading = none) :
    (insns.foldl visit { stem := stem }).leading = none := by
  unfold ofInsns at h
  dsimp only at h
  split at h
  · exact h
  · by_contra hsome
    have := isSome_leading_lead (Option.isSome_iff_ne_none.mpr hsome)
    rw [h] at this
    cases this

/-- The next name is none of those so far. -/
theorem Numbered.next_not_mem (h : l.Numbered) :
    l.next ∉ l.leading.toList ++ l.names.map (·.2) := by
  rw [show _ = _ from h]
  intro hmem
  obtain ⟨index, hindex, hname⟩ := List.mem_map.mp hmem
  have hlt := List.mem_range.mp hindex
  rw [nameAt_injective l.stem hname] at hlt
  exact Nat.lt_irrefl _ hlt

/-- The name of a label, with no name for one that is not declared. -/
def nameOf (l : LabelNames) (id : LabelId) : String := (l.names.lookup id).getD ""

theorem nameOf_eq {name : String} (h : l.get id = .ok name) : name = l.nameOf id := by
  rw [nameOf, get_ok.mp h]
  rfl

theorem map_nameOf_eq {ids : List LabelId} {names : List String}
    (h : List.Forall₂ (fun id name => l.get id = .ok name) ids names) :
    names = ids.map l.nameOf := by
  induction h with
  | nil => rfl
  | cons hname _ ih => rw [List.map_cons, ← nameOf_eq hname, ← ih]

/-- Declared labels, the label in front and the one at the end have names of their own. -/
theorem nodup_names (stem : String) (insns : List Insn) {trailing : Option String}
    (htrailing : ∀ name ∈ trailing, name = (ofInsns stem insns).next) :
    ((ofInsns stem insns).leading.toList
      ++ (declaredLabels insns).dedup.map (ofInsns stem insns).nameOf
      ++ trailing.toList).Nodup := by
  have hnumbered := Numbered.ofInsns stem insns
  have hlookup : ∀ id ∈ (declaredLabels insns).dedup,
      (ofInsns stem insns).names.lookup id = some ((ofInsns stem insns).nameOf id) := by
    intro id hid
    obtain ⟨name, hname⟩ := exists_get_iff.mpr (List.mem_dedup.mp hid)
    rw [← nameOf_eq hname, get_ok.mp hname]
  have hnames : ∀ name ∈ (declaredLabels insns).dedup.map (ofInsns stem insns).nameOf,
      ∃ id, (ofInsns stem insns).names.lookup id = some name := by
    intro name hname
    obtain ⟨id, hid, rfl⟩ := List.mem_map.mp hname
    exact ⟨id, hlookup id hid⟩
  refine List.nodup_append.mpr ⟨List.nodup_append.mpr ⟨?_, ?_, ?_⟩, ?_, ?_⟩
  · cases (ofInsns stem insns).leading <;> simp
  · refine List.Nodup.map_on (fun x hx y hy hxy => ?_) (List.nodup_dedup _)
    exact hnumbered.lookup_inj (hlookup x hx) (hxy ▸ hlookup y hy)
  · rintro x hx y hy rfl
    obtain ⟨id, hid⟩ := hnames x hy
    exact (hnumbered.of_lookup hid).2.1 (Option.mem_toList.mp hx)
  · cases trailing <;> simp
  · rintro x hx y hy rfl
    have hnext := htrailing x (Option.mem_toList.mp hy)
    rcases List.mem_append.mp hx with hx | hx
    · exact hnumbered.next_not_mem (hnext ▸ List.mem_append_left _ hx)
    · obtain ⟨id, hid⟩ := hnames x hx
      exact (hnumbered.of_lookup hid).2.2 hnext

end LabelNames

/-! ## What can be written -/

section Writable

variable {names : LabelNames}

theorem Prim.exists_ofArrayCode?_iff (code : Int) :
    (∃ p, Prim.ofArrayCode? code = some p) ↔ 4 ≤ code ∧ code ≤ 11 := by
  have hlength : Prim.elements.length = 8 := rfl
  unfold Prim.ofArrayCode?
  split
  · rw [← Option.isSome_iff_exists, Option.isSome_iff_ne_none, ne_eq, List.getElem?_eq_none_iff,
      hlength]
    omega
  · simp only [reduceCtorEq, exists_false, false_iff]
    omega

/-- A computation that goes on without failing succeeds if its first part does. -/
theorem exists_bind_ok_iff {ε α β : Type} {x : Except ε α} {f : α → Except ε β} {P : Prop}
    (hf : ∀ a, (∃ b, f a = .ok b) ↔ P) : (∃ b, (x >>= f) = .ok b) ↔ (∃ a, x = .ok a) ∧ P := by
  simp only [except_bind_eq_ok]
  constructor
  · rintro ⟨b, a, ha, hb⟩
    exact ⟨⟨a, ha⟩, (hf a).mp ⟨b, hb⟩⟩
  · rintro ⟨⟨a, ha⟩, hP⟩
    obtain ⟨b, hb⟩ := (hf a).mpr hP
    exact ⟨b, a, ha, hb⟩

/-- The cases of a lookup switch have labels if its targets do. -/
theorem exists_cases_iff {keys : List Int32} {targets : List LabelId}
    (hlen : keys.length = targets.length) :
    (∃ cases, ((keys.zip targets).mapM fun (key, target) => do
        return SwitchCase.mk key (← names.get target)) = .ok cases) ↔
      ∀ id ∈ targets, ∃ name, names.get id = .ok name := by
  have hcase : ∀ p : Int32 × LabelId,
      (∃ c, (do return SwitchCase.mk p.1 (← names.get p.2) : DisassemblyResult SwitchCase)
          = .ok c) ↔
        ∃ name, names.get p.2 = .ok name := by
    intro p
    exact (exists_bind_ok_iff fun name => iff_true_intro ⟨_, rfl⟩).trans (iff_of_eq (and_true _))
  rw [exists_mapM_ok_iff]
  constructor
  · intro h id hid
    rw [← List.map_snd_zip (Nat.le_of_eq hlen.symm), List.mem_map] at hid
    obtain ⟨p, hp, rfl⟩ := hid
    exact (hcase p).mp (h p hp)
  · intro h p hp
    exact (hcase p).mpr (h p.2 (List.of_mem_zip hp).2)

/-- All that an instruction of most kinds needs is that its labels have names. -/
theorem Insn.listable_iff_labels {insn : Insn} {named : LabelId → Prop}
    (hint : ∀ op code, insn ≠ .int op code) (hvar : ∀ op slot, insn ≠ .var op slot) :
    insn.Listable named ↔ ∀ id ∈ insn.labelRefs, named id :=
  ⟨Listable.labels, fun h => ⟨h, fun _ e => absurd e (hint _ _), fun _ _ e => absurd e (hvar _ _)⟩⟩

theorem liftInsn_int_ok_iff {index : Nat} {vars : VarNames} {op : Opcode} {operand : Int32}
    {named : LabelId → Prop} :
    (∃ r, liftInsn names index vars (.int op operand) = .ok r) ↔
      (Insn.int op operand).Listable named := by
  rw [liftInsn]
  split
  · rename_i hop
    subst hop
    have hcode : (Insn.int .newarray operand).Listable named ↔
        4 ≤ operand.toInt ∧ operand.toInt ≤ 11 := by
      refine ⟨fun h => h.array operand rfl, fun h => ⟨List.forall_mem_nil _, ?_, ?_⟩⟩
      · rintro _ ⟨⟩
        exact h
      · rintro _ _ ⟨⟩
    rw [hcode, ← Prim.exists_ofArrayCode?_iff]
    split
    · rename_i p hp
      exact iff_of_true ⟨_, rfl⟩ ⟨p, hp⟩
    · rename_i hp
      simp [hp]
  · rename_i hop
    refine iff_of_true ⟨_, rfl⟩ ⟨List.forall_mem_nil _, ?_, ?_⟩
    · rintro _ ⟨⟩
      exact absurd rfl hop
    · rintro _ _ ⟨⟩

theorem liftInsn_var_ok_iff {index : Nat} {vars : VarNames} {op : Opcode} {slot : UInt16}
    {named : LabelId → Prop} :
    (∃ r, liftInsn names index vars (.var op slot) = .ok r) ↔
      (Insn.var op slot).Listable named := by
  rw [liftInsn]
  split
  · rename_i ht
    refine iff_of_false ?_ fun h => ?_
    · rintro ⟨_, h⟩
      cases h
    · have := h.typed op slot rfl
      rw [ht] at this
      cases this
  · rename_i t ht
    refine iff_of_true ⟨_, rfl⟩ ⟨List.forall_mem_nil _, ?_, ?_⟩
    · rintro _ ⟨⟩
    · rintro _ _ ⟨⟩
      rw [ht]
      rfl

/-- An instruction can be written exactly if it has a written form. -/
theorem liftInsn_ok_iff {index : Nat} {vars : VarNames} {insn : Insn} (hlabel : insn.label? = none)
    (hbal : insn.IsBalanced) :
    (∃ r, liftInsn names index vars insn = .ok r) ↔
      insn.Listable fun id => ∃ name, names.get id = .ok name := by
  cases insn with
  | label id => cases hlabel
  | int op operand => exact liftInsn_int_ok_iff
  | var op slot => exact liftInsn_var_ok_iff
  | plain | type | field | method | multiArray | ldc | invokeDynamic | iinc =>
      refine iff_of_true ⟨_, rfl⟩ ((Insn.listable_iff_labels ?_ ?_).mpr (List.forall_mem_nil _))
      · rintro _ _ ⟨⟩
      · rintro _ _ ⟨⟩
  | jump | line =>
      rw [Insn.listable_iff_labels (by rintro _ _ ⟨⟩) (by rintro _ _ ⟨⟩)]
      refine (exists_bind_ok_iff fun name => iff_true_intro ⟨_, rfl⟩).trans ?_
      simp [Insn.labelRefs]
  | tableSwitch min max default targets =>
      rw [Insn.listable_iff_labels (by rintro _ _ ⟨⟩) (by rintro _ _ ⟨⟩)]
      refine (exists_bind_ok_iff fun written =>
        exists_bind_ok_iff fun name => iff_true_intro ⟨_, rfl⟩).trans ?_
      rw [exists_mapM_ok_iff]
      simp [Insn.labelRefs, or_imp, forall_and]
  | lookupSwitch default keys targets =>
      rw [Insn.listable_iff_labels (by rintro _ _ ⟨⟩) (by rintro _ _ ⟨⟩)]
      refine (exists_bind_ok_iff fun written =>
        exists_bind_ok_iff fun name => iff_true_intro ⟨_, rfl⟩).trans ?_
      rw [exists_cases_iff hbal]
      simp [Insn.labelRefs, or_imp, forall_and]

/-- A body can be written exactly if its instructions can, whatever its variables are called. -/
theorem liftInsns_ok_iff : ∀ {insns : List Insn} {index : Nat} {vars : VarNames},
    (∀ insn ∈ insns, insn.IsBalanced) →
    (∀ id, .label id ∈ insns → ∃ name, names.get id = .ok name) →
    ((∃ code, liftInsns names index vars insns = .ok code) ↔
      ∀ insn ∈ insns, insn.Listable fun id => ∃ name, names.get id = .ok name)
  | [], _, _, _, _ => iff_of_true ⟨_, rfl⟩ (List.forall_mem_nil _)
  | insn :: insns, index, vars, hbal, hnamed => by
      obtain ⟨hfirst, hbal⟩ := List.forall_mem_cons.mp hbal
      have hrest : ∀ vars', (∃ code, liftInsns names (index + 1) vars' insns = .ok code) ↔
          ∀ insn ∈ insns, insn.Listable fun id => ∃ name, names.get id = .ok name :=
        fun vars' => liftInsns_ok_iff hbal fun id hid => hnamed id (List.mem_cons_of_mem _ hid)
      rw [List.forall_mem_cons]
      cases hlabel : insn.label? with
      | some id =>
          obtain rfl : insn = .label id := by
            cases insn with
            | label id' => exact congrArg _ (Option.some.inj hlabel)
            | _ => cases hlabel
          refine (exists_bind_ok_iff fun name => (exists_bind_ok_iff fun code =>
            iff_true_intro ⟨_, rfl⟩).trans ?_).trans (and_congr_left fun _ => ?_)
          · rw [and_true, hrest]
          · refine iff_of_true (hnamed id List.mem_cons_self)
              ((Insn.listable_iff_labels ?_ ?_).mpr (List.forall_mem_nil _))
            · rintro _ _ ⟨⟩
            · rintro _ _ ⟨⟩
      | none =>
          rw [liftInsns]
          · refine (exists_bind_ok_iff fun r => (exists_bind_ok_iff fun code =>
              iff_true_intro ⟨_, rfl⟩).trans ?_).trans
              (and_congr_left fun _ => liftInsn_ok_iff hlabel hfirst)
            rw [and_true, hrest]
          · rintro id rfl
            cases hlabel

theorem liftBlock_ok_iff {b : TryBlock} :
    (∃ e, liftBlock names b = .ok e) ↔ ∀ id ∈ b.labels, ∃ name, names.get id = .ok name := by
  refine (exists_bind_ok_iff fun start => exists_bind_ok_iff fun stop =>
    exists_bind_ok_iff fun handler => iff_true_intro ⟨_, rfl⟩).trans ?_
  simp [TryBlock.labels]

end Writable

theorem exists_liftMethod_iff (stem : String) (namer : Namer)
    (hbal : ∀ insn ∈ namer.method.insns, insn.IsBalanced) :
    (∃ r, liftMethod stem namer = .ok r) ↔ namer.method.Listable := by
  unfold liftMethod
  dsimp only
  split
  · rename_i hdesc
    refine iff_of_false ?_ fun h => ?_
    · rintro ⟨_, h⟩
      cases h
    · obtain ⟨types, result, hread⟩ := Ty.isMethodDescriptor_iff.mp h.desc
      rw [hdesc] at hread
      cases hread
  · rename_i types result hdesc
    refine (exists_bind_ok_iff fun handlers => exists_bind_ok_iff fun body =>
      iff_true_intro ⟨_, rfl⟩).trans ?_
    rw [and_true, exists_mapM_ok_iff, liftInsns_ok_iff hbal fun id hid =>
      LabelNames.exists_get_iff.mpr (mem_declaredLabels.mpr hid)]
    simp only [liftBlock_ok_iff, LabelNames.exists_get_iff]
    exact ⟨fun h => ⟨Ty.isMethodDescriptor_iff.mpr ⟨types, result, hdesc⟩, h.2, h.1⟩,
      fun h => ⟨h.blocks, h.insns⟩⟩

/-- A method has a listing exactly if nothing in it has no written form. -/
theorem exists_disassembleMethod_iff (stem : String) (slots : SlotTable) {m : MethodNode}
    (hbal : ∀ insn ∈ m.insns, insn.IsBalanced) :
    (∃ l, disassembleMethod stem slots m = .ok l) ↔ m.Listable := by
  refine (exists_bind_ok_iff fun r => iff_true_intro ⟨_, rfl⟩).trans ?_
  rw [and_true]
  exact exists_liftMethod_iff stem (Namer.prepopulate { method := m } slots) hbal

/-! ## What is written -/

/-- What is written for an instruction other than a label, up to the names of variables. -/
inductive Lifted (names : LabelNames) : Insn → Operation → Prop
  | plain (op : Opcode) : Lifted names (.plain op) (.plain op)
  | int {op : Opcode} (operand : Int32) : op ≠ .newarray →
      Lifted names (.int op operand) (.int op operand)
  | newArray {operand : Int32} {p : Prim} : Prim.ofArrayCode? operand.toInt = some p →
      Lifted names (.int .newarray operand) (.newArray (.prim p))
  | var {op : Opcode} {t : Ty} (slot : UInt16) (name : String) : op.varType? = some t →
      Lifted names (.var op slot) (.var op name)
  | iinc (slot : UInt16) (name : String) (increment : Int32) :
      Lifted names (.iinc slot increment) (.iinc name increment)
  | type (op : Opcode) (desc : String) : Lifted names (.type op desc) (.type op desc)
  | field (op : Opcode) (owner name desc : String) :
      Lifted names (.field op owner name desc) (.field op owner name desc)
  | method (op : Opcode) (owner name desc : String) (itf : Bool) :
      Lifted names (.method op owner name desc itf) (.method op owner name desc itf)
  | invokeDynamic (name desc : String) (bootstrap : Handle) (args : List (Const Handle)) :
      Lifted names (.invokeDynamic name desc bootstrap args)
        (.invokeDynamic name desc bootstrap.toRef (args.map (·.map Handle.toRef)))
  | ldc (value : Const Handle) : Lifted names (.ldc value) (.ldc (value.map Handle.toRef))
  | multiArray (desc : String) (dims : UInt8) :
      Lifted names (.multiArray desc dims) (.multiArray desc dims)
  | jump (op : Opcode) {target : LabelId} {name : String} : names.get target = .ok name →
      Lifted names (.jump op target) (.jump op name)
  | line (number : Nat) {start : LabelId} {name : String} : names.get start = .ok name →
      Lifted names (.line number start) (.line name number)
  | tableSwitch (min max : Int32) {default : LabelId} {name : String} {targets : List LabelId}
      {labels : List String} :
      List.Forall₂ (fun id label => names.get id = .ok label) targets labels →
      names.get default = .ok name →
      Lifted names (.tableSwitch min max default targets) (.tableSwitch min max labels name)
  | lookupSwitch {default : LabelId} {name : String} {keys : List Int32} {targets : List LabelId}
      {cases : List SwitchCase} :
      List.Forall₂ (fun p c => c.key = p.1 ∧ names.get p.2 = .ok c.label) (keys.zip targets) cases →
      names.get default = .ok name →
      Lifted names (.lookupSwitch default keys targets) (.lookupSwitch cases name)

theorem lifted_of_liftInsn {names : LabelNames} {insn : Insn} {index : Nat} {vars vars' : VarNames}
    {op : Operation} (h : liftInsn names index vars insn = .ok (op, vars')) :
    Lifted names insn op := by
  cases insn with
  | label id => cases h
  | plain | type | field | method | multiArray | ldc | invokeDynamic | iinc =>
      cases h
      constructor
  | int o operand =>
      rw [liftInsn] at h
      split at h
      · rename_i hop
        subst hop
        split at h
        · rename_i p hp
          cases h
          exact .newArray hp
        · cases h
      · rename_i hop
        cases h
        exact .int operand hop
  | var o slot =>
      obtain ⟨t, use, ht, -, rfl, -⟩ := liftInsn_var_ok h
      exact .var slot _ ht
  | jump | line =>
      obtain ⟨name, hname, h⟩ := except_bind_eq_ok.mp h
      cases h
      constructor
      exact hname
  | tableSwitch min max default targets =>
      obtain ⟨labels, hlabels, h⟩ := except_bind_eq_ok.mp h
      obtain ⟨name, hname, h⟩ := except_bind_eq_ok.mp h
      cases h
      exact .tableSwitch min max (forall₂_of_mapM_ok hlabels) hname
  | lookupSwitch default keys targets =>
      obtain ⟨cases, hcases, h⟩ := except_bind_eq_ok.mp h
      obtain ⟨name, hname, h⟩ := except_bind_eq_ok.mp h
      cases h
      refine .lookupSwitch ((forall₂_of_mapM_ok hcases).imp fun p c hc => ?_) hname
      obtain ⟨label, hlabel, hc⟩ := except_bind_eq_ok.mp hc
      cases hc
      exact ⟨rfl, hlabel⟩

/-- What an entry has to do with the instruction it was written for. -/
inductive Written (names : LabelNames) : Insn → Entry → Prop
  | label {id : LabelId} {name : String} : names.get id = .ok name →
      Written names (.label id) ⟨.label name, {}⟩
  | operation {insn : Insn} {op : Operation} : Lifted names insn op →
      Written names insn ⟨.operation op, {}⟩

theorem written_of_liftInsns {names : LabelNames} : ∀ {insns : List Insn} {index : Nat}
    {vars : VarNames} {code : Code}, liftInsns names index vars insns = .ok code →
    List.Forall₂ (Written names) insns code
  | [], _, _, _, h => by
      cases h
      exact .nil
  | insn :: insns, index, vars, code, h => by
      cases hlabel : insn.label? with
      | some id =>
          cases insn with
          | label id' =>
              obtain ⟨name, hname, h⟩ := except_bind_eq_ok.mp h
              obtain ⟨rest, hrest, h⟩ := except_bind_eq_ok.mp h
              cases h
              exact .cons (.label hname) (written_of_liftInsns hrest)
          | _ => cases hlabel
      | none =>
          obtain ⟨op, vars', rest, hop, hrest, rfl⟩ := liftInsns_cons_ok hlabel h
          exact .cons (.operation (lifted_of_liftInsn hop)) (written_of_liftInsns hrest)

section WrittenLabels

variable {names : LabelNames} {insn : Insn} {e : Entry}

/-- A written instruction names the labels of the instruction, in order. -/
theorem Lifted.labelRefs {op : Operation} (h : Lifted names insn op) (hbal : insn.IsBalanced) :
    List.Forall₂ (fun id name => names.get id = .ok name) insn.labelRefs op.labelRefs := by
  cases h with
  | jump _ hname | line _ hname => exact .cons hname .nil
  | tableSwitch _ _ hlabels hname => exact List.rel_append hlabels (.cons hname .nil)
  | lookupSwitch hcases hname =>
      refine List.rel_append ?_ (.cons hname .nil)
      rw [← List.map_snd_zip (Nat.le_of_eq (Eq.symm hbal)), List.forall₂_map_left_iff,
        List.forall₂_map_right_iff]
      exact hcases.imp fun _ _ hc => hc.2
  | _ => exact .nil

theorem Lifted.opcode?_eq {op : Operation} (h : Lifted names insn op) :
    op.opcode? = insn.opcode? := by
  cases h <;> rfl

theorem Written.opcode?_eq (h : Written names insn e) :
    e.value.operation?.bind Operation.opcode? = insn.opcode? := by
  cases h with
  | label _ => rfl
  | operation hop => exact hop.opcode?_eq

theorem Written.label?_eq (h : Written names insn e) :
    e.value.label? = insn.label?.map names.nameOf := by
  cases h with
  | label hname => exact congrArg some (LabelNames.nameOf_eq hname)
  | operation hop => cases hop <;> rfl

theorem Written.labelRefs_eq (h : Written names insn e) (hbal : insn.IsBalanced) :
    e.value.labelRefs = insn.labelRefs.map names.nameOf := by
  cases h with
  | label _ => rfl
  | operation hop => exact LabelNames.map_nameOf_eq (hop.labelRefs hbal)

/-- Does the statement settle whether a label comes before the variables? -/
def Statement.settles : Statement → Bool
  | .label _ | .operation (.var ..) => true
  | _ => false

theorem Written.settles_eq (h : Written names insn e) :
    e.value.settles = LabelNames.settles insn := by
  cases h with
  | label _ => rfl
  | operation hop => cases hop <;> rfl

/-- What is found first among entries was written for what is found first among instructions. -/
theorem exists_find?_of_written {insns : List Insn} {core : Code}
    (h : List.Forall₂ (Written names) insns core) :
    core.find? (·.value.settles) = some e →
    ∃ insn, insns.find? LabelNames.settles = some insn ∧ Written names insn e := by
  induction h with
  | nil =>
      intro hfind
      cases hfind
  | cons hhead _ ih =>
      intro hfind
      rw [List.find?_cons] at hfind ⊢
      rw [hhead.settles_eq] at hfind
      split at hfind
      · cases hfind
        exact ⟨_, rfl, hhead⟩
      · exact ih hfind

end WrittenLabels

/-! ## Bodies -/

/-- If a label is found before any variable, one comes before every variable. -/
theorem exists_label_before {code : Code}
    (h : ∀ e, code.find? (·.value.settles) = some e → ∃ name, e.value = .label name) {i : Nat}
    {op : Opcode} {x : String} (hi : code[i]?.map (·.value) = some (.operation (.var op x))) :
    ∃ j < i, ∃ name, code[j]?.map (·.value) = some (.label name) := by
  obtain ⟨e, he, hvar⟩ := Option.map_eq_some_iff.mp hi
  obtain ⟨hlt, rfl⟩ := List.getElem?_eq_some_iff.mp he
  have hsettles : code[i].value.settles = true := by
    rw [hvar]
    rfl
  have hsome : (code.find? (·.value.settles)).isSome :=
    List.find?_isSome.mpr ⟨_, List.getElem_mem hlt, hsettles⟩
  obtain ⟨first, hfind⟩ := Option.isSome_iff_exists.mp hsome
  obtain ⟨name, hname⟩ := h first hfind
  obtain ⟨-, j, hj, rfl, hbefore⟩ := List.find?_eq_some_iff_getElem.mp hfind
  refine ⟨j, ?_, name, by rw [List.getElem?_eq_getElem hj, Option.map_some, hname]⟩
  rcases Nat.lt_trichotomy j i with hji | rfl | hij
  · exact hji
  · rw [hvar] at hname
    cases hname
  · exact absurd (hbefore i hij) (by simp [hsettles])

/-- How the labels of a method are called in the parts of a body: `leading` and `trailing` are
put around the entries of its instructions. -/
structure LabelsWritten (m : MethodNode) (name : LabelId → String)
    (leading trailing : Option String) (handlers core : Code) : Prop where
  blocks : List.Forall₂ (fun b e => e.value =
    .tryCatch (name b.start) (name b.stop) (name b.handler) b.caught) m.blocks handlers
  insns : List.Forall₂ (fun insn e => e.value.label? = insn.label?.map name
    ∧ e.value.labelRefs = insn.labelRefs.map name) m.insns core
  /-- No two labels have one name. -/
  distinct : (leading.toList ++ (declaredLabels m.insns).dedup.map name ++ trailing.toList).Nodup

section Bodies

variable {names : LabelNames} {blocks : List TryBlock} {insns : List Insn} {handlers core : Code}

theorem tryCatch_of_liftBlocks (h : blocks.mapM (liftBlock names) = .ok handlers) :
    List.Forall₂ (fun b e => e.value = .tryCatch (names.nameOf b.start) (names.nameOf b.stop)
      (names.nameOf b.handler) b.caught) blocks handlers := by
  refine (forall₂_of_mapM_ok h).imp fun b e he => ?_
  obtain ⟨start, stop, handler, hstart, hstop, hhandler, rfl⟩ := liftBlock_ok he
  rw [← LabelNames.nameOf_eq hstart, ← LabelNames.nameOf_eq hstop, ← LabelNames.nameOf_eq hhandler]

theorem find?_handlers {name : LabelId → String} (h : List.Forall₂ (fun b e => e.value =
      .tryCatch (name b.start) (name b.stop) (name b.handler) b.caught) blocks handlers) :
    handlers.find? (·.value.settles) = none := by
  refine List.find?_eq_none.mpr fun e he => ?_
  obtain ⟨b, -, hb⟩ := exists_left_of_forall₂ h he
  simp [hb, Statement.settles]

theorem eq_label_of_label? {s : Statement} {name : String} (h : s.label? = some name) :
    s = .label name := by
  cases s with
  | label name' => exact congrArg _ (Option.some.inj h)
  | _ => cases h

theorem labels_of_written (hbal : ∀ insn ∈ insns, insn.IsBalanced)
    (h : List.Forall₂ (Written names) insns core) :
    List.Forall₂ (fun insn e => e.value.label? = insn.label?.map names.nameOf
      ∧ e.value.labelRefs = insn.labelRefs.map names.nameOf) insns core := by
  induction h with
  | nil => exact .nil
  | cons hhead _ ih =>
      obtain ⟨hfirst, hbal⟩ := List.forall_mem_cons.mp hbal
      exact .cons ⟨hhead.label?_eq, hhead.labelRefs_eq hfirst⟩ (ih hbal)

end Bodies

section ClosedBodies

variable {m : MethodNode} {name : LabelId → String} {leading trailing : Option String}
  {handlers core : Code}

/-- The name of a declared label is declared in the body. -/
theorem name_mem_labelNames (h : LabelsWritten m name leading trailing handlers core) {id : LabelId}
    (hid : id ∈ declaredLabels m.insns) : name id ∈ core.labelNames := by
  obtain ⟨e, he, hlabel, -⟩ := exists_right_of_forall₂ h.insns (mem_declaredLabels.mp hid)
  exact List.mem_filterMap.mpr ⟨e, he, hlabel⟩

/-- Every label that is used is declared. -/
theorem LabelsWritten.closed (h : LabelsWritten m name leading trailing handlers core)
    (hm : m.Listable) :
    ∀ e ∈ handlers ++ labelEntriesOf leading ++ core ++ labelEntriesOf trailing,
      ∀ x ∈ e.value.labelRefs,
        x ∈ (handlers ++ labelEntriesOf leading ++ core ++ labelEntriesOf trailing).labelNames := by
  have hdeclared : ∀ id ∈ declaredLabels m.insns, name id ∈
      (handlers ++ labelEntriesOf leading ++ core ++ labelEntriesOf trailing).labelNames := by
    intro id hid
    simp only [labelNames_append, List.mem_append]
    exact Or.inl (Or.inr (name_mem_labelNames h hid))
  intro e he x hx
  simp only [List.mem_append] at he
  rcases he with ((he | he) | he) | he
  · obtain ⟨b, hb, hvalue⟩ := exists_left_of_forall₂ h.blocks he
    have hx : x ∈ b.labels.map name := by
      rw [hvalue] at hx
      exact hx
    obtain ⟨id, hid, rfl⟩ := List.mem_map.mp hx
    exact hdeclared id (hm.blocks b hb id hid)
  · obtain ⟨name, hname⟩ := exists_label_of_mem he
    rw [hname] at hx
    cases hx
  · obtain ⟨insn, hinsn, -, hrefs⟩ := exists_left_of_forall₂ h.insns he
    rw [hrefs] at hx
    obtain ⟨id, hid, rfl⟩ := List.mem_map.mp hx
    exact hdeclared id ((hm.insns insn hinsn).labels id hid)
  · obtain ⟨name, hname⟩ := exists_label_of_mem he
    rw [hname] at hx
    cases hx

/-- A body ends with a label: its own last one, or one that is put there. -/
theorem LabelsWritten.endsWithLabel (h : LabelsWritten m name leading trailing handlers core)
    (hm : m.Listable)
    (hend : trailing = none → m.insns = [] ∨ ∃ front id, m.insns = front ++ [.label id])
    (hne : handlers ++ labelEntriesOf leading ++ core ++ labelEntriesOf trailing ≠ []) :
    ∃ x, (handlers ++ labelEntriesOf leading ++ core
      ++ labelEntriesOf trailing).getLast?.map (·.value)
      = some (.label x) := by
  cases trailing with
  | some x => exact ⟨x, by simp [labelEntriesOf]⟩
  | none =>
      rcases hend rfl with hnil | ⟨front, id, hinsns⟩
      · -- without labels there are no handlers
        have hcore : core = [] := List.forall₂_nil_left_iff.mp (hnil ▸ h.insns)
        have hblocks : m.blocks = [] := List.eq_nil_iff_forall_not_mem.mpr fun b hb => by
          have := hm.blocks b hb b.start List.mem_cons_self
          rw [hnil] at this
          cases this
        have hhandlers : handlers = [] := List.forall₂_nil_left_iff.mp (hblocks ▸ h.blocks)
        subst hcore hhandlers
        cases leading with
        | some x => exact ⟨x, rfl⟩
        | none => exact absurd rfl hne
      · have hlast := List.forall₂_reverse_iff.mpr h.insns
        rw [hinsns, List.reverse_append] at hlast
        obtain ⟨e, rest, ⟨hlabel, -⟩, -, hcore⟩ := List.forall₂_cons_left_iff.mp hlast
        refine ⟨name id, ?_⟩
        have hgetLast : core.getLast? = some e := by rw [← List.head?_reverse, hcore]; rfl
        rw [show labelEntriesOf none = [] from rfl, List.append_nil, List.getLast?_append, hgetLast]
        exact congrArg some (eq_label_of_label? hlabel)

/-- The first entry that settles it is a label. -/
theorem isLabel_of_find?_written {stem : String}
    (hblocks : handlers.find? (·.value.settles) = none)
    (hwritten : List.Forall₂ (Written (LabelNames.ofInsns stem m.insns)) m.insns core) (e : Entry)
    (hfind : (handlers ++ labelEntriesOf (LabelNames.ofInsns stem m.insns).leading ++ core
      ++ labelEntriesOf trailing).find? (·.value.settles) = some e) :
    ∃ x, e.value = .label x := by
  rw [List.append_assoc, List.append_assoc, List.find?_append, hblocks, Option.none_or,
    List.find?_append, Option.or_eq_some_iff] at hfind
  rcases hfind with hfind | ⟨hleading, hfind⟩
  · exact exists_label_of_mem (List.mem_of_find?_eq_some hfind)
  · have hnone : (LabelNames.ofInsns stem m.insns).leading = none := by
      cases h : (LabelNames.ofInsns stem m.insns).leading with
      | none => rfl
      | some x =>
          rw [h] at hleading
          cases hleading
    rw [List.find?_append, Option.or_eq_some_iff] at hfind
    rcases hfind with hfind | ⟨-, hfind⟩
    · obtain ⟨insn, hinsn, he⟩ := exists_find?_of_written hwritten hfind
      obtain ⟨id, rfl⟩ :=
        LabelNames.isLabel_of_find? (LabelNames.leading_foldl_of_ofInsns hnone) hinsn
      exact ⟨_, eq_label_of_label? he.label?_eq⟩
    · exact exists_label_of_mem (List.mem_of_find?_eq_some hfind)

end ClosedBodies

/-- A method is listed exactly if its descriptor is one, the labels it uses are declared and its
operands have a meaning.  In a listing, labels are told apart by their names, the labels put in
front and at the end among them; every label that is used is declared; a body ends with a label
and has one before its first variable. -/
theorem disassembleMethod_closed (stem : String) (slots : SlotTable) (m : MethodNode)
    (hbal : ∀ insn ∈ m.insns, insn.IsBalanced) :
    ((∃ l, disassembleMethod stem slots m = .ok l) ↔ m.Listable)
    ∧ ∀ l : Listing, disassembleMethod stem slots m = .ok l →
      (∃ name leading trailing handlers core,
        l.body = handlers ++ labelEntriesOf leading ++ core ++ labelEntriesOf trailing
          ∧ LabelsWritten m name leading trailing handlers core)
      ∧ (∀ e ∈ l.body, ∀ x ∈ e.value.labelRefs, x ∈ l.body.labelNames)
      ∧ (l.body ≠ [] → ∃ x, l.body.getLast?.map (·.value) = some (.label x))
      ∧ ∀ (i : Nat) (op : Opcode) (x : String),
          l.body[i]?.map (·.value) = some (.operation (.var op x)) →
          ∃ j < i, ∃ y, l.body[j]?.map (·.value) = some (.label y) := by
  refine ⟨exists_disassembleMethod_iff stem slots hbal, fun l hl => ?_⟩
  have hlistable := (exists_disassembleMethod_iff stem slots hbal).mp ⟨l, hl⟩
  obtain ⟨d, code, handlers, core, vars, types, result, trailing, -, -, hd, hbody, hnext, hend⟩ :=
    disassembleMethod_ok hl
  have hblocks := tryCatch_of_liftBlocks hd.blocks
  have hwritten : List.Forall₂ (Written (LabelNames.ofInsns stem m.insns)) m.insns core :=
    written_of_liftInsns hd.insns
  have hlabels : LabelsWritten m (LabelNames.ofInsns stem m.insns).nameOf
      (LabelNames.ofInsns stem m.insns).leading trailing handlers core :=
    ⟨hblocks, labels_of_written hbal hwritten, LabelNames.nodup_names stem m.insns hnext⟩
  rw [hbody]
  exact ⟨⟨_, _, _, _, _, rfl, hlabels⟩, hlabels.closed hlistable,
    hlabels.endsWithLabel hlistable hend,
    fun i op x => exists_label_before (isLabel_of_find?_written (find?_handlers hblocks) hwritten)⟩

/-- A label goes in front of the countdown and one after it; no label 8 is declared there. -/
theorem disassembleMethod_closed_countdown :
    (∀ insn ∈ countdown.insns, insn.IsBalanced) ∧ countdown.Listable
      ∧ ¬ { countdown with blocks := [⟨7, 9, 8, none⟩] : MethodNode }.Listable
      ∧ ∃ l : Listing, disassembleMethod "L" {} countdown = .ok l
        ∧ l.body.labelNames = ["LA", "LB", "LC", "LD"]
        ∧ ∀ e ∈ l.body, ∀ x ∈ e.value.labelRefs, x ∈ l.body.labelNames := by
  have hbal : ∀ insn ∈ countdown.insns, insn.IsBalanced := by
    simp [countdown, Insn.IsBalanced]
  obtain ⟨hiff, hlisted⟩ := disassembleMethod_closed "L" {} countdown hbal
  refine ⟨hbal, hiff.mp ⟨_, rfl⟩, fun h => ?_, _, rfl, rfl, (hlisted _ rfl).2.1⟩
  obtain ⟨l, hl⟩ :=
    (disassembleMethod_closed "L" {} { countdown with blocks := [⟨7, 9, 8, none⟩] } hbal).1.mpr h
  cases hl

end JvmListing
