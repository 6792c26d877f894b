/-
# The number of local variables

A stored method says how many local variables it has.  Assembling takes that number
from the slot table, which counts up while names are bound and never looks at an
instruction.  It is nevertheless the least number that serves: the maximum of what
`this` and the parameters take and of what each instruction of the finished method
needs (`assembleMethod_maxLocals`).

What a table counts is said by one run lemma, `Sound.cap_run`: after a run over
references the count is the maximum of the count before and of the ends of the
references, each at the slot that its name has after the run.  The rest goes from
references to instructions and back.
-/
import JvmListing.Proofs.SlotBinding
import JvmListing.Proofs.SlotConsistency

namespace JvmListing

/-! ## What instructions need -/

/-- The slots that the value of a variable takes: two for a long or double. -/
def Opcode.varWidth : Opcode → Nat
  | .lload | .lstore | .dload | .dstore => 2
  | _ => 1

/-- The local variables that an instruction is stored with, an upper half among them.  Whether
the opcode is one on variables does not matter here, as it does for references
(`Operation.varRef?`) and for `Insn.usesSlot`: the slots have to be there in any case. -/
def Insn.touched : Insn → List Nat
  | .var op slot => List.range' slot.toNat op.varWidth
  | .iinc slot _ => [slot.toNat]
  | _ => []

/-- The first slot above the local variables that an instruction is stored with. -/
def Insn.slotEnd? : Insn → Option Nat
  | .var op slot => some (slot.toNat + op.varWidth)
  | .iinc slot _ => some (slot.toNat + 1)
  | _ => none

theorem Insn.touched_lt {insn : Insn} {s : Nat} (hs : s ∈ insn.touched) :
    ∃ stop, insn.slotEnd? = some stop ∧ s < stop := by
  cases insn with
  | var op slot => exact ⟨_, rfl, (List.mem_range'_1.mp hs).2⟩
  | iinc slot increment =>
      rw [List.mem_singleton.mp hs]
      exact ⟨_, rfl, Nat.lt_succ_self _⟩
  | _ => cases hs

/-- The first slot above the variable of a written instruction, if its name has a slot. -/
def Operation.slotEnd? (t : SlotTable) : Operation → Option Nat
  | .var op name => (t.slotOf? name).map (· + op.varWidth)
  | .iinc name _ => (t.slotOf? name).map (· + 1)
  | _ => none

theorem Opcode.size_of_varType? {op : Opcode} {type : Ty} (h : op.varType? = some type) :
    type.size = op.varWidth := by
  cases op <;> cases h <;> rfl

theorem Opcode.varWidth_of_not_var {op : Opcode} (h : op.varType? = none ∨ op.varUse? = none) :
    op.varWidth = 1 := by
  cases op <;> first | rfl | simp [varType?, varUse?] at h

namespace LoweringContext

variable {ctx : LoweringContext}

/-- Lowering keeps where the variable of an instruction ends. -/
theorem slotEnd?_lower (hlt : ∀ name n, ctx.slots.slotOf? name = some n → n < 65536)
    {position : Position} {op : Operation} {insn : Insn} (h : ctx.lower position op = .ok insn) :
    insn.slotEnd? = op.slotEnd? ctx.slots := by
  cases op with
  | var o name =>
      obtain ⟨s, hs, h⟩ := except_bind_eq_ok.mp h
      cases h
      rw [Operation.slotEnd?, toNat_slot hlt hs]
      rfl
  | iinc name increment =>
      obtain ⟨s, hs, h⟩ := except_bind_eq_ok.mp h
      cases h
      rw [Operation.slotEnd?, toNat_slot hlt hs]
      rfl
  | newArray t =>
      simp only [lower] at h
      split at h
      · cases h
        rfl
      · cases h
  | jump o label | line label number =>
      obtain ⟨id, -, h⟩ := except_bind_eq_ok.mp h
      cases h
      rfl
  | lookupSwitch cases default | tableSwitch min max labels default =>
      obtain ⟨targets, -, h⟩ := except_bind_eq_ok.mp h
      obtain ⟨id, -, h⟩ := except_bind_eq_ok.mp h
      cases h
      rfl
  | _ =>
      cases h
      rfl

end LoweringContext

/-! ## What a table counts -/

namespace SlotTable

/-- The first slot above the value of a reference, if its name has a slot. -/
def stopOf? (t : SlotTable) (r : VarRef) : Option Nat := (t.slotOf? r.name).map (· + r.type.size)

/-- After a run the count is the maximum of the count before and of the ends of the references. -/
theorem Sound.cap_run {refs : List Reference} {t t' : SlotTable} (h : t.Sound)
    (htyped : ∀ r ∈ refs, r.WellTyped) (hrun : refs.foldlM SlotTable.addReference t = .ok t') :
    (refs.filterMap fun r => t'.stopOf? r.ref).foldl max t.cap = t'.cap := by
  induction refs generalizing t with
  | nil =>
      cases hrun
      rfl
  | cons r refs ih =>
      obtain ⟨t₁, hstep, hrest⟩ := except_bind_eq_ok.mp hrun
      obtain ⟨hr, htyped⟩ := List.forall_mem_cons.mp htyped
      have hname := h.slotOf?_reference hstep hrest
      have hcap : t₁.cap = max t.cap (t.slotFor r.ref.name + r.ref.type.size) := by
        obtain ⟨-, -, -, rfl⟩ := h.addReference_ok hstep
        rw [cap_record, Nat.max_eq_left (Ty.one_le_size (Ty.ne_void_of_valueClass? hr.1))]
      have hstop : t'.stopOf? r.ref = some (t.slotFor r.ref.name + r.ref.type.size) := by
        rw [stopOf?, hname]
        rfl
      rw [List.filterMap_cons, hstop, List.foldl_cons, ← hcap]
      exact ih (h.addReference hstep) htyped hrest

/-- Parameters count by their sizes, and only types that a field can have are counted. -/
theorem cap_addParams {m : MethodDef} {params : List Param} {t t' : SlotTable}
    (hrun : params.foldlM (addParam m) t = .ok t') :
    (∀ p ∈ params, p.isValid = true) ∧ t'.cap =
      t.cap + (params.map fun p => ((Ty.ofFieldDescriptor? p.desc).map Ty.size).getD 0).sum := by
  induction params generalizing t with
  | nil =>
      cases hrun
      exact ⟨by simp, rfl⟩
  | cons p params ih =>
      obtain ⟨t₁, hstep, hrest⟩ := except_bind_eq_ok.mp hrun
      obtain ⟨type, htype, -, rfl⟩ := addParam_ok hstep
      obtain ⟨hvalid, hcap⟩ := ih hrest
      have hfield := (Ty.ofFieldDescriptor?_eq_some_iff.mp htype).1
      have hsize := Ty.one_le_size hfield.2
      refine ⟨List.forall_mem_cons.mpr ⟨?_, hvalid⟩, ?_⟩
      · rw [Param.isValid, htype]
        rfl
      · rw [hcap, cap_record, List.map_cons, List.sum_cons, htype, Option.map_some,
          Option.getD_some]
        omega

theorem cap_declared {selfType : String} {m : MethodDef} {t : SlotTable}
    (h : declared selfType m = .ok t) :
    (∀ p ∈ m.params, p.isValid = true) ∧ t.cap = m.declaredSize := by
  obtain ⟨t₀, hthis, hrun⟩ := except_bind_eq_ok.mp h
  obtain ⟨hvalid, hcap⟩ := cap_addParams hrun
  have hstart : t₀.cap = if Access.isStatic m.access then 0 else 1 := by
    rw [addThis] at hthis
    split at hthis
    · rename_i hstatic
      cases hthis
      rw [if_pos hstatic]
    · rename_i hinstance
      obtain ⟨-, -, rfl⟩ := (use_eq_ok ..).mp hthis
      rw [if_neg hinstance]
      rfl
  rw [hstart] at hcap
  exact ⟨hvalid, hcap⟩

/-- What the count of a finished table is the maximum of. -/
theorem cap_allocate {selfType : String} {m : MethodDef} {code : Code} {t : SlotTable}
    (h : allocate selfType m code = .ok t) :
    (∀ p ∈ m.params, p.isValid = true)
      ∧ (m.declaredSize :: (references code).filterMap fun r => t.stopOf? r.ref).max? =
        some t.cap := by
  rw [allocate_eq] at h
  obtain ⟨t₀, hdeclared, hrun⟩ := except_bind_eq_ok.mp h
  obtain ⟨hvalid, hcap⟩ := cap_declared hdeclared
  have hmax := (sound_declared hdeclared).cap_run (fun r hr => wellTyped_of_mem hr) hrun
  rw [hcap] at hmax
  exact ⟨hvalid, by rw [List.max?_cons', hmax]⟩

/-! ## References and instructions -/

/-- A reference ends where the instruction ends that it is made by. -/
theorem slotEnd?_of_varRef? {t : SlotTable} {op : Operation} {r : VarRef}
    (h : op.varRef? = some r) :
    op.slotEnd? t = t.stopOf? r := by
  cases op with
  | var o name =>
      simp only [Operation.varRef?] at h
      split at h
      · rename_i type use htype huse
        cases h
        rw [stopOf?, Opcode.size_of_varType? htype]
        rfl
      · cases h
  | iinc name increment =>
      cases h
      rfl
  | _ => cases h

/-- An instruction that names a variable without using it needs the slot of the variable only. -/
theorem slotEnd?_of_not_varRef? {t : SlotTable} {op : Operation}
    (h : op.varRef? = none) {stop : Nat}
    (hstop : op.slotEnd? t = some stop) : ∃ name s, t.slotOf? name = some s ∧ stop = s + 1 := by
  cases op with
  | var o name =>
      have hwidth : o.varWidth = 1 := by
        refine Opcode.varWidth_of_not_var ?_
        simp only [Operation.varRef?] at h
        cases htype : o.varType? with
        | none => exact Or.inl rfl
        | some type =>
            cases huse : o.varUse? with
            | none => exact Or.inr rfl
            | some use =>
                rw [htype, huse] at h
                cases h
      rw [Operation.slotEnd?, hwidth] at hstop
      obtain ⟨s, hs, rfl⟩ := Option.map_eq_some_iff.mp hstop
      exact ⟨name, s, hs, rfl⟩
  | iinc name increment => cases h
  | _ => cases hstop

end SlotTable

open SlotTable

namespace Assembled

variable {options : AssemblyOptions} {helpers : Helpers} {l : Listing} {a : AssembledMethod}
  {ctx : LoweringContext} {low : Lowered} (h : Assembled options helpers l a ctx low)
include h

/-- An instruction ends where one of the body does, and each of the body has one that does. -/
theorem exists_slotEnd?_iff (hplain : ∀ e ∈ l.body, ∀ code, e.value ≠ .expression code)
    {stop : Nat} :
    (∃ insn ∈ a.method.insns, insn.slotEnd? = some stop) ↔
      ∃ e ∈ l.body, ∃ op, e.value = .operation op ∧ op.slotEnd? ctx.slots = some stop := by
  obtain ⟨-, -, -, -, hinsns, -⟩ := LoweringContext.build_ok h.built
  have hlt : ∀ name n, ctx.slots.slotOf? name = some n → n < 65536 := fun _ _ hn => h.slot_lt hn
  rw [hinsns]
  constructor
  · rintro ⟨insn, hinsn, hstop⟩
    obtain ⟨⟨insn', i⟩, hmem, rfl⟩ := List.mem_map.mp hinsn
    obtain ⟨id, rfl⟩ | ⟨e, op, hi, hv, hlower⟩ :=
      LoweringContext.operation_of_insn hplain h.lowered hmem
    · cases hstop
    · refine ⟨e, List.mem_of_getElem? hi, op, hv, ?_⟩
      rw [← LoweringContext.slotEnd?_lower hlt hlower]
      exact hstop
  · rintro ⟨e, he, op, hv, hstop⟩
    obtain ⟨k, hk⟩ := List.mem_iff_getElem?.mp he
    obtain ⟨free, own, free', hown, hall⟩ := LoweringContext.lowerEntries_of_entry h.lowered hk
    obtain ⟨insn, hlower, rfl, -⟩ := LoweringContext.lowerEntry_operation hv hown
    refine ⟨insn, List.mem_map_of_mem (hall insn List.mem_cons_self), ?_⟩
    rw [LoweringContext.slotEnd?_lower hlt hlower]
    exact hstop

/-- What an instruction needs is what a reference needs, or a slot that is bound anyway. -/
theorem slotEnd?_le_cap (hplain : ∀ e ∈ l.body, ∀ code, e.value ≠ .expression code) {insn : Insn}
    (hinsn : insn ∈ a.method.insns) {stop : Nat} (hstop : insn.slotEnd? = some stop) :
    stop ≤ ctx.slots.cap := by
  obtain ⟨e, he, op, hv, hop⟩ := (h.exists_slotEnd?_iff hplain).mp ⟨insn, hinsn, hstop⟩
  cases hr : op.varRef? with
  | some r =>
      obtain ⟨k, hk⟩ := List.mem_iff_getElem?.mp he
      have hmem : (⟨r, e.position, k⟩ : Reference) ∈ references l.body :=
        mem_references.mpr ⟨e, hk, rfl, by rw [hv]; exact hr⟩
      rw [slotEnd?_of_varRef? hr] at hop
      obtain ⟨-, hmax⟩ := cap_allocate h.slots
      refine (List.max?_eq_some_iff.mp hmax).2 stop (List.mem_cons_of_mem _ ?_)
      exact List.mem_filterMap.mpr ⟨_, hmem, hop⟩
  | none =>
      obtain ⟨name, s, hs, rfl⟩ := slotEnd?_of_not_varRef? hr hop
      exact (sound_allocate h.slots).lt_cap hs

theorem exists_insn_of_reference (hplain : ∀ e ∈ l.body, ∀ code, e.value ≠ .expression code)
    {r : Reference} (hr : r ∈ references l.body) {stop : Nat}
    (hstop : ctx.slots.stopOf? r.ref = some stop) :
    ∃ insn ∈ a.method.insns, insn.slotEnd? = some stop := by
  obtain ⟨e, hk, -, href⟩ := mem_references.mp hr
  obtain ⟨op, hop, href⟩ := Option.bind_eq_some_iff.mp href
  rw [← slotEnd?_of_varRef? href] at hstop
  exact (h.exists_slotEnd?_iff hplain).mpr
    ⟨e, List.mem_of_getElem? hk, op, Statement.eq_of_operation? hop, hstop⟩

theorem maxLocals_eq : a.method.maxLocals.toNat = ctx.slots.cap := by
  have hle := cap_allocate_le h.slots
  have hstored : a.method.maxLocals = UInt16.ofNat ctx.slots.cap := by
    obtain ⟨blocks, -, hbuilt⟩ := except_bind_eq_ok.mp h.built
    dsimp only at hbuilt
    split at hbuilt
    all_goals
      obtain ⟨locals, -, hbuilt⟩ := except_bind_eq_ok.mp hbuilt
      cases hbuilt
      rfl
  rw [hstored]
  refine UInt16.toNat_ofNat_of_lt' ?_
  simp only [slotLimit] at hle
  show ctx.slots.cap < 65536
  omega

end Assembled

/-- The stored number of local variables is the maximum of the slots that `this` and the
parameters take together and of the ends of the variables of all instructions, so it is above
every slot that an instruction touches. -/
theorem assembleMethod_maxLocals (options : AssemblyOptions) (helpers : Helpers) (l : Listing)
    (hplain : ∀ e ∈ l.body, ∀ code, e.value ≠ .expression code) (a : AssembledMethod)
    (h : assembleMethod options helpers l = .ok a) :
    ∃ m, l.method? = some m ∧ (∀ p ∈ m.params, p.isValid = true)
      ∧ (m.declaredSize :: a.method.insns.filterMap Insn.slotEnd?).max? =
          some a.method.maxLocals.toNat
      ∧ ∀ insn ∈ a.method.insns, ∀ s ∈ insn.touched, s < a.method.maxLocals.toNat := by
  obtain ⟨ctx, low, ha⟩ := assembled_of_ok h
  obtain ⟨hvalid, hmax⟩ := cap_allocate ha.slots
  obtain ⟨hattained, hbound⟩ := List.max?_eq_some_iff.mp hmax
  rw [ha.maxLocals_eq]
  refine ⟨ctx.method, method?_of_assembly ha.method, hvalid, List.max?_eq_some_iff.mpr ⟨?_, ?_⟩, ?_⟩
  · rcases List.mem_cons.mp hattained with hdeclared | hreferred
    · exact List.mem_cons.mpr (Or.inl hdeclared)
    · obtain ⟨r, hr, hstop⟩ := List.mem_filterMap.mp hreferred
      exact List.mem_cons_of_mem _
        (List.mem_filterMap.mpr (ha.exists_insn_of_reference hplain hr hstop))
  · intro stop hstop
    rcases List.mem_cons.mp hstop with rfl | hstop
    · exact hbound _ List.mem_cons_self
    · obtain ⟨insn, hinsn, hend⟩ := List.mem_filterMap.mp hstop
      exact ha.slotEnd?_le_cap hplain hinsn hend
  · intro insn hinsn s hs
    obtain ⟨stop, hstop, hlt⟩ := Insn.touched_lt hs
    exact Nat.lt_of_lt_of_le hlt (ha.slotEnd?_le_cap hplain hinsn hstop)

/-- An instance method with a long parameter that is narrowed, a number far ahead that holds a
double and then an int, and a name that takes the slot after it. -/
def farSlots : Listing where
  definition := .method ⟨0, "m", [⟨"J", "a", {}⟩], "V", {}, {}⟩
  code := some
    [⟨.operation (.var .istore "a"), {}⟩, ⟨.operation (.var .dstore "300"), {}⟩,
     ⟨.operation (.var .istore "300"), {}⟩, ⟨.operation (.var .astore "x"), {}⟩,
     ⟨.comment "// x is in slot 302", {}⟩, ⟨.operation (.iinc "2" 1), {}⟩]

theorem assembleMethod_maxLocals_farSlots :
    (∀ e ∈ farSlots.body, ∀ code, e.value ≠ .expression code)
      ∧ ∃ a, assembleMethod {} {} farSlots = .ok a ∧ a.method.maxLocals.toNat = 303
        ∧ (3 :: a.method.insns.filterMap Insn.slotEnd?).max? = some 303 := by
  have hplain : ∀ e ∈ farSlots.body, ∀ code, e.value ≠ .expression code := by
    simp [farSlots, Listing.body]
  have hmax : (assembleMethod {} {} farSlots).toOption.map (·.method.maxLocals.toNat)
      = some 303 := by
    decide +kernel
  obtain ⟨a, ha, hcount⟩ := Option.map_eq_some_iff.mp hmax
  have ha := toOption_eq_some.mp ha
  obtain ⟨m, hm, -, hexact, -⟩ := assembleMethod_maxLocals {} {} farSlots hplain a ha
  cases hm
  rw [hcount] at hexact
  exact ⟨hplain, a, ha, hcount, hexact⟩

end JvmListing
