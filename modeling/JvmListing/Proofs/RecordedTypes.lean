/-
# Assembling asks for no superclass

The type of a slot in the local variable table stands for all types recorded for
the slot.  Where these are several references, the closest common superclass of
their classes would have to be known.  It never has to be:

* an instruction on a reference does not say the class, so what it records is the
  root class;
* the root class is not recorded over a reference;
* `this` and the parameters, whose classes are known, take slots that nothing was
  recorded for.

So `Settled` is kept by every use: once all recorded types are references there is
exactly one.  `questions` lists the pairs of classes that `commonType` asks about;
it is empty for every slot of an assembled method, and the whole result is the same
for all answers (`assembleMethod_oracle_unasked`).
-/
import JvmListing.Proofs.Lowering
import JvmListing.Proofs.SlotNames

namespace JvmListing

/-! ## Questions -/

/-- The classes whose common superclass has to be known to join two types. -/
def Ty.question? (a b : Ty) : Option (String × String) :=
  if a = b then none
  else
    match a, b with
    | .object x, .object y => some (x, y)
    | _, _ => none

/-- The questions asked while a type is joined with others, the answers being `common`. -/
def joinQuestions (common : String → String → String) : Ty → List Ty → List (String × String)
  | _, [] => []
  | a, b :: rest =>
    (a.question? b).toList ++ joinQuestions common (commonReference (some common) a b) rest

/-- The questions asked for the type that stands for all uses of a slot. -/
def VarInfo.questions (common : String → String → String) (info : VarInfo) :
    List (String × String) :=
  match info.usages with
  | [] => []
  | first :: rest =>
    if info.usages.all Ty.isPrimitive then []
    else if info.usages.all (·.kind.isReference) then joinQuestions common first rest
    else []

theorem commonReference_of_question?_none {a b : Ty} (h : a.question? b = none)
    (oracle : Option (String → String → String)) :
    commonReference oracle a b = commonReference none a b := by
  unfold commonReference
  split
  · rfl
  · rename_i hne
    cases a <;> cases b <;> first | rfl | simp [Ty.question?, hne] at h

/-- Answers that are not asked for make no difference. -/
theorem foldl_commonReference_unasked {common : String → String → String} :
    ∀ {rest : List Ty} {first : Ty}, joinQuestions common first rest = [] →
    rest.foldl (commonReference (some common)) first = rest.foldl (commonReference none) first
  | [], _, _ => rfl
  | b :: rest, first, h => by
      obtain ⟨hnow, hlater⟩ := List.append_eq_nil_iff.mp h
      have hq : first.question? b = none := Option.toList_eq_nil_iff.mp hnow
      rw [List.foldl_cons, List.foldl_cons, foldl_commonReference_unasked hlater,
        commonReference_of_question?_none hq]

theorem VarInfo.commonType_unasked {common : String → String → String} {info : VarInfo}
    (h : info.questions common = []) : info.commonType (some common) = info.commonType none := by
  unfold questions at h
  unfold commonType
  cases hu : info.usages with
  | nil => rfl
  | cons first rest =>
      rw [hu] at h
      dsimp only at h ⊢
      split
      · rfl
      · rename_i hprim
        rw [if_neg hprim] at h
        split
        · rename_i href
          rw [if_pos href] at h
          exact foldl_commonReference_unasked h
        · rfl

/-! ## What a slot records -/

/-- The last recorded type is among the recorded ones, and if these are all
references there is one of them. -/
structure VarInfo.Settled (info : VarInfo) : Prop where
  last : info.lastType ∈ info.usages
  single : (∀ u ∈ info.usages, u.kind.isReference = true) → info.usages.length = 1

namespace VarInfo

theorem settled_first (slot : Nat) (name : String) (type : Ty) (source : VarSource) :
    (first slot name type source).Settled where
  last := List.mem_singleton_self type
  single := fun _ => rfl

/-- A slot that recorded something other than a reference may record anything. -/
theorem Settled.of_not_reference {info : VarInfo} (hlast : info.lastType ∈ info.usages) {u : Ty}
    (hmem : u ∈ info.usages) (hu : u.kind.isReference = false) : info.Settled where
  last := hlast
  single := by
    intro hall
    rw [hall u hmem] at hu
    cases hu

end VarInfo

/-- Is it a type that an opcode can imply for a variable? -/
def Ty.IsImplied (type : Ty) : Prop := type.isPrimitive = true ∨ type = .object Ty.rootClass

namespace VarInfo

theorem Settled.use {info : VarInfo} (h : info.Settled) (name : String) {type : Ty}
    (htype : type.IsImplied) (use : VarUse) (source : VarSource) :
    (info.use name type (.instruction use) source).Settled := by
  by_cases hrec : info.records type (.instruction use) = true
  · -- what is recorded becomes the last type, and one of the recorded types is no reference
    have hmem : type ∈ (info.use name type (.instruction use) source).usages := by
      simp only [VarInfo.use, hrec, Bool.true_and]
      split
      · simp
      · rename_i hin
        simpa using hin
    have hlast : (info.use name type (.instruction use) source).lastType ∈
        (info.use name type (.instruction use) source).usages := by
      have : (info.use name type (.instruction use) source).lastType = type := by
        simp [VarInfo.use, hrec]
      rwa [this]
    rcases htype with hprim | rfl
    · refine .of_not_reference hlast hmem ?_
      cases type with
      | prim p => rfl
      | array _ | object _ | method _ _ => cases hprim
    · -- the root class is recorded only over something that is no reference
      have hheld : info.lastType.kind.isReference = false := by
        simpa [records, Ty.isRootClass, Ty.isPrimitive, Ty.kind, TypeKind.isPrimitive] using
          (Bool.and_eq_true_iff.mp hrec).2
      refine .of_not_reference hlast (u := info.lastType) ?_ hheld
      simp only [VarInfo.use]
      split
      · exact List.mem_append_left _ h.last
      · exact h.last
  · have hsame : (info.use name type (.instruction use) source).usages = info.usages
        ∧ (info.use name type (.instruction use) source).lastType = info.lastType := by
      simp [VarInfo.use, hrec]
    exact ⟨by rw [hsame.1, hsame.2]; exact h.last, by rw [hsame.1]; exact h.single⟩

end VarInfo

namespace SlotTable

/-- Every slot is settled. -/
def Settled (t : SlotTable) : Prop :=
  ∀ (s : Nat) (info : VarInfo), t.info? s = some info → info.Settled

theorem isImplied_of_mem {code : Code} {r : Reference} (hr : r ∈ references code) :
    r.ref.type.IsImplied := by
  obtain ⟨e, -, -, href⟩ := mem_references.mp hr
  obtain ⟨op, -, hop⟩ := Option.bind_eq_some_iff.mp href
  cases op with
  | var o name =>
      simp only [Operation.varRef?] at hop
      split at hop
      · rename_i t use ht hu
        rw [← Option.some.inj hop]
        show t.IsImplied
        -- an opcode names no class: it loads or stores a primitive or the class of all objects
        cases o <;> cases ht <;> first | exact Or.inl rfl | exact Or.inr rfl
      · cases hop
  | iinc name n =>
      rw [← Option.some.inj hop]
      exact Or.inl rfl
  | _ => cases hop

theorem Settled.record {t : SlotTable} (h : t.Settled) {slot : Nat} {name : String} {type : Ty}
    {kind : UsageKind} {source : VarSource}
    (hslot : (nextInfo slot name type kind source (t.info? slot)).Settled) :
    (t.record slot name type kind source).Settled := by
  intro s info hinfo
  rw [info?_record] at hinfo
  split at hinfo
  · cases hinfo
    exact hslot
  · exact h s info hinfo

/-- A slot that nothing is known of is settled by its first use. -/
theorem Settled.record_fresh {t : SlotTable} (h : t.Settled) {slot : Nat}
    (hfresh : t.info? slot = none) (name : String) (type : Ty) (kind : UsageKind)
    (source : VarSource) : (t.record slot name type kind source).Settled :=
  h.record (by rw [hfresh]; exact VarInfo.settled_first ..)

theorem Settled.addReference {t t' : SlotTable} (h : t.Settled) (hsound : t.Sound) {r : Reference}
    (htype : r.ref.type.IsImplied) (hr : t.addReference r = .ok t') : t'.Settled := by
  obtain ⟨-, -, -, rfl⟩ := hsound.addReference_ok hr
  refine h.record ?_
  cases hi : t.info? (t.slotFor r.ref.name) with
  | none => exact VarInfo.settled_first ..
  | some info => exact (h _ info hi).use _ htype _ _

theorem settled_declared {selfType : String} {m : MethodDef} {t : SlotTable}
    (h : declared selfType m = .ok t) : t.Settled := by
  have hempty : Settled {} := by
    intro s info hinfo
    cases hinfo
  have hboth := declared_keeps (P := fun t => t.Sound ∧ t.Settled) ⟨sound_empty, hempty⟩
    ⟨sound_empty.record .., hempty.record_fresh rfl _ _ _ _⟩
    (fun t p type ht _ => ⟨ht.1.record .., ht.2.record_fresh ht.1.info?_cap _ _ _ _⟩) h
  exact hboth.2

theorem settled_allocate {selfType : String} {m : MethodDef} {code : Code} {t : SlotTable}
    (h : allocate selfType m code = .ok t) : t.Settled := by
  rw [allocate_eq] at h
  obtain ⟨t₀, h₀, hrun⟩ := except_bind_eq_ok.mp h
  have hkeep := foldlM_keeps_of_mem (P := fun t : SlotTable => t.Sound ∧ t.Settled)
    (fun u r u' hr hu hstep =>
      ⟨hu.1.addReference hstep, hu.2.addReference hu.1 (isImplied_of_mem hr) hstep⟩)
    ⟨sound_declared h₀, settled_declared h₀⟩ hrun
  exact hkeep.2

end SlotTable

theorem VarInfo.Settled.questions_eq_nil {info : VarInfo} (h : info.Settled)
    (common : String → String → String) : info.questions common = [] := by
  unfold VarInfo.questions
  split
  · rfl
  · rename_i first rest hu
    split
    · rfl
    · split
      · rename_i href
        have hone := h.single (List.all_eq_true.mp href)
        rw [hu, List.length_cons, Nat.add_eq_right, List.length_eq_zero_iff] at hone
        rw [hone]
        rfl
      · rfl

/-! ## Assembling without answers -/

theorem mapM_congr_of_mem {ε α β : Type} {f g : α → Except ε β} :
    ∀ {as : List α}, (∀ a ∈ as, f a = g a) → as.mapM f = as.mapM g
  | [], _ => rfl
  | a :: as, h => by
      have hrest : as.mapM f = as.mapM g :=
        mapM_congr_of_mem fun b hb => h b (List.mem_cons_of_mem _ hb)
      rw [List.mapM_cons, List.mapM_cons, h a List.mem_cons_self, hrest]

/-- The context with other answers about classes. -/
def LoweringContext.withOracle (ctx : LoweringContext)
    (oracle : Option (String → String → String)) : LoweringContext :=
  { ctx with helpers := { ctx.helpers with oracle := oracle } }

namespace LoweringContext

variable (ctx : LoweringContext) (oracle : Option (String → String → String))

theorem lowerEntries_withOracle : ∀ (code : Code) (index free : Nat),
    (ctx.withOracle oracle).lowerEntries index free code = ctx.lowerEntries index free code
  | [], _, _ => rfl
  | e :: rest, index, free => by
      have hentry : (ctx.withOracle oracle).lowerEntry free e = ctx.lowerEntry free e := rfl
      rw [lowerEntries, lowerEntries, hentry]
      simp only [lowerEntries_withOracle rest]

theorem handlers_withOracle : ∀ code : Code,
    (ctx.withOracle oracle).handlers code = ctx.handlers code
  | [] => rfl
  | e :: rest => by
      have hlabel : (ctx.withOracle oracle).label = ctx.label := rfl
      rw [handlers, handlers, handlers_withOracle rest, hlabel]

theorem localEntry_withOracle {info : VarInfo} (h : info.Settled)
    (labels : List (Nat × String)) (whole : String × String) :
    (ctx.withOracle oracle).localEntry labels whole info =
      (ctx.withOracle none).localEntry labels whole info := by
  have htype : info.commonType oracle = info.commonType none := by
    cases oracle with
    | none => rfl
    | some common => exact info.commonType_unasked (h.questions_eq_nil common)
  have hasked : info.commonType (ctx.withOracle oracle).helpers.oracle =
      info.commonType (ctx.withOracle none).helpers.oracle := htype
  rw [localEntry, localEntry, hasked]
  rfl

theorem localTable_withOracle (h : ∀ info ∈ ctx.slots.infos, info.Settled) (code : Code) :
    (ctx.withOracle oracle).localTable code = (ctx.withOracle none).localTable code := by
  have hentries : ∀ whole,
      ctx.slots.bySlot.mapM ((ctx.withOracle oracle).localEntry (labelEntries code) whole) =
        ctx.slots.bySlot.mapM ((ctx.withOracle none).localEntry (labelEntries code) whole) := by
    intro whole
    refine mapM_congr_of_mem fun info hinfo => ?_
    exact localEntry_withOracle ctx oracle (h info (ctx.slots.perm_bySlot.mem_iff.mp hinfo)) _ _
  unfold localTable
  dsimp only
  split
  · exact congrArg (· >>= _) (hentries _)
  · rfl

/-- A context whose slots are settled builds the same method whatever is answered. -/
theorem build_withOracle (h : ∀ info ∈ ctx.slots.infos, info.Settled) (code : Code)
    (lowered : Lowered) :
    (ctx.withOracle oracle).build code lowered = (ctx.withOracle none).build code lowered := by
  unfold build
  rw [localTable_withOracle ctx oracle h, handlers_withOracle, handlers_withOracle]
  rfl

end LoweringContext

theorem loweringContext_oracle (options : AssemblyOptions) (helpers : Helpers) (l : Listing)
    (oracle : Option (String → String → String)) :
    loweringContext options { helpers with oracle := oracle } l =
      (loweringContext options helpers l).map (·.withOracle oracle) := by
  unfold loweringContext
  cases assemblyMethod l with
  | error e => rfl
  | ok m =>
      cases labelIds l.body with
      | error e => rfl
      | ok labels =>
          cases h : SlotTable.allocate options.selfType m l.body with
          | error e => simp [h, bind, Except.bind, Except.map]
          | ok slots =>
              simp [h, bind, Except.bind, Except.map, pure, Except.pure,
                LoweringContext.withOracle]

theorem allocate_of_loweringContext {options : AssemblyOptions} {helpers : Helpers} {l : Listing}
    {ctx : LoweringContext} (h : loweringContext options helpers l = .ok ctx) :
    SlotTable.allocate options.selfType ctx.method l.body = .ok ctx.slots := by
  obtain ⟨m, -, h⟩ := except_bind_eq_ok.mp h
  obtain ⟨labels, -, h⟩ := except_bind_eq_ok.mp h
  obtain ⟨slots, hslots, h⟩ := except_bind_eq_ok.mp h
  cases h
  exact hslots

theorem settled_of_allocate {selfType : String} {m : MethodDef} {code : Code} {t : SlotTable}
    (h : SlotTable.allocate selfType m code = .ok t) : ∀ info ∈ t.infos, info.Settled :=
  fun info hinfo =>
    SlotTable.settled_allocate h info.slot info ((SlotTable.sound_allocate h).info?_of_mem hinfo)

theorem assembleMethod_oracle_none (options : AssemblyOptions) (helpers : Helpers) (l : Listing)
    (oracle : Option (String → String → String)) :
    assembleMethod options { helpers with oracle := oracle } l =
      assembleMethod options { helpers with oracle := none } l := by
  unfold assembleMethod
  rw [loweringContext_oracle options helpers l oracle,
    loweringContext_oracle options helpers l none]
  cases hctx : loweringContext options helpers l with
  | error e => simp only [Except.map, bind, Except.bind]
  | ok ctx =>
      have hsettled := settled_of_allocate (allocate_of_loweringContext hctx)
      have hlower : ∀ o, (ctx.withOracle o).lowerCode l.body = ctx.lowerCode l.body :=
        fun o => ctx.lowerEntries_withOracle o l.body _ _
      simp only [Except.map, bind, Except.bind, hlower]
      cases ctx.lowerCode l.body with
      | error e => rfl
      | ok low => exact ctx.build_withOracle oracle hsettled l.body low

/-- The result of assembling a method does not depend on what is known about the
inheritance of classes.  Nothing is even asked: in the slots of a method, recorded
types that are all references are one type. -/
theorem assembleMethod_oracle_unasked (options : AssemblyOptions) (helpers : Helpers)
    (l : Listing) :
    (∀ oracle oracle' : Option (String → String → String),
      assembleMethod options { helpers with oracle := oracle } l =
        assembleMethod options { helpers with oracle := oracle' } l)
    ∧ ∀ (selfType : String) (m : MethodDef) (code : Code) (t : SlotTable),
      SlotTable.allocate selfType m code = .ok t → ∀ info ∈ t.infos,
        ((∀ u ∈ info.usages, u.kind.isReference = true) → info.usages.length = 1)
        ∧ ∀ common : String → String → String, info.questions common = [] := by
  constructor
  · intro oracle oracle'
    rw [assembleMethod_oracle_none, assembleMethod_oracle_none options helpers l oracle']
  · intro selfType m code t h info hinfo
    have hsettled := settled_of_allocate h info hinfo
    exact ⟨hsettled.single, hsettled.questions_eq_nil⟩

/-- A static method with a string. -/
def stringParam : MethodDef := ⟨0x0008, "m", [⟨"Ljava/lang/String;", "s", {}⟩], "V", {}, {}⟩

/-- The string gives way to another reference, which moves to a slot that then holds
an int. -/
def reusedSlots : Code :=
  [⟨.operation (.var .aload "s"), {}⟩, ⟨.operation (.var .astore "s"), {}⟩,
   ⟨.operation (.var .astore "x"), {}⟩, ⟨.operation (.var .istore "x"), {}⟩,
   ⟨.operation (.var .astore "x"), {}⟩]

theorem assembleMethod_oracle_unasked_reusedSlots :
    ∃ t, SlotTable.allocate "A" stringParam reusedSlots = .ok t
      ∧ t.infos.map (·.usages) =
          [[.object "java/lang/String"], [.object Ty.rootClass, .int]]
      ∧ ∀ info ∈ t.infos, ∀ common : String → String → String, info.questions common = [] := by
  have hrun : (SlotTable.allocate "A" stringParam reusedSlots).toOption.map
      (fun t => t.infos.map (·.usages)) =
        some [[.object "java/lang/String"], [.object Ty.rootClass, .int]] := by
    decide +kernel
  obtain ⟨t, ht, husages⟩ := Option.map_eq_some_iff.mp hrun
  have ht := toOption_eq_some.mp ht
  exact ⟨t, ht, husages, fun info hinfo =>
    ((assembleMethod_oracle_unasked {} {} ⟨.method stringParam, none⟩).2 _ _ _ t ht info hinfo).2⟩

end JvmListing
