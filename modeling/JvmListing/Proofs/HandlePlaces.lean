/-
# Handles, place by place

A handle is found in a method at a place: as the bootstrap method of an
`invokedynamic` or among its arguments, as what an `ldc` loads, or somewhere inside an
annotation.  Listings have handles at the same places, but do not say whether the owner
of a handle is an interface.  Assembly takes that from the tag (`Handle.restored`), so
a method whose handles say something else than their tags does not come back.

  `Lifted.handle?_eq`, `handle?_of_lower`     what either direction does to an operand
  `AnnotValue.handleAt?_restored`             what both together do inside an annotation
  `handles_assembleMethod_disassembleMethod`  where the handles of a method go
-/
import JvmListing.Proofs.AnnotStorage
import JvmListing.Proofs.ClosedListings

namespace JvmListing

/-! ## Places -/

/-- The handle as it comes back from a listing: its owner is an interface where the tag says so. -/
def Handle.restored (h : Handle) : Handle := { h with itf := h.tag == .invokeInterface }

/-- The handle that a constant is. -/
def Const.handle? {H : Type} : Const H → Option H
  | .handle h => some h
  | _ => none

/-- Where an instruction has a handle. -/
inductive HandleOperand where
  | bootstrap
  /-- An argument of the bootstrap method. -/
  | argument (index : Nat)
  /-- What `ldc` loads. -/
  | loaded

/-- The handle of a stored instruction at a place. -/
def Insn.handle? : HandleOperand → Insn → Option Handle
  | .bootstrap, .invokeDynamic _ _ bootstrap _ => some bootstrap
  | .argument index, .invokeDynamic _ _ _ args => args[index]?.bind Const.handle?
  | .loaded, .ldc value => value.handle?
  | _, _ => none

/-- The handle of a written instruction at a place. -/
def Operation.handle? : HandleOperand → Operation → Option HandleRef
  | .bootstrap, .invokeDynamic _ _ bootstrap _ => some bootstrap
  | .argument index, .invokeDynamic _ _ _ args => args[index]?.bind Const.handle?
  | .loaded, .ldc value => value.handle?
  | _, _ => none

/-- The handle of an annotation value at the end of a path, each step of which says which value
of an annotation or an array comes next. -/
def AnnotValue.handleAt? : List Nat → AnnotValue → Option Handle
  | [], .const c => c.handle?
  | i :: path, .annot a => a.values[i]?.bind fun (_, value) => handleAt? path value
  | i :: path, .array values => values[i]?.bind (handleAt? path)
  | _, _ => none

/-- Where a method has a handle. -/
inductive HandlePlace where
  | operand (insn : Nat) (place : HandleOperand)
  /-- At a path in one of the visible or invisible annotations. -/
  | annot (visible : Bool) (index : Nat) (path : List Nat)

/-- The same place, in a method with some more instructions in front. -/
def HandlePlace.shift (n : Nat) : HandlePlace → HandlePlace
  | .operand insn place => .operand (insn + n) place
  | .annot visible index path => .annot visible index path

/-- The handle of a method at a place. -/
def MethodNode.handleAt? (m : MethodNode) : HandlePlace → Option Handle
  | .operand insn place => m.insns[insn]?.bind (Insn.handle? place)
  | .annot visible index path =>
    (if visible then m.visible else m.invisible)[index]?.bind fun a =>
      (AnnotValue.annot a).handleAt? path

/-! ## Handles of instructions -/

theorem Handle.restored_eq_iff {h : Handle} : h.restored = h ↔ h.isRegular = true := by
  obtain ⟨tag, owner, name, desc, itf⟩ := h
  rw [restored, isRegular, Handle.mk.injEq, beq_iff_eq]
  exact ⟨fun h => h.2.2.2.2.symm, fun h => ⟨rfl, rfl, rfl, rfl, h.symm⟩⟩

theorem Const.handle?_map {H K : Type} (f : H → K) (c : Const H) :
    (c.map f).handle? = c.handle?.map f := by
  cases c <;> rfl

theorem getElem?_map_handle? {H K : Type} (f : H → K) (args : List (Const H)) (index : Nat) :
    (args.map (·.map f))[index]?.bind Const.handle? = (args[index]?.bind Const.handle?).map f := by
  rw [List.getElem?_map, Option.bind_map, Option.map_bind]
  exact congrArg _ (funext fun c => c.handle?_map f)

section Instructions

variable {names : LabelNames} {insn insn' : Insn} {op : Operation}

/-- A written instruction has the handles of the stored one. -/
theorem Lifted.handle?_eq (h : Lifted names insn op) (o : HandleOperand) :
    op.handle? o = (insn.handle? o).map Handle.toRef := by
  cases h with
  | ldc value =>
      cases o with
      | loaded => exact value.handle?_map _
      | _ => rfl
  | invokeDynamic name desc bootstrap args =>
      cases o with
      | argument index => exact getElem?_map_handle? Handle.toRef args index
      | _ => rfl
  | _ => cases o <;> rfl

/-- A stored instruction has the handles and the opcode of the written one. -/
theorem handle?_of_lower {ctx : LoweringContext} {position : Position}
    (h : ctx.lower position op = .ok insn') :
    insn'.opcode? = op.opcode? ∧ ∀ o, insn'.handle? o = (op.handle? o).map HandleRef.toHandle := by
  cases op with
  | plain | int | type | field | method | multiArray =>
      cases h
      exact ⟨rfl, fun o => by cases o <;> rfl⟩
  | ldc value =>
      cases h
      refine ⟨rfl, fun o => ?_⟩
      cases o with
      | loaded => exact value.handle?_map _
      | _ => rfl
  | invokeDynamic name desc bootstrap args =>
      cases h
      refine ⟨rfl, fun o => ?_⟩
      cases o with
      | argument index => exact getElem?_map_handle? HandleRef.toHandle args index
      | _ => rfl
  | newArray t =>
      rw [LoweringContext.lower] at h
      split at h
      · cases h
        exact ⟨rfl, fun o => by cases o <;> rfl⟩
      · cases h
  | var | iinc | jump | line =>
      obtain ⟨operand, -, h⟩ := except_bind_eq_ok.mp h
      cases h
      exact ⟨rfl, fun o => by cases o <;> rfl⟩
  | tableSwitch | lookupSwitch =>
      obtain ⟨targets, -, h⟩ := except_bind_eq_ok.mp h
      obtain ⟨default, -, h⟩ := except_bind_eq_ok.mp h
      cases h
      exact ⟨rfl, fun o => by cases o <;> rfl⟩

end Instructions

/-- What an instruction has to do with the one that comes back for it. -/
structure Returns (insn insn' : Insn) : Prop where
  opcode : insn'.opcode? = insn.opcode?
  handles : ∀ o, insn'.handle? o = (insn.handle? o).map Handle.restored

theorem lowerEntry_of_written {ctx : LoweringContext} {names : LabelNames} {insn : Insn} {e : Entry}
    {free free' : Nat} {own : Fragment} (h : Written names insn e)
    (hown : ctx.lowerEntry free e = .ok (own, free')) :
    ∃ insn', own.insns = [insn'] ∧ Returns insn insn' := by
  cases h with
  | label hname =>
      obtain ⟨id, -, hown⟩ := except_bind_eq_ok.mp hown
      cases hown
      exact ⟨_, rfl, rfl, fun o => by cases o <;> rfl⟩
  | operation hlift =>
      obtain ⟨insn', hlower, rfl, -⟩ := LoweringContext.lowerEntry_operation rfl hown
      obtain ⟨hopcode, hstored⟩ := handle?_of_lower hlower
      refine ⟨insn', rfl, hopcode.trans hlift.opcode?_eq, fun o => ?_⟩
      rw [hstored, hlift.handle?_eq, Option.map_map]
      rfl

theorem lowerEntries_of_written {ctx : LoweringContext} {names : LabelNames} {insns : List Insn}
    {core : Code} (h : List.Forall₂ (Written names) insns core) :
    ∀ {index free : Nat} {low : Lowered}, ctx.lowerEntries index free core = .ok low →
      List.Forall₂ Returns insns (low.insns.map (·.1)) := by
  induction h with
  | nil =>
      intro index free low hlow
      cases hlow
      exact .nil
  | cons hhead _ ih =>
      intro index free low hlow
      obtain ⟨own, free', others, hown, hothers, rfl⟩ := LoweringContext.lowerEntries_cons_ok hlow
      obtain ⟨insn', hinsns, hreturns⟩ := lowerEntry_of_written hhead hown
      rw [hinsns]
      exact .cons hreturns (ih hothers)

theorem map_opcode?_of_returns {insns returned : List Insn}
    (h : List.Forall₂ Returns insns returned) :
    returned.map Insn.opcode? = insns.map Insn.opcode? := by
  induction h with
  | nil => rfl
  | cons hhead _ ih => rw [List.map_cons, List.map_cons, hhead.opcode, ih]

/-- The handles of instructions that come back between labels. -/
theorem handle?_between {insns returned : List Insn} (h : List.Forall₂ Returns insns returned)
    (before after : List LabelId) (i : Nat) (o : HandleOperand) :
    (before.map .label ++ returned ++ after.map .label)[i + before.length]?.bind (Insn.handle? o) =
      (insns[i]?.bind (Insn.handle? o)).map Handle.restored := by
  rw [List.append_assoc, List.getElem?_append_right (by simp), List.length_map, Nat.add_sub_cancel]
  induction h generalizing i with
  | nil =>
      rw [List.nil_append, List.getElem?_map, Option.bind_map]
      cases after[i]? with
      | none => rfl
      | some id => cases o <;> rfl
  | cons hhead _ ih =>
      cases i with
      | zero => exact hhead.handles o
      | succ i => exact ih i

/-! ## Handles of annotations -/

section Annotations

variable (visible : Bool)

theorem toValues_toArgs_eq_map : ∀ values : List (String × AnnotValue),
    Annot.toValues (AnnotNode.toArgs visible values) =
      values.map fun (name, value) => (name, (value.toArg visible).toValue)
  | [] => rfl
  | (name, value) :: rest => by
      rw [AnnotNode.toArgs, Annot.toValues, toValues_toArgs_eq_map rest]
      rfl

theorem toValueList_toArgList_eq_map : ∀ values : List AnnotValue,
    AnnotArg.toValueList (AnnotValue.toArgList visible values) =
      values.map fun value => (value.toArg visible).toValue
  | [] => rfl
  | value :: rest => by
      rw [AnnotValue.toArgList, AnnotArg.toValueList, toValueList_toArgList_eq_map rest]
      rfl

/-- Writing and storing an annotation keeps its handles where they are. -/
theorem AnnotValue.handleAt?_restored : ∀ (path : List Nat) (value : AnnotValue),
    ((value.toArg visible).toValue).handleAt? path = (value.handleAt? path).map Handle.restored
  | [], value => by
      cases value with
      | const c =>
          rw [AnnotValue.toArg, AnnotArg.toValue, Const.map_map]
          exact c.handle?_map _
      | enum => rfl
      | annot => rfl
      | array => rfl
  | i :: path, value => by
      cases value with
      | const c => rfl
      | enum => rfl
      | annot a =>
          obtain ⟨desc, values⟩ := a
          simp only [AnnotValue.toArg, AnnotArg.toValue, AnnotNode.toAnnot, Annot.toNode, handleAt?,
            AnnotNode.values, toValues_toArgs_eq_map, List.getElem?_map, Option.bind_map,
            Option.map_bind]
          exact congrArg _ (funext fun v => handleAt?_restored path v.2)
      | array values =>
          simp only [AnnotValue.toArg, AnnotArg.toValue, handleAt?, toValueList_toArgList_eq_map,
            List.getElem?_map, Option.bind_map, Option.map_bind]
          exact congrArg _ (funext fun v => handleAt?_restored path v)

end Annotations

/-! ## Annotations of methods -/

theorem annots_of_liftMethod {stem : String} {namer : Namer} {d : MethodDef} {code : Code}
    (h : liftMethod stem namer = .ok (d, code)) :
    d.attributes.annots = writeAnnots namer.method.visible namer.method.invisible := by
  unfold liftMethod at h
  dsimp only at h
  split at h
  · cases h
  · obtain ⟨handlers, -, h⟩ := except_bind_eq_ok.mp h
    obtain ⟨body, -, h⟩ := except_bind_eq_ok.mp h
    cases h
    rfl

theorem LoweringContext.annots_of_build {ctx : LoweringContext} {code : Code} {low : Lowered}
    {a : AssembledMethod} (h : ctx.build code low = .ok a) :
    (a.method.visible, a.method.invisible) =
      storeAnnots (ctx.method.attributes.annots ++ code.annots) := by
  obtain ⟨blocks, -, h⟩ := except_bind_eq_ok.mp h
  dsimp only at h
  split at h
  all_goals
    obtain ⟨locals, -, h⟩ := except_bind_eq_ok.mp h
    cases h
    rfl

/-- A body that was written for a method has no annotations. -/
theorem annots_body {names : LabelNames} {insns : List Insn} {blocks : List TryBlock}
    {handlers core : Code} (leading trailing : Option String)
    (hblocks : blocks.mapM (liftBlock names) = .ok handlers)
    (hwritten : List.Forall₂ (Written names) insns core) :
    Code.annots (handlers ++ labelEntriesOf leading ++ core ++ labelEntriesOf trailing) = [] := by
  have hlabels : ∀ name? : Option String, ∀ e ∈ labelEntriesOf name?, e.value.annot? = none := by
    intro name? e he
    obtain ⟨name, hname⟩ := exists_label_of_mem he
    rw [hname]
    rfl
  refine List.filterMap_eq_nil_iff.mpr fun e he => ?_
  simp only [List.mem_append] at he
  rcases he with ((he | he) | he) | he
  · obtain ⟨b, -, hb⟩ := exists_left_of_forall₂ (tryCatch_of_liftBlocks hblocks) he
    rw [hb]
    rfl
  · exact hlabels leading e he
  · obtain ⟨insn, -, hw⟩ := exists_left_of_forall₂ hwritten he
    cases hw <;> rfl
  · exact hlabels trailing e he

/-! ## Handles of methods -/

/-- The handles of a method come back at their places, with what their tags say about interfaces:
so all come back as they were exactly if they say the same. -/
theorem handles_assembleMethod_disassembleMethod (stem : String) (slots : SlotTable)
    (m : MethodNode) (options : AssemblyOptions) (helpers : Helpers) (l : Listing)
    (a : AssembledMethod) (hlift : disassembleMethod stem slots m = .ok l)
    (hassemble : assembleMethod options helpers l = .ok a) :
    ∃ (first last : Option LabelId) (returned : List Insn),
      a.method.insns = first.toList.map .label ++ returned ++ last.toList.map .label
      ∧ returned.map Insn.opcode? = m.insns.map Insn.opcode?
      ∧ (∀ p : HandlePlace, a.method.handleAt? (p.shift first.toList.length) =
          (m.handleAt? p).map Handle.restored)
      ∧ ((∀ (p : HandlePlace) (h : Handle), m.handleAt? p = some h →
            a.method.handleAt? (p.shift first.toList.length) = some h) ↔
          ∀ (p : HandlePlace) (h : Handle), m.handleAt? p = some h → h.isRegular = true) := by
  obtain ⟨d, code, handlers, core, vars, types, result, trailing, hmethod, rfl, hd, hbody, -⟩ :=
    disassembleMethod_ok hlift
  obtain ⟨ctx, low, ha⟩ := assembled_of_ok hassemble
  obtain rfl : d = ctx.method := Option.some.inj (method?_of_assembly ha.method)
  obtain ⟨-, -, -, -, hinsns, -⟩ := LoweringContext.build_ok ha.built
  have hwritten : List.Forall₂ (Written (LabelNames.ofInsns stem m.insns)) m.insns core :=
    written_of_liftInsns hd.insns
  have hlow := ha.lowered
  have hannots := LoweringContext.annots_of_build ha.built
  rw [hbody] at hlow hannots
  rw [annots_body _ _ hd.blocks hwritten, List.append_nil, annots_of_liftMethod hmethod] at hannots
  obtain ⟨first, last, index, free, lowCore, hcore, hreturned, -⟩ :=
    lowerEntries_parts hd.blocks hlow
  have hreturns := lowerEntries_of_written hwritten hcore
  rw [← hinsns] at hreturned
  have hplaces : ∀ p : HandlePlace, a.method.handleAt? (p.shift first.toList.length) =
      (m.handleAt? p).map Handle.restored := by
    intro p
    cases p with
    | operand i o =>
        rw [HandlePlace.shift, MethodNode.handleAt?, hreturned]
        exact handle?_between hreturns first.toList last.toList i o
    | annot visible i path =>
        have hannot : ∀ visible (a : AnnotNode),
            (AnnotValue.annot (a.toAnnot visible).toNode).handleAt? path =
              ((AnnotValue.annot a).handleAt? path).map Handle.restored :=
          fun visible a => AnnotValue.handleAt?_restored visible path (.annot a)
        rw [storeAnnots_writeAnnots_eq, Prod.mk.injEq] at hannots
        cases visible with
        | true =>
            simp only [HandlePlace.shift, MethodNode.handleAt?, hannots.1, if_true,
              List.getElem?_map, Option.bind_map, Option.map_bind]
            exact congrArg _ (funext fun a => hannot true a)
        | false =>
            simp only [HandlePlace.shift, MethodNode.handleAt?, hannots.2, Bool.false_eq_true,
              if_false, List.getElem?_map, Option.bind_map, Option.map_bind]
            exact congrArg _ (funext fun a => hannot false a)
  refine ⟨first, last, lowCore.insns.map (·.1), hreturned,
    map_opcode?_of_returns hreturns, hplaces, ?_⟩
  simp only [hplaces, ← Handle.restored_eq_iff]
  constructor
  · intro h p handle hp
    have := h p handle hp
    rw [hp] at this
    exact Option.some.inj this
  · intro h p handle hp
    rw [hp, Option.map_some, h p handle hp]

/-- The handle of a static method of an interface. -/
def staticOfInterface : Handle := ⟨.invokeStatic, "a/Api", "of", "()V", true⟩

/-- A method with the handle of a static method of an interface and regular ones, in all places. -/
def handleHolder : MethodNode where
  access := 0x0008
  name := "m"
  desc := "()V"
  insns :=
    [.ldc (.handle staticOfInterface), .plain .pop,
     .invokeDynamic "run" "()V" ⟨.invokeStatic, "a/Boot", "boot", "()V", false⟩
       [.type .int, .handle staticOfInterface],
     .plain .vreturn]
  visible := [nestedNode]

theorem handles_assembleMethod_disassembleMethod_handleHolder :
    ∃ l a, disassembleMethod "" {} handleHolder = .ok l ∧ assembleMethod {} {} l = .ok a
      ∧ ∃ n, (∀ p : HandlePlace,
          a.method.handleAt? (p.shift n) = (handleHolder.handleAt? p).map Handle.restored)
        ∧ a.method.handleAt? ((HandlePlace.operand 2 (.argument 1)).shift n) ≠
          some staticOfInterface
        ∧ a.method.handleAt? ((HandlePlace.annot true 0 [0, 1]).shift n) =
          some ⟨.invokeInterface, "a/Api", "call", "()V", true⟩ := by
  obtain ⟨l, a, hlift, hassemble⟩ : ∃ l a, disassembleMethod "" {} handleHolder = .ok l
      ∧ assembleMethod {} {} l = .ok a := ⟨_, _, rfl, rfl⟩
  obtain ⟨first, last, returned, -, -, hplaces, -⟩ :=
    handles_assembleMethod_disassembleMethod "" {} handleHolder {} {} l a hlift hassemble
  refine ⟨l, a, hlift, hassemble, first.toList.length, hplaces, ?_, ?_⟩
  · rw [hplaces]
    decide
  · rw [hplaces]
    rfl

end JvmListing
