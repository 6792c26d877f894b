/-
# Assembling what was disassembled

The listing of a stored method, where it can be assembled, gives the method back:
the same instructions up to an injective renaming of labels, with at most one new
label at either end.

`Lifts` says what an entry has to do with the instruction it was written for.
That disassembly makes such entries is where the slots come in (`Tracks`); that
lowering turns them back into the instruction is a case analysis over
instructions.
-/
import JvmListing.Proofs.Access
import JvmListing.Proofs.SlotReplay
import Mathlib.Data.List.Forall2
import Mathlib.Data.List.Nodup

namespace JvmListing

open SlotTable

/-! ## What is compared -/

/-- The handle with nothing said about its owner. -/
def Handle.withoutItf (h : Handle) : Handle := { h with itf := false }

/-- The instruction with nothing said about the owners of its handles. -/
def Insn.withoutItf : Insn → Insn
  | .invokeDynamic name desc bootstrap args =>
    .invokeDynamic name desc bootstrap.withoutItf (args.map (·.map Handle.withoutItf))
  | .ldc value => .ldc (value.map Handle.withoutItf)
  | insn => insn

/-- Does a lookup switch have a target for every key? -/
def Insn.IsBalanced : Insn → Prop
  | .lookupSwitch _ keys targets => keys.length = targets.length
  | _ => True

/-- The exception handler with its labels renamed. -/
def TryBlock.mapLabels (f : LabelId → LabelId) (b : TryBlock) : TryBlock :=
  ⟨f b.start, f b.stop, f b.handler, b.caught⟩

theorem withoutItf_toHandle_toRef (h : Handle) : h.toRef.toHandle.withoutItf = h.withoutItf := rfl

theorem map_withoutItf_toHandle_toRef (c : Const Handle) :
    ((c.map Handle.toRef).map HandleRef.toHandle).map Handle.withoutItf =
      c.map Handle.withoutItf := by
  cases c <;> rfl

/-! ## Labels -/

/-- The label of the assembled method that a label has become.  Labels without a
name are put above all others. -/
def relabel (names : LabelNames) (ids : List (String × LabelId)) (id : LabelId) : LabelId :=
  match names.names.lookup id with
  | some name => (ids.lookup name).getD 0
  | none => ids.length + id

theorem get_ok {names : LabelNames} {id : LabelId} {name : String} :
    names.get id = .ok name ↔ names.names.lookup id = some name := by
  unfold LabelNames.get
  cases names.names.lookup id with
  | none => simp
  | some name' => simp

theorem relabel_eq {names : LabelNames} {ctx : LoweringContext} {id k : LabelId} {name : String}
    {position : Position} (hget : names.get id = .ok name)
    (hlabel : ctx.label name position = .ok k) : k = relabel names ctx.labels id := by
  rw [relabel, get_ok.mp hget]
  simp [label_ok.mp hlabel]

theorem map_relabel_eq {names : LabelNames} {ctx : LoweringContext} {position : Position}
    {ids : List LabelId} {written : List String} {ks : List LabelId}
    (hget : ids.mapM names.get = .ok written)
    (hlabel : written.mapM (fun name => ctx.label name position) = .ok ks) :
    ks = ids.map (relabel names ctx.labels) :=
  map_of_mapM_ok (fun _ _ _ => relabel_eq) hget hlabel

theorem cases_relabel_eq {names : LabelNames} {ctx : LoweringContext} {position : Position} :
    ∀ {keys : List Int32} {ids : List LabelId} {cases : List SwitchCase} {ks : List LabelId},
    keys.length = ids.length →
    ((keys.zip ids).mapM fun (key, target) => do
      return SwitchCase.mk key (← names.get target)) = .ok cases →
    cases.mapM (fun c => ctx.label c.label position) = .ok ks →
    cases.map (·.key) = keys ∧ ks = ids.map (relabel names ctx.labels)
  | [], [], _, _, _, hget, hlabel => by
      cases hget
      cases hlabel
      exact ⟨rfl, rfl⟩
  | key :: keys, id :: ids, cases, ks, hlen, hget, hlabel => by
      rw [List.zip_cons_cons, List.mapM_cons] at hget
      obtain ⟨c, hc, hget⟩ := except_bind_eq_ok.mp hget
      obtain ⟨name, hname, hc⟩ := except_bind_eq_ok.mp hc
      cases hc
      obtain ⟨others, hothers, hget⟩ := except_bind_eq_ok.mp hget
      cases hget
      rw [List.mapM_cons] at hlabel
      obtain ⟨k, hk, hlabel⟩ := except_bind_eq_ok.mp hlabel
      obtain ⟨ks', hks', hlabel⟩ := except_bind_eq_ok.mp hlabel
      cases hlabel
      obtain ⟨hkeys, hids⟩ := cases_relabel_eq (Nat.succ.inj hlen) hothers hks'
      refine ⟨?_, ?_⟩
      · rw [List.map_cons, hkeys]
      · rw [List.map_cons, ← relabel_eq hname hk, ← hids]

/-! ## Instructions -/

/-- What an entry has to do with the instruction it was written for, if variables
have the slots of a table. -/
inductive Lifts (names : LabelNames) (slots : SlotTable) : Insn → Entry → Prop
  | label {id : LabelId} {name : String} {position : Position} :
      names.get id = .ok name → Lifts names slots (.label id) ⟨.label name, position⟩
  | operation {insn : Insn} {op : Operation} {position : Position} {index : Nat}
      {vars vars' : VarNames} :
      liftInsn names index vars insn = .ok (op, vars') →
      (∀ ref s, op.varRef? = some ref → insn.slot? = some s →
        slots.slotOf? ref.name = some s) →
      Lifts names slots insn ⟨.operation op, position⟩

theorem varUse?_of_varType? {op : Opcode} {t : Ty} (h : op.varType? = some t) :
    ∃ use, op.varUse? = some use := by
  cases op <;> first | exact ⟨_, rfl⟩ | cases h

theorem varRef?_var {op : Opcode} {t : Ty} {use : VarUse} (name : String)
    (ht : op.varType? = some t) (huse : op.varUse? = some use) :
    (Operation.var op name).varRef? = some ⟨name, t, use⟩ := by
  simp only [Operation.varRef?, ht, huse]

theorem Prim.arrayCode?_getElem :
    ∀ i : Fin elements.length, elements[i].arrayCode? = some (i.val + 4) := by
  decide

theorem Prim.arrayCode?_of_ofArrayCode? {v : Int32} {p : Prim}
    (h : Prim.ofArrayCode? v.toInt = some p) :
    ∃ code, p.arrayCode? = some code ∧ Int32.ofNat code = v := by
  unfold Prim.ofArrayCode? at h
  split at h
  · rename_i hlow
    obtain ⟨hlt, hp⟩ := List.getElem?_eq_some_iff.mp h
    have hcode : v.toInt = ((v.toInt - 4).toNat + 4 : Nat) := by omega
    have hv : Int32.ofNat ((v.toInt - 4).toNat + 4) = v := by
      rw [← Int32.ofInt_eq_ofNat, ← hcode, Int32.ofInt_toInt]
    exact ⟨_, hp ▸ arrayCode?_getElem ⟨_, hlt⟩, hv⟩
  · cases h

theorem liftInsn_var_ok {names : LabelNames} {index : Nat} {vars vars' : VarNames} {op : Opcode}
    {slot : UInt16} {written : Operation}
    (h : liftInsn names index vars (.var op slot) = .ok (written, vars')) :
    ∃ t use, op.varType? = some t ∧ op.varUse? = some use
      ∧ written = .var op (vars.use index t slot.toNat).1
      ∧ vars' = (vars.use index t slot.toNat).2 := by
  rw [liftInsn] at h
  cases ht : op.varType? with
  | none =>
      rw [ht] at h
      cases h
  | some t =>
      rw [ht] at h
      obtain ⟨use, huse⟩ := varUse?_of_varType? ht
      have h := Prod.mk.inj (Except.ok.inj h)
      exact ⟨t, use, rfl, huse, h.1.symm, h.2.symm⟩

theorem liftInsn_iinc_ok {names : LabelNames} {index : Nat} {vars vars' : VarNames}
    {slot : UInt16} {increment : Int32} {written : Operation}
    (h : liftInsn names index vars (.iinc slot increment) = .ok (written, vars')) :
    written = .iinc (vars.use index .int slot.toNat).1 increment
      ∧ vars' = (vars.use index .int slot.toNat).2 := by
  rw [liftInsn] at h
  have h := Prod.mk.inj (Except.ok.inj h)
  exact ⟨h.1.symm, h.2.symm⟩

/-- Lowering what was written for an instruction gives the instruction back. -/
theorem lower_of_liftInsn {ctx : LoweringContext} {names : LabelNames} {insn insn' : Insn}
    {op : Operation} {position : Position} {index : Nat} {vars vars' : VarNames}
    (hlift : liftInsn names index vars insn = .ok (op, vars'))
    (hslot : ∀ ref s, op.varRef? = some ref → insn.slot? = some s →
      ctx.slots.slotOf? ref.name = some s)
    (hbal : insn.IsBalanced) (hlower : ctx.lower position op = .ok insn') :
    insn'.withoutItf = (insn.mapLabels (relabel names ctx.labels)).withoutItf := by
  have hname : ∀ {name : String} {slot s : UInt16}, ctx.slots.slotOf? name = some slot.toNat →
      ctx.slot name position = .ok s → s = slot := by
    intro name slot s hn hs
    obtain ⟨n, hn', rfl⟩ := LoweringContext.slot_ok hs
    rw [hn] at hn'
    cases hn'
    exact UInt16.ofNat_toNat
  cases insn with
  | plain op | type op desc | field op owner name desc | method op owner name desc itf
  | multiArray desc dims =>
      cases hlift
      cases hlower
      rfl
  | int op operand =>
      rw [liftInsn] at hlift
      split at hlift
      · rename_i hop
        split at hlift
        · rename_i p hp
          cases hlift
          obtain ⟨code, hcode, hv⟩ := Prim.arrayCode?_of_ofArrayCode? hp
          simp only [LoweringContext.lower, Ty.arrayCode?, hcode] at hlower
          cases hlower
          rw [hv, hop]
          rfl
        · cases hlift
      · cases hlift
        cases hlower
        rfl
  | var op slot =>
      obtain ⟨t, use, ht, huse, rfl, -⟩ := liftInsn_var_ok hlift
      obtain ⟨s, hs, hlower⟩ := except_bind_eq_ok.mp hlower
      cases hlower
      rw [hname (hslot _ slot.toNat (varRef?_var _ ht huse) rfl) hs]
      rfl
  | iinc slot increment =>
      obtain ⟨rfl, -⟩ := liftInsn_iinc_ok hlift
      obtain ⟨s, hs, hlower⟩ := except_bind_eq_ok.mp hlower
      cases hlower
      rw [hname (hslot _ slot.toNat rfl rfl) hs]
      rfl
  | invokeDynamic name desc bootstrap args =>
      cases hlift
      cases hlower
      simp only [Insn.withoutItf, Insn.mapLabels, withoutItf_toHandle_toRef, List.map_map]
      refine congrArg _ (List.map_congr_left fun c _ => ?_)
      exact map_withoutItf_toHandle_toRef c
  | ldc value =>
      cases hlift
      cases hlower
      simp only [Insn.withoutItf, Insn.mapLabels, map_withoutItf_toHandle_toRef]
  | jump op target =>
      obtain ⟨name, hget, hlift⟩ := except_bind_eq_ok.mp hlift
      cases hlift
      obtain ⟨k, hk, hlower⟩ := except_bind_eq_ok.mp hlower
      cases hlower
      rw [relabel_eq hget hk]
      rfl
  | line number start =>
      obtain ⟨name, hget, hlift⟩ := except_bind_eq_ok.mp hlift
      cases hlift
      obtain ⟨k, hk, hlower⟩ := except_bind_eq_ok.mp hlower
      cases hlower
      rw [relabel_eq hget hk]
      rfl
  | tableSwitch min max default targets =>
      obtain ⟨written, htargets, hlift⟩ := except_bind_eq_ok.mp hlift
      obtain ⟨name, hget, hlift⟩ := except_bind_eq_ok.mp hlift
      cases hlift
      obtain ⟨ks, hks, hlower⟩ := except_bind_eq_ok.mp hlower
      obtain ⟨k, hk, hlower⟩ := except_bind_eq_ok.mp hlower
      cases hlower
      rw [map_relabel_eq htargets hks, relabel_eq hget hk]
      rfl
  | lookupSwitch default keys targets =>
      obtain ⟨cases, hcases, hlift⟩ := except_bind_eq_ok.mp hlift
      obtain ⟨name, hget, hlift⟩ := except_bind_eq_ok.mp hlift
      cases hlift
      obtain ⟨ks, hks, hlower⟩ := except_bind_eq_ok.mp hlower
      obtain ⟨k, hk, hlower⟩ := except_bind_eq_ok.mp hlower
      cases hlower
      obtain ⟨hkeys, hids⟩ := cases_relabel_eq hbal hcases hks
      rw [hkeys, hids, relabel_eq hget hk]
      rfl
  | label id => cases hlift

theorem lowerEntry_of_lifts {ctx : LoweringContext} {names : LabelNames} {insn : Insn} {e : Entry}
    {free free' : Nat} {own : Fragment} (h : Lifts names ctx.slots insn e) (hbal : insn.IsBalanced)
    (hown : ctx.lowerEntry free e = .ok (own, free')) :
    own.insns.map Insn.withoutItf = [(insn.mapLabels (relabel names ctx.labels)).withoutItf]
      ∧ own.blocks = [] := by
  cases h with
  | label hget =>
      obtain ⟨k, hk, hown⟩ := except_bind_eq_ok.mp hown
      cases hown
      rw [relabel_eq hget hk]
      exact ⟨rfl, rfl⟩
  | operation hlift hslot =>
      obtain ⟨insn', hlower, rfl, -⟩ := LoweringContext.lowerEntry_operation rfl hown
      rw [List.map_singleton, lower_of_liftInsn hlift hslot hbal hlower]
      exact ⟨rfl, rfl⟩

/-- Lowering what was written for instructions gives the instructions back. -/
theorem lowerEntries_of_lifts {ctx : LoweringContext} {names : LabelNames} {insns : List Insn}
    {code : Code} (h : List.Forall₂ (Lifts names ctx.slots) insns code) :
    ∀ {index free : Nat} {low : Lowered}, (∀ insn ∈ insns, insn.IsBalanced) →
    ctx.lowerEntries index free code = .ok low →
    (low.insns.map (·.1)).map Insn.withoutItf =
        insns.map (fun insn => (insn.mapLabels (relabel names ctx.labels)).withoutItf)
      ∧ low.blocks = [] := by
  induction h with
  | nil =>
      intro _ _ _ _ hlow
      cases hlow
      exact ⟨rfl, rfl⟩
  | cons hhead _ ih =>
      intro index free low hbal hlow
      obtain ⟨own, free', others, hown, hothers, rfl⟩ := LoweringContext.lowerEntries_cons_ok hlow
      obtain ⟨hinsns, hblocks⟩ := lowerEntry_of_lifts hhead (hbal _ List.mem_cons_self) hown
      obtain ⟨hinsns', hblocks'⟩ :=
        ih (fun insn hi => hbal insn (List.mem_cons_of_mem _ hi)) hothers
      refine ⟨?_, ?_⟩
      · have hown : (own.insns.map ((·, index))).map (·.1) = own.insns := by
          rw [List.map_map]
          exact List.map_id _
        rw [List.map_append, List.map_append, hinsns', hown, hinsns]
        rfl
      · rw [hblocks, hblocks']
        rfl

/-! ## Disassembly makes such entries -/

/-- Of an instruction that is no variable's, writing it leaves the names alone. -/
theorem liftInsn_other {names : LabelNames} {index : Nat} {vars vars' : VarNames} {insn : Insn}
    {op : Operation} (hslot : insn.slot? = none)
    (h : liftInsn names index vars insn = .ok (op, vars')) : vars' = vars ∧ op.varRef? = none := by
  cases insn with
  | var | iinc => cases hslot
  | plain | type | field | method | multiArray | ldc | invokeDynamic =>
      cases h
      exact ⟨rfl, rfl⟩
  | int op operand =>
      rw [liftInsn] at h
      split at h
      · split at h
        · cases h
          exact ⟨rfl, rfl⟩
        · cases h
      · cases h
        exact ⟨rfl, rfl⟩
  | jump | line =>
      obtain ⟨name, -, h⟩ := except_bind_eq_ok.mp h
      cases h
      exact ⟨rfl, rfl⟩
  | tableSwitch | lookupSwitch =>
      obtain ⟨written, -, h⟩ := except_bind_eq_ok.mp h
      obtain ⟨name, -, h⟩ := except_bind_eq_ok.mp h
      cases h
      exact ⟨rfl, rfl⟩
  | label => cases h

theorem liftInsns_cons_ok {names : LabelNames} {index : Nat} {vars : VarNames} {insn : Insn}
    {rest : List Insn} {code : Code} (hlabel : insn.label? = none)
    (h : liftInsns names index vars (insn :: rest) = .ok code) :
    ∃ op vars' code', liftInsn names index vars insn = .ok (op, vars')
      ∧ liftInsns names (index + 1) vars' rest = .ok code'
      ∧ code = ⟨.operation op, {}⟩ :: code' := by
  rw [liftInsns] at h
  · obtain ⟨⟨op, vars'⟩, hop, h⟩ := except_bind_eq_ok.mp h
    obtain ⟨code', hcode', h⟩ := except_bind_eq_ok.mp h
    cases h
    exact ⟨op, vars', code', hop, hcode', rfl⟩
  · rintro id rfl
    cases hlabel

/-- Writing an instruction for a slot gives a reference that resolves to the slot. -/
theorem liftInsn_slot {names : LabelNames} {index slot : Nat} {vars vars' : VarNames}
    {insn : Insn} {op : Operation} (hslot : insn.slot? = some slot)
    (h : liftInsn names index vars insn = .ok (op, vars')) :
    slot ≤ slotLimit ∧ ∃ ref name, op.varRef? = some ref
      ∧ ref.name = (vars.replay.resolve name slot ref.type.size).1
      ∧ vars'.replay = (vars.replay.resolve name slot ref.type.size).2 := by
  cases insn with
  | var o s =>
      cases hslot
      obtain ⟨t, use, ht, huse, rfl, rfl⟩ := liftInsn_var_ok h
      exact ⟨Nat.le_of_lt_succ s.toNat_lt, ⟨_, t, use⟩, (vars.namer.name (.insn index) t s.toNat).1,
        varRef?_var _ ht huse, rfl, rfl⟩
  | iinc s increment =>
      cases hslot
      obtain ⟨rfl, rfl⟩ := liftInsn_iinc_ok h
      exact ⟨Nat.le_of_lt_succ s.toNat_lt, _, (vars.namer.name (.insn index) .int s.toNat).1,
        rfl, rfl, rfl⟩
  | _ => cases hslot

theorem Tracks.lifts_operation {names : LabelNames} {index n : Nat} {vars vars' : VarNames}
    {insn : Insn} {op : Operation} {rest : Code} {t t' : SlotTable}
    (htracks : Tracks t vars.replay) (h : liftInsn names index vars insn = .ok (op, vars'))
    (hrun : (referencesFrom n (⟨.operation op, {}⟩ :: rest)).foldlM SlotTable.addReference t
      = .ok t') :
    Lifts names t' insn ⟨.operation op, {}⟩ ∧ ∃ t₁, Tracks t₁ vars'.replay
      ∧ (referencesFrom (n + 1) rest).foldlM SlotTable.addReference t₁ = .ok t' := by
  rw [referencesFrom] at hrun
  cases hslot : insn.slot? with
  | none =>
      obtain ⟨rfl, hvar⟩ := liftInsn_other hslot h
      refine ⟨.operation h fun ref s hr _ => ?_, t, htracks, ?_⟩
      · rw [hvar] at hr
        cases hr
      · have hnone : (Statement.operation op).operation?.bind Operation.varRef? = none := hvar
        rw [hnone] at hrun
        exact hrun
  | some slot =>
      obtain ⟨hle, ref, name, href, hname, hreplay⟩ := liftInsn_slot hslot h
      have hsome : (Statement.operation op).operation?.bind Operation.varRef? = some ref := href
      rw [hsome] at hrun
      obtain ⟨t₁, hstep, hrest⟩ := except_bind_eq_ok.mp hrun
      obtain ⟨htracks₁, hbound⟩ := htracks.addReference hle hname hstep
      refine ⟨.operation h fun ref' s hr hs => ?_, t₁, hreplay ▸ htracks₁, hrest⟩
      rw [href] at hr
      cases hr
      rw [hslot] at hs
      cases hs
      exact htracks₁.sound.slotOf?_run hrest hbound

/-- The entries written for instructions, if their references can be allocated. -/
theorem Tracks.lifts {names : LabelNames} : ∀ {insns : List Insn} {index n : Nat}
    {vars : VarNames} {code : Code} {t t' : SlotTable}, Tracks t vars.replay →
    liftInsns names index vars insns = .ok code →
    (referencesFrom n code).foldlM SlotTable.addReference t = .ok t' →
    List.Forall₂ (Lifts names t') insns code
  | [], _, _, _, _, _, _, _, h, _ => by
      cases h
      exact .nil
  | insn :: insns, index, n, vars, code, t, t', htracks, h, hrun => by
      by_cases hlabel : ∃ id, insn = .label id
      · obtain ⟨id, rfl⟩ := hlabel
        obtain ⟨name, hget, h⟩ := except_bind_eq_ok.mp h
        obtain ⟨rest, hrest, h⟩ := except_bind_eq_ok.mp h
        cases h
        exact .cons (.label hget) (htracks.lifts hrest hrun)
      · rw [liftInsns] at h
        · obtain ⟨⟨op, vars'⟩, hop, h⟩ := except_bind_eq_ok.mp h
          obtain ⟨rest, hrest, h⟩ := except_bind_eq_ok.mp h
          cases h
          obtain ⟨hhead, t₁, htracks₁, hrun₁⟩ := htracks.lifts_operation hop hrun
          exact .cons hhead (htracks₁.lifts hrest hrun₁)
        · intro id he
          exact hlabel ⟨id, he⟩

/-! ## Label names -/

namespace LabelNames

theorem names_lead (l : LabelNames) : l.lead.names = l.names := by
  unfold lead
  split <;> rfl

/-- Only declared labels have names. -/
theorem mem_of_lookup_foldl : ∀ {insns : List Insn} {l : LabelNames} {id : LabelId} {name : String},
    (insns.foldl visit l).names.lookup id = some name →
    (l.names.lookup id).isSome ∨ Insn.label id ∈ insns
  | [], l, id, name, h => Or.inl (Option.isSome_of_eq_some h)
  | insn :: insns, l, id, name, h => by
      rw [List.foldl_cons] at h
      rcases mem_of_lookup_foldl h with hold | hmem
      · cases insn with
        | label id' =>
            by_cases he : id' = id
            · exact Or.inr (he ▸ List.mem_cons_self)
            · left
              simp only [visit, add] at hold
              split at hold
              · exact hold
              · have hne : (id == id') = false := beq_eq_false_iff_ne.mpr fun e => he e.symm
                rw [List.lookup_append] at hold
                simpa [List.lookup_cons, hne] using hold
        | var op slot =>
            left
            simpa only [visit, names_lead] using hold
        | _ => exact Or.inl hold
      · exact Or.inr (List.mem_cons_of_mem _ hmem)

theorem mem_of_lookup_ofInsns {stem : String} {insns : List Insn} {id : LabelId} {name : String}
    (h : (ofInsns stem insns).names.lookup id = some name) : Insn.label id ∈ insns := by
  have hfold : (insns.foldl visit { stem := stem }).names.lookup id = some name := by
    unfold ofInsns at h
    dsimp only at h
    split at h
    · exact h
    · rwa [names_lead] at h
  rcases mem_of_lookup_foldl hfold with hnone | hmem
  · cases hnone
  · exact hmem

end LabelNames

theorem label?_of_liftInsn {names : LabelNames} {index : Nat} {vars : VarNames} {insn : Insn}
    {result : Operation × VarNames} (h : liftInsn names index vars insn = .ok result) :
    insn.label? = none := by
  cases insn with
  | label => cases h
  | _ => rfl

/-- The labels of written instructions are the names of theirs, in order. -/
theorem labelNames_of_lifts {names : LabelNames} {slots : SlotTable} {insns : List Insn}
    {code : Code} (h : List.Forall₂ (Lifts names slots) insns code) :
    code.labelNames.map some
      = (insns.filterMap Insn.label?).map (fun id => names.names.lookup id) := by
  induction h with
  | nil => rfl
  | cons hhead _ ih =>
      cases hhead with
      | label hget =>
          have hlookup := get_ok.mp hget
          simp only [Code.labelNames, List.filterMap_cons, Statement.label?, Insn.label?,
            List.map_cons, hlookup] at ih ⊢
          rw [ih]
      | operation hlift _ =>
          simp only [Code.labelNames, List.filterMap_cons, Statement.label?,
            label?_of_liftInsn hlift] at ih ⊢
          exact ih

section Relabel

variable {names : LabelNames} {slots : SlotTable} {insns : List Insn} {core : Code}
  {before after : List String} {id : LabelId}

theorem mem_labelNames_of_lookup (hnames : ∀ id name, names.names.lookup id = some name →
      Insn.label id ∈ insns)
    (hlifts : List.Forall₂ (Lifts names slots) insns core) {name : String}
    (h : names.names.lookup id = some name) : name ∈ core.labelNames := by
  have hmem : id ∈ insns.filterMap Insn.label? :=
    List.mem_filterMap.mpr ⟨_, hnames id name h, rfl⟩
  have hsome : some name ∈ core.labelNames.map some := by
    rw [labelNames_of_lifts hlifts, ← h]
    exact List.mem_map_of_mem hmem
  obtain ⟨name', hname', he⟩ := List.mem_map.mp hsome
  cases he
  exact hname'

/-- The number of a label with a name. -/
theorem relabel_named {labels : List String} {name : String} (hmem : name ∈ labels)
    (h : names.names.lookup id = some name) :
    labels[relabel names labels.zipIdx id]? = some name := by
  obtain ⟨k, hk⟩ := exists_lookup_zipIdx hmem
  have : relabel names labels.zipIdx id = k := by simp [relabel, h, hk]
  rw [this]
  exact getElem?_of_lookup_zipIdx hk

theorem relabel_injective (hnames : ∀ id name, names.names.lookup id = some name →
      Insn.label id ∈ insns)
    (hlifts : List.Forall₂ (Lifts names slots) insns core)
    (hnodup : (before ++ core.labelNames ++ after).Nodup) :
    Function.Injective (relabel names (before ++ core.labelNames ++ after).zipIdx) := by
  have hnumber : ∀ {x : LabelId} {n : String}, names.names.lookup x = some n →
      (before ++ core.labelNames ++ after)[relabel names
        (before ++ core.labelNames ++ after).zipIdx x]? = some n := by
    intro x n hx
    refine relabel_named ?_ hx
    simp [mem_labelNames_of_lookup hnames hlifts hx]
  have habove : ∀ {x : LabelId}, names.names.lookup x = none →
      relabel names (before ++ core.labelNames ++ after).zipIdx x =
        (before ++ core.labelNames ++ after).length + x := by
    intro x hx
    simp only [relabel, hx, List.length_zipIdx]
  intro x y hxy
  cases hx : names.names.lookup x with
  | none =>
      cases hy : names.names.lookup y with
      | none =>
          rw [habove hx, habove hy] at hxy
          exact Nat.add_left_cancel hxy
      | some m =>
          have hlt := (List.getElem?_eq_some_iff.mp (hnumber hy)).1
          rw [← hxy, habove hx] at hlt
          omega
  | some n =>
      cases hy : names.names.lookup y with
      | none =>
          have hlt := (List.getElem?_eq_some_iff.mp (hnumber hx)).1
          rw [hxy, habove hy] at hlt
          omega
      | some m =>
          have hsame := hnumber hx
          rw [hxy, hnumber hy] at hsame
          cases hsame
          -- two declarations of one name would be two entries of the body
          have hcore : core.labelNames.Nodup := hnodup.sublist (by simp)
          have hdecl :
              ((insns.filterMap Insn.label?).map fun id => names.names.lookup id).Nodup := by
            rw [← labelNames_of_lifts hlifts]
            exact hcore.map fun _ _ => Option.some.inj
          exact List.inj_on_of_nodup_map hdecl
            (List.mem_filterMap.mpr ⟨_, hnames x n hx, rfl⟩)
            (List.mem_filterMap.mpr ⟨_, hnames y n hy, rfl⟩) (hx.trans hy.symm)

/-- A label around the instructions is none of theirs. -/
theorem relabel_ne (hnames : ∀ id name, names.names.lookup id = some name →
      Insn.label id ∈ insns)
    (hlifts : List.Forall₂ (Lifts names slots) insns core)
    (hnodup : (before ++ core.labelNames ++ after).Nodup) {name : String} {k : LabelId}
    (hmem : name ∈ before ∨ name ∈ after)
    (hk : (before ++ core.labelNames ++ after).zipIdx.lookup name = some k) :
    relabel names (before ++ core.labelNames ++ after).zipIdx id ≠ k := by
  rintro rfl
  have hname := getElem?_of_lookup_zipIdx hk
  cases h : names.names.lookup id with
  | none =>
      have hlt := (List.getElem?_eq_some_iff.mp hname).1
      simp only [relabel, h, List.length_zipIdx] at hlt
      omega
  | some n =>
      have hin := mem_labelNames_of_lookup hnames hlifts h
      rw [relabel_named (by simp [hin]) h] at hname
      cases hname
      rw [List.nodup_append, List.nodup_append] at hnodup
      obtain ⟨⟨-, -, hfirst⟩, -, hlast⟩ := hnodup
      rcases hmem with hmem | hmem
      · exact hfirst name hmem name hin rfl
      · exact hlast name (List.mem_append_right _ hin) name hmem rfl

end Relabel

/-! ## Exception handlers -/

theorem liftBlock_ok {names : LabelNames} {b : TryBlock} {e : Entry}
    (h : liftBlock names b = .ok e) :
    ∃ start stop handler, names.get b.start = .ok start ∧ names.get b.stop = .ok stop
      ∧ names.get b.handler = .ok handler ∧ e = ⟨.tryCatch start stop handler b.caught, {}⟩ := by
  obtain ⟨start, hstart, h⟩ := except_bind_eq_ok.mp h
  obtain ⟨stop, hstop, h⟩ := except_bind_eq_ok.mp h
  obtain ⟨handler, hhandler, h⟩ := except_bind_eq_ok.mp h
  cases h
  exact ⟨start, stop, handler, hstart, hstop, hhandler, rfl⟩

/-- Handlers are resolved to those they were written for and are no instructions. -/
theorem handlers_of_liftBlocks (ctx : LoweringContext) {names : LabelNames} :
    ∀ {blocks : List TryBlock} {code : Code}, blocks.mapM (liftBlock names) = .ok code →
    (∀ {found : List TryBlock}, ctx.handlers code = .ok found →
      found = blocks.map (TryBlock.mapLabels (relabel names ctx.labels)))
    ∧ (∀ index free, ctx.lowerEntries index free code = .ok ⟨[], []⟩)
    ∧ (∀ index, referencesFrom index code = []) ∧ code.labelNames = [] ∧ code.thrown = []
  | [], _, h => by
      cases h
      refine ⟨?_, fun _ _ => rfl, fun _ => rfl, rfl, rfl⟩
      intro found hfound
      cases hfound
      rfl
  | b :: blocks, code, h => by
      rw [List.mapM_cons] at h
      obtain ⟨e, he, h⟩ := except_bind_eq_ok.mp h
      obtain ⟨rest, hrest, h⟩ := except_bind_eq_ok.mp h
      cases h
      obtain ⟨start, stop, handler, hstart, hstop, hhandler, rfl⟩ := liftBlock_ok he
      obtain ⟨hfound', hlower, hrefs, hlabels, hthrown⟩ := handlers_of_liftBlocks ctx hrest
      refine ⟨?_, ?_, fun index => hrefs (index + 1), hlabels, hthrown⟩
      · intro found hfound
        obtain ⟨start', hstart', hfound⟩ := except_bind_eq_ok.mp hfound
        obtain ⟨stop', hstop', hfound⟩ := except_bind_eq_ok.mp hfound
        obtain ⟨handler', hhandler', hfound⟩ := except_bind_eq_ok.mp hfound
        obtain ⟨others, hothers, hfound⟩ := except_bind_eq_ok.mp hfound
        cases hfound
        rw [relabel_eq hstart hstart', relabel_eq hstop hstop', relabel_eq hhandler hhandler',
          hfound' hothers]
        rfl
      · intro index free
        rw [LoweringContext.lowerEntries]
        exact except_bind_eq_ok.mpr ⟨_, rfl, except_bind_eq_ok.mpr ⟨_, hlower _ _, rfl⟩⟩

/-! ## Entries around and between -/

/-- The entries of labels that a body has at its ends. -/
def labelEntriesOf (names : Option String) : Code := names.toList.map fun name => ⟨.label name, {}⟩

theorem lowerEntries_labelEntriesOf {ctx : LoweringContext} {name? : Option String}
    {index free : Nat} {low : Lowered}
    (h : ctx.lowerEntries index free (labelEntriesOf name?) = .ok low) :
    ∃ id? : Option LabelId, low.insns.map (·.1) = id?.toList.map .label ∧ low.blocks = []
      ∧ ∀ id ∈ id?, ∃ name ∈ name?, ctx.labels.lookup name = some id := by
  cases name? with
  | none =>
      cases h
      exact ⟨none, rfl, rfl, nofun⟩
  | some name =>
      obtain ⟨own, free', others, hown, hothers, rfl⟩ := LoweringContext.lowerEntries_cons_ok h
      cases hothers
      obtain ⟨id, hid, hown⟩ := except_bind_eq_ok.mp hown
      cases hown
      refine ⟨some id, rfl, rfl, ?_⟩
      intro id' he
      cases he
      exact ⟨name, rfl, label_ok.mp hid⟩

/-- A label is put at the end, with a new name, unless there is one or there is nothing. -/
theorem trailingLabel_cases (names : LabelNames) (insns : List Insn) :
    ∃ trailing : Option String, trailingLabel names insns = labelEntriesOf trailing
      ∧ (∀ name ∈ trailing, name = names.next)
      ∧ (trailing = none → insns = [] ∨ ∃ front id, insns = front ++ [.label id]) := by
  unfold trailingLabel
  split
  · rename_i last hlast
    obtain ⟨front, rfl⟩ := List.getLast?_eq_some_iff.mp hlast
    split
    · rename_i hlabel
      refine ⟨none, rfl, nofun, fun _ => Or.inr ⟨front, ?_⟩⟩
      cases last with
      | label id => exact ⟨id, rfl⟩
      | _ => cases hlabel
    · exact ⟨some names.next, rfl, fun _ h => (Option.some.inj h).symm, nofun⟩
  · rename_i hnone
    exact ⟨none, rfl, nofun, fun _ => Or.inl (List.getLast?_eq_none_iff.mp hnone)⟩

theorem trailingLabel_eq (names : LabelNames) (insns : List Insn) :
    ∃ name? : Option String, trailingLabel names insns = labelEntriesOf name? :=
  (trailingLabel_cases names insns).imp fun _ h => h.1

theorem exists_label_of_mem {name? : Option String} {e : Entry} (h : e ∈ labelEntriesOf name?) :
    ∃ name, e.value = .label name := by
  obtain ⟨name, -, rfl⟩ := List.mem_map.mp h
  exact ⟨name, rfl⟩

theorem labelNames_labelEntriesOf (name? : Option String) :
    (labelEntriesOf name?).labelNames = name?.toList := by
  cases name? <;> rfl

theorem referencesFrom_labelEntriesOf (name? : Option String) (index : Nat) :
    referencesFrom index (labelEntriesOf name?) = [] := by
  cases name? <;> rfl

/-- Is the entry a label or an instruction? -/
def Entry.IsLine (e : Entry) : Prop :=
  (∃ name, e.value = .label name) ∨ ∃ op, e.value = .operation op

theorem handlers_of_lines (ctx : LoweringContext) : ∀ {code : Code}, (∀ e ∈ code, Entry.IsLine e) →
    ctx.handlers code = .ok [] ∧ code.thrown = []
  | [], _ => ⟨rfl, rfl⟩
  | e :: rest, h => by
      obtain ⟨hhandlers, hthrown⟩ :=
        handlers_of_lines ctx fun e' he' => h e' (List.mem_cons_of_mem _ he')
      rcases h e List.mem_cons_self with ⟨name, hv⟩ | ⟨op, hv⟩
      all_goals
        rw [LoweringContext.handlers, Code.thrown, List.filterMap_cons, hv]
        exact ⟨hhandlers, hthrown⟩

theorem isLine_labelEntriesOf (name? : Option String) :
    ∀ e ∈ labelEntriesOf name?, Entry.IsLine e :=
  fun _ he => Or.inl (exists_label_of_mem he)

theorem isLine_of_lifts {names : LabelNames} {slots : SlotTable} {insns : List Insn} {code : Code}
    (h : List.Forall₂ (Lifts names slots) insns code) : ∀ e ∈ code, Entry.IsLine e := by
  induction h with
  | nil => exact fun _ he => absurd he List.not_mem_nil
  | cons hhead _ ih =>
      intro e he
      rcases List.mem_cons.mp he with rfl | he
      · cases hhead with
        | label _ => exact Or.inl ⟨_, rfl⟩
        | operation _ _ => exact Or.inr ⟨_, rfl⟩
      · exact ih e he

/-! ## Methods -/

/-- What the parts of a disassembled method are. -/
structure Disassembled (stem : String) (namer : Namer) (d : MethodDef) (handlers core : Code)
    (vars : VarNames) (types : List Ty) (result : Ty) : Prop where
  desc : Ty.readMethod? namer.method.desc = some (types, result)
  access : d.access = Access.applicable namer.method.access .method
  name : d.name = namer.method.name
  named : (d.params, vars) =
    (if Access.isStatic namer.method.access then nameParams ⟨namer, {}⟩ 0 types
      else nameParams ⟨namer, SlotReplay.declare {} "this" 0 1⟩ 1 types)
  returns : d.result = result.descriptor
  thrown : d.attributes.thrown.map (·.value) = namer.method.exceptions
  blocks : namer.method.blocks.mapM (liftBlock (LabelNames.ofInsns stem namer.method.insns))
    = .ok handlers
  insns : liftInsns (LabelNames.ofInsns stem namer.method.insns) 0 vars
    namer.method.insns = .ok core

theorem disassembled_of_ok {stem : String} {namer : Namer} {d : MethodDef} {code : Code}
    (h : liftMethod stem namer = .ok (d, code)) :
    ∃ handlers core vars types result,
      Disassembled stem namer d handlers core vars types result
        ∧ code = handlers
            ++ labelEntriesOf (LabelNames.ofInsns stem namer.method.insns).leading ++ core
            ++ trailingLabel (LabelNames.ofInsns stem namer.method.insns) namer.method.insns := by
  unfold liftMethod at h
  dsimp only at h
  split at h
  · cases h
  · rename_i types result htypes
    obtain ⟨handlers, hhandlers, h⟩ := except_bind_eq_ok.mp h
    obtain ⟨core, hcore, h⟩ := except_bind_eq_ok.mp h
    cases h
    refine ⟨handlers, core, _, types, result,
      ⟨htypes, rfl, rfl, ?_, rfl, ?_, hhandlers, hcore⟩, rfl⟩
    · split <;> rfl
    · exact List.map_map.trans (List.map_id _)

/-- The parts of a listing. -/
theorem disassembleMethod_ok {stem : String} {slots : SlotTable} {m : MethodNode} {l : Listing}
    (h : disassembleMethod stem slots m = .ok l) :
    ∃ d code handlers core vars types result trailing,
      liftMethod stem (Namer.prepopulate { method := m } slots) = .ok (d, code)
      ∧ l = ⟨.method d, some code⟩
      ∧ Disassembled stem (Namer.prepopulate { method := m } slots) d handlers core vars
        types result
      ∧ l.body = handlers ++ labelEntriesOf (LabelNames.ofInsns stem m.insns).leading ++ core
          ++ labelEntriesOf trailing
      ∧ (∀ name ∈ trailing, name = (LabelNames.ofInsns stem m.insns).next)
      ∧ (trailing = none → m.insns = [] ∨ ∃ front id, m.insns = front ++ [.label id]) := by
  obtain ⟨⟨d, code⟩, hmethod, hl⟩ := except_bind_eq_ok.mp h
  cases hl
  obtain ⟨handlers, core, vars, types, result, hd, hcode⟩ := disassembled_of_ok hmethod
  obtain ⟨trailing, htrailing, hnext, hend⟩ :=
    trailingLabel_cases (LabelNames.ofInsns stem m.insns) m.insns
  refine ⟨d, code, handlers, core, vars, types, result, trailing, hmethod, rfl, hd, ?_, hnext, hend⟩
  rw [← htrailing]
  exact hcode

theorem map_desc_nameParams : ∀ (types : List Ty) (vars : VarNames) (slot : Nat),
    (nameParams vars slot types).1.map (·.desc) = types.map Ty.descriptor
  | [], _, _ => rfl
  | t :: types, vars, slot => by
      rw [nameParams, List.map_cons, List.map_cons, ← map_desc_nameParams types]

theorem join_map_descriptor : ∀ types : List Ty,
    String.join (types.map Ty.descriptor) = Ty.descriptors types
  | [] => rfl
  | t :: types => by
      rw [List.map_cons, String.join_cons, join_map_descriptor types, Ty.descriptors]

/-- The descriptor that is written is the one that was read. -/
theorem Disassembled.desc_eq {stem : String} {namer : Namer} {d : MethodDef}
    {handlers core : Code} {vars : VarNames} {types : List Ty} {result : Ty}
    (h : Disassembled stem namer d handlers core vars types result) :
    d.desc = namer.method.desc := by
  obtain ⟨-, -, -, hdesc⟩ := Ty.readMethod?_eq_some_iff.mp h.desc
  have hparams : d.params.map (·.desc) = types.map Ty.descriptor := by
    have := congrArg Prod.fst h.named
    rw [show d.params = _ from this]
    split
    · exact map_desc_nameParams types _ _
    · exact map_desc_nameParams types _ _
  rw [hdesc, MethodDef.desc, hparams, join_map_descriptor, h.returns]
  rfl

/-- The declared slots of a method with the same parameters are what the replay
started from. -/
theorem Disassembled.tracks {stem : String} {namer : Namer} {d m : MethodDef}
    {handlers core : Code} {vars : VarNames} {types : List Ty} {result : Ty}
    (h : Disassembled stem namer d handlers core vars types result) (hnamed : namer.ParamsNamed)
    (hstatic : Access.isStatic m.access = Access.isStatic namer.method.access)
    (hsame : m.params.map Param.spelling = d.params.map Param.spelling)
    {selfType : String} {t : SlotTable} (ht : declared selfType m = .ok t) :
    Tracks t vars.replay := by
  obtain ⟨hfields, -⟩ := Ty.readMethod?_eq_some_iff.mp h.desc
  obtain ⟨t₀, hthis, hparams⟩ := except_bind_eq_ok.mp ht
  unfold addThis at hthis
  rw [hstatic] at hthis
  have hnames := h.named
  split at hthis
  · rename_i hs
    cases hthis
    rw [if_pos hs] at hnames
    rw [show d.params = _ from congrArg Prod.fst hnames] at hsame
    rw [show vars = _ from congrArg Prod.snd hnames]
    exact Tracks.empty.declareParams m hnamed hfields hsame hparams
  · rename_i hs
    obtain ⟨-, -, rfl⟩ := (use_eq_ok ..).mp hthis
    rw [if_neg hs] at hnames
    rw [show d.params = _ from congrArg Prod.fst hnames] at hsame
    rw [show vars = _ from congrArg Prod.snd hnames]
    exact (Tracks.empty.declareThis selfType _).declareParams m hnamed hfields hsame hparams

/-! ## Back and forth -/

theorem labelNames_append (a b : Code) : Code.labelNames (a ++ b) = a.labelNames ++ b.labelNames :=
  List.filterMap_append

/-- Lowering a body with handlers in front and labels around is lowering what is between. -/
theorem lowerEntries_parts {ctx : LoweringContext} {names : LabelNames} {blocks : List TryBlock}
    {handlers core : Code} {leading trailing : Option String} {low : Lowered}
    (hblocks : blocks.mapM (liftBlock names) = .ok handlers)
    (h : ctx.lowerEntries 0 ctx.labels.length
      (handlers ++ labelEntriesOf leading ++ core ++ labelEntriesOf trailing) = .ok low) :
    ∃ (first last : Option LabelId) (index free : Nat) (lowCore : Lowered),
      ctx.lowerEntries index free core = .ok lowCore
        ∧ low.insns.map (·.1) =
          first.toList.map .label ++ lowCore.insns.map (·.1) ++ last.toList.map .label
        ∧ low.blocks = lowCore.blocks
        ∧ (∀ id ∈ first, ∃ name ∈ leading, ctx.labels.lookup name = some id)
        ∧ ∀ id ∈ last, ∃ name ∈ trailing, ctx.labels.lookup name = some id := by
  obtain ⟨low₃, _, lowLast, h₃, hlast, rfl⟩ := LoweringContext.lowerEntries_append_ok h
  obtain ⟨low₂, _, lowCore, h₂, hcore, rfl⟩ := LoweringContext.lowerEntries_append_ok h₃
  obtain ⟨lowHandlers, _, lowFirst, h₁, hfirst, rfl⟩ := LoweringContext.lowerEntries_append_ok h₂
  obtain ⟨-, hnone, -⟩ := handlers_of_liftBlocks ctx hblocks
  rw [hnone] at h₁
  cases h₁
  obtain ⟨first, hfirst, hfirstBlocks, hfirstNames⟩ := lowerEntries_labelEntriesOf hfirst
  obtain ⟨last, hlast, hlastBlocks, hlastNames⟩ := lowerEntries_labelEntriesOf hlast
  refine ⟨first, last, _, _, lowCore, hcore, ?_, ?_, hfirstNames, hlastNames⟩
  · simp only [List.map_append, List.nil_append, hfirst, hlast]
  · simp only [hfirstBlocks, hlastBlocks, List.nil_append, List.append_nil]

/-- What lowering makes of a body with handlers in front and labels around. -/
theorem lowerEntries_body {ctx : LoweringContext} {names : LabelNames} {insns : List Insn}
    {blocks : List TryBlock} {handlers core : Code} {leading trailing : Option String}
    {low : Lowered} (hblocks : blocks.mapM (liftBlock names) = .ok handlers)
    (hlifts : List.Forall₂ (Lifts names ctx.slots) insns core)
    (hbal : ∀ insn ∈ insns, insn.IsBalanced)
    (h : ctx.lowerEntries 0 ctx.labels.length
      (handlers ++ labelEntriesOf leading ++ core ++ labelEntriesOf trailing) = .ok low) :
    ∃ first last : Option LabelId,
      (low.insns.map (·.1)).map Insn.withoutItf =
          first.toList.map .label
            ++ insns.map (fun insn => (insn.mapLabels (relabel names ctx.labels)).withoutItf)
            ++ last.toList.map .label
        ∧ low.blocks = []
        ∧ (∀ id ∈ first, ∃ name ∈ leading, ctx.labels.lookup name = some id)
        ∧ ∀ id ∈ last, ∃ name ∈ trailing, ctx.labels.lookup name = some id := by
  obtain ⟨first, last, index, free, lowCore, hcore, hinsns, hlowBlocks, hfirst, hlast⟩ :=
    lowerEntries_parts hblocks h
  obtain ⟨hcore, hcoreBlocks⟩ := lowerEntries_of_lifts hlifts hbal hcore
  have hlabel : ∀ id? : Option LabelId, (id?.toList.map Insn.label).map Insn.withoutItf =
      id?.toList.map Insn.label := by
    intro id?
    cases id? <;> rfl
  refine ⟨first, last, ?_, hlowBlocks.trans hcoreBlocks, hfirst, hlast⟩
  simp only [hinsns, List.map_append, hcore, hlabel]

/-- What becomes of the handlers in front of a body. -/
theorem handlers_body {ctx : LoweringContext} {names : LabelNames} {slots : SlotTable}
    {insns : List Insn} {blocks found : List TryBlock} {handlers core : Code}
    {leading trailing : Option String} (hblocks : blocks.mapM (liftBlock names) = .ok handlers)
    (hlifts : List.Forall₂ (Lifts names slots) insns core)
    (h : ctx.handlers (handlers ++ labelEntriesOf leading ++ core ++ labelEntriesOf trailing)
      = .ok found) :
    found = blocks.map (TryBlock.mapLabels (relabel names ctx.labels))
      ∧ Code.thrown
        (handlers ++ labelEntriesOf leading ++ core ++ labelEntriesOf trailing) = [] := by
  have hlines : ∀ e ∈ labelEntriesOf leading ++ (core ++ labelEntriesOf trailing),
      Entry.IsLine e := by
    intro e he
    rcases List.mem_append.mp he with he | he
    · exact isLine_labelEntriesOf leading e he
    · rcases List.mem_append.mp he with he | he
      · exact isLine_of_lifts hlifts e he
      · exact isLine_labelEntriesOf trailing e he
  obtain ⟨hnone, hthrown⟩ := handlers_of_lines ctx hlines
  rw [List.append_assoc, List.append_assoc] at h ⊢
  obtain ⟨hfound, -, -, -, hthrown'⟩ := handlers_of_liftBlocks ctx hblocks
  obtain ⟨found₁, found₂, h₁, h₂, rfl⟩ := LoweringContext.handlers_append h
  rw [hnone] at h₂
  cases h₂
  refine ⟨?_, ?_⟩
  · rw [List.append_nil]
    exact hfound h₁
  · unfold Code.thrown at hthrown hthrown' ⊢
    rw [List.filterMap_append, hthrown, hthrown']
    rfl

/-- The slots that a body is assembled with are those its instructions had. -/
theorem Disassembled.lifts {stem : String} {namer : Namer} {d : MethodDef} {handlers core : Code}
    {vars : VarNames} {types : List Ty} {result : Ty} {leading trailing : Option String}
    (h : Disassembled stem namer d handlers core vars types result) (hnamed : namer.ParamsNamed)
    {selfType : String} {t : SlotTable}
    (ht : allocate selfType d
      (handlers ++ labelEntriesOf leading ++ core ++ labelEntriesOf trailing) = .ok t) :
    List.Forall₂ (Lifts (LabelNames.ofInsns stem namer.method.insns) t)
      namer.method.insns core := by
  rw [allocate_eq, references_eq, referencesFrom_append, referencesFrom_append,
    referencesFrom_append, referencesFrom_labelEntriesOf, referencesFrom_labelEntriesOf] at ht
  obtain ⟨t₀, hdeclared, hrun⟩ := except_bind_eq_ok.mp ht
  have hrefs : ∀ index, referencesFrom index handlers = [] :=
    (handlers_of_liftBlocks ⟨d, {}, {}, [], {}⟩ h.blocks).2.2.1
  rw [hrefs, List.append_nil, List.append_nil, List.nil_append] at hrun
  have hstatic : Access.isStatic d.access = Access.isStatic namer.method.access := by
    rw [h.access, isStatic_applicable]
  exact (h.tracks hnamed hstatic rfl hdeclared).lifts h.insns hrun

/-- A method comes back from its listing, if the listing can be assembled: with
other label numbers, a label before and after it where it had none, and no word on
whether the owners of handles are interfaces. -/
theorem assembleMethod_disassembleMethod (stem : String) (slots : SlotTable) (m : MethodNode)
    (options : AssemblyOptions) (helpers : Helpers) (l : Listing) (a : AssembledMethod)
    (hbal : ∀ insn ∈ m.insns, insn.IsBalanced)
    (hlift : disassembleMethod stem slots m = .ok l)
    (hassemble : assembleMethod options helpers l = .ok a) :
    ∃ r : LabelId → LabelId, Function.Injective r ∧ ∃ first last : Option LabelId,
      (∀ id, r id ∉ first ∧ r id ∉ last)
      ∧ a.method.insns.map Insn.withoutItf =
          first.toList.map .label ++ m.insns.map (fun insn => (insn.mapLabels r).withoutItf)
            ++ last.toList.map .label
      ∧ a.method.blocks = m.blocks.map (TryBlock.mapLabels r)
      ∧ a.method.name = m.name ∧ a.method.desc = m.desc
      ∧ a.method.exceptions = m.exceptions := by
  obtain ⟨⟨d, code⟩, hmethod, hl⟩ := except_bind_eq_ok.mp hlift
  cases hl
  obtain ⟨handlers, core, vars, types, result, hd, hcode⟩ := disassembled_of_ok hmethod
  obtain ⟨trailing, htrailing⟩ := trailingLabel_eq (LabelNames.ofInsns stem m.insns) m.insns
  obtain ⟨ctx, low, ha⟩ := assembled_of_ok hassemble
  obtain rfl : d = ctx.method := Option.some.inj (method?_of_assembly ha.method)
  obtain ⟨blocks, hblocks, -, -, hinsns, hmblocks, hname, hdesc, hexceptions⟩ :=
    LoweringContext.build_ok ha.built
  have hbody : Listing.body ⟨.method ctx.method, some code⟩ =
      handlers ++ labelEntriesOf (LabelNames.ofInsns stem m.insns).leading ++ core
        ++ labelEntriesOf trailing := by
    rw [← htrailing]
    exact hcode
  have hslots := ha.slots
  have hlow := ha.lowered
  obtain ⟨hnodup, hids⟩ := labelIds_ok ha.labels
  rw [hbody] at hblocks hslots hlow hnodup hids hexceptions
  have hlifts := hd.lifts nofun hslots
  obtain ⟨hfound, hthrown⟩ := handlers_body hd.blocks hlifts hblocks
  obtain ⟨-, -, -, hlabels, -⟩ := handlers_of_liftBlocks ctx hd.blocks
  obtain ⟨first, last, hlowInsns, hlowBlocks, hfirst, hlast⟩ :=
    lowerEntries_body hd.blocks hlifts hbal hlow
  rw [labelNames_append, labelNames_append, labelNames_append, hlabels, labelNames_labelEntriesOf,
    labelNames_labelEntriesOf, List.nil_append] at hnodup hids
  have hnames : ∀ id name, (LabelNames.ofInsns stem m.insns).names.lookup id = some name →
      Insn.label id ∈ m.insns := fun _ _ => LabelNames.mem_of_lookup_ofInsns
  refine ⟨relabel (LabelNames.ofInsns stem m.insns) ctx.labels, ?_, first, last, ?_, ?_, ?_,
    hname.trans hd.name, hdesc.trans hd.desc_eq, ?_⟩
  · rw [hids]
    exact relabel_injective hnames hlifts hnodup
  · intro id
    rw [hids] at hfirst hlast ⊢
    constructor
    · intro hid
      obtain ⟨name, hmem, hk⟩ := hfirst _ hid
      exact relabel_ne hnames hlifts hnodup (Or.inl (Option.mem_toList.mpr hmem)) hk rfl
    · intro hid
      obtain ⟨name, hmem, hk⟩ := hlast _ hid
      exact relabel_ne hnames hlifts hnodup (Or.inr (Option.mem_toList.mpr hmem)) hk rfl
  · rw [hinsns]
    exact hlowInsns
  · rw [hmblocks, hfound, hlowBlocks, List.append_nil]
    rfl
  · rw [hexceptions, hthrown, List.append_nil]
    exact hd.thrown

/-- A switch back and forth over a long in slots 0 and 1 and an int above it, which
is touched before any label. -/
def countdown : MethodNode where
  access := 0x0008
  name := "m"
  desc := "(J)V"
  exceptions := ["java/lang/Error"]
  insns :=
    [.var .iload 2, .label 7, .iinc 2 (-1), .var .lload 0, .plain .l2i,
     .lookupSwitch 7 [3, 5] [9, 7], .label 9, .int .newarray 10, .plain .vreturn]
  blocks := [⟨7, 9, 9, none⟩]

theorem assembleMethod_disassembleMethod_countdown :
    (∀ insn ∈ countdown.insns, insn.IsBalanced)
      ∧ ∃ l a, disassembleMethod "L" {} countdown = .ok l ∧ assembleMethod {} {} l = .ok a
        ∧ ∃ r : LabelId → LabelId, Function.Injective r ∧ ∃ first last : Option LabelId,
          a.method.insns.map Insn.withoutItf =
            first.toList.map .label
              ++ countdown.insns.map (fun insn => (insn.mapLabels r).withoutItf)
              ++ last.toList.map .label := by
  have hbal : ∀ insn ∈ countdown.insns, insn.IsBalanced := by
    simp [countdown, Insn.IsBalanced]
  obtain ⟨l, a, hlift, hassemble⟩ : ∃ l a, disassembleMethod "L" {} countdown = .ok l
      ∧ assembleMethod {} {} l = .ok a := ⟨_, _, rfl, rfl⟩
  obtain ⟨r, hr, first, last, -, hinsns, -⟩ :=
    assembleMethod_disassembleMethod "L" {} countdown {} {} l a hbal hlift hassemble
  exact ⟨hbal, l, a, hlift, hassemble, r, hr, first, last, hinsns⟩

end JvmListing
