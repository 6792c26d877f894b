/-
# What lowering makes of an entry

`lowerEntries` gives the instructions of a body one entry after the other, each
with the index of its entry.  The lemmas here go from an entry to its
instructions and back, so that nothing else has to follow the recursion.
-/
import JvmListing.Assembly.Member
import JvmListing.Proofs.Variables
import Mathlib.Data.List.Forall2

namespace JvmListing

namespace LoweringContext

variable {ctx : LoweringContext}

theorem lowerEntries_cons_ok {index free : Nat} {e : Entry} {rest : Code} {low : Lowered}
    (h : ctx.lowerEntries index free (e :: rest) = .ok low) :
    ∃ own free' others, ctx.lowerEntry free e = .ok (own, free')
      ∧ ctx.lowerEntries (index + 1) free' rest = .ok others
      ∧ low = ⟨own.insns.map ((·, index)) ++ others.insns, own.blocks ++ others.blocks⟩ := by
  rw [lowerEntries] at h
  obtain ⟨⟨own, free'⟩, hown, h⟩ := except_bind_eq_ok.mp h
  obtain ⟨others, hothers, h⟩ := except_bind_eq_ok.mp h
  cases h
  exact ⟨own, free', others, hown, hothers, rfl⟩

/-- Every entry is lowered, and all its instructions are there under its index. -/
theorem lowerEntries_of_entry : ∀ {code : Code} {index free : Nat} {low : Lowered},
    ctx.lowerEntries index free code = .ok low →
    ∀ {k : Nat} {e : Entry}, code[k]? = some e →
    ∃ free' own free'', ctx.lowerEntry free' e = .ok (own, free'')
      ∧ ∀ insn ∈ own.insns, (insn, index + k) ∈ low.insns
  | [], _, _, _, _, _, _, hk => by cases hk
  | e :: rest, index, free, low, h, k, e', hk => by
      obtain ⟨own, free', others, hown, hothers, rfl⟩ := lowerEntries_cons_ok h
      cases k with
      | zero =>
          cases hk
          refine ⟨free, own, free', hown, fun insn hinsn => ?_⟩
          exact List.mem_append_left _ (List.mem_map.mpr ⟨insn, hinsn, rfl⟩)
      | succ k =>
          obtain ⟨f, o, f', ho, hall⟩ := lowerEntries_of_entry hothers hk
          refine ⟨f, o, f', ho, fun insn hinsn => ?_⟩
          have := hall insn hinsn
          rw [Nat.add_right_comm, Nat.add_assoc] at this
          exact List.mem_append_right _ this

/-- Every instruction comes from the entry whose index it has. -/
theorem lowerEntries_of_insn : ∀ {code : Code} {index free : Nat} {low : Lowered},
    ctx.lowerEntries index free code = .ok low →
    ∀ {insn : Insn} {i : Nat}, (insn, i) ∈ low.insns →
    ∃ k e free' own free'', i = index + k ∧ code[k]? = some e
      ∧ ctx.lowerEntry free' e = .ok (own, free'') ∧ insn ∈ own.insns
  | [], _, _, _, h, _, _, hmem => by
      cases h
      cases hmem
  | e :: rest, index, free, low, h, insn, i, hmem => by
      obtain ⟨own, free', others, hown, hothers, rfl⟩ := lowerEntries_cons_ok h
      rcases List.mem_append.mp hmem with hmem | hmem
      · obtain ⟨insn', hinsn, he⟩ := List.mem_map.mp hmem
        cases he
        exact ⟨0, e, free, own, free', rfl, rfl, hown, hinsn⟩
      · obtain ⟨k, e', f, o, f', rfl, hk, ho, hinsn⟩ := lowerEntries_of_insn hothers hmem
        exact ⟨k + 1, e', f, o, f', by omega, hk, ho, hinsn⟩

/-- An instruction of a listing becomes one stored instruction. -/
theorem lowerEntry_operation {free free' : Nat} {e : Entry} {op : Operation} {own : Fragment}
    (he : e.value = .operation op) (h : ctx.lowerEntry free e = .ok (own, free')) :
    ∃ insn, ctx.lower e.position op = .ok insn ∧ own = ⟨[insn], []⟩ ∧ free' = free := by
  rw [lowerEntry, he] at h
  obtain ⟨insn, hinsn, h⟩ := except_bind_eq_ok.mp h
  cases h
  exact ⟨insn, hinsn, rfl, rfl⟩

theorem slot_ok {name : String} {position : Position} {s : UInt16}
    (h : ctx.slot name position = .ok s) :
    ∃ n, ctx.slots.slotOf? name = some n ∧ s = UInt16.ofNat n := by
  unfold slot at h
  split at h
  · rename_i n hn
    cases h
    exact ⟨n, hn, rfl⟩
  · cases h

theorem toNat_slot (hlt : ∀ name n, ctx.slots.slotOf? name = some n → n < 65536)
    {name : String} {position : Position} {s : UInt16} (h : ctx.slot name position = .ok s) :
    ctx.slots.slotOf? name = some s.toNat := by
  obtain ⟨n, hn, rfl⟩ := slot_ok h
  rw [UInt16.toNat_ofNat_of_lt' (hlt name n hn)]
  exact hn

end LoweringContext

/-- The local variable that an instruction is stored with.  Its opcode need not be one on
variables. -/
def Insn.slot? : Insn → Option Nat
  | .var _ slot | .iinc slot _ => some slot.toNat
  | _ => none

/-- The variable that an instruction is written with.  Its opcode need not be one on
variables; if it is, the instruction refers to the variable (`Operation.varRef?`). -/
def Operation.varName? : Operation → Option String
  | .var _ name | .iinc name _ => some name
  | _ => none

theorem Operation.varName?_of_varRef? {op : Operation} {r : VarRef} (h : op.varRef? = some r) :
    op.varName? = some r.name := by
  cases op with
  | var o name =>
      simp only [varRef?] at h
      split at h
      · cases h
        rfl
      · cases h
  | iinc name increment =>
      cases h
      rfl
  | _ => cases h

/-- An instruction is stored with the slot of the name that it is written with. -/
theorem LoweringContext.slot?_lower {ctx : LoweringContext} {position : Position}
    {op : Operation} {name : String} {insn : Insn} (hname : op.varName? = some name)
    (h : ctx.lower position op = .ok insn) :
    ∃ n, ctx.slots.slotOf? name = some n ∧ insn.slot? = some (UInt16.ofNat n).toNat := by
  cases op with
  | var _ _ | iinc _ _ =>
      cases hname
      obtain ⟨s, hs, h⟩ := except_bind_eq_ok.mp h
      cases h
      obtain ⟨n, hn, rfl⟩ := slot_ok hs
      exact ⟨n, hn, rfl⟩
  | _ => cases hname

/-! ## Lists of results -/

theorem forall₂_of_mapM_ok {ε α β : Type} {f : α → Except ε β} : ∀ {as : List α} {bs : List β},
    as.mapM f = .ok bs → List.Forall₂ (fun a b => f a = .ok b) as bs
  | [], bs, h => by
      cases h
      exact .nil
  | a :: as, bs, h => by
      rw [List.mapM_cons] at h
      obtain ⟨b, hb, h⟩ := except_bind_eq_ok.mp h
      obtain ⟨rest, hrest, h⟩ := except_bind_eq_ok.mp h
      cases h
      exact .cons hb (forall₂_of_mapM_ok hrest)

theorem exists_error_of_mapM {ε α β : Type} {f : α → Except ε β} {as : List α} {e : ε}
    (h : as.mapM f = .error e) : ∃ a ∈ as, f a = .error e := by
  induction as with
  | nil => cases h
  | cons a as ih =>
      rw [List.mapM_cons] at h
      cases ha : f a with
      | error e' =>
          rw [ha] at h
          cases h
          exact ⟨a, List.mem_cons_self, ha⟩
      | ok b =>
          rw [ha] at h
          cases has : as.mapM f with
          | error e' =>
              rw [has] at h
              cases h
              obtain ⟨a', ha', he⟩ := ih has
              exact ⟨a', List.mem_cons_of_mem _ ha', he⟩
          | ok bs =>
              rw [has] at h
              cases h

theorem exists_left_of_forall₂ {α β : Type} {R : α → β → Prop} {as : List α} {bs : List β}
    (h : List.Forall₂ R as bs) {b : β} (hb : b ∈ bs) : ∃ a ∈ as, R a b := by
  induction h with
  | nil => cases hb
  | @cons a b' as bs hab _ ih =>
      rcases List.mem_cons.mp hb with rfl | hb
      · exact ⟨a, List.mem_cons_self, hab⟩
      · obtain ⟨a', ha', hr⟩ := ih hb
        exact ⟨a', List.mem_cons_of_mem _ ha', hr⟩

theorem exists_right_of_forall₂ {α β : Type} {R : α → β → Prop} {as : List α} {bs : List β}
    (h : List.Forall₂ R as bs) {a : α} (ha : a ∈ as) : ∃ b ∈ bs, R a b :=
  exists_left_of_forall₂ (R := flip R) h.flip ha

/-- A run over a list succeeds exactly if every step does. -/
theorem exists_mapM_ok_iff {ε α β : Type} {f : α → Except ε β} {as : List α} :
    (∃ bs, as.mapM f = .ok bs) ↔ ∀ a ∈ as, ∃ b, f a = .ok b := by
  constructor
  · rintro ⟨bs, h⟩ a ha
    obtain ⟨b, -, hb⟩ := exists_right_of_forall₂ (forall₂_of_mapM_ok h) ha
    exact ⟨b, hb⟩
  · intro h
    cases hrun : as.mapM f with
    | ok bs => exact ⟨bs, rfl⟩
    | error e =>
        obtain ⟨a, ha, he⟩ := exists_error_of_mapM hrun
        obtain ⟨b, hb⟩ := h a ha
        rw [he] at hb
        cases hb

/-- Two runs over a list, if each pair of steps comes down to one function. -/
theorem map_of_mapM_ok {ε ε' α β γ : Type} {f : α → Except ε β} {g : β → Except ε' γ} {h : α → γ}
    (hstep : ∀ a b c, f a = .ok b → g b = .ok c → c = h a) :
    ∀ {as : List α} {bs : List β} {cs : List γ}, as.mapM f = .ok bs → bs.mapM g = .ok cs →
    cs = as.map h
  | [], _, _, hf, hg => by
      cases hf
      cases hg
      rfl
  | a :: as, bs, cs, hf, hg => by
      rw [List.mapM_cons] at hf
      obtain ⟨b, hb, hf⟩ := except_bind_eq_ok.mp hf
      obtain ⟨bs', hbs', hf⟩ := except_bind_eq_ok.mp hf
      cases hf
      rw [List.mapM_cons] at hg
      obtain ⟨c, hc, hg⟩ := except_bind_eq_ok.mp hg
      obtain ⟨cs', hcs', hg⟩ := except_bind_eq_ok.mp hg
      cases hg
      rw [List.map_cons, ← hstep a b c hb hc, ← map_of_mapM_ok hstep hbs' hcs']

/-! ## Labels -/

theorem label_ok {ctx : LoweringContext} {name : String} {position : Position} {id : LabelId} :
    ctx.label name position = .ok id ↔ ctx.labels.lookup name = some id := by
  unfold LoweringContext.label
  cases ctx.labels.lookup name with
  | none => simp
  | some id' => simp

/-- What an entry becomes, and how far it moves the first free label. -/
theorem LoweringContext.lowerEntry_ok {ctx : LoweringContext} {free free' : Nat} {e : Entry}
    {own : Fragment} (h : ctx.lowerEntry free e = .ok (own, free')) :
    match e.value with
    | .label name =>
      ∃ id, ctx.labels.lookup name = some id ∧ own = ⟨[.label id], []⟩ ∧ free' = free
    | .operation op =>
      ∃ insn, ctx.lower e.position op = .ok insn ∧ own = ⟨[insn], []⟩ ∧ free' = free
    | .expression text =>
      ∃ f, ctx.compileExpression text e.position = .ok f ∧ own = f.shift free
        ∧ free' = free + f.labelBound
    | _ => own = ⟨[], []⟩ ∧ free' = free := by
  cases hv : e.value with
  | label name =>
      rw [lowerEntry, hv] at h
      obtain ⟨id, hid, h⟩ := except_bind_eq_ok.mp h
      cases h
      exact ⟨id, label_ok.mp hid, rfl, rfl⟩
  | operation op => exact lowerEntry_operation hv h
  | expression text =>
      rw [lowerEntry, hv] at h
      obtain ⟨f, hf, h⟩ := except_bind_eq_ok.mp h
      cases h
      exact ⟨f, hf, rfl, rfl⟩
  | _ =>
      rw [lowerEntry, hv] at h
      cases h
      exact ⟨rfl, rfl⟩

/-- Without expressions an instruction is a label, or lowered from the operation at its index. -/
theorem LoweringContext.operation_of_insn {ctx : LoweringContext} {code : Code} {free : Nat}
    {low : Lowered} (hplain : ∀ e ∈ code, ∀ text, e.value ≠ .expression text)
    (h : ctx.lowerEntries 0 free code = .ok low) {insn : Insn} {i : Nat}
    (hmem : (insn, i) ∈ low.insns) :
    (∃ id, insn = .label id)
      ∨ ∃ e op, code[i]? = some e ∧ e.value = .operation op
        ∧ ctx.lower e.position op = .ok insn := by
  obtain ⟨k, e, _, own, _, hk, he, hown, hinsn⟩ := lowerEntries_of_insn h hmem
  rw [Nat.zero_add] at hk
  subst hk
  have hpart := lowerEntry_ok hown
  cases hv : e.value with
  | operation op =>
      rw [hv] at hpart
      obtain ⟨_, hlower, rfl, -⟩ := hpart
      cases List.mem_singleton.mp hinsn
      exact Or.inr ⟨e, op, he, hv, hlower⟩
  | expression text => exact absurd hv (hplain e (List.mem_of_getElem? he) text)
  | label name =>
      rw [hv] at hpart
      obtain ⟨id, -, rfl, -⟩ := hpart
      exact Or.inl ⟨id, List.mem_singleton.mp hinsn⟩
  | _ =>
      rw [hv] at hpart
      obtain ⟨rfl, -⟩ := hpart
      cases hinsn

theorem map_value_labels (code : Code) : code.labels.map (·.value) = code.labelNames := by
  unfold Code.labels Code.labelNames
  rw [List.map_filterMap]
  refine congrArg (List.filterMap · code) (funext fun e => ?_)
  cases e.value.label? <;> rfl

/-- Labels are numbered in order, and none is declared twice. -/
theorem numberLabels_ok : ∀ {labels : List (Located String)} {known ids : List (String × LabelId)},
    numberLabels known labels = .ok ids → (known.map (·.1)).Nodup →
    ids = known ++ (labels.map (·.value)).zipIdx known.length
      ∧ (known.map (·.1) ++ labels.map (·.value)).Nodup
  | [], known, ids, h, hnodup => by
      cases h
      simp [hnodup]
  | label :: rest, known, ids, h, hnodup => by
      rw [numberLabels] at h
      split at h
      · cases h
      · rename_i hnew
        have hnot : label.value ∉ known.map (·.1) := by
          intro hmem
          obtain ⟨p, hp, he⟩ := List.mem_map.mp hmem
          exact hnew (List.lookup_isSome_iff.mpr ⟨p, hp, by simp [he]⟩)
        have hgrown : ((known ++ [(label.value, known.length)]).map (·.1)).Nodup := by
          rw [List.map_append, List.map_singleton, List.nodup_append]
          refine ⟨hnodup, by simp, ?_⟩
          rintro a ha b hb rfl
          rw [List.mem_singleton] at hb
          subst hb
          exact hnot ha
        obtain ⟨hids, hall⟩ := numberLabels_ok h hgrown
        rw [List.length_append, List.length_singleton] at hids
        refine ⟨?_, ?_⟩
        · rw [hids, List.map_cons, List.zipIdx_cons, List.append_assoc]
          rfl
        · rw [List.map_append, List.append_assoc] at hall
          exact hall

theorem labelIds_ok {code : Code} {ids : List (String × LabelId)} (h : labelIds code = .ok ids) :
    code.labelNames.Nodup ∧ ids = code.labelNames.zipIdx := by
  obtain ⟨hids, hnodup⟩ := numberLabels_ok h List.nodup_nil
  rw [map_value_labels] at hids hnodup
  exact ⟨hnodup, hids⟩

theorem getElem?_of_lookup_zipIdx {names : List String} {name : String} {k : Nat}
    (h : names.zipIdx.lookup name = some k) : names[k]? = some name := by
  obtain ⟨l₁, l₂, hl, -⟩ := List.lookup_eq_some_iff.mp h
  have hmem : (name, k) ∈ names.zipIdx := hl ▸ by simp
  exact List.mem_zipIdx_iff_getElem?.mp hmem

theorem exists_lookup_zipIdx {names : List String} {name : String} (h : name ∈ names) :
    ∃ k, names.zipIdx.lookup name = some k := by
  obtain ⟨k, hk⟩ := List.mem_iff_getElem?.mp h
  have hmem : (name, k) ∈ names.zipIdx := List.mem_zipIdx_iff_getElem?.mpr hk
  exact Option.isSome_iff_exists.mp (List.lookup_isSome_iff.mpr ⟨_, hmem, by simp⟩)

/-! ## Bodies in parts -/

theorem LoweringContext.lowerEntries_append_ok {ctx : LoweringContext} :
    ∀ {a b : Code} {index free : Nat} {low : Lowered},
    ctx.lowerEntries index free (a ++ b) = .ok low →
    ∃ first free' second, ctx.lowerEntries index free a = .ok first
      ∧ ctx.lowerEntries (index + a.length) free' b = .ok second
      ∧ low = ⟨first.insns ++ second.insns, first.blocks ++ second.blocks⟩
  | [], b, index, free, low, h => ⟨⟨[], []⟩, free, low, rfl, h, rfl⟩
  | e :: a, b, index, free, low, h => by
      obtain ⟨own, free₁, others, hown, hothers, rfl⟩ := lowerEntries_cons_ok h
      obtain ⟨first, free₂, second, hfirst, hsecond, rfl⟩ := lowerEntries_append_ok hothers
      refine ⟨⟨own.insns.map ((·, index)) ++ first.insns, own.blocks ++ first.blocks⟩, free₂,
        second, ?_, ?_, ?_⟩
      · rw [lowerEntries]
        refine except_bind_eq_ok.mpr ⟨_, hown, ?_⟩
        exact except_bind_eq_ok.mpr ⟨first, hfirst, rfl⟩
      · rw [List.length_cons, Nat.add_comm a.length, ← Nat.add_assoc]
        exact hsecond
      · simp only [List.append_assoc]

theorem LoweringContext.handlers_append {ctx : LoweringContext} : ∀ {a b : Code}
    {blocks : List TryBlock}, ctx.handlers (a ++ b) = .ok blocks →
    ∃ first second, ctx.handlers a = .ok first ∧ ctx.handlers b = .ok second
      ∧ blocks = first ++ second
  | [], _, blocks, h => ⟨[], blocks, rfl, h, rfl⟩
  | e :: a, b, blocks, h => by
      rw [List.cons_append, handlers] at h
      rw [handlers]
      split at h
      · obtain ⟨start, hstart, h⟩ := except_bind_eq_ok.mp h
        obtain ⟨stop, hstop, h⟩ := except_bind_eq_ok.mp h
        obtain ⟨handler, hhandler, h⟩ := except_bind_eq_ok.mp h
        obtain ⟨others, hothers, h⟩ := except_bind_eq_ok.mp h
        cases h
        obtain ⟨first, second, hfirst, hsecond, rfl⟩ := handlers_append hothers
        refine ⟨_, second, ?_, hsecond, (List.cons_append ..).symm⟩
        rw [hstart, hstop, hhandler, hfirst]
        rfl
      · exact handlers_append h

/-! ## Local variable tables -/

/-- What stands in the table entry of a slot. -/
theorem LoweringContext.localEntry_ok {ctx : LoweringContext} {labels : List (Nat × String)}
    {whole : String × String} {info : VarInfo} {v : LocalVariable}
    (h : ctx.localEntry labels whole info = .ok (some v)) :
    v.name = info.name ∧ v.slot = UInt16.ofNat info.slot
      ∧ v.desc = (info.commonType ctx.helpers.oracle).descriptor
      ∧ ∃ start stop, varRange ctx.options.range labels whole info = .ok (start, stop)
        ∧ ctx.labels.lookup start = some v.start ∧ ctx.labels.lookup stop = some v.stop := by
  unfold localEntry at h
  split at h
  · cases h
  · obtain ⟨⟨start, stop⟩, hrange, h⟩ := except_bind_eq_ok.mp h
    obtain ⟨first, hfirst, h⟩ := except_bind_eq_ok.mp h
    obtain ⟨last, hlast, h⟩ := except_bind_eq_ok.mp h
    cases h
    exact ⟨rfl, rfl, rfl, start, stop, hrange, label_ok.mp hfirst, label_ok.mp hlast⟩

/-- Every entry of the table is that of a slot. -/
theorem LoweringContext.localTable_ok {ctx : LoweringContext} {code : Code}
    {locals : List LocalVariable} (h : ctx.localTable code = .ok locals) {v : LocalVariable}
    (hv : v ∈ locals) :
    ∃ info ∈ ctx.slots.bySlot, ∃ whole,
      ctx.localEntry (labelEntries code) whole info = .ok (some v) := by
  unfold localTable at h
  dsimp only at h
  split at h
  · obtain ⟨entries, hentries, h⟩ := except_bind_eq_ok.mp h
    cases h
    obtain ⟨entry, hentry, hv⟩ := List.mem_filterMap.mp hv
    cases hv
    obtain ⟨info, hinfo, hok⟩ := exists_left_of_forall₂ (forall₂_of_mapM_ok hentries) hentry
    exact ⟨info, hinfo, _, hok⟩
  · split at h
    · cases h
    · cases h
      cases hv

/-! ## Assembled methods -/

/-- What the stages of assembling a method have to do with each other. -/
structure Assembled (options : AssemblyOptions) (helpers : Helpers) (l : Listing)
    (a : AssembledMethod) (ctx : LoweringContext) (low : Lowered) : Prop where
  method : assemblyMethod l = .ok ctx.method
  options_eq : ctx.options = options
  helpers_eq : ctx.helpers = helpers
  labels : labelIds l.body = .ok ctx.labels
  slots : SlotTable.allocate options.selfType ctx.method l.body = .ok ctx.slots
  lowered : ctx.lowerEntries 0 ctx.labels.length l.body = .ok low
  built : ctx.build l.body low = .ok a

theorem method?_of_assembly {l : Listing} {m : MethodDef} (h : assemblyMethod l = .ok m) :
    l.method? = some m := by
  unfold assemblyMethod at h
  split at h
  · cases h
  · rename_i m' hm
    dsimp only at h
    split at h
    · cases h
    · split at h
      · cases h
      · cases h
        exact hm

/-- What the first two stages give. -/
theorem loweringContext_ok {options : AssemblyOptions} {helpers : Helpers} {l : Listing}
    {ctx : LoweringContext} (h : loweringContext options helpers l = .ok ctx) :
    assemblyMethod l = .ok ctx.method ∧ ctx.options = options ∧ ctx.helpers = helpers
      ∧ labelIds l.body = .ok ctx.labels
      ∧ SlotTable.allocate options.selfType ctx.method l.body = .ok ctx.slots := by
  obtain ⟨m, hm, h⟩ := except_bind_eq_ok.mp h
  obtain ⟨labels, hlabels, h⟩ := except_bind_eq_ok.mp h
  obtain ⟨slots, hslots, h⟩ := except_bind_eq_ok.mp h
  cases h
  exact ⟨hm, rfl, rfl, hlabels, hslots⟩

theorem assembled_of_ok {options : AssemblyOptions} {helpers : Helpers} {l : Listing}
    {a : AssembledMethod} (h : assembleMethod options helpers l = .ok a) :
    ∃ ctx low, Assembled options helpers l a ctx low := by
  obtain ⟨ctx, hctx, h⟩ := except_bind_eq_ok.mp h
  obtain ⟨low, hlow, hbuild⟩ := except_bind_eq_ok.mp h
  obtain ⟨hm, hoptions, hhelpers, hlabels, hslots⟩ := loweringContext_ok hctx
  exact ⟨ctx, low, hm, hoptions, hhelpers, hlabels, hslots, hlow, hbuild⟩

/-- What the last stage copies. -/
theorem LoweringContext.build_ok {ctx : LoweringContext} {code : Code} {low : Lowered}
    {a : AssembledMethod} (h : ctx.build code low = .ok a) :
    ∃ blocks, ctx.handlers code = .ok blocks
      ∧ a.slots = ctx.slots ∧ a.origins = low.insns.map (·.2)
      ∧ a.method.insns = low.insns.map (·.1) ∧ a.method.blocks = blocks ++ low.blocks
      ∧ a.method.name = ctx.method.name ∧ a.method.desc = ctx.method.desc
      ∧ a.method.exceptions = ctx.method.attributes.thrown.map (·.value) ++ code.thrown := by
  obtain ⟨blocks, hblocks, h⟩ := except_bind_eq_ok.mp h
  dsimp only at h
  split at h
  all_goals
    obtain ⟨locals, -, h⟩ := except_bind_eq_ok.mp h
    cases h
    exact ⟨blocks, hblocks, rfl, rfl, rfl, rfl, rfl, rfl, rfl⟩

/-- What the last stage adds. -/
theorem LoweringContext.build_adds {ctx : LoweringContext} {code : Code} {low : Lowered}
    {a : AssembledMethod} (h : ctx.build code low = .ok a) :
    a.code = code ∧ a.method.access = storedAccess ctx.method.access ctx.method.attributes
      ∧ (a.method.locals = [] ∨ ctx.localTable code = .ok a.method.locals) := by
  obtain ⟨blocks, -, h⟩ := except_bind_eq_ok.mp h
  dsimp only at h
  split at h
  · obtain ⟨locals, hlocals, h⟩ := except_bind_eq_ok.mp h
    cases h
    exact ⟨rfl, rfl, Or.inr hlocals⟩
  · obtain ⟨locals, hlocals, h⟩ := except_bind_eq_ok.mp h
    cases h
    cases hlocals
    exact ⟨rfl, rfl, Or.inl rfl⟩

end JvmListing
