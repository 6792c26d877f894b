/-
# Listing what was assembled

A listing that was read and assembled can be listed again from the stored method and
the slots.  The second listing has the labels and instructions of the first, with
labels renamed and at most one new label at either end.

`Relisted` says what becomes of the lines of a body one after the other, and in
which state of `VarNames` a variable is named.  Two facts are read off it: without
its variables a line is always the same, and a line is the same altogether as
long as every reference is called what it was called (`SlotNames`).
-/
import JvmListing.Proofs.AnnotStorage
import JvmListing.Proofs.LabelClosure
import JvmListing.Proofs.LabelNames
import JvmListing.Proofs.ReadListings
import JvmListing.Proofs.Reassembly
import JvmListing.Proofs.SlotNames

namespace JvmListing

open SlotTable

/-! ## Lines -/

/-- The operation with its labels renamed. -/
def Operation.mapLabels (f : String → String) : Operation → Operation
  | .jump op label => .jump op (f label)
  | .lookupSwitch cases default => .lookupSwitch (cases.map fun c => ⟨c.key, f c.label⟩) (f default)
  | .tableSwitch min max labels default => .tableSwitch min max (labels.map f) (f default)
  | .line label number => .line (f label) number
  | op => op

/-- The operation with another variable in place of the one it names. -/
def Operation.withVar (name : String) : Operation → Operation
  | .var op _ => .var op name
  | .iinc _ increment => .iinc name increment
  | op => op

namespace Statement

/-- Is it a label or an instruction? -/
def isLine : Statement → Bool
  | .label _ | .operation _ => true
  | _ => false

/-- The line with its labels renamed. -/
def mapLabels (f : String → String) : Statement → Statement
  | .label name => .label (f name)
  | .operation op => .operation (op.mapLabels f)
  | s => s

/-- The line with another variable in place of the one it names. -/
def withVar (name : String) : Statement → Statement
  | .operation op => .operation (op.withVar name)
  | s => s

end Statement

/-- The labels and instructions of a body, in order. -/
def Code.lines (code : Code) : List Statement := (code.map (·.value)).filter Statement.isLine

theorem Code.lines_cons {e : Entry} (h : e.value.isLine = true) (code : Code) :
    Code.lines (e :: code) = e.value :: code.lines := by
  rw [lines, List.map_cons, List.filter_cons, h]
  rfl

theorem Code.lines_skip {e : Entry} (h : e.value.isLine = false) (code : Code) :
    Code.lines (e :: code) = code.lines := by
  rw [lines, List.map_cons, List.filter_cons, h]
  rfl

theorem Code.lines_append (a b : Code) : Code.lines (a ++ b) = a.lines ++ b.lines := by
  rw [lines, List.map_append, List.filter_append]
  rfl

section Variables

variable {op : Operation} {ref : VarRef}

theorem Operation.withVar_withVar (op : Operation) (a b : String) :
    (op.withVar a).withVar b = op.withVar b := by
  cases op <;> rfl

/-- An operation with a variable has no labels. -/
theorem Operation.mapLabels_of_varRef? (h : op.varRef? = some ref) (f : String → String) :
    op.mapLabels f = op := by
  cases op with
  | var | iinc => rfl
  | _ => cases h

theorem Operation.withVar_name (h : op.varRef? = some ref) : op.withVar ref.name = op := by
  cases op with
  | var o name =>
      simp only [varRef?] at h
      split at h
      · cases h
        rfl
      · cases h
  | iinc =>
      cases h
      rfl
  | _ => cases h

end Variables

/-! ## Instructions -/

section Labels

variable {ctx : LoweringContext} {names : LabelNames} {position : Position}

theorem rename_of_ok {id : LabelId} {name written : String} (hid : ctx.label name position = .ok id)
    (hwritten : names.get id = .ok written) : written = names.rename ctx.labels name :=
  (LabelNames.rename_eq (label_ok.mp hid) (get_ok.mp hwritten)).symm

theorem map_rename_of_ok {labels : List String} {ids : List LabelId} {written : List String}
    (hids : labels.mapM (fun name => ctx.label name position) = .ok ids)
    (hwritten : ids.mapM names.get = .ok written) :
    written = labels.map (names.rename ctx.labels) :=
  map_of_mapM_ok (fun _ _ _ => rename_of_ok) hids hwritten

theorem cases_rename_of_ok : ∀ {cases written : List SwitchCase} {ids : List LabelId},
    cases.mapM (fun c => ctx.label c.label position) = .ok ids →
    (((cases.map (·.key)).zip ids).mapM fun (key, target) => do
      return SwitchCase.mk key (← names.get target)) = .ok written →
    written = cases.map fun c => ⟨c.key, names.rename ctx.labels c.label⟩
  | [], _, _, hids, hwritten => by
      cases hids
      cases hwritten
      rfl
  | c :: cases, written, ids, hids, hwritten => by
      rw [List.mapM_cons] at hids
      obtain ⟨id, hid, hids⟩ := except_bind_eq_ok.mp hids
      obtain ⟨others, hothers, hids⟩ := except_bind_eq_ok.mp hids
      cases hids
      rw [List.map_cons, List.zip_cons_cons, List.mapM_cons] at hwritten
      obtain ⟨first, hfirst, hwritten⟩ := except_bind_eq_ok.mp hwritten
      obtain ⟨name, hname, hfirst⟩ := except_bind_eq_ok.mp hfirst
      cases hfirst
      obtain ⟨rest, hrest, hwritten⟩ := except_bind_eq_ok.mp hwritten
      cases hwritten
      rw [List.map_cons, ← rename_of_ok hid hname, ← cases_rename_of_ok hothers hrest]

end Labels

theorem Prim.ofArrayCode?_of_arrayCode? {p : Prim} {code : Nat} (h : p.arrayCode? = some code) :
    Prim.ofArrayCode? (Int32.ofNat code).toInt = some p := by
  cases p with
  | void => cases h
  | _ =>
      cases h
      decide

/-- What is written for the instruction that an operation was lowered to: the
operation with other label names, and with the name of its slot. -/
theorem liftInsn_lower {ctx : LoweringContext} {names : LabelNames} {position : Position}
    {index : Nat} {vars vars' : VarNames} {op op' : Operation} {insn : Insn} (hfits : op.Fits)
    (hbound : ∀ name s, ctx.slots.slotOf? name = some s → s < 65536)
    (hlower : ctx.lower position op = .ok insn)
    (hlift : liftInsn names index vars insn = .ok (op', vars')) :
    op.varRef? = none ∧ op' = op.mapLabels (names.rename ctx.labels) ∧ vars' = vars
      ∨ ∃ ref s, op.varRef? = some ref ∧ ctx.slots.slotOf? ref.name = some s
          ∧ op' = op.withVar (vars.use index ref.type s).1
          ∧ vars' = (vars.use index ref.type s).2 := by
  have hslot : ∀ {name : String} {s : UInt16}, ctx.slot name position = .ok s →
      ctx.slots.slotOf? name = some s.toNat := by
    intro name s hs
    obtain ⟨n, hn, rfl⟩ := LoweringContext.slot_ok hs
    rw [hn, UInt16.toNat_ofNat_of_lt' (hbound name n hn)]
  cases op with
  | plain | type | field | method | multiArray =>
      cases hlower
      cases hlift
      exact Or.inl ⟨rfl, rfl, rfl⟩
  | int o value =>
      cases hlower
      rw [liftInsn] at hlift
      split at hlift
      · rename_i hnew
        subst hnew
        cases hfits
      · cases hlift
        exact Or.inl ⟨rfl, rfl, rfl⟩
  | newArray t =>
      rw [LoweringContext.lower] at hlower
      split at hlower
      · rename_i code hcode
        cases hlower
        cases t with
        | prim p =>
            rw [liftInsn, if_pos rfl, Prim.ofArrayCode?_of_arrayCode? hcode] at hlift
            cases hlift
            exact Or.inl ⟨rfl, rfl, rfl⟩
        | _ => cases hcode
      · cases hlower
  | var o name =>
      obtain ⟨s, hs, hlower⟩ := except_bind_eq_ok.mp hlower
      cases hlower
      obtain ⟨t, use, ht, huse, rfl, rfl⟩ := liftInsn_var_ok hlift
      exact Or.inr ⟨_, _, varRef?_var name ht huse, hslot hs, rfl, rfl⟩
  | iinc name increment =>
      obtain ⟨s, hs, hlower⟩ := except_bind_eq_ok.mp hlower
      cases hlower
      obtain ⟨rfl, rfl⟩ := liftInsn_iinc_ok hlift
      exact Or.inr ⟨_, _, rfl, hslot hs, rfl, rfl⟩
  | invokeDynamic name desc bootstrap args =>
      cases hlower
      cases hlift
      refine Or.inl ⟨rfl, ?_, rfl⟩
      rw [HandleRef.toRef_toHandle, List.map_map]
      refine congrArg _ ((List.map_congr_left fun c _ => ?_).trans (List.map_id _))
      exact Const.toRef_toHandle c
  | ldc value =>
      cases hlower
      cases hlift
      refine Or.inl ⟨rfl, ?_, rfl⟩
      rw [Const.toRef_toHandle]
      rfl
  | jump o label =>
      obtain ⟨id, hid, hlower⟩ := except_bind_eq_ok.mp hlower
      cases hlower
      obtain ⟨written, hwritten, hlift⟩ := except_bind_eq_ok.mp hlift
      cases hlift
      rw [rename_of_ok hid hwritten]
      exact Or.inl ⟨rfl, rfl, rfl⟩
  | line label number =>
      obtain ⟨id, hid, hlower⟩ := except_bind_eq_ok.mp hlower
      cases hlower
      obtain ⟨written, hwritten, hlift⟩ := except_bind_eq_ok.mp hlift
      cases hlift
      rw [rename_of_ok hid hwritten]
      exact Or.inl ⟨rfl, rfl, rfl⟩
  | tableSwitch min max labels default =>
      obtain ⟨ids, hids, hlower⟩ := except_bind_eq_ok.mp hlower
      obtain ⟨id, hid, hlower⟩ := except_bind_eq_ok.mp hlower
      cases hlower
      obtain ⟨targets, htargets, hlift⟩ := except_bind_eq_ok.mp hlift
      obtain ⟨written, hwritten, hlift⟩ := except_bind_eq_ok.mp hlift
      cases hlift
      rw [map_rename_of_ok hids htargets, rename_of_ok hid hwritten]
      exact Or.inl ⟨rfl, rfl, rfl⟩
  | lookupSwitch cases default =>
      obtain ⟨ids, hids, hlower⟩ := except_bind_eq_ok.mp hlower
      obtain ⟨id, hid, hlower⟩ := except_bind_eq_ok.mp hlower
      cases hlower
      obtain ⟨written, hwritten, hlift⟩ := except_bind_eq_ok.mp hlift
      obtain ⟨default', hdefault, hlift⟩ := except_bind_eq_ok.mp hlift
      cases hlift
      rw [cases_rename_of_ok hids hwritten, rename_of_ok hid hdefault]
      exact Or.inl ⟨rfl, rfl, rfl⟩

/-! ## Bodies -/

/-- What the lines of a body become, if labels are renamed by `r` and variables have
the slots of a table: a variable is called what `VarNames` calls its slot. -/
inductive Relisted (r : String → String) (slots : SlotTable) :
    VarNames → Code → List Statement → Prop
  | nil {vars : VarNames} : Relisted r slots vars [] []
  | skip {vars : VarNames} {e : Entry} {body : Code} {lines : List Statement} :
      e.value.isLine = false → Relisted r slots vars body lines →
      Relisted r slots vars (e :: body) lines
  | label {vars : VarNames} {e : Entry} {name : String} {body : Code} {lines : List Statement} :
      e.value = .label name → Relisted r slots vars body lines →
      Relisted r slots vars (e :: body) (.label (r name) :: lines)
  | operation {vars : VarNames} {e : Entry} {op : Operation} {body : Code}
      {lines : List Statement} :
      e.value = .operation op → op.varRef? = none → Relisted r slots vars body lines →
      Relisted r slots vars (e :: body) (.operation (op.mapLabels r) :: lines)
  | reference {vars : VarNames} {e : Entry} {op : Operation} {ref : VarRef} {s index : Nat}
      {body : Code} {lines : List Statement} :
      e.value = .operation op → op.varRef? = some ref → slots.slotOf? ref.name = some s →
      Relisted r slots (vars.use index ref.type s).2 body lines →
      Relisted r slots vars (e :: body)
        (.operation (op.withVar (vars.use index ref.type s).1) :: lines)

/-- Listing the instructions of a body gives its lines back. -/
theorem relisted_of_ok {ctx : LoweringContext} {names : LabelNames}
    (hbound : ∀ name s, ctx.slots.slotOf? name = some s → s < 65536) :
    ∀ {body core : Code} {index free position : Nat} {vars : VarNames} {low : Lowered},
    (∀ e ∈ body, ∀ text, e.value ≠ .expression text) →
    (∀ e ∈ body, ∀ op, e.value = .operation op → op.Fits) →
    ctx.lowerEntries index free body = .ok low →
    liftInsns names position vars (low.insns.map (·.1)) = .ok core →
    Relisted (names.rename ctx.labels) ctx.slots vars body core.lines
  | [], core, _, _, _, _, low, _, _, hlow, hlift => by
      cases hlow
      cases hlift
      exact .nil
  | e :: body, core, index, free, position, vars, low, hplain, hfits, hlow, hlift => by
      obtain ⟨own, free', others, hown, hothers, rfl⟩ := LoweringContext.lowerEntries_cons_ok hlow
      obtain ⟨he, hplain⟩ := List.forall_mem_cons.mp hplain
      obtain ⟨hefits, hfits⟩ := List.forall_mem_cons.mp hfits
      have hcases := LoweringContext.lowerEntry_ok hown
      cases hv : e.value with
      | label name =>
          rw [hv] at hcases
          obtain ⟨id, hid, rfl, -⟩ := hcases
          obtain ⟨written, hwritten, hlift⟩ := except_bind_eq_ok.mp hlift
          obtain ⟨rest, hrest, hlift⟩ := except_bind_eq_ok.mp hlift
          cases hlift
          obtain rfl := LabelNames.rename_eq hid (get_ok.mp hwritten)
          exact .label hv (relisted_of_ok hbound hplain hfits hothers hrest)
      | operation op =>
          rw [hv] at hcases
          obtain ⟨insn, hlower, rfl, -⟩ := hcases
          obtain ⟨op', vars', rest, hop, hrest, rfl⟩ :=
            liftInsns_cons_ok (LoweringContext.labelRefs_lower hlower).1 hlift
          have hlines := relisted_of_ok hbound hplain hfits hothers hrest
          rcases liftInsn_lower (hefits op hv) hbound hlower hop with
            ⟨hvar, rfl, rfl⟩ | ⟨ref, s, hvar, hs, rfl, rfl⟩
          · exact .operation hv hvar hlines
          · exact .reference hv hvar hs hlines
      | expression text => exact absurd hv (he text)
      | _ =>
          rw [hv] at hcases
          obtain ⟨rfl, -⟩ := hcases
          exact .skip (by rw [hv]; rfl) (relisted_of_ok hbound hplain hfits hothers hlift)

namespace Relisted

variable {r : String → String} {slots : SlotTable}

/-- Apart from variables, lines are the same with labels renamed. -/
theorem withVar_eq {vars : VarNames} {body : Code} {lines : List Statement}
    (h : Relisted r slots vars body lines) (name : String) :
    lines.map (·.withVar name) = body.lines.map fun line => (line.mapLabels r).withVar name := by
  induction h with
  | nil => rfl
  | skip hv _ ih => rw [ih, Code.lines_skip hv]
  | label hv _ ih =>
      rw [List.map_cons, ih, Code.lines_cons (by rw [hv]; rfl), List.map_cons, hv]
      rfl
  | operation hv _ _ ih =>
      rw [List.map_cons, ih, Code.lines_cons (by rw [hv]; rfl), List.map_cons, hv]
      rfl
  | reference hv hvar _ _ ih =>
      rw [List.map_cons, ih, Code.lines_cons (by rw [hv]; rfl), List.map_cons, hv]
      simp only [Statement.withVar, Statement.mapLabels, Operation.withVar_withVar,
        Operation.mapLabels_of_varRef? hvar]

end Relisted

/-- The variable of an instruction, if its name can be written for its slot. -/
theorem VarNames.use_eq {vars : VarNames} {index slot : Nat} {type : Ty} {name : String}
    (hname : (vars.namer.name (.insn index) type slot).1 = name)
    (hresolve : (vars.replay.resolve name slot type.size).1 = name) :
    vars.use index type slot =
      (name, ⟨(vars.namer.name (.insn index) type slot).2,
        (vars.replay.resolve name slot type.size).2⟩) := by
  subst hname
  exact Prod.ext hresolve rfl

theorem operation?_of_isLine {e : Entry} (h : e.value.isLine = false) :
    e.value.operation?.bind Operation.varRef? = none := by
  cases hv : e.value with
  | operation op =>
      rw [hv] at h
      cases h
  | _ => rfl

/-- Lines are the same with labels renamed, if every reference is called what it was
called. -/
theorem Relisted.lines_eq {r : String → String} {slots : SlotTable} {vars : VarNames} {body : Code}
    {lines : List Statement} (h : Relisted r slots vars body lines) :
    ∀ {index : Nat} {t : SlotTable}, Tracks t vars.replay →
    (∀ x ∈ referencesFrom index body, rawSlot? x.ref.name = none) →
    (∀ x ∈ referencesFrom index body, ∀ s, slots.slotOf? x.ref.name = some s →
      vars.namer.Calls s x.ref.type.kind.normalized x.ref.name) →
    (referencesFrom index body).foldlM SlotTable.addReference t = .ok slots →
    lines = body.lines.map (·.mapLabels r) := by
  induction h with
  | nil =>
      intro _ _ _ _ _ _
      rfl
  | skip hv _ ih =>
      intro index t htracks hraw hcalls hrun
      rw [referencesFrom_none (operation?_of_isLine hv)] at hraw hcalls hrun
      rw [Code.lines_skip hv]
      exact ih htracks hraw hcalls hrun
  | label hv _ ih =>
      intro index t htracks hraw hcalls hrun
      rw [referencesFrom_none (by rw [hv]; rfl)] at hraw hcalls hrun
      rw [Code.lines_cons (by rw [hv]; rfl), List.map_cons, hv, ← ih htracks hraw hcalls hrun]
      rfl
  | operation hv hvar _ ih =>
      intro index t htracks hraw hcalls hrun
      rw [referencesFrom_none (by rw [hv]; exact hvar)] at hraw hcalls hrun
      rw [Code.lines_cons (by rw [hv]; rfl), List.map_cons, hv, ← ih htracks hraw hcalls hrun]
      rfl
  | @reference vars e op ref s position body lines hv hvar hs _ ih =>
      intro index t htracks hraw hcalls hrun
      rw [referencesFrom_some (by rw [hv]; exact hvar)] at hraw hcalls hrun
      obtain ⟨hrawRef, hraw⟩ := List.forall_mem_cons.mp hraw
      obtain ⟨hcallsRef, hcalls⟩ := List.forall_mem_cons.mp hcalls
      obtain ⟨t₁, hstep, hrun⟩ := except_bind_eq_ok.mp hrun
      obtain ⟨hname, hkeep⟩ := (hcallsRef s hs).name_eq (.insn position)
      -- the name stood for its slot already when it was referred to
      have hslot : t.slotFor ref.name = s :=
        Option.some.inj ((htracks.sound.slotOf?_reference hstep hrun).symm.trans hs)
      have hresolve : (vars.replay.resolve ref.name s ref.type.size).1 = ref.name :=
        hslot ▸ htracks.resolve_eq hrawRef ref.type.size
      have hle : s ≤ slotLimit := by
        obtain ⟨-, -, hfit, -⟩ := htracks.sound.addReference_ok hstep
        dsimp only at hfit
        omega
      have htracks₁ := (htracks.addReference hle hresolve.symm hstep).1
      rw [VarNames.use_eq hname hresolve] at ih ⊢
      rw [Code.lines_cons (by rw [hv]; rfl), List.map_cons, hv,
        ← ih htracks₁ hraw (fun x hx s' hs' => hkeep _ _ _ (hcalls x hx s' hs')) hrun]
      simp only [Statement.mapLabels, Operation.withVar_name hvar,
        Operation.mapLabels_of_varRef? hvar]

/-! ## Methods -/

theorem lines_of_liftBlocks {names : LabelNames} : ∀ {blocks : List TryBlock} {code : Code},
    blocks.mapM (liftBlock names) = .ok code → code.lines = []
  | [], _, h => by
      cases h
      rfl
  | b :: blocks, code, h => by
      rw [List.mapM_cons] at h
      obtain ⟨e, he, h⟩ := except_bind_eq_ok.mp h
      obtain ⟨rest, hrest, h⟩ := except_bind_eq_ok.mp h
      cases h
      obtain ⟨start, stop, handler, -, -, -, rfl⟩ := liftBlock_ok he
      exact (Code.lines_skip rfl rest).trans (lines_of_liftBlocks hrest)

theorem lines_labelEntriesOf (name? : Option String) :
    (labelEntriesOf name?).lines = name?.toList.map .label := by
  cases name? <;> rfl

/-- No label is renamed to one at the ends. -/
theorem rename_ne_ends {names : LabelNames} (hnames : names.Numbered) {insns : List Insn}
    {trailing : Option String} (htrailing : trailingLabel names insns = labelEntriesOf trailing)
    (ids : List (String × LabelId)) (name : String) :
    names.rename ids name ∉ names.leading ∧ names.rename ids name ∉ trailing := by
  obtain ⟨hleading, hnext⟩ := LabelNames.rename_fresh ids hnames name
  refine ⟨hleading, fun hmem => hnext ?_⟩
  have hlabel : names.rename ids name ∈ (trailingLabel names insns).labelNames := by
    rw [htrailing, labelNames_labelEntriesOf]
    exact Option.mem_toList.mpr hmem
  unfold trailingLabel at hlabel
  split at hlabel
  · split at hlabel
    · exact absurd hlabel List.not_mem_nil
    · exact List.mem_singleton.mp hlabel
  · exact absurd hlabel List.not_mem_nil

/-- The flags that were read are the ones that are written. -/
theorem applicable_storedAccess {access : Access} (attributes : Attributes)
    (h : access &&& FlagTarget.mask .method = access) :
    Access.applicable (storedAccess access attributes) .method = access := by
  rw [applicable_eq_and, storedAccess]
  split
  · have hmark : Access.deprecated &&& FlagTarget.mask .method = 0 := by decide
    rw [and_of_or, h, hmark, UInt32.or_zero]
  · exact h

section Disassembled

variable {stem : String} {namer : Namer} {d m : MethodDef} {handlers core : Code}
  {vars : VarNames} {types : List Ty} {result : Ty}

/-- The types of a descriptor are those of the parameters that it was made from. -/
theorem Disassembled.types_eq (h : Disassembled stem namer d handlers core vars types result)
    (hdesc : namer.method.desc = m.desc)
    (htyped : ∀ p ∈ m.params, Ty.ofFieldDescriptor? p.desc = some p.type) :
    types = m.params.map Param.type ∧ d.result = m.result := by
  obtain ⟨hfields, -, -, hread⟩ := Ty.readMethod?_eq_some_iff.mp h.desc
  have hparams : m.params.map (·.desc) = (m.params.map Param.type).map Ty.descriptor := by
    rw [List.map_map]
    exact List.map_congr_left fun p hp => (Ty.ofFieldDescriptor?_eq_some_iff.mp (htyped p hp)).2
  have hchars := congrArg String.toList (hread.symm.trans hdesc)
  rw [Ty.toList_descriptor_method, MethodDef.desc, hparams, join_map_descriptor,
    String.toList_append, String.toList_append, String.toList_append] at hchars
  have hreadable : ∀ t ∈ m.params.map Param.type, t.Readable := by
    intro t ht
    obtain ⟨p, hp, rfl⟩ := List.mem_map.mp ht
    exact (Ty.ofFieldDescriptor?_eq_some_iff.mp (htyped p hp)).1.1
  obtain ⟨htypes, hresult⟩ := Ty.descriptors_append_inj (fun t ht => (hfields t ht).1) hreadable
    (by simpa using hchars)
  exact ⟨htypes, h.returns.trans (String.toList_inj.mp hresult)⟩

/-- What the parameters are called, and what the namer knows after them. -/
theorem Disassembled.params_eq (h : Disassembled stem namer d handlers core vars types result)
    {t : SlotTable} {refs : List Reference} (hrec : t.Records m refs)
    (htypes : types = m.params.map Param.type)
    (hstatic : Access.isStatic namer.method.access = Access.isStatic m.access)
    (hrecalls : namer.Recalls t m.firstSlot)
    (hgood : ∀ p ∈ m.params, isGoodName p.name = true) :
    d.params = keptParams t m.firstSlot m.params
      ∧ namer.NamesParams t (paramSlots m.firstSlot m.params) vars.namer := by
  have hthis : ∀ s, m.firstSlot ≤ s → ¬namer.IsThis s := by
    rintro s hle ⟨rfl, hinstance⟩
    rw [hstatic] at hinstance
    simp only [MethodDef.firstSlot] at hle
    split at hle
    · rename_i hs
      rw [hs] at hinstance
      cases hinstance
    · exact absurd hle (by decide)
  have hnames : ∃ replay, (d.params, vars) = nameParams ⟨namer, replay⟩ m.firstSlot types := by
    have hnamed := h.named
    unfold MethodDef.firstSlot
    rw [hstatic] at hnamed
    by_cases hs : Access.isStatic m.access = true
    · rw [if_pos hs] at hnamed ⊢
      exact ⟨_, hnamed⟩
    · rw [if_neg hs] at hnamed ⊢
      exact ⟨_, hnamed⟩
  obtain ⟨replay, hnames⟩ := hnames
  rw [htypes] at hnames
  obtain ⟨hparams, hnamer⟩ := nameParams_eq m.params m.firstSlot ⟨namer, replay⟩ hrecalls hthis
    (fun p hp => ⟨hgood p hp, hrec.typed p hp⟩)
    (fun s p hp => ⟨hrec.fits s p hp, hrec.own s p hp⟩)
  rw [← hnames] at hparams hnamer
  exact ⟨hparams, hnamer⟩

end Disassembled

theorem withVar_labels (name : String) (labels : List String) :
    (labels.map Statement.label).map (·.withVar name) = labels.map Statement.label :=
  List.map_map

/-- The lines of a listing are those of its instructions, with labels around. -/
theorem lines_body {names : LabelNames} {blocks : List TryBlock} {handlers : Code}
    (h : blocks.mapM (liftBlock names) = .ok handlers) (leading trailing : Option String)
    (core : Code) :
    Code.lines (handlers ++ labelEntriesOf leading ++ core ++ labelEntriesOf trailing) =
      leading.toList.map .label ++ core.lines ++ trailing.toList.map .label := by
  rw [Code.lines_append, Code.lines_append, Code.lines_append, lines_of_liftBlocks h,
    lines_labelEntriesOf, lines_labelEntriesOf, List.nil_append]

/-! ## Back again -/

section Assembled

variable {options : AssemblyOptions} {helpers : Helpers} {u : Listing} {a : AssembledMethod}
  {ctx : LoweringContext} {low : Lowered}

/-- The local variable table names slots only. -/
theorem Assembled.locals_named (ha : Assembled options helpers u a ctx low) :
    ∀ v ∈ a.method.locals, ∃ s info, ctx.slots.info? s = some info ∧ info.name = v.name := by
  intro v hv
  obtain ⟨-, -, hlocals | hlocals⟩ := LoweringContext.build_adds ha.built
  · rw [hlocals] at hv
    exact absurd hv List.not_mem_nil
  · obtain ⟨info, hinfo, whole, hentry⟩ := LoweringContext.localTable_ok hlocals hv
    have hmem : info ∈ ctx.slots.infos := ctx.slots.perm_bySlot.mem_iff.mp hinfo
    exact ⟨_, info, (sound_allocate ha.slots).info?_of_mem hmem,
      (LoweringContext.localEntry_ok hentry).1.symm⟩

theorem Assembled.applicable_access (ha : Assembled options helpers u a ctx low) {dialect : Dialect}
    {text : String} (hread : Listing.read dialect text = .ok u) :
    Access.applicable a.method.access .method = ctx.method.access := by
  obtain ⟨-, haccess, -⟩ := LoweringContext.build_adds ha.built
  obtain ⟨modifiers, hmodifiers⟩ :=
    (Listing.formed_of_read hread).1 _ (method?_of_assembly ha.method)
  rw [haccess]
  exact applicable_storedAccess _ (mask_accessOf hmodifiers)

/-- Labels are renamed one to one. -/
theorem Assembled.rename_injective (ha : Assembled options helpers u a ctx low) {names : LabelNames}
    (hnames : names.Numbered) : Function.Injective (names.rename ctx.labels) := by
  obtain ⟨-, hids⟩ := labelIds_ok ha.labels
  refine LabelNames.rename_injective hnames fun x y id hx hy => ?_
  rw [hids] at hx hy
  exact Option.some.inj ((getElem?_of_lookup_zipIdx hx).symm.trans (getElem?_of_lookup_zipIdx hy))

variable {stem : String} {d : MethodDef} {handlers core : Code} {vars : VarNames}
  {types : List Ty} {result : Ty}

/-- The instructions of an assembled listing are listed as its lines. -/
theorem Assembled.relisted (ha : Assembled options helpers u a ctx low)
    (hd : Disassembled stem (Namer.prepopulate { method := a.method } ctx.slots) d handlers core
      vars types result)
    (hplain : ∀ e ∈ u.body, ∀ code, e.value ≠ .expression code)
    (hfits : ∀ e ∈ u.body, ∀ op, e.value = .operation op → op.Fits) :
    Relisted ((LabelNames.ofInsns stem a.method.insns).rename ctx.labels) ctx.slots vars u.body
      core.lines := by
  obtain ⟨-, -, -, -, hinsns, -⟩ := LoweringContext.build_ok ha.built
  have hlift : liftInsns (LabelNames.ofInsns stem a.method.insns) 0 vars (low.insns.map (·.1)) =
      .ok core := by
    rw [← hinsns]
    exact hd.insns
  exact relisted_of_ok (fun _ _ hs => ha.slot_lt hs) hplain hfits ha.lowered hlift

/-- Lines are the same with labels renamed, if all parameters keep their names. -/
theorem Assembled.lines_eq (ha : Assembled options helpers u a ctx low)
    (hd : Disassembled stem (Namer.prepopulate { method := a.method } ctx.slots) d handlers core
      vars types result)
    (hrec : ctx.slots.Records ctx.method (references u.body))
    (hnamer : (Namer.prepopulate { method := a.method } ctx.slots).NamesParams ctx.slots
      (paramSlots ctx.method.firstSlot ctx.method.params) vars.namer)
    (hstatic : Access.isStatic a.method.access = Access.isStatic ctx.method.access)
    (hparams : d.params = keptParams ctx.slots ctx.method.firstSlot ctx.method.params)
    (hkept : ∀ s p, (s, p) ∈ paramSlots ctx.method.firstSlot ctx.method.params →
      keptName ctx.slots s p = p.name)
    (hrefs : ∀ r ∈ references u.body, isGoodName r.ref.name = true)
    (hkinds : ctx.slots.OneKind ctx.method (references u.body))
    {r : String → String} {lines : List Statement}
    (hrelisted : Relisted r ctx.slots vars u.body lines) :
    lines = u.body.lines.map (·.mapLabels r) := by
  have hslots := ha.slots
  rw [allocate_eq, references_eq] at hslots
  obtain ⟨t₀, hdeclared, hrun⟩ := except_bind_eq_ok.mp hslots
  have hspelling : ctx.method.params.map Param.spelling = d.params.map Param.spelling := by
    rw [hparams, spelling_keptParams hkept]
  have htracks := hd.tracks nofun hstatic.symm hspelling hdeclared
  refine hrelisted.lines_eq htracks ?_ ?_ hrun
  · rw [← references_eq]
    exact fun x hx => rawSlot?_of_isGoodName (hrefs x hx)
  · rw [← references_eq]
    exact fun x hx s hs => hnamer.calls hrec rfl hstatic hkept hrefs hkinds hx hs

end Assembled

/-- A listing that was read comes back from the method it was assembled to and the
slots: the same method, and the same labels and instructions with labels renamed and
at most one new label at either end.  What may change is the name of a parameter
whose slot held a value of another kind last (`keptName`), and then also what is
written for variables. -/
theorem disassembleMethod_assembleMethod (dialect : Dialect) (text stem : String)
    (options : AssemblyOptions) (helpers : Helpers) (u u' : Listing) (m : MethodDef)
    (a : AssembledMethod) (hread : Listing.read dialect text = .ok u) (hm : u.method? = some m)
    (hplain : ∀ e ∈ u.body, ∀ code, e.value ≠ .expression code)
    (hparams : ∀ p ∈ m.params, isGoodName p.name = true)
    (hrefs : ∀ r ∈ references u.body, isGoodName r.ref.name = true)
    (hassemble : assembleMethod options helpers u = .ok a)
    (hkinds : a.slots.OneKind m (references u.body))
    (hlist : disassembleMethod stem a.slots a.method = .ok u') :
    ∃ m', u'.method? = some m' ∧ m'.access = m.access ∧ m'.name = m.name ∧ m'.result = m.result
      ∧ m'.params = keptParams a.slots m.firstSlot m.params
      ∧ ∃ r : String → String, Function.Injective r ∧ ∃ first last : Option String,
        (∀ name, r name ∉ first ∧ r name ∉ last)
        -- whatever variables are called
        ∧ (∀ name, u'.body.lines.map (·.withVar name) =
            first.toList.map .label
              ++ u.body.lines.map (fun line => (line.mapLabels r).withVar name)
              ++ last.toList.map .label)
        -- and they are called the same if the parameters are
        ∧ (m'.params.map (·.name) = m.params.map (·.name) →
            u'.body.lines =
              first.toList.map .label ++ u.body.lines.map (·.mapLabels r)
                ++ last.toList.map .label) := by
  obtain ⟨ctx, low, ha⟩ := assembled_of_ok hassemble
  obtain rfl : m = ctx.method := Option.some.inj (hm.symm.trans (method?_of_assembly ha.method))
  obtain ⟨-, -, hslots, -, -, -, hname, hdesc, -⟩ := LoweringContext.build_ok ha.built
  rw [hslots] at hkinds hlist ⊢
  obtain ⟨⟨d, code⟩, hmethod, hl⟩ := except_bind_eq_ok.mp hlist
  cases hl
  obtain ⟨handlers, core, vars, types, result, hd, hcode⟩ := disassembled_of_ok hmethod
  obtain ⟨trailing, htrailing⟩ :=
    trailingLabel_eq (LabelNames.ofInsns stem a.method.insns) a.method.insns
  -- the method
  have hrec := records_of_allocate (fun p hp => rawSlot?_of_isGoodName (hparams p hp))
    (fun r hr => rawSlot?_of_isGoodName (hrefs r hr)) ha.slots
  have haccess := ha.applicable_access hread
  have hstatic : Access.isStatic a.method.access = Access.isStatic ctx.method.access := by
    rw [← isStatic_applicable, haccess]
  obtain ⟨htypes, hresult⟩ := hd.types_eq hdesc hrec.typed
  obtain ⟨hkeptParams, hnamer⟩ := hd.params_eq hrec htypes hstatic
    (Namer.recalls_prepopulate hrec.sound ha.locals_named _) hparams
  -- its lines
  have hnumbered := LabelNames.Numbered.ofInsns stem a.method.insns
  have hrelisted := ha.relisted hd hplain (Listing.formed_of_read hread).2
  have hlines : code.lines =
      (LabelNames.ofInsns stem a.method.insns).leading.toList.map .label ++ core.lines
        ++ trailing.toList.map .label := by
    rw [← lines_body hd.blocks, ← htrailing]
    exact congrArg Code.lines hcode
  refine ⟨d, rfl, hd.access.trans haccess, hd.name.trans hname, hresult, hkeptParams, _,
    ha.rename_injective hnumbered, (LabelNames.ofInsns stem a.method.insns).leading, trailing,
    rename_ne_ends hnumbered htrailing ctx.labels, ?_, ?_⟩
  · intro name
    show List.map _ code.lines = _
    rw [hlines, List.map_append, List.map_append, hrelisted.withVar_eq, withVar_labels,
      withVar_labels]
  · intro hsame
    rw [hkeptParams] at hsame
    show code.lines = _
    rw [hlines, ha.lines_eq hd hrec hnamer hstatic hkeptParams (keptName_eq_of_names hsame) hrefs
      hkinds hrelisted]

-- A float in the slot of an int, and the name of the int is gone.
example :
    ((Listing.read .keyword "static m(I a)V\nFCONST_0\nFSTORE a\nRETURN").toOption.bind fun u =>
      (assembleMethod {} {} u).toOption.bind fun a =>
      (disassembleMethod "" a.slots a.method).toOption.bind fun u' =>
      u'.method?.map (·.params)) = some [⟨"I", "i0", {}⟩] := by
  decide +kernel

/-- A loop that borrows the slot of its parameter for a float. -/
def borrowedSlot : String :=
  "static m(I a)V\nL:\nFCONST_0\nFSTORE a\nICONST_0\nISTORE a\nILOAD a\nISTORE b\nGOTO L"

theorem disassembleMethod_assembleMethod_borrowedSlot :
    ∃ u a u', Listing.read .keyword borrowedSlot = .ok u ∧ assembleMethod {} {} u = .ok a
      ∧ disassembleMethod "" a.slots a.method = .ok u'
      ∧ (∃ m m', u.method? = some m ∧ u'.method? = some m' ∧ m'.access = m.access
          ∧ m'.params.map (·.name) = m.params.map (·.name))
      ∧ ∃ r : String → String, Function.Injective r ∧ ∃ first last : Option String,
          u'.body.lines =
            first.toList.map .label ++ u.body.lines.map (·.mapLabels r)
              ++ last.toList.map .label := by
  obtain ⟨u, hread, m, hm, a, ha, u', hu', hlines, hgood, hrefs, hkept, hints⟩ :
      ∃ u ∈ (Listing.read .keyword borrowedSlot).toOption, ∃ m ∈ u.method?,
      ∃ a ∈ (assembleMethod {} {} u).toOption,
      ∃ u' ∈ (disassembleMethod "" a.slots a.method).toOption,
      (∀ e ∈ u.body, e.value.isLine = true)
        ∧ (∀ p ∈ m.params, isGoodName p.name = true)
        ∧ (∀ r ∈ references u.body, isGoodName r.ref.name = true)
        ∧ (keptParams a.slots m.firstSlot m.params).map (·.name) = m.params.map (·.name)
        ∧ ∀ r ∈ references u.body,
            a.slots.slotOf? r.ref.name ∈ (paramSlots m.firstSlot m.params).map (some ·.1)
              ∨ r.ref.type.kind.normalized = .prim .int := by
    decide +kernel
  rw [Option.mem_def, toOption_eq_some] at hread ha hu'
  have hplain : ∀ e ∈ u.body, ∀ code, e.value ≠ .expression code := by
    intro e he code hv
    have hline := hlines e he
    rw [hv] at hline
    cases hline
  have hkinds : a.slots.OneKind m (references u.body) := by
    intro s _ hnone r hr r' hr' hs hs'
    have hint : ∀ x ∈ references u.body, a.slots.slotOf? x.ref.name = some s →
        x.ref.type.kind.normalized = .prim .int := by
      intro x hx hxs
      refine (hints x hx).resolve_left fun hparam => ?_
      obtain ⟨⟨_, p⟩, hp, he⟩ := List.mem_map.mp hparam
      obtain rfl := Option.some.inj (he.trans hxs)
      exact hnone p hp
    rw [hint r hr hs, hint r' hr' hs']
  obtain ⟨m', hm', haccess, -, -, hparams, r, hr, first, last, -, -, hsame⟩ :=
    disassembleMethod_assembleMethod .keyword borrowedSlot "" {} {} u u' m a hread hm hplain hgood
      hrefs ha hkinds hu'
  rw [← hparams] at hkept
  exact ⟨u, a, u', hread, ha, hu', ⟨m, m', hm, hm', haccess, hkept⟩, r, hr, first, last,
    hsame hkept⟩

end JvmListing
