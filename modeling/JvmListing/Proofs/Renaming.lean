/-
# Assembling does not look at names

A method whose labels and local variables have other names becomes the same stored
method, apart from the names in its local variable table; if it cannot be assembled,
the fault is the same with the names in it replaced, at the same place.

Three things are asked of the variables' new names, and only for names that the
method uses: no two become one, an empty name is told from others, and a name
keeps the slot that it is the number of (`Renaming.Keeps`).  The slots need the
last one: a new number takes its own slot and a new name the next.

Assembling goes through stages that pass a result on or stop at a fault.
`AssemblyResult.renamed` says what a renaming makes of either, `renamed_bind` that
it goes through two stages in a row, and below there is one equation per stage.
The label numbers and slots stay as they are all the way.
-/
import JvmListing.Proofs.Relisting
import Mathlib.Data.Set.Function

namespace JvmListing

/-- New names for labels and for local variables. -/
structure Renaming where
  label : String → String
  var : String → String

variable (ρ : Renaming)

/-! ## Renamed listings -/

/-- The operation with its variable renamed. -/
def Operation.mapVar (f : String → String) : Operation → Operation
  | .var op name => .var op (f name)
  | .iinc name increment => .iinc (f name) increment
  | op => op

def Operation.rename (op : Operation) : Operation := (op.mapLabels ρ.label).mapVar ρ.var

def Statement.rename : Statement → Statement
  | .operation op => .operation (op.rename ρ)
  | .label name => .label (ρ.label name)
  | .tryCatch start stop handler caught =>
    .tryCatch (ρ.label start) (ρ.label stop) (ρ.label handler) caught
  | st => st

def Entry.rename (e : Entry) : Entry := ⟨e.value.rename ρ, e.position⟩

def Code.rename (code : Code) : Code := code.map (Entry.rename ρ)

def Param.rename (p : Param) : Param := { p with name := ρ.var p.name }

def MethodDef.rename (m : MethodDef) : MethodDef :=
  { m with params := m.params.map (Param.rename ρ) }

/-- The listing of a method with its labels and local variables renamed. -/
def Listing.rename (l : Listing) : Listing where
  definition :=
    match l.definition with
    | .method m => .method (m.rename ρ)
    | d => d
  code := l.code.map (Code.rename ρ)

/-! ## Names in use -/

/-- The local variable that the operation names. -/
def Operation.vars : Operation → List String
  | .var _ name | .iinc name _ => [name]
  | _ => []

def Statement.labelNames : Statement → List String
  | .operation op => op.labelRefs
  | .label name => [name]
  | .tryCatch start stop handler _ => [start, stop, handler]
  | _ => []

def Statement.vars : Statement → List String
  | .operation op => op.vars
  | _ => []

/-- The labels that a body declares or refers to. -/
def Code.usedLabels (code : Code) : List String := code.flatMap (·.value.labelNames)

/-- The local variables that a body refers to. -/
def Code.vars (code : Code) : List String := code.flatMap (·.value.vars)

/-- The variables that a method declares. -/
def MethodDef.declaredVars (m : MethodDef) : List String :=
  (if Access.isStatic m.access then [] else ["this"]) ++ m.params.map (·.name)

/-- The local variables of a listing. -/
def Listing.vars (l : Listing) : List String :=
  (l.method?.map MethodDef.declaredVars).getD [] ++ l.body.vars

/-- Tells the renaming apart the labels in `labels` and the variables in `vars`, and
does it leave alone what else a name says? -/
structure Renaming.Keeps (labels vars : Set String) : Prop where
  label_inj : Set.InjOn ρ.label labels
  var_inj : Set.InjOn ρ.var vars
  rawSlot? : ∀ name ∈ vars, rawSlot? (ρ.var name) = rawSlot? name
  isEmpty : ∀ name ∈ vars, (ρ.var name).isEmpty = name.isEmpty

/-! ## Renamed results -/

def AssemblyFault.rename : AssemblyFault → AssemblyFault
  | .unknownLabel name => .unknownLabel (ρ.label name)
  | .repeatedLabel name => .repeatedLabel (ρ.label name)
  | .unknownVariable name => .unknownVariable (ρ.var name)
  | .updateOfNonInt name held => .updateOfNonInt (ρ.var name) held
  | .incompatibleLoad slot name loaded held => .incompatibleLoad slot (ρ.var name) loaded held
  | .illegalParam name desc => .illegalParam (ρ.var name) desc
  | .noStartLabel name => .noStartLabel (ρ.var name)
  | .noEndLabel name => .noEndLabel (ρ.var name)
  | fault => fault

theorem AssemblyFault.kind_rename (fault : AssemblyFault) : (fault.rename ρ).kind = fault.kind := by
  cases fault <;> rfl

/-- A result with `g` applied to it, or the fault with its names replaced. -/
def AssemblyResult.renamed {α β : Type} (g : α → β) : AssemblyResult α → AssemblyResult β
  | .ok a => .ok (g a)
  | .error e => .error ⟨e.value.rename ρ, e.position⟩

namespace AssemblyResult

variable {ρ}

/-- Two stages in a row, the second of which need only be right where the first gets to. -/
theorem renamed_bind {α α' β β' : Type} {x : AssemblyResult α} {g : α → α'}
    {next : α → AssemblyResult β} {next' : α' → AssemblyResult β'} {h : β → β'}
    (hnext : ∀ a, x = .ok a → next' (g a) = renamed ρ h (next a)) :
    (renamed ρ g x >>= next') = renamed ρ h (x >>= next) := by
  cases x with
  | error e => rfl
  | ok a => exact hnext a rfl

theorem renamed_mapM {α α' β β' : Type} {f : α → AssemblyResult β} {f' : α' → AssemblyResult β'}
    {u : α → α'} {g : β → β'} : ∀ {as : List α}, (∀ a ∈ as, f' (u a) = renamed ρ g (f a)) →
    (as.map u).mapM f' = renamed ρ (List.map g) (as.mapM f)
  | [], _ => rfl
  | a :: as, h => by
      rw [List.map_cons, List.mapM_cons, List.mapM_cons, h a List.mem_cons_self]
      refine renamed_bind fun b _ => ?_
      rw [renamed_mapM fun a' ha' => h a' (List.mem_cons_of_mem _ ha')]
      exact renamed_bind fun bs _ => rfl

/-- A run of steps, where `P` holds of what has been reached. -/
theorem renamed_foldlM {σ σ' α α' : Type} {step : σ → α → AssemblyResult σ}
    {step' : σ' → α' → AssemblyResult σ'} {g : σ → σ'} {u : α → α'} {P : σ → Prop} :
    ∀ {items : List α}, (∀ s, P s → ∀ a ∈ items, step' (g s) (u a) = renamed ρ g (step s a)) →
    (∀ s, P s → ∀ a ∈ items, ∀ s', step s a = .ok s' → P s') → ∀ {s : σ}, P s →
    (items.map u).foldlM step' (g s) = renamed ρ g (items.foldlM step s)
  | [], _, _, _, _ => rfl
  | a :: items, hstep, hkeep, s, hs => by
      rw [List.map_cons, List.foldlM_cons, List.foldlM_cons, hstep s hs a List.mem_cons_self]
      refine renamed_bind fun s' hs' => ?_
      exact renamed_foldlM (fun s hs b hb => hstep s hs b (List.mem_cons_of_mem _ hb))
        (fun s hs b hb => hkeep s hs b (List.mem_cons_of_mem _ hb))
        (hkeep s hs a List.mem_cons_self s' hs')

end AssemblyResult

/-! ## Labels -/

theorem lookup_map_fst {β : Type} {f : String → String} {names : Set String}
    (hf : Set.InjOn f names) {name : String} (hname : name ∈ names) :
    ∀ {l : List (String × β)}, (∀ p ∈ l, p.1 ∈ names) →
    (l.map (Prod.map f id)).lookup (f name) = l.lookup name
  | [], _ => rfl
  | (k, v) :: rest, h => by
      have hrest := lookup_map_fst hf hname fun p hp => h p (List.mem_cons_of_mem _ hp)
      have hk : k ∈ names := h (k, v) List.mem_cons_self
      have heq : (f name == f k) = (name == k) := by
        by_cases e : name = k
        · simp [e]
        · have hne : f name ≠ f k := fun e' => e (hf hname hk e')
          rw [beq_eq_false_iff_ne.mpr e, beq_eq_false_iff_ne.mpr hne]
      rw [List.map_cons, Prod.map_apply, List.lookup_cons, List.lookup_cons, heq, hrest]
      rfl

theorem fst_mem_bindKey {β : Type} {names : Set String} {key : String} (hkey : key ∈ names)
    (v : β) : ∀ {l : List (String × β)}, (∀ p ∈ l, p.1 ∈ names) → ∀ p ∈ bindKey key v l, p.1 ∈ names
  | [], _, p, hp => by
      rw [List.mem_singleton.mp hp]
      exact hkey
  | (k, w) :: rest, h, p, hp => by
      have hk := h (k, w) List.mem_cons_self
      have hrest := fun q hq => h q (List.mem_cons_of_mem _ hq)
      rw [bindKey] at hp
      split at hp
      · rcases List.mem_cons.mp hp with rfl | hp
        · exact hk
        · exact hrest p hp
      · rcases List.mem_cons.mp hp with rfl | hp
        · exact hk
        · exact fst_mem_bindKey hkey v hrest p hp

/-! ## Slots -/

def LocalVariable.rename (v : LocalVariable) : LocalVariable := { v with name := ρ.var v.name }

def VarInfo.rename (info : VarInfo) : VarInfo := { info with name := ρ.var info.name }

def VarRef.rename (r : VarRef) : VarRef := { r with name := ρ.var r.name }

namespace SlotTable

def rename (t : SlotTable) : SlotTable :=
  { t with infos := t.infos.map (VarInfo.rename ρ), names := t.names.map (Prod.map ρ.var id) }

def Reference.rename (r : Reference) : Reference := { r with ref := r.ref.rename ρ }

theorem checkHeld_rename (info : VarInfo) (r : Reference) :
    checkHeld (info.rename ρ) (r.rename ρ) =
      AssemblyResult.renamed ρ id (checkHeld info r) := by
  have huse : (r.rename ρ).ref.use = r.ref.use := rfl
  have htype : (r.rename ρ).ref.type = r.ref.type := rfl
  have hlast : (info.rename ρ).lastType = info.lastType := rfl
  unfold checkHeld
  rw [huse, htype, hlast]
  cases r.ref.use with
  | assign => rfl
  | update | load =>
      dsimp only
      split <;> rfl

theorem name_mem_touch (slot : Nat) {name : String} {vars : Set String} (hname : name ∈ vars)
    (type : Ty) (kind : UsageKind) (source : VarSource) : ∀ {infos : List VarInfo},
    (∀ info ∈ infos, info.name ∈ vars) →
    ∀ info ∈ touch slot name type kind source infos, info.name ∈ vars
  | [], _, info, hinfo => by
      rw [List.mem_singleton.mp hinfo]
      exact hname
  | i :: rest, h, info, hinfo => by
      have hi := h i List.mem_cons_self
      have hrest := fun i hi => h i (List.mem_cons_of_mem _ hi)
      rw [touch] at hinfo
      split at hinfo
      · rcases List.mem_cons.mp hinfo with rfl | hinfo
        · simp only [VarInfo.use]
          split
          · exact hname
          · exact hi
        · exact hrest info hinfo
      · rcases List.mem_cons.mp hinfo with rfl | hinfo
        · exact hi
        · exact name_mem_touch slot hname type kind source hrest info hinfo

theorem references_rename (code : Code) :
    references (code.rename ρ) = (references code).map (Reference.rename ρ) := by
  have hop : ∀ op : Operation, (op.rename ρ).varRef? = op.varRef?.map (VarRef.rename ρ) := by
    intro op
    cases op with
    | var o name =>
        simp only [Operation.rename, Operation.mapLabels, Operation.mapVar, Operation.varRef?]
        split <;> rfl
    | _ => rfl
  have hst : ∀ st : Statement, (st.rename ρ).operation?.bind Operation.varRef? =
      (st.operation?.bind Operation.varRef?).map (VarRef.rename ρ) := by
    intro st
    cases st with
    | operation op => exact hop op
    | _ => rfl
  unfold references Code.rename
  rw [List.zipIdx_map, List.filterMap_map, List.map_filterMap]
  refine congrArg (List.filterMap · code.zipIdx) (funext fun entry => ?_)
  obtain ⟨e, i⟩ := entry
  show ((e.rename ρ).value.operation?.bind Operation.varRef?).map _ = _
  rw [show (e.rename ρ).value = e.value.rename ρ from rfl, hst, Option.map_map, Option.map_map]
  rfl

theorem name_mem_vars {code : Code} {r : Reference} (hr : r ∈ references code) :
    r.ref.name ∈ code.vars := by
  obtain ⟨e, he, -, href⟩ := mem_references.mp hr
  obtain ⟨op, hop, href⟩ := Option.bind_eq_some_iff.mp href
  have hvar : r.ref.name ∈ op.vars := by
    cases op with
    | var o name =>
        simp only [Operation.varRef?] at href
        split at href
        · rw [← Option.some.inj href]
          exact List.mem_singleton_self name
        · cases href
    | iinc name n =>
        rw [← Option.some.inj href]
        exact List.mem_singleton_self name
    | _ => cases href
  refine List.mem_flatMap.mpr ⟨e, List.mem_of_getElem? he, ?_⟩
  cases hv : e.value with
  | operation op' =>
      rw [hv] at hop
      cases hop
      exact hvar
  | _ =>
      rw [hv] at hop
      cases hop

/-- All names of the table are among `vars`. -/
structure NamesIn (vars : Set String) (t : SlotTable) : Prop where
  infos : ∀ info ∈ t.infos, info.name ∈ vars
  names : ∀ p ∈ t.names, p.1 ∈ vars

end SlotTable

section Stages

variable {ρ} {labels vars : Set String} (hρ : ρ.Keeps labels vars)
include hρ

open AssemblyResult

theorem numberLabels_rename : ∀ (known : List (String × LabelId)) {decls : List (Located String)},
    (∀ p ∈ known, p.1 ∈ labels) → (∀ d ∈ decls, d.value ∈ labels) →
    numberLabels (known.map (Prod.map ρ.label id))
        (decls.map fun d => ⟨ρ.label d.value, d.position⟩) =
      renamed ρ (List.map (Prod.map ρ.label id)) (numberLabels known decls)
  | _, [], _, _ => rfl
  | known, d :: decls, hknown, hdecls => by
      have hd := hdecls d List.mem_cons_self
      rw [List.map_cons, numberLabels, numberLabels, lookup_map_fst hρ.label_inj hd hknown]
      split
      · rfl
      · rw [List.length_map]
        have hgrown : ∀ p ∈ known ++ [(d.value, known.length)], p.1 ∈ labels := by
          intro p hp
          rcases List.mem_append.mp hp with hp | hp
          · exact hknown p hp
          · rw [List.mem_singleton.mp hp]
            exact hd
        have := numberLabels_rename _ hgrown fun d' hd' => hdecls d' (List.mem_cons_of_mem _ hd')
        rw [List.map_append] at this
        exact this

theorem labelIds_rename {code : Code} (hcode : ∀ n ∈ code.labelNames, n ∈ labels) :
    labelIds (code.rename ρ) =
      renamed ρ (List.map (Prod.map ρ.label id)) (labelIds code) := by
  have hlabels : (code.rename ρ).labels =
      code.labels.map fun d => ⟨ρ.label d.value, d.position⟩ := by
    unfold Code.labels Code.rename
    rw [List.filterMap_map, List.map_filterMap]
    refine congrArg (List.filterMap · code) (funext fun e => ?_)
    obtain ⟨st, position⟩ := e
    cases st <;> rfl
  unfold labelIds
  rw [hlabels]
  refine numberLabels_rename hρ [] (by simp) fun d hd => hcode _ ?_
  rw [← map_value_labels]
  exact List.mem_map_of_mem hd

theorem bindKey_map_fst {β : Type} {name : String} (hname : name ∈ vars) (v : β) :
    ∀ {l : List (String × β)}, (∀ p ∈ l, p.1 ∈ vars) →
    bindKey (ρ.var name) v (l.map (Prod.map ρ.var id)) = (bindKey name v l).map (Prod.map ρ.var id)
  | [], _ => rfl
  | (k, w) :: rest, h => by
      have hk : k ∈ vars := h (k, w) List.mem_cons_self
      rw [List.map_cons, Prod.map_apply, bindKey, bindKey]
      by_cases e : k = name
      · rw [if_pos e, if_pos (congrArg ρ.var e)]
        rfl
      · rw [if_neg e, if_neg fun e' => e (hρ.var_inj hk hname e'),
          bindKey_map_fst hname v fun p hp => h p (List.mem_cons_of_mem _ hp)]
        rfl

theorem VarInfo.use_rename {info : VarInfo} (hinfo : info.name ∈ vars) {name : String}
    (hname : name ∈ vars) (type : Ty) (kind : UsageKind) (source : VarSource) :
    (info.rename ρ).use (ρ.var name) type kind source =
      (info.use name type kind source).rename ρ := by
  have hnext : (if (ρ.var info.name).isEmpty || (rawSlot? (ρ.var name)).isNone then ρ.var name
      else ρ.var info.name) =
        ρ.var (if info.name.isEmpty || (rawSlot? name).isNone then name else info.name) := by
    rw [hρ.isEmpty _ hinfo, hρ.rawSlot? _ hname]
    split <;> rfl
  unfold VarInfo.use VarInfo.rename
  dsimp only
  rw [hnext]
  rfl

theorem SlotTable.touch_rename (slot : Nat) {name : String} (hname : name ∈ vars) (type : Ty)
    (kind : UsageKind) (source : VarSource) : ∀ {infos : List VarInfo},
    (∀ info ∈ infos, info.name ∈ vars) →
    touch slot (ρ.var name) type kind source (infos.map (VarInfo.rename ρ)) =
      (touch slot name type kind source infos).map (VarInfo.rename ρ)
  | [], _ => rfl
  | info :: rest, h => by
      have hslot : (info.rename ρ).slot = info.slot := rfl
      rw [List.map_cons, touch, touch, hslot]
      split
      · rw [List.map_cons, VarInfo.use_rename hρ (h info List.mem_cons_self) hname]
      · rw [List.map_cons, touch_rename slot hname type kind source fun i hi =>
          h i (List.mem_cons_of_mem _ hi)]

namespace SlotTable

variable {t : SlotTable} (ht : t.NamesIn vars)
include ht

theorem record_rename (slot : Nat) {name : String} (hname : name ∈ vars) (type : Ty)
    (kind : UsageKind) (source : VarSource) :
    (t.rename ρ).record slot (ρ.var name) type kind source =
      (t.record slot name type kind source).rename ρ := by
  simp only [record, rename, touch_rename hρ slot hname type kind source ht.infos,
    bindKey_map_fst hρ hname slot ht.names]
  rfl

theorem use_rename (slot : Nat) {name : String} (hname : name ∈ vars) (type : Ty)
    (kind : UsageKind) (source : VarSource) :
    (t.rename ρ).use slot (ρ.var name) type kind source =
      renamed ρ (SlotTable.rename ρ) (t.use slot name type kind source) := by
  rw [use_eq, use_eq, record_rename hρ ht slot hname]
  have hres : (t.rename ρ).isReserved slot = t.isReserved slot := rfl
  rw [hres]
  split
  · rfl
  · split <;> rfl

theorem slotOf?_rename {name : String} (hname : name ∈ vars) :
    (t.rename ρ).slotOf? (ρ.var name) = t.slotOf? name :=
  lookup_map_fst hρ.var_inj hname ht.names

omit ht in
omit hρ in
theorem info?_rename (t : SlotTable) (slot : Nat) :
    (t.rename ρ).info? slot = (t.info? slot).map (VarInfo.rename ρ) := by
  unfold info? rename
  rw [List.find?_map]
  rfl

theorem resolve?_rename {name : String} (hname : name ∈ vars) :
    (t.rename ρ).resolve? (ρ.var name) = (t.resolve? name).map (VarInfo.rename ρ) := by
  have hbind : ∀ slot? : Option Nat,
      slot?.bind (t.rename ρ).info? = (slot?.bind t.info?).map (VarInfo.rename ρ) := by
    intro slot?
    cases slot? with
    | none => rfl
    | some s => exact info?_rename t s
  unfold resolve? byName?
  rw [slotOf?_rename hρ ht hname, hρ.rawSlot? name hname, hbind, hbind, Option.map_or]

omit hρ in
theorem NamesIn.record (slot : Nat) {name : String} (hname : name ∈ vars) (type : Ty)
    (kind : UsageKind) (source : VarSource) :
    (t.record slot name type kind source).NamesIn vars where
  infos := name_mem_touch slot hname type kind source ht.infos
  names := fst_mem_bindKey hname slot ht.names

omit hρ in
theorem NamesIn.of_use {slot : Nat} {name : String} (hname : name ∈ vars) {type : Ty}
    {kind : UsageKind} {source : VarSource} {t' : SlotTable}
    (h : t.use slot name type kind source = .ok t') : t'.NamesIn vars := by
  obtain ⟨-, -, rfl⟩ := (use_eq_ok ..).mp h
  exact ht.record slot hname type kind source

theorem addReference_rename {r : Reference} (hr : r.ref.name ∈ vars) :
    (t.rename ρ).addReference (r.rename ρ) = renamed ρ (SlotTable.rename ρ) (t.addReference r) := by
  have hrecord := fun slot => use_rename hρ ht slot hr r.ref.type (.instruction r.ref.use)
    ⟨r.position, some r.entry⟩
  have hname : (r.rename ρ).ref.name = ρ.var r.ref.name := rfl
  unfold addReference
  rw [hname, resolve?_rename hρ ht hr, hρ.rawSlot? _ hr]
  cases hi : t.resolve? r.ref.name with
  | none => exact hrecord _
  | some info =>
      simp only [Option.map_some, checkHeld_rename]
      cases checkHeld info r with
      | error e => rfl
      | ok u => exact hrecord _

omit hρ in
theorem NamesIn.addReference {r : Reference} (hr : r.ref.name ∈ vars) {t' : SlotTable}
    (h : t.addReference r = .ok t') : t'.NamesIn vars := by
  unfold SlotTable.addReference at h
  dsimp only at h
  split at h
  · exact ht.of_use hr h
  · split at h
    · cases h
    · exact ht.of_use hr h

omit ht

theorem addThis_rename (selfType : String) {m : MethodDef} (hm : ∀ v ∈ m.declaredVars, v ∈ vars)
    (hthis : Access.isStatic m.access = false → ρ.var "this" = "this") :
    addThis selfType (m.rename ρ) {} = renamed ρ (SlotTable.rename ρ) (addThis selfType m {}) := by
  have haccess : (m.rename ρ).access = m.access := rfl
  unfold addThis
  rw [haccess]
  cases hs : Access.isStatic m.access with
  | true => rfl
  | false =>
      have hmem : "this" ∈ vars := hm _ (by simp [MethodDef.declaredVars, hs])
      have huse := use_rename hρ (t := {}) ⟨by simp, by simp⟩ 0 hmem (.object selfType) .declared
        ⟨m.position, none⟩
      rw [hthis hs] at huse
      exact huse

theorem addParam_rename {m : MethodDef} {t : SlotTable} (ht : t.NamesIn vars) {p : Param}
    (hp : p.name ∈ vars) :
    addParam (m.rename ρ) (t.rename ρ) (p.rename ρ) =
      renamed ρ (SlotTable.rename ρ) (addParam m t p) := by
  have hdesc : (p.rename ρ).desc = p.desc := rfl
  unfold addParam
  rw [hdesc]
  cases Ty.ofFieldDescriptor? p.desc with
  | none => rfl
  | some type => exact use_rename hρ ht t.cap hp type .declared ⟨p.position, none⟩

section Names

omit hρ

theorem namesIn_empty : NamesIn vars {} := ⟨by simp, by simp⟩

theorem namesIn_addThis {selfType : String} {m : MethodDef} (hm : ∀ v ∈ m.declaredVars, v ∈ vars)
    {t : SlotTable} (h : addThis selfType m {} = .ok t) : t.NamesIn vars := by
  unfold addThis at h
  split at h
  · cases h
    exact namesIn_empty
  · rename_i hs
    exact namesIn_empty.of_use (hm _ (by simp [MethodDef.declaredVars, hs])) h

theorem name_mem_of_param {m : MethodDef} (hm : ∀ v ∈ m.declaredVars, v ∈ vars) {p : Param}
    (hp : p ∈ m.params) : p.name ∈ vars :=
  hm _ (List.mem_append_right _ (List.mem_map_of_mem hp))

theorem NamesIn.addParam {m : MethodDef} {t : SlotTable} (ht : t.NamesIn vars) {p : Param}
    (hp : p.name ∈ vars) {t' : SlotTable} (h : addParam m t p = .ok t') : t'.NamesIn vars := by
  obtain ⟨type, -, -, rfl⟩ := addParam_ok h
  exact ht.record _ hp _ _ _

theorem namesIn_declared {selfType : String} {m : MethodDef} (hm : ∀ v ∈ m.declaredVars, v ∈ vars)
    {t : SlotTable} (h : declared selfType m = .ok t) : t.NamesIn vars := by
  obtain ⟨t₀, h₀, hrun⟩ := except_bind_eq_ok.mp h
  exact foldlM_keeps_of_mem (fun t p t' hp ht h => ht.addParam (name_mem_of_param hm hp) h)
    (namesIn_addThis hm h₀) hrun

theorem namesIn_allocate {selfType : String} {m : MethodDef} {code : Code}
    (hm : ∀ v ∈ m.declaredVars, v ∈ vars) (hcode : ∀ v ∈ code.vars, v ∈ vars) {t : SlotTable}
    (h : allocate selfType m code = .ok t) : t.NamesIn vars := by
  rw [allocate_eq] at h
  obtain ⟨t₀, h₀, hrun⟩ := except_bind_eq_ok.mp h
  exact foldlM_keeps_of_mem (fun t r t' hr ht h => ht.addReference (hcode _ (name_mem_vars hr)) h)
    (namesIn_declared hm h₀) hrun

end Names

/-- The slots of a renamed method are the slots of the method, renamed. -/
theorem allocate_rename (selfType : String) {m : MethodDef} {code : Code}
    (hm : ∀ v ∈ m.declaredVars, v ∈ vars) (hcode : ∀ v ∈ code.vars, v ∈ vars)
    (hthis : Access.isStatic m.access = false → ρ.var "this" = "this") :
    allocate selfType (m.rename ρ) (code.rename ρ) =
      renamed ρ (SlotTable.rename ρ) (allocate selfType m code) := by
  have hdeclared : declared selfType (m.rename ρ) =
      renamed ρ (SlotTable.rename ρ) (declared selfType m) := by
    unfold declared
    rw [addThis_rename hρ selfType hm hthis]
    refine renamed_bind fun t ht => ?_
    exact renamed_foldlM (fun t ht p hp => addParam_rename hρ ht (name_mem_of_param hm hp))
      (fun t ht p hp t' h => ht.addParam (name_mem_of_param hm hp) h) (namesIn_addThis hm ht)
  rw [allocate_eq, allocate_eq, hdeclared, references_rename]
  refine renamed_bind fun t ht => ?_
  exact renamed_foldlM (fun t ht r hr => addReference_rename hρ ht (hcode _ (name_mem_vars hr)))
    (fun t ht r hr t' h => ht.addReference (hcode _ (name_mem_vars hr)) h) (namesIn_declared hm ht)

end SlotTable

end Stages

/-! ## Instructions -/

/-- Is every name of the statement among `labels` and `vars`, and is it no expression? -/
structure Statement.NamesIn (labels vars : Set String) (st : Statement) : Prop where
  labels : ∀ n ∈ st.labelNames, n ∈ labels
  vars : ∀ n ∈ st.vars, n ∈ vars
  plain : ∀ code, st ≠ .expression code

namespace LoweringContext

def rename (ctx : LoweringContext) : LoweringContext :=
  { ctx with
    method := ctx.method.rename ρ
    labels := ctx.labels.map (Prod.map ρ.label id)
    slots := ctx.slots.rename ρ }

/-- All names of the context are among `labels` and `vars`. -/
structure NamesIn (labels vars : Set String) (ctx : LoweringContext) : Prop where
  labels : ∀ p ∈ ctx.labels, p.1 ∈ labels
  slots : ctx.slots.NamesIn vars

open AssemblyResult

variable {ρ} {labels vars : Set String} (hρ : ρ.Keeps labels vars) {ctx : LoweringContext}
  (hctx : ctx.NamesIn labels vars)
include hρ hctx

theorem label_rename {name : String} (hname : name ∈ labels) (position : Position) :
    (ctx.rename ρ).label (ρ.label name) position = renamed ρ id (ctx.label name position) := by
  have hlookup : (ctx.rename ρ).labels.lookup (ρ.label name) = ctx.labels.lookup name :=
    lookup_map_fst hρ.label_inj hname hctx.labels
  unfold label
  rw [hlookup]
  cases ctx.labels.lookup name <;> rfl

theorem slot_rename {name : String} (hname : name ∈ vars) (position : Position) :
    (ctx.rename ρ).slot (ρ.var name) position = renamed ρ id (ctx.slot name position) := by
  have hlookup : (ctx.rename ρ).slots.slotOf? (ρ.var name) = ctx.slots.slotOf? name :=
    SlotTable.slotOf?_rename hρ hctx.slots hname
  unfold slot
  rw [hlookup]
  cases ctx.slots.slotOf? name <;> rfl

theorem lower_rename {op : Operation} (hlabels : ∀ n ∈ op.labelRefs, n ∈ labels)
    (hvars : ∀ n ∈ op.vars, n ∈ vars) (position : Position) :
    (ctx.rename ρ).lower position (op.rename ρ) = renamed ρ id (ctx.lower position op) := by
  have hlabel := fun {n} hn => label_rename hρ hctx (hlabels n hn) position
  have hslot := fun {n} hn => slot_rename hρ hctx (hvars n hn) position
  cases op with
  | var o name =>
      show ((ctx.rename ρ).slot (ρ.var name) position >>= _) = _
      rw [hslot (List.mem_singleton_self name)]
      exact renamed_bind fun s _ => rfl
  | iinc name n =>
      show ((ctx.rename ρ).slot (ρ.var name) position >>= _) = _
      rw [hslot (List.mem_singleton_self name)]
      exact renamed_bind fun s _ => rfl
  | jump o name =>
      show ((ctx.rename ρ).label (ρ.label name) position >>= _) = _
      rw [hlabel (List.mem_singleton_self name)]
      exact renamed_bind fun id _ => rfl
  | line name n =>
      show ((ctx.rename ρ).label (ρ.label name) position >>= _) = _
      rw [hlabel (List.mem_singleton_self name)]
      exact renamed_bind fun id _ => rfl
  | newArray t =>
      show (ctx.rename ρ).lower position (.newArray t) = _
      simp only [lower]
      cases t.arrayCode? <;> rfl
  | lookupSwitch cases default =>
      have hcases : (cases.map fun c => (⟨c.key, ρ.label c.label⟩ : SwitchCase)).mapM
          (fun c => (ctx.rename ρ).label c.label position) =
            renamed ρ (List.map id) (cases.mapM fun c => ctx.label c.label position) :=
        renamed_mapM fun c hc => hlabel (List.mem_append_left _ (List.mem_map_of_mem hc))
      simp only [Operation.rename, Operation.mapLabels, Operation.mapVar, lower, hcases]
      refine renamed_bind fun targets _ => ?_
      rw [hlabel (List.mem_append_right _ (List.mem_singleton_self default)), List.map_map,
        List.map_id]
      exact renamed_bind fun id _ => rfl
  | tableSwitch min max names default =>
      have hnames : (names.map ρ.label).mapM (fun n => (ctx.rename ρ).label n position) =
          renamed ρ (List.map id) (names.mapM fun n => ctx.label n position) :=
        renamed_mapM fun n hn => hlabel (List.mem_append_left _ hn)
      simp only [Operation.rename, Operation.mapLabels, Operation.mapVar, lower, hnames]
      refine renamed_bind fun targets _ => ?_
      rw [hlabel (List.mem_append_right _ (List.mem_singleton_self default)), List.map_id]
      exact renamed_bind fun id _ => rfl
  | _ => rfl

theorem lowerEntry_rename {e : Entry} (he : e.value.NamesIn labels vars) (free : Nat) :
    (ctx.rename ρ).lowerEntry free (e.rename ρ) = renamed ρ id (ctx.lowerEntry free e) := by
  obtain ⟨st, position⟩ := e
  cases st with
  | label name =>
      show ((ctx.rename ρ).label (ρ.label name) position >>= _) = _
      rw [label_rename hρ hctx (he.labels name (List.mem_singleton_self name))]
      exact renamed_bind fun id _ => rfl
  | operation op =>
      show ((ctx.rename ρ).lower position (op.rename ρ) >>= _) = _
      rw [lower_rename hρ hctx he.labels he.vars]
      exact renamed_bind fun insn _ => rfl
  | expression code => exact absurd rfl (he.plain code)
  | _ => rfl

theorem lowerEntries_rename : ∀ {code : Code} (index free : Nat),
    (∀ e ∈ code, e.value.NamesIn labels vars) →
    (ctx.rename ρ).lowerEntries index free (code.rename ρ) =
      renamed ρ id (ctx.lowerEntries index free code)
  | [], _, _, _ => rfl
  | e :: rest, index, free, h => by
      rw [Code.rename, List.map_cons, lowerEntries, lowerEntries,
        lowerEntry_rename hρ hctx (h e List.mem_cons_self)]
      refine renamed_bind fun lowered _ => ?_
      obtain ⟨own, free'⟩ := lowered
      show ((ctx.rename ρ).lowerEntries (index + 1) free' (Code.rename ρ rest) >>= _) = _
      rw [lowerEntries_rename (index + 1) free' fun e' he' => h e' (List.mem_cons_of_mem _ he')]
      exact renamed_bind fun others _ => rfl

/-! ## Handlers and local variables -/

theorem handlers_rename : ∀ {code : Code}, (∀ e ∈ code, e.value.NamesIn labels vars) →
    (ctx.rename ρ).handlers (code.rename ρ) = renamed ρ id (ctx.handlers code)
  | [], _ => rfl
  | ⟨st, position⟩ :: rest, h => by
      have hrest := handlers_rename fun e he => h e (List.mem_cons_of_mem _ he)
      have hlabel := fun {n} hn =>
        label_rename hρ hctx ((h _ List.mem_cons_self).labels n hn) position
      cases st with
      | tryCatch start stop handler caught =>
          show (do
            let start ← (ctx.rename ρ).label (ρ.label start) position
            let stop ← (ctx.rename ρ).label (ρ.label stop) position
            let handler ← (ctx.rename ρ).label (ρ.label handler) position
            return TryBlock.mk start stop handler caught ::
              (← (ctx.rename ρ).handlers (Code.rename ρ rest))) = _
          rw [hlabel (by simp [Statement.labelNames]), hlabel (by simp [Statement.labelNames]),
            hlabel (by simp [Statement.labelNames]), hrest]
          refine renamed_bind fun _ _ => renamed_bind fun _ _ => renamed_bind fun _ _ => ?_
          exact renamed_bind fun _ _ => rfl
      | _ => exact hrest

omit hρ hctx in
theorem labelEntries_rename (code : Code) :
    labelEntries (code.rename ρ) = (labelEntries code).map (Prod.map id ρ.label) := by
  have hst : ∀ st : Statement, (st.rename ρ).label? = st.label?.map ρ.label := by
    intro st
    cases st <;> rfl
  unfold labelEntries Code.rename
  rw [List.zipIdx_map, List.filterMap_map, List.map_filterMap]
  refine congrArg (List.filterMap · code.zipIdx) (funext fun entry => ?_)
  obtain ⟨e, i⟩ := entry
  show ((e.rename ρ).value.label?).map _ = _
  rw [show (e.rename ρ).value = e.value.rename ρ from rfl, hst, Option.map_map, Option.map_map]
  rfl

omit hρ hctx in
theorem bySlot_rename (t : SlotTable) :
    (t.rename ρ).bySlot = t.bySlot.map (VarInfo.rename ρ) := by
  have hinsert : ∀ (info : VarInfo) (l : List VarInfo),
      SlotTable.insertBySlot (info.rename ρ) (l.map (VarInfo.rename ρ)) =
        (SlotTable.insertBySlot info l).map (VarInfo.rename ρ) := by
    intro info l
    induction l with
    | nil => rfl
    | cons x rest ih =>
        have hslot : ∀ i : VarInfo, (i.rename ρ).slot = i.slot := fun _ => rfl
        rw [List.map_cons, SlotTable.insertBySlot, SlotTable.insertBySlot, hslot, hslot]
        split
        · rfl
        · rw [ih]
          rfl
  unfold SlotTable.bySlot SlotTable.rename
  dsimp only
  induction t.infos with
  | nil => rfl
  | cons info rest ih => rw [List.map_cons, List.foldr_cons, ih, hinsert, List.foldr_cons]

section Ranges

omit hρ hctx

theorem labelBefore?_rename (entries : List (Nat × String)) (entry : Nat) :
    labelBefore? (entries.map (Prod.map id ρ.label)) entry =
      (labelBefore? entries entry).map ρ.label := by
  unfold labelBefore?
  rw [List.filter_map, List.getLast?_map, Option.map_map, Option.map_map]
  rfl

theorem labelAfter?_rename (entries : List (Nat × String)) (entry : Nat) :
    labelAfter? (entries.map (Prod.map id ρ.label)) entry =
      (labelAfter? entries entry).map ρ.label := by
  unfold labelAfter?
  rw [List.find?_map, Option.map_map, Option.map_map]
  rfl

theorem varRange_rename (range : VarRange) (entries : List (Nat × String)) (whole : String × String)
    (info : VarInfo) :
    varRange range (entries.map (Prod.map id ρ.label)) (Prod.map ρ.label ρ.label whole)
        (info.rename ρ) =
      renamed ρ (Prod.map ρ.label ρ.label) (varRange range entries whole info) := by
  have hnearest : ∀ first, nearestRange (entries.map (Prod.map id ρ.label)) (info.rename ρ) first =
      renamed ρ (Prod.map ρ.label ρ.label) (nearestRange entries info first) := by
    intro first
    have huses : (info.rename ρ).entryUses = info.entryUses := rfl
    unfold nearestRange
    dsimp only
    rw [labelBefore?_rename, labelAfter?_rename, huses]
    cases labelBefore? entries first.1 with
    | none => rfl
    | some start => cases labelAfter? entries (info.entryUses.foldl laterUse first).1 <;> rfl
  have hsources : (info.rename ρ).sources = info.sources := rfl
  unfold varRange
  rw [hsources]
  split
  · exact hnearest _
  · rfl

/-- The labels of a range are among those of the body. -/
theorem mem_of_varRange {range : VarRange} {entries : List (Nat × String)}
    {whole : String × String} {info : VarInfo} (hentries : ∀ p ∈ entries, p.2 ∈ labels)
    (hwhole : whole.1 ∈ labels ∧ whole.2 ∈ labels) {start stop : String}
    (h : varRange range entries whole info = .ok (start, stop)) :
    start ∈ labels ∧ stop ∈ labels := by
  unfold varRange at h
  split at h
  · unfold nearestRange at h
    dsimp only at h
    split at h
    · cases h
    · cases h
    · rename_i first last hbefore hafter
      cases h
      obtain ⟨p, hp, rfl⟩ := Option.map_eq_some_iff.mp hbefore
      obtain ⟨q, hq, rfl⟩ := Option.map_eq_some_iff.mp hafter
      exact ⟨hentries p (List.mem_of_mem_filter (List.mem_of_getLast? hp)),
        hentries q (List.mem_of_find?_eq_some hq)⟩
  · cases h
    exact hwhole

theorem mem_of_labelEntries {code : Code} (hcode : ∀ e ∈ code, e.value.NamesIn labels vars)
    {p : Nat × String} (hp : p ∈ labelEntries code) : p.2 ∈ labels := by
  obtain ⟨⟨e, i⟩, he, hlabel⟩ := List.mem_filterMap.mp hp
  obtain ⟨name, hname, rfl⟩ := Option.map_eq_some_iff.mp hlabel
  have he : e ∈ code := List.mem_of_getElem? (List.mem_zipIdx_iff_getElem?.mp he)
  refine (hcode e he).labels name ?_
  cases hv : e.value with
  | label n =>
      rw [hv] at hname
      cases hname
      exact List.mem_singleton_self name
  | _ =>
      rw [hv] at hname
      cases hname

end Ranges

theorem localEntry_rename {entries : List (Nat × String)} (hentries : ∀ p ∈ entries, p.2 ∈ labels)
    (whole : String × String) (hwhole : whole.1 ∈ labels ∧ whole.2 ∈ labels) {info : VarInfo}
    (hinfo : info.name ∈ vars) :
    (ctx.rename ρ).localEntry (entries.map (Prod.map id ρ.label))
        (Prod.map ρ.label ρ.label whole) (info.rename ρ) =
      renamed ρ (Option.map (LocalVariable.rename ρ)) (ctx.localEntry entries whole info) := by
  have hraw : rawSlot? (info.rename ρ).name = rawSlot? info.name := hρ.rawSlot? _ hinfo
  have hoptions : (ctx.rename ρ).options = ctx.options := rfl
  unfold localEntry
  rw [hraw, hoptions, varRange_rename]
  split
  · rfl
  · refine renamed_bind fun range hrange => ?_
    obtain ⟨start, stop⟩ := range
    obtain ⟨hstart, hstop⟩ := mem_of_varRange hentries hwhole hrange
    have hfirst := label_rename hρ hctx hstart ctx.method.position
    have hlast := label_rename hρ hctx hstop ctx.method.position
    show ((ctx.rename ρ).label (ρ.label start) ctx.method.position >>= _) = _
    rw [hfirst]
    refine renamed_bind fun first _ => ?_
    show ((ctx.rename ρ).label (ρ.label stop) ctx.method.position >>= _) = _
    rw [hlast]
    exact renamed_bind fun last _ => rfl

theorem localTable_rename {code : Code} (hcode : ∀ e ∈ code, e.value.NamesIn labels vars) :
    (ctx.rename ρ).localTable (code.rename ρ) =
      renamed ρ (List.map (LocalVariable.rename ρ)) (ctx.localTable code) := by
  have hentries : ∀ p ∈ labelEntries code, p.2 ∈ labels := fun p => mem_of_labelEntries hcode
  have hbare : ((ctx.rename ρ).options.range = .nearestLabels ∧ (ctx.rename ρ).slots.infos ≠ []) ↔
      (ctx.options.range = .nearestLabels ∧ ctx.slots.infos ≠ []) :=
    and_congr_right fun _ => not_congr List.map_eq_nil_iff
  unfold localTable
  dsimp only
  rw [labelEntries_rename, List.head?_map, List.getLast?_map]
  -- without a label there is no range at all, and with one there is a first and a last
  cases hhead : (labelEntries code).head? with
  | none =>
      simp only [Option.map_none, hbare]
      split <;> rfl
  | some first =>
      obtain ⟨last, hlast⟩ : ∃ last, (labelEntries code).getLast? = some last := by
        cases hl : labelEntries code with
        | nil =>
            rw [hl] at hhead
            cases hhead
        | cons p ps => exact ⟨_, List.getLast?_eq_some_getLast (List.cons_ne_nil p ps)⟩
      have hwhole : first.2 ∈ labels ∧ last.2 ∈ labels :=
        ⟨hentries _ (List.mem_of_head? hhead), hentries _ (List.mem_of_getLast? hlast)⟩
      have htable : (ctx.rename ρ).slots.bySlot.mapM ((ctx.rename ρ).localEntry
          ((labelEntries code).map (Prod.map id ρ.label)) (ρ.label first.2, ρ.label last.2)) =
            renamed ρ (List.map (Option.map (LocalVariable.rename ρ)))
              (ctx.slots.bySlot.mapM (ctx.localEntry (labelEntries code) (first.2, last.2))) := by
        rw [show (ctx.rename ρ).slots = ctx.slots.rename ρ from rfl, bySlot_rename]
        refine renamed_mapM fun info hinfo => ?_
        exact localEntry_rename hρ hctx hentries (first.2, last.2) hwhole
          (hctx.slots.infos info (ctx.slots.perm_bySlot.mem_iff.mp hinfo))
      rw [hlast]
      show ((ctx.rename ρ).slots.bySlot.mapM _ >>= _) = _
      rw [htable]
      refine renamed_bind fun entries _ => ?_
      show Except.ok _ = Except.ok _
      rw [List.filterMap_map, List.map_filterMap]
      rfl

end LoweringContext

/-! ## Methods -/

def AssembledMethod.rename (a : AssembledMethod) : AssembledMethod where
  method := { a.method with locals := a.method.locals.map (LocalVariable.rename ρ) }
  slots := a.slots.rename ρ
  code := a.code.rename ρ
  origins := a.origins

section Methods

open AssemblyResult

/-- What a statement says besides instructions and labels stays as it is. -/
theorem Code.filterMap_rename {β : Type} {f : Statement → Option β}
    (hf : ∀ st : Statement, f (st.rename ρ) = f st) (code : Code) :
    (code.rename ρ).filterMap (fun e => f e.value) = code.filterMap fun e => f e.value := by
  rw [Code.rename, List.filterMap_map]
  exact congrArg (List.filterMap · code) (funext fun e => hf e.value)

theorem Code.annots_rename (code : Code) : (code.rename ρ).annots = code.annots :=
  filterMap_rename ρ (fun st => by cases st <;> rfl) code

theorem Code.thrown_rename (code : Code) : (code.rename ρ).thrown = code.thrown :=
  filterMap_rename ρ (fun st => by cases st <;> rfl) code

theorem Code.signature?_rename (code : Code) : (code.rename ρ).signature? = code.signature? :=
  congrArg List.getLast? (filterMap_rename ρ (fun st => by cases st <;> rfl) code)

theorem MethodDef.desc_rename (m : MethodDef) : (m.rename ρ).desc = m.desc := by
  unfold MethodDef.desc MethodDef.rename
  rw [List.map_map]
  rfl

theorem Listing.body_rename (l : Listing) : (l.rename ρ).body = Code.rename ρ l.body := by
  unfold Listing.body Listing.rename
  cases l.code <;> rfl

theorem assemblyMethod_rename (l : Listing) :
    assemblyMethod (l.rename ρ) = renamed ρ (MethodDef.rename ρ) (assemblyMethod l) := by
  have hexec : (l.rename ρ).body.any (·.value.isExecutable) =
      l.body.any (·.value.isExecutable) := by
    rw [Listing.body_rename, Code.rename, List.any_map]
    refine congrArg (List.any l.body) (funext fun e => ?_)
    show (e.value.rename ρ).isExecutable = e.value.isExecutable
    cases e.value <;> rfl
  unfold assemblyMethod
  rw [hexec]
  unfold Listing.method? Listing.rename
  cases l.definition with
  | method m =>
      dsimp only
      have hcode : (m.rename ρ).hasCode = m.hasCode := rfl
      rw [hcode]
      split
      · rfl
      · split <;> rfl
  | _ => rfl

variable {ρ} {labels vars : Set String} (hρ : ρ.Keeps labels vars)
include hρ

theorem LoweringContext.build_rename {ctx : LoweringContext} (hctx : ctx.NamesIn labels vars)
    {code : Code} (hcode : ∀ e ∈ code, e.value.NamesIn labels vars) (lowered : Lowered) :
    (ctx.rename ρ).build (code.rename ρ) lowered =
      renamed ρ (AssembledMethod.rename ρ) (ctx.build code lowered) := by
  have hdesc : (ctx.rename ρ).method.desc = ctx.method.desc := MethodDef.desc_rename ρ ctx.method
  have hemit : ((ctx.rename ρ).options.emitLocals && (ctx.rename ρ).method.hasCode) =
      (ctx.options.emitLocals && ctx.method.hasCode) := rfl
  unfold build
  dsimp only
  rw [handlers_rename hρ hctx hcode, localTable_rename hρ hctx hcode, Code.annots_rename,
    Code.thrown_rename, Code.signature?_rename, hdesc, hemit]
  refine renamed_bind fun blocks _ => ?_
  split
  · exact renamed_bind fun locals _ => rfl
  · rfl

/-- The names of the listing are among `labels` and `vars`, and there are no expressions. -/
structure Listing.NamesIn (labels vars : Set String) (l : Listing) : Prop where
  declared : ∀ m, l.method? = some m → ∀ v ∈ m.declaredVars, v ∈ vars
  body : ∀ e ∈ l.body, e.value.NamesIn labels vars

omit hρ in
theorem Listing.NamesIn.vars_mem {l : Listing} (hl : l.NamesIn labels vars) :
    ∀ v ∈ l.body.vars, v ∈ vars := by
  intro v hv
  obtain ⟨e, he, hv⟩ := List.mem_flatMap.mp hv
  exact (hl.body e he).vars v hv

omit hρ in
theorem Listing.NamesIn.labelNames_mem {l : Listing} (hl : l.NamesIn labels vars) :
    ∀ n ∈ l.body.labelNames, n ∈ labels := by
  intro n hn
  obtain ⟨e, he, hlabel⟩ := List.mem_filterMap.mp hn
  refine (hl.body e he).labels n ?_
  cases hv : e.value with
  | label name =>
      rw [hv] at hlabel
      cases hlabel
      exact List.mem_singleton_self _
  | _ =>
      rw [hv] at hlabel
      cases hlabel

theorem loweringContext_rename (options : AssemblyOptions) (helpers : Helpers) {l : Listing}
    (hl : l.NamesIn labels vars)
    (hthis : ∀ m, l.method? = some m → Access.isStatic m.access = false → ρ.var "this" = "this") :
    loweringContext options helpers (l.rename ρ) =
      renamed ρ (LoweringContext.rename ρ) (loweringContext options helpers l) := by
  unfold loweringContext
  rw [assemblyMethod_rename, Listing.body_rename]
  refine renamed_bind fun m hm => ?_
  have hm := method?_of_assembly hm
  rw [labelIds_rename hρ hl.labelNames_mem]
  refine renamed_bind fun ids _ => ?_
  rw [SlotTable.allocate_rename hρ options.selfType (hl.declared m hm) hl.vars_mem (hthis m hm)]
  exact renamed_bind fun slots _ => rfl

omit hρ in
theorem namesIn_loweringContext {options : AssemblyOptions} {helpers : Helpers} {l : Listing}
    (hl : l.NamesIn labels vars) {ctx : LoweringContext}
    (h : loweringContext options helpers l = .ok ctx) : ctx.NamesIn labels vars := by
  obtain ⟨m, hm, h⟩ := except_bind_eq_ok.mp h
  obtain ⟨ids, hids, h⟩ := except_bind_eq_ok.mp h
  obtain ⟨slots, hslots, h⟩ := except_bind_eq_ok.mp h
  cases h
  refine ⟨fun p hp => ?_, ?_⟩
  · rw [(labelIds_ok hids).2] at hp
    exact hl.labelNames_mem _ (List.fst_mem_of_mem_zipIdx hp)
  · exact SlotTable.namesIn_allocate (hl.declared m (method?_of_assembly hm)) hl.vars_mem hslots

/-- Assembling a renamed listing gives what assembling the listing gives, renamed. -/
theorem assembleMethod_renamed (options : AssemblyOptions) (helpers : Helpers) {l : Listing}
    (hl : l.NamesIn labels vars)
    (hthis : ∀ m, l.method? = some m → Access.isStatic m.access = false → ρ.var "this" = "this") :
    assembleMethod options helpers (l.rename ρ) =
      renamed ρ (AssembledMethod.rename ρ) (assembleMethod options helpers l) := by
  unfold assembleMethod
  rw [loweringContext_rename hρ options helpers hl hthis, Listing.body_rename]
  refine renamed_bind fun ctx hctx => ?_
  have hnames := namesIn_loweringContext hl hctx
  have hlower : (ctx.rename ρ).lowerCode (l.body.rename ρ) =
      renamed ρ id (ctx.lowerCode l.body) := by
    unfold LoweringContext.lowerCode
    rw [show (ctx.rename ρ).labels.length = ctx.labels.length from List.length_map _]
    exact LoweringContext.lowerEntries_rename hρ hnames _ _ hl.body
  rw [hlower]
  exact renamed_bind fun low _ => LoweringContext.build_rename hρ hnames hl.body low

end Methods

/-- Is the renaming one of the names of the listing?  No two labels and no two
variables become one.  Variables have names before and after, numbers stay, no
other name becomes a number, and `this` keeps its name where it is declared. -/
structure Renaming.Fits (l : Listing) : Prop where
  label_inj : Set.InjOn ρ.label {name | name ∈ l.body.usedLabels}
  var_inj : Set.InjOn ρ.var {name | name ∈ l.vars}
  named : ∀ name ∈ l.vars, name ≠ "" ∧ ρ.var name ≠ ""
  number : ∀ name ∈ l.vars, rawSlot? name ≠ none → ρ.var name = name
  word : ∀ name ∈ l.vars, rawSlot? name = none → rawSlot? (ρ.var name) = none
  this : ∀ m, l.method? = some m → Access.isStatic m.access = false → ρ.var "this" = "this"

theorem Renaming.Fits.keeps {ρ : Renaming} {l : Listing} (h : ρ.Fits l) :
    ρ.Keeps {name | name ∈ l.body.usedLabels} {name | name ∈ l.vars} where
  label_inj := h.label_inj
  var_inj := h.var_inj
  rawSlot? := by
    intro name hname
    by_cases hraw : JvmListing.rawSlot? name = none
    · rw [hraw, h.word name hname hraw]
    · rw [h.number name hname hraw]
  isEmpty := by
    intro name hname
    obtain ⟨hold, hnew⟩ := h.named name hname
    rw [Bool.eq_iff_iff, String.isEmpty_iff, String.isEmpty_iff]
    exact iff_of_false hnew hold

theorem Listing.namesIn_self {l : Listing}
    (hexpr : ∀ e ∈ l.body, ∀ code, e.value ≠ .expression code) :
    l.NamesIn {name | name ∈ l.body.usedLabels} {name | name ∈ l.vars} where
  declared := by
    intro m hm v hv
    show v ∈ (l.method?.map MethodDef.declaredVars).getD [] ++ l.body.vars
    rw [hm]
    exact List.mem_append_left _ hv
  body := by
    intro e he
    refine ⟨fun n hn => List.mem_flatMap.mpr ⟨e, he, hn⟩, fun v hv => ?_, hexpr e he⟩
    exact List.mem_append_right _ (List.mem_flatMap.mpr ⟨e, he, hv⟩)

/-- Assembling does not depend on the names of labels and local variables.  A renamed
listing without expressions can be assembled exactly if the listing can.  The stored
methods differ only in the names of the local variable table, and the faults only in
the names they mention. -/
theorem assembleMethod_rename (options : AssemblyOptions) (helpers : Helpers) (l : Listing)
    (ρ : Renaming) (hexpr : ∀ e ∈ l.body, ∀ code, e.value ≠ .expression code) (hρ : ρ.Fits l) :
    ((∃ b, assembleMethod options helpers (l.rename ρ) = .ok b) ↔
        ∃ a, assembleMethod options helpers l = .ok a)
      ∧ (∀ a b, assembleMethod options helpers l = .ok a →
          assembleMethod options helpers (l.rename ρ) = .ok b →
          b.method = { a.method with
            locals := a.method.locals.map fun v => { v with name := ρ.var v.name } })
      ∧ ∀ e e', assembleMethod options helpers l = .error e →
          assembleMethod options helpers (l.rename ρ) = .error e' →
          e'.value = e.value.rename ρ ∧ e'.value.kind = e.value.kind
            ∧ e'.position = e.position := by
  rw [assembleMethod_renamed hρ.keeps options helpers (Listing.namesIn_self hexpr) hρ.this]
  cases assembleMethod options helpers l with
  | error e =>
      refine ⟨⟨?_, ?_⟩, ?_, ?_⟩
      · rintro ⟨b, hb⟩
        cases hb
      · rintro ⟨a, ha⟩
        cases ha
      · intro a b ha
        cases ha
      · intro e₁ e' he he'
        cases he
        cases he'
        exact ⟨rfl, AssemblyFault.kind_rename ρ e.value, rfl⟩
  | ok a =>
      refine ⟨⟨fun _ => ⟨a, rfl⟩, fun _ => ⟨_, rfl⟩⟩, ?_, ?_⟩
      · intro a₁ b ha hb
        cases ha
        cases hb
        rfl
      · intro e e' he
        cases he

/-- An instance method whose parameters are used by name and by number. -/
def swappedNames : Listing where
  definition := .method ⟨0, "m", [⟨"I", "a", {}⟩, ⟨"I", "b", {}⟩], "V", {}, {}⟩
  code := some
    [⟨.label "A", {}⟩, ⟨.operation (.var .iload "a"), {}⟩, ⟨.operation (.var .istore "2"), {}⟩,
     ⟨.operation (.jump .ifnull "B"), {}⟩, ⟨.operation (.iinc "b" 1), {}⟩,
     ⟨.operation (.var .astore "x"), {}⟩, ⟨.label "B", {}⟩, ⟨.tryCatch "A" "B" "B" none, {}⟩,
     ⟨.operation (.plain .vreturn), {}⟩]

/-- Labels and parameters change places, and `x` gets the old name of a label. -/
def swap : Renaming where
  label name := if name = "A" then "B" else if name = "B" then "A" else name
  var name :=
    if name = "a" then "b" else if name = "b" then "a" else if name = "x" then "A" else name

theorem assembleMethod_rename_swappedNames :
    ∃ a b, assembleMethod {} {} swappedNames = .ok a
      ∧ assembleMethod {} {} (swappedNames.rename swap) = .ok b
      ∧ a.method.locals.map (·.name) = ["this", "a", "b", "x"]
      ∧ b.method.locals.map (·.name) = ["this", "b", "a", "A"]
      ∧ b.method.insns = a.method.insns := by
  have hexpr : ∀ e ∈ swappedNames.body, ∀ code, e.value ≠ .expression code := by
    simp [swappedNames, Listing.body]
  have hfits : swap.Fits swappedNames := by
    have hlabel : ∀ a ∈ swappedNames.body.usedLabels, ∀ b ∈ swappedNames.body.usedLabels,
        swap.label a = swap.label b → a = b := by decide +kernel
    have hvar : ∀ a ∈ swappedNames.vars, ∀ b ∈ swappedNames.vars,
        swap.var a = swap.var b → a = b := by decide +kernel
    refine ⟨fun a ha b hb => hlabel a ha b hb, fun a ha b hb => hvar a ha b hb, ?_, ?_, ?_, ?_⟩
    · decide +kernel
    · decide +kernel
    · decide +kernel
    · intro m _ _
      rfl
  have hrun : (assembleMethod {} {} swappedNames).toOption.map
      (fun a => a.method.locals.map (·.name)) = some ["this", "a", "b", "x"] := by
    decide +kernel
  obtain ⟨a, ha, hlocals⟩ := Option.map_eq_some_iff.mp hrun
  have ha := toOption_eq_some.mp ha
  obtain ⟨hiff, hsame, -⟩ := assembleMethod_rename {} {} swappedNames swap hexpr hfits
  obtain ⟨b, hb⟩ := hiff.mpr ⟨a, ha⟩
  have hmethod := hsame a b ha hb
  refine ⟨a, b, ha, hb, hlocals, ?_, ?_⟩
  · have hnames : b.method.locals.map (·.name) = (a.method.locals.map (·.name)).map swap.var := by
      rw [hmethod, List.map_map, List.map_map]
      rfl
    rw [hnames, hlocals]
    decide
  · rw [hmethod]

end JvmListing
