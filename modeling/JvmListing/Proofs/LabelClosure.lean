/-
# Labels of assembled methods

A label of a listing goes by name, a label of a fragment by a number of the
fragment's own.  In an assembled method both are numbers, and every number that is
used is declared by one instruction: the one made from the entry that declares the
name, or the one of the same occurrence of the fragment.

  `Parts`                   what each entry becomes, one after the other
  `Parts.nodup`             no label is declared twice, whatever the fragments declare
  `assembleMethod_closed`   every reference finds its declaration, and a name without
                            one, or with two, is an error
-/
import JvmListing.Proofs.Lowering
import Mathlib.Data.List.Nodup

namespace JvmListing

/-! ## Declared and used -/

/-- The labels that instructions declare, in order. -/
def declaredLabels (insns : List Insn) : List LabelId := insns.filterMap Insn.label?

def TryBlock.labels (b : TryBlock) : List LabelId := [b.start, b.stop, b.handler]

def LocalVariable.labels (v : LocalVariable) : List LabelId := [v.start, v.stop]

/-- The labels of a method, wherever they are declared or used. -/
def MethodNode.allLabels (m : MethodNode) : List LabelId :=
  m.usedLabels ++ m.blocks.flatMap TryBlock.labels ++ m.locals.flatMap LocalVariable.labels

/-- The labels that one entry of a body names without declaring them. -/
def Statement.labelRefs : Statement → List String
  | .operation op => op.labelRefs
  | .tryCatch start stop handler _ => [start, stop, handler]
  | _ => []

theorem mem_declaredLabels {insns : List Insn} {id : LabelId} :
    id ∈ declaredLabels insns ↔ .label id ∈ insns := by
  unfold declaredLabels
  rw [List.mem_filterMap]
  constructor
  · rintro ⟨insn, hmem, hid⟩
    cases insn with
    | label id' =>
        cases hid
        exact hmem
    | _ => cases hid
  · exact fun hmem => ⟨_, hmem, rfl⟩

/-- The one instruction that declares a label is where the label is. -/
theorem labelPosition?_of_nodup {m : MethodNode} (h : (declaredLabels m.insns).Nodup) {k : Nat}
    {id : LabelId} (hk : m.insns[k]? = some (.label id)) : m.labelPosition? id = some k := by
  obtain ⟨hlt, hk⟩ := List.getElem?_eq_some_iff.mp hk
  refine List.findIdx?_eq_some_iff_getElem.mpr ⟨hlt, by simp [hk, Insn.label?], ?_⟩
  intro j hj hsame
  have hdistinct := List.pairwise_iff_getElem.mp (List.pairwise_filterMap.mp h) j k
    (Nat.lt_trans hj hlt) hlt hj id (by simpa using hsame) id (by simp [hk, Insn.label?])
  exact hdistinct rfl

theorem declared_of_labelPosition? {m : MethodNode} {id : LabelId} {k : Nat}
    (h : m.labelPosition? id = some k) : id ∈ declaredLabels m.insns := by
  obtain ⟨hlt, hk, -⟩ := List.findIdx?_eq_some_iff_getElem.mp h
  exact List.mem_filterMap.mpr ⟨_, List.getElem_mem hlt, by simpa using hk⟩

/-! ## Fragments -/

theorem Insn.label?_mapLabels (g : LabelId → LabelId) (insn : Insn) :
    (insn.mapLabels g).label? = insn.label?.map g := by
  cases insn <;> rfl

theorem Insn.labelRefs_mapLabels (g : LabelId → LabelId) (insn : Insn) :
    (insn.mapLabels g).labelRefs = insn.labelRefs.map g := by
  cases insn <;> simp [mapLabels, labelRefs]

namespace Fragment

/-- The labels of a fragment, wherever they are declared or used. -/
def labels (f : Fragment) : List LabelId :=
  (f.insns.flatMap fun insn => insn.label?.toList ++ insn.labelRefs)
    ++ f.blocks.flatMap TryBlock.labels

/-- Is every label of the fragment declared in it, exactly once? -/
def Closed (f : Fragment) : Prop :=
  ∀ id ∈ f.labels, (declaredLabels f.insns).count id = 1

instance (f : Fragment) : Decidable f.Closed :=
  inferInstanceAs (Decidable (∀ id ∈ f.labels, (declaredLabels f.insns).count id = 1))

theorem mem_labels_of_declared {f : Fragment} {id : LabelId} (h : id ∈ declaredLabels f.insns) :
    id ∈ f.labels := by
  refine List.mem_append_left _ (List.mem_flatMap.mpr ⟨_, mem_declaredLabels.mp h, ?_⟩)
  exact List.mem_append_left _ (by simp [Insn.label?])

theorem Closed.nodup {f : Fragment} (h : f.Closed) : (declaredLabels f.insns).Nodup :=
  List.nodup_iff_count_eq_one.mpr fun id hid => h id (mem_labels_of_declared hid)

theorem Closed.declared {f : Fragment} (h : f.Closed) {id : LabelId} (hid : id ∈ f.labels) :
    id ∈ declaredLabels f.insns :=
  List.count_pos_iff.mp (by rw [h id hid]; exact Nat.one_pos)

theorem declaredLabels_shift (offset : Nat) (f : Fragment) :
    declaredLabels (f.shift offset).insns = (declaredLabels f.insns).map (· + offset) := by
  unfold declaredLabels shift
  rw [List.filterMap_map, List.map_filterMap]
  exact congrArg (List.filterMap · f.insns) (funext (Insn.label?_mapLabels _))

theorem labels_shift (offset : Nat) (f : Fragment) :
    (f.shift offset).labels = f.labels.map (· + offset) := by
  unfold labels shift
  simp only [List.flatMap_map, List.map_append, List.map_flatMap]
  congr 2
  funext insn
  rw [Insn.label?_mapLabels, Insn.labelRefs_mapLabels]
  cases insn.label? <;> rfl

theorem lt_labelBound {f : Fragment} {id : LabelId} (h : id ∈ declaredLabels f.insns) :
    id < f.labelBound := by
  -- the bound only grows, and is above a label once it was met
  have hgrows : ∀ (ids : List Nat) (bound : Nat),
      bound ≤ ids.foldl (fun bound id => max bound (id + 1)) bound
        ∧ ∀ id ∈ ids, id < ids.foldl (fun bound id => max bound (id + 1)) bound := by
    intro ids
    induction ids with
    | nil => exact fun bound => ⟨Nat.le_refl _, nofun⟩
    | cons first ids ih =>
        intro bound
        obtain ⟨hle, hall⟩ := ih (max bound (first + 1))
        simp only [List.foldl_cons]
        refine ⟨by omega, fun id hid => ?_⟩
        rcases List.mem_cons.mp hid with rfl | hid
        · omega
        · exact hall id hid
  exact (hgrows _ 0).2 id h

end Fragment

/-! ## Entries -/

namespace LoweringContext

variable {ctx : LoweringContext}

theorem compileExpression_ok {text : String} {position : Position} {f : Fragment}
    (h : ctx.compileExpression text position = .ok f) :
    ∃ classes compile, ctx.helpers.classes = some classes
      ∧ ctx.helpers.expressions = some compile
      ∧ compile text (ctx.expressionContext classes) = .ok f := by
  unfold compileExpression at h
  split at h
  · cases h
  · cases h
  · rename_i classes compile hclasses hcompile
    split at h
    · rename_i f' hf
      cases h
      exact ⟨classes, compile, hclasses, hcompile, hf⟩
    · cases h

/-- An instruction refers to the labels of the names that it was written with. -/
theorem labelRefs_lower {position : Position} {op : Operation} {insn : Insn}
    (h : ctx.lower position op = .ok insn) :
    insn.label? = none
      ∧ List.Forall₂ (fun name id => ctx.labels.lookup name = some id)
          op.labelRefs insn.labelRefs := by
  have hone : ∀ {name id}, ctx.label name position = .ok id →
      List.Forall₂ (fun name id => ctx.labels.lookup name = some id) [name] [id] :=
    fun hid => .cons (label_ok.mp hid) .nil
  have hmany : ∀ {α : Type} {xs : List α} {ids : List LabelId} (name : α → String),
      xs.mapM (fun x => ctx.label (name x) position) = .ok ids →
      List.Forall₂ (fun name id => ctx.labels.lookup name = some id) (xs.map name) ids := by
    intro α xs ids name hids
    rw [List.forall₂_map_left_iff]
    exact (forall₂_of_mapM_ok hids).imp fun _ _ hid => label_ok.mp hid
  cases op with
  | jump o label =>
      obtain ⟨id, hid, h⟩ := except_bind_eq_ok.mp h
      cases h
      exact ⟨rfl, hone hid⟩
  | line label number =>
      obtain ⟨id, hid, h⟩ := except_bind_eq_ok.mp h
      cases h
      exact ⟨rfl, hone hid⟩
  | lookupSwitch cases default =>
      obtain ⟨ids, hids, h⟩ := except_bind_eq_ok.mp h
      obtain ⟨id, hid, h⟩ := except_bind_eq_ok.mp h
      cases h
      exact ⟨rfl, List.rel_append (hmany SwitchCase.label hids) (hone hid)⟩
  | tableSwitch min max labels default =>
      obtain ⟨ids, hids, h⟩ := except_bind_eq_ok.mp h
      obtain ⟨id, hid, h⟩ := except_bind_eq_ok.mp h
      cases h
      have htargets := hmany (fun name => name) hids
      rw [List.map_id'] at htargets
      exact ⟨rfl, List.rel_append htargets (hone hid)⟩
  | newArray t =>
      simp only [lower] at h
      split at h
      · cases h
        exact ⟨rfl, .nil⟩
      · cases h
  | var o name =>
      obtain ⟨s, -, h⟩ := except_bind_eq_ok.mp h
      cases h
      exact ⟨rfl, .nil⟩
  | iinc name increment =>
      obtain ⟨s, -, h⟩ := except_bind_eq_ok.mp h
      cases h
      exact ⟨rfl, .nil⟩
  | _ =>
      cases h
      exact ⟨rfl, .nil⟩

end LoweringContext

/-! ## Bodies by parts -/

/-- What the entries of a body become, one after the other. -/
inductive Parts (ctx : LoweringContext) : Nat → Code → List Fragment → Prop
  | nil (free : Nat) : Parts ctx free [] []
  | cons {free free' : Nat} {e : Entry} {rest : Code} {own : Fragment} {parts : List Fragment} :
      ctx.lowerEntry free e = .ok (own, free') → Parts ctx free' rest parts →
      Parts ctx free (e :: rest) (own :: parts)

/-- Parts in a row, the first of which has an index. -/
def Lowered.ofParts : Nat → List Fragment → Lowered
  | _, [] => ⟨[], []⟩
  | index, own :: parts =>
    let others := ofParts (index + 1) parts
    ⟨own.insns.map ((·, index)) ++ others.insns, own.blocks ++ others.blocks⟩

theorem parts_of_lowerEntries {ctx : LoweringContext} : ∀ {code : Code} {index free : Nat}
    {low : Lowered}, ctx.lowerEntries index free code = .ok low →
    ∃ parts, Parts ctx free code parts ∧ low = .ofParts index parts
  | [], _, free, _, h => by
      cases h
      exact ⟨[], .nil free, rfl⟩
  | e :: rest, _, _, _, h => by
      obtain ⟨own, free', others, hown, hothers, rfl⟩ := LoweringContext.lowerEntries_cons_ok h
      obtain ⟨parts, hparts, rfl⟩ := parts_of_lowerEntries hothers
      exact ⟨own :: parts, .cons hown hparts, rfl⟩

theorem Parts.forall₂ {ctx : LoweringContext} {free : Nat} {code : Code} {parts : List Fragment}
    (h : Parts ctx free code parts) :
    List.Forall₂ (fun e own => ∃ free free', ctx.lowerEntry free e = .ok (own, free'))
      code parts := by
  induction h with
  | nil => exact .nil
  | cons hown _ ih => exact .cons ⟨_, _, hown⟩ ih

theorem map_fst_ofParts : ∀ (parts : List Fragment) (index : Nat),
    (Lowered.ofParts index parts).insns.map (·.1) = parts.flatMap (·.insns)
  | [], _ => rfl
  | own :: parts, index => by
      have hown : (own.insns.map ((·, index))).map (·.1) = own.insns := by
        rw [List.map_map]
        exact List.map_id _
      rw [Lowered.ofParts, List.map_append, hown, map_fst_ofParts parts, List.flatMap_cons]

theorem blocks_ofParts : ∀ (parts : List Fragment) (index : Nat),
    (Lowered.ofParts index parts).blocks = parts.flatMap (·.blocks)
  | [], _ => rfl
  | own :: parts, index => by
      rw [Lowered.ofParts, List.flatMap_cons, blocks_ofParts parts]

theorem le_of_mem_ofParts : ∀ {parts : List Fragment} {index : Nat} {p : Insn × Nat},
    p ∈ (Lowered.ofParts index parts).insns → index ≤ p.2
  | [], _, _, hp => by cases hp
  | own :: parts, index, p, hp => by
      rcases List.mem_append.mp hp with hp | hp
      · obtain ⟨insn, -, rfl⟩ := List.mem_map.mp hp
        exact Nat.le_refl _
      · exact Nat.le_of_succ_le (le_of_mem_ofParts hp)

/-- The instructions of a part stand together, and only they have its index. -/
theorem ofParts_split : ∀ {parts : List Fragment} {i : Nat} {own : Fragment} (index : Nat),
    parts[i]? = some own →
    ∃ before after, (Lowered.ofParts index parts).insns =
        before ++ own.insns.map ((·, index + i)) ++ after
      ∧ (∀ p ∈ before, p.2 < index + i) ∧ ∀ p ∈ after, index + i < p.2
  | [], _, _, _, h => by cases h
  | first :: parts, 0, own, index, h => by
      cases h
      exact ⟨[], _, rfl, fun p hp => absurd hp List.not_mem_nil, fun p hp => le_of_mem_ofParts hp⟩
  | first :: parts, i + 1, own, index, h => by
      have h : parts[i]? = some own := h
      obtain ⟨before, after, hinsns, hbefore, hafter⟩ := ofParts_split (index + 1) h
      rw [Nat.add_assoc, Nat.add_comm 1] at hinsns hbefore hafter
      refine ⟨first.insns.map ((·, index)) ++ before, after, ?_, ?_, hafter⟩
      · simp only [Lowered.ofParts, hinsns, List.append_assoc]
      · intro p hp
        rcases List.mem_append.mp hp with hp | hp
        · obtain ⟨insn, -, rfl⟩ := List.mem_map.mp hp
          exact Nat.lt_add_of_pos_right (Nat.succ_pos i)
        · exact hbefore p hp

/-- Where an index stands that is above all before it and below all after it. -/
theorem getElem?_between {before after : List Nat} {i : Nat} (hbefore : ∀ x ∈ before, x < i)
    (hafter : ∀ x ∈ after, i < x) (n k : Nat) :
    (before ++ List.replicate n i ++ after)[k]? = some i ↔
      before.length ≤ k ∧ k < before.length + n := by
  rw [List.append_assoc]
  rcases Nat.lt_or_ge k before.length with hk | hk
  · rw [List.getElem?_append_left hk]
    refine iff_of_false (fun h => ?_) (by omega)
    exact Nat.lt_irrefl i (hbefore i (List.mem_of_getElem? h))
  · rw [List.getElem?_append_right hk]
    rcases Nat.lt_or_ge k (before.length + n) with hn | hn
    · rw [List.getElem?_append_left (by simp; omega), List.getElem?_replicate,
        if_pos (by omega)]
      exact iff_of_true rfl ⟨hk, hn⟩
    · rw [List.getElem?_append_right (by simp; omega)]
      refine iff_of_false (fun h => ?_) (by omega)
      exact Nat.lt_irrefl i (hafter i (List.mem_of_getElem? h))

/-! ## No label twice -/

section

variable {ctx : LoweringContext}
  (hclosed : ∀ text position f, ctx.compileExpression text position = .ok f → f.Closed)
include hclosed

/-- An entry declares its own label, or labels that were free. -/
theorem declared_of_lowerEntry {names : List String} (hlabels : ctx.labels = names.zipIdx)
    {free free' : Nat} {e : Entry} {own : Fragment} (h : ctx.lowerEntry free e = .ok (own, free')) :
    free ≤ free' ∧ (declaredLabels own.insns).Nodup
      ∧ ∀ id ∈ declaredLabels own.insns, (free ≤ id ∧ id < free')
        ∨ ∃ name, e.value.label? = some name ∧ names[id]? = some name := by
  have hown := LoweringContext.lowerEntry_ok h
  cases hv : e.value with
  | label name =>
      rw [hv] at hown
      obtain ⟨id, hid, rfl, rfl⟩ := hown
      refine ⟨Nat.le_refl _, List.nodup_singleton id, fun id' hid' => Or.inr ?_⟩
      cases List.mem_singleton.mp hid'
      exact ⟨name, rfl, getElem?_of_lookup_zipIdx (hlabels ▸ hid)⟩
  | operation op =>
      rw [hv] at hown
      obtain ⟨insn, hinsn, rfl, rfl⟩ := hown
      have hnone : declaredLabels [insn] = [] := by
        simp [declaredLabels, (LoweringContext.labelRefs_lower hinsn).1]
      rw [hnone]
      exact ⟨Nat.le_refl _, List.nodup_nil, nofun⟩
  | expression text =>
      rw [hv] at hown
      obtain ⟨f, hf, rfl, rfl⟩ := hown
      rw [Fragment.declaredLabels_shift]
      refine ⟨Nat.le_add_right .., ?_, ?_⟩
      · exact (hclosed _ _ _ hf).nodup.map fun _ _ => Nat.add_right_cancel
      · intro id hid
        obtain ⟨k, hk, rfl⟩ := List.mem_map.mp hid
        refine Or.inl ⟨Nat.le_add_left .., ?_⟩
        rw [Nat.add_comm free]
        exact Nat.add_lt_add_right (Fragment.lt_labelBound hk) free
  | _ =>
      rw [hv] at hown
      obtain ⟨rfl, rfl⟩ := hown
      exact ⟨Nat.le_refl _, List.nodup_nil, nofun⟩

/-- Labels stay apart: those with names are below all that are free, and every entry
takes what is free before it and leaves what is free after it. -/
theorem Parts.nodup {names : List String} (hlabels : ctx.labels = names.zipIdx) {free : Nat}
    {code : Code} {parts : List Fragment} (h : Parts ctx free code parts)
    (hfree : names.length ≤ free) (hnodup : code.labelNames.Nodup) :
    (parts.flatMap fun own => declaredLabels own.insns).Nodup
      ∧ ∀ id ∈ parts.flatMap fun own => declaredLabels own.insns,
          free ≤ id ∨ ∃ name ∈ code.labelNames, names[id]? = some name := by
  induction h with
  | nil => exact ⟨List.nodup_nil, nofun⟩
  | @cons free free' e rest own parts hown _ ih =>
      obtain ⟨hle, hown, hwhere⟩ := declared_of_lowerEntry hclosed hlabels hown
      have hnames : Code.labelNames (e :: rest) = e.value.label?.toList
          ++ Code.labelNames rest := by
        unfold Code.labelNames
        cases hv : e.value.label? <;> simp [hv]
      rw [hnames] at hnodup ⊢
      obtain ⟨hothers, hothersWhere⟩ := ih (Nat.le_trans hfree hle) hnodup.of_append_right
      have hnamed : ∀ {id name}, names[id]? = some name → id < free := fun h =>
        Nat.lt_of_lt_of_le (List.getElem?_eq_some_iff.mp h).1 hfree
      rw [List.flatMap_cons]
      refine ⟨List.Nodup.append hown hothers ?_, ?_⟩
      · intro id hid hid'
        rcases hwhere id hid with ⟨hlow, hhigh⟩ | ⟨name, hname, hat⟩
        · rcases hothersWhere id hid' with hfar | ⟨other, -, hother⟩
          · exact Nat.not_le_of_lt hhigh hfar
          · exact Nat.not_le_of_lt (hnamed hother) hlow
        · rcases hothersWhere id hid' with hfar | ⟨other, hmem, hother⟩
          · exact Nat.not_le_of_lt (hnamed hat) (Nat.le_trans hle hfar)
          · cases hat.symm.trans hother
            rw [hname] at hnodup
            exact (List.nodup_cons.mp hnodup).1 hmem
      · intro id hid
        rcases List.mem_append.mp hid with hid | hid
        · rcases hwhere id hid with ⟨hlow, -⟩ | ⟨name, hname, hat⟩
          · exact Or.inl hlow
          · exact Or.inr ⟨name, List.mem_append_left _ (by simp [hname]), hat⟩
        · rcases hothersWhere id hid with hfar | ⟨name, hmem, hat⟩
          · exact Or.inl (Nat.le_trans hle hfar)
          · exact Or.inr ⟨name, List.mem_append_right _ hmem, hat⟩

/-- A label that an entry uses is one of its own, or has a name. -/
theorem used_of_lowerEntry {free free' : Nat} {e : Entry} {own : Fragment}
    (h : ctx.lowerEntry free e = .ok (own, free')) {id : LabelId} (hid : id ∈ own.labels) :
    id ∈ declaredLabels own.insns ∨ ∃ name, ctx.labels.lookup name = some id := by
  have hown := LoweringContext.lowerEntry_ok h
  cases hv : e.value with
  | label name =>
      rw [hv] at hown
      obtain ⟨id', -, rfl, rfl⟩ := hown
      exact Or.inl (by simpa [Fragment.labels, Insn.labelRefs, declaredLabels] using hid)
  | operation op =>
      rw [hv] at hown
      obtain ⟨insn, hinsn, rfl, rfl⟩ := hown
      obtain ⟨hnone, hrefs⟩ := LoweringContext.labelRefs_lower hinsn
      have hid : id ∈ insn.labelRefs := by simpa [Fragment.labels, hnone] using hid
      obtain ⟨name, -, hname⟩ := exists_left_of_forall₂ hrefs hid
      exact Or.inr ⟨name, hname⟩
  | expression text =>
      rw [hv] at hown
      obtain ⟨f, hf, rfl, rfl⟩ := hown
      rw [Fragment.labels_shift] at hid
      obtain ⟨k, hk, rfl⟩ := List.mem_map.mp hid
      rw [Fragment.declaredLabels_shift]
      exact Or.inl (List.mem_map_of_mem ((hclosed _ _ _ hf).declared hk))
  | _ =>
      rw [hv] at hown
      obtain ⟨rfl, rfl⟩ := hown
      cases hid

end

/-! ## Assembled methods -/

/-- The exception handlers that a body lists. -/
def Code.guards (code : Code) : List Statement :=
  (code.map (·.value)).filter fun s =>
    match s with
    | .tryCatch .. => true
    | _ => false

/-- Is the stored handler the one that an entry lists, if `R` says which labels its
names stand for? -/
def TryBlock.Guards (R : String → LabelId → Prop) (b : TryBlock) : Statement → Prop
  | .tryCatch start stop handler caught =>
    R start b.start ∧ R stop b.stop ∧ R handler b.handler ∧ b.caught = caught
  | _ => False

namespace AssembledMethod

/-- Are these the instructions of the entry at `i`, from the position `first` on? -/
structure PlacedAt (a : AssembledMethod) (i first : Nat) (insns : List Insn) : Prop where
  here : ∀ j insn, insns[j]? = some insn → a.method.insns[first + j]? = some insn
  origin : ∀ k, a.origins[k]? = some i ↔ first ≤ k ∧ k < first + insns.length

/-- Is a label the one that a name of the listing stands for?  It is declared by the
instruction made from the entry that declares the name. -/
def Resolves (a : AssembledMethod) (name : String) (id : LabelId) : Prop :=
  ∃ k e, a.method.labelPosition? id = some k ∧ a.sourceOf? k = some e ∧ e.value = .label name

/-- Is the fragment, with its labels moved up, what the entry at `i` became?  Every
label of it is declared at the place that the fragment has it. -/
def Embeds (a : AssembledMethod) (i : Nat) (f : Fragment) : Prop :=
  ∃ offset first, a.PlacedAt i first (f.shift offset).insns
    ∧ (f.shift offset).blocks <:+: a.method.blocks
    ∧ ∀ id ∈ f.labels, ∃ j, f.insns[j]? = some (.label id)
        ∧ a.method.labelPosition? (id + offset) = some (first + j)

/-- Is the entry at `i` turned into instructions whose labels are the right ones? -/
def Becomes (a : AssembledMethod) (helpers : Helpers) (i : Nat) : Statement → Prop
  | .label name => ∃ first id, a.PlacedAt i first [.label id] ∧ a.Resolves name id
  | .operation op =>
    ∃ first insn, a.PlacedAt i first [insn] ∧ List.Forall₂ a.Resolves op.labelRefs insn.labelRefs
  | .expression text =>
    ∃ compile told f, helpers.expressions = some compile ∧ compile text told = .ok f
      ∧ a.Embeds i f
  | _ => ∃ first, a.PlacedAt i first []

end AssembledMethod

/-- How an assembled method is put together from what its entries become. -/
structure Composed (helpers : Helpers) (l : Listing) (a : AssembledMethod) (ctx : LoweringContext)
    (parts : List Fragment) (handlers : List TryBlock) : Prop where
  helpers_eq : ctx.helpers = helpers
  nodup_names : l.body.labelNames.Nodup
  labels : ctx.labels = l.body.labelNames.zipIdx
  lowered : Parts ctx l.body.labelNames.length l.body parts
  code : a.code = l.body
  insns : a.method.insns = (Lowered.ofParts 0 parts).insns.map (·.1)
  origins : a.origins = (Lowered.ofParts 0 parts).insns.map (·.2)
  guarded : ctx.handlers l.body = .ok handlers
  blocks : a.method.blocks = handlers ++ parts.flatMap (·.blocks)
  locals : a.method.locals = [] ∨ ctx.localTable l.body = .ok a.method.locals

theorem Assembled.composed {options : AssemblyOptions} {helpers : Helpers} {l : Listing}
    {a : AssembledMethod} {ctx : LoweringContext} {low : Lowered}
    (ha : Assembled options helpers l a ctx low) :
    ∃ parts handlers, Composed helpers l a ctx parts handlers := by
  obtain ⟨hnodup, hlabels⟩ := labelIds_ok ha.labels
  obtain ⟨parts, hparts, rfl⟩ := parts_of_lowerEntries ha.lowered
  obtain ⟨handlers, hhandlers, -, horigins, hinsns, hblocks, -⟩ := LoweringContext.build_ok ha.built
  obtain ⟨hcode, -, hlocals⟩ := LoweringContext.build_adds ha.built
  rw [hlabels, List.length_zipIdx] at hparts
  rw [blocks_ofParts] at hblocks
  exact ⟨parts, handlers, ha.helpers_eq, hnodup, hlabels, hparts, hcode, hinsns, horigins,
    hhandlers, hblocks, hlocals⟩

theorem composed_of_ok {options : AssemblyOptions} {helpers : Helpers} {l : Listing}
    {a : AssembledMethod} (h : assembleMethod options helpers l = .ok a) :
    ∃ ctx parts handlers, Composed helpers l a ctx parts handlers := by
  obtain ⟨ctx, low, ha⟩ := assembled_of_ok h
  exact ⟨ctx, ha.composed⟩

theorem handlers_ok {ctx : LoweringContext} : ∀ {code : Code} {blocks : List TryBlock},
    ctx.handlers code = .ok blocks →
    List.Forall₂ (fun s b => TryBlock.Guards (fun name id => ctx.labels.lookup name = some id) b s)
      code.guards blocks
  | [], _, h => by
      cases h
      exact .nil
  | e :: rest, blocks, h => by
      rw [LoweringContext.handlers] at h
      unfold Code.guards
      rw [List.map_cons]
      cases hv : e.value with
      | tryCatch start stop handler caught =>
          rw [hv] at h
          obtain ⟨start', hstart, h⟩ := except_bind_eq_ok.mp h
          obtain ⟨stop', hstop, h⟩ := except_bind_eq_ok.mp h
          obtain ⟨handler', hhandler, h⟩ := except_bind_eq_ok.mp h
          obtain ⟨others, hothers, h⟩ := except_bind_eq_ok.mp h
          cases h
          rw [List.filter_cons_of_pos rfl]
          exact .cons ⟨label_ok.mp hstart, label_ok.mp hstop, label_ok.mp hhandler, rfl⟩
            (handlers_ok hothers)
      | _ =>
          rw [hv] at h
          rw [List.filter_cons_of_neg (by simp)]
          exact handlers_ok h

namespace Composed

variable {helpers : Helpers} {l : Listing} {a : AssembledMethod} {ctx : LoweringContext}
  {parts : List Fragment} {handlers : List TryBlock}
  (h : Composed helpers l a ctx parts handlers)
include h

theorem declaredLabels_eq :
    declaredLabels a.method.insns = parts.flatMap fun own => declaredLabels own.insns := by
  rw [h.insns, map_fst_ofParts, declaredLabels, List.filterMap_flatMap]
  rfl

/-- The instructions of an entry are where its part is. -/
theorem placedAt {i : Nat} {own : Fragment} (hi : parts[i]? = some own) :
    ∃ first, a.PlacedAt i first own.insns := by
  obtain ⟨before, after, hsplit, hbefore, hafter⟩ := ofParts_split 0 hi
  rw [Nat.zero_add] at hsplit hbefore hafter
  refine ⟨before.length, ⟨fun j insn hj => ?_, fun k => ?_⟩⟩
  · have hlt : j < own.insns.length := (List.getElem?_eq_some_iff.mp hj).1
    rw [h.insns, hsplit, List.append_assoc, List.getElem?_map,
      List.getElem?_append_right (Nat.le_add_right ..), Nat.add_sub_cancel_left,
      List.getElem?_append_left (by simpa using hlt), List.getElem?_map, hj]
    rfl
  · have horigins : a.origins =
        before.map (·.2) ++ List.replicate own.insns.length i ++ after.map (·.2) := by
      rw [h.origins, hsplit, List.map_append, List.map_append, List.map_map]
      congr 2
      exact List.map_const' ..
    rw [horigins, getElem?_between (List.forall_mem_map.mpr hbefore)
      (List.forall_mem_map.mpr hafter), List.length_map]

theorem exists_part {i : Nat} {e : Entry} (hi : l.body[i]? = some e) :
    ∃ own, parts[i]? = some own ∧ ∃ free free', ctx.lowerEntry free e = .ok (own, free') := by
  obtain ⟨hlt, rfl⟩ := List.getElem?_eq_some_iff.mp hi
  have hforall := h.lowered.forall₂
  have hlt' : i < parts.length := hforall.length_eq ▸ hlt
  exact ⟨parts[i], List.getElem?_eq_getElem hlt', hforall.get hlt hlt'⟩

theorem mem_labelNames {name : String} {id : LabelId} (hid : ctx.labels.lookup name = some id) :
    name ∈ l.body.labelNames := by
  rw [h.labels] at hid
  exact List.mem_of_getElem? (getElem?_of_lookup_zipIdx hid)

/-- A name that has a number stands for the label with that number. -/
theorem resolves (hnodup : (declaredLabels a.method.insns).Nodup) {name : String} {id : LabelId}
    (hid : ctx.labels.lookup name = some id) : a.Resolves name id := by
  obtain ⟨e, hmem, he⟩ := List.mem_filterMap.mp (h.mem_labelNames hid)
  have he : e.value = .label name := by
    cases hv : e.value with
    | label name' =>
        rw [hv] at he
        cases he
        rfl
    | _ =>
        rw [hv] at he
        cases he
  obtain ⟨i, hi⟩ := List.mem_iff_getElem?.mp hmem
  obtain ⟨own, hown, free, free', hlower⟩ := h.exists_part hi
  have hpart := LoweringContext.lowerEntry_ok hlower
  rw [he] at hpart
  obtain ⟨id', hid', rfl, -⟩ := hpart
  cases hid.symm.trans hid'
  obtain ⟨first, hfirst⟩ := h.placedAt hown
  refine ⟨first, e, labelPosition?_of_nodup hnodup (hfirst.here 0 _ rfl), ?_, he⟩
  have horigin : a.origins[first]? = some i :=
    (hfirst.origin first).mpr ⟨Nat.le_refl _, Nat.lt_succ_self _⟩
  rw [AssembledMethod.sourceOf?, horigin, h.code]
  exact hi

/-- Every entry names labels that are declared. -/
theorem names_declared {e : Entry} (he : e ∈ l.body) {name : String}
    (hname : name ∈ e.value.labelRefs) : name ∈ l.body.labelNames := by
  cases hv : e.value with
  | operation op =>
      rw [hv] at hname
      obtain ⟨own, -, free, free', hlower⟩ := exists_right_of_forall₂ h.lowered.forall₂ he
      have hpart := LoweringContext.lowerEntry_ok hlower
      rw [hv] at hpart
      obtain ⟨insn, hinsn, -⟩ := hpart
      obtain ⟨id, -, hid⟩ :=
        exists_right_of_forall₂ (LoweringContext.labelRefs_lower hinsn).2 hname
      exact h.mem_labelNames hid
  | tryCatch start stop handler caught =>
      rw [hv] at hname
      have hguard : e.value ∈ l.body.guards :=
        List.mem_filter.mpr ⟨List.mem_map_of_mem he, by rw [hv]⟩
      obtain ⟨b, -, hb⟩ := exists_right_of_forall₂ (handlers_ok h.guarded) hguard
      rw [hv] at hb
      obtain ⟨hstart, hstop, hhandler, -⟩ := hb
      simp only [Statement.labelRefs, List.mem_cons, List.not_mem_nil, or_false] at hname
      rcases hname with rfl | rfl | rfl
      · exact h.mem_labelNames hstart
      · exact h.mem_labelNames hstop
      · exact h.mem_labelNames hhandler
  | _ =>
      rw [hv] at hname
      cases hname

section

variable (hclosed : ∀ text position f, ctx.compileExpression text position = .ok f → f.Closed)
include hclosed

theorem nodup : (declaredLabels a.method.insns).Nodup := by
  rw [h.declaredLabels_eq]
  exact (h.lowered.nodup hclosed h.labels (Nat.le_refl _) h.nodup_names).1

theorem declared_of_name {name : String} {id : LabelId} (hid : ctx.labels.lookup name = some id) :
    id ∈ declaredLabels a.method.insns := by
  obtain ⟨k, -, hk, -⟩ := h.resolves (h.nodup hclosed) hid
  exact declared_of_labelPosition? hk

/-- The labels that an entry becomes are declared. -/
theorem declared_of_part {own : Fragment} (hown : own ∈ parts) {id : LabelId}
    (hid : id ∈ own.labels) : id ∈ declaredLabels a.method.insns := by
  obtain ⟨e, -, free, free', hlower⟩ := exists_left_of_forall₂ h.lowered.forall₂ hown
  rcases used_of_lowerEntry hclosed hlower hid with hid | ⟨name, hid⟩
  · rw [h.declaredLabels_eq]
    exact List.mem_flatMap.mpr ⟨own, hown, hid⟩
  · exact h.declared_of_name hclosed hid

/-- All labels of the method are declared. -/
theorem declared_of_mem {id : LabelId} (hid : id ∈ a.method.allLabels) :
    id ∈ declaredLabels a.method.insns := by
  rcases List.mem_append.mp hid with hid | hid
  · rcases List.mem_append.mp hid with hid | hid
    · obtain ⟨insn, hinsn, hid⟩ := List.mem_flatMap.mp hid
      rw [h.insns, map_fst_ofParts] at hinsn
      obtain ⟨own, hown, hinsn⟩ := List.mem_flatMap.mp hinsn
      refine h.declared_of_part hclosed hown (List.mem_append_left _ ?_)
      exact List.mem_flatMap.mpr ⟨insn, hinsn, hid⟩
    · obtain ⟨b, hb, hid⟩ := List.mem_flatMap.mp hid
      rw [h.blocks] at hb
      rcases List.mem_append.mp hb with hb | hb
      · obtain ⟨s, -, hs⟩ := exists_left_of_forall₂ (handlers_ok h.guarded) hb
        cases s with
        | tryCatch start stop handler caught =>
            obtain ⟨hstart, hstop, hhandler, -⟩ := hs
            simp only [TryBlock.labels, List.mem_cons, List.not_mem_nil, or_false] at hid
            rcases hid with rfl | rfl | rfl
            · exact h.declared_of_name hclosed hstart
            · exact h.declared_of_name hclosed hstop
            · exact h.declared_of_name hclosed hhandler
        | _ => exact hs.elim
      · obtain ⟨own, hown, hb⟩ := List.mem_flatMap.mp hb
        refine h.declared_of_part hclosed hown (List.mem_append_right _ ?_)
        exact List.mem_flatMap.mpr ⟨b, hb, hid⟩
  · obtain ⟨v, hv, hid⟩ := List.mem_flatMap.mp hid
    rcases h.locals with hnone | htable
    · rw [hnone] at hv
      cases hv
    · obtain ⟨info, -, whole, hentry⟩ := LoweringContext.localTable_ok htable hv
      obtain ⟨-, -, -, start, stop, -, hstart, hstop⟩ := LoweringContext.localEntry_ok hentry
      simp only [LocalVariable.labels, List.mem_cons, List.not_mem_nil, or_false] at hid
      rcases hid with rfl | rfl
      · exact h.declared_of_name hclosed hstart
      · exact h.declared_of_name hclosed hstop

/-- The fragment of an expression is found as it is, with its labels moved up. -/
theorem embeds {i : Nat} {free : Nat} {f : Fragment} (hf : f.Closed)
    (hi : parts[i]? = some (f.shift free)) : a.Embeds i f := by
  obtain ⟨first, hfirst⟩ := h.placedAt hi
  refine ⟨free, first, hfirst, ?_, fun id hid => ?_⟩
  · have hmem : (f.shift free).blocks ∈ parts.map (·.blocks) :=
      List.mem_map_of_mem (List.mem_of_getElem? hi)
    rw [h.blocks, List.flatMap_def]
    exact (List.infix_of_mem_flatten hmem).trans (List.suffix_append ..).isInfix
  · obtain ⟨j, hj⟩ := List.mem_iff_getElem?.mp (mem_declaredLabels.mp (hf.declared hid))
    refine ⟨j, hj, labelPosition?_of_nodup (h.nodup hclosed) (hfirst.here j _ ?_)⟩
    rw [Fragment.shift, List.getElem?_map, hj]
    rfl

/-- Every entry is turned into instructions whose labels are the right ones. -/
theorem becomes {i : Nat} {e : Entry} (hi : l.body[i]? = some e) :
    a.Becomes helpers i e.value := by
  obtain ⟨own, hown, free, free', hlower⟩ := h.exists_part hi
  have hpart := LoweringContext.lowerEntry_ok hlower
  have hnodup := h.nodup hclosed
  cases hv : e.value with
  | label name =>
      rw [hv] at hpart
      obtain ⟨id, hid, rfl, -⟩ := hpart
      obtain ⟨first, hfirst⟩ := h.placedAt hown
      exact ⟨first, id, hfirst, h.resolves hnodup hid⟩
  | operation op =>
      rw [hv] at hpart
      obtain ⟨insn, hinsn, rfl, -⟩ := hpart
      obtain ⟨first, hfirst⟩ := h.placedAt hown
      exact ⟨first, insn, hfirst,
        (LoweringContext.labelRefs_lower hinsn).2.imp fun _ _ hid => h.resolves hnodup hid⟩
  | expression text =>
      rw [hv] at hpart
      obtain ⟨f, hf, rfl, -⟩ := hpart
      obtain ⟨classes, compile, -, hcompile, hok⟩ := LoweringContext.compileExpression_ok hf
      rw [h.helpers_eq] at hcompile
      exact ⟨compile, _, f, hcompile, hok, h.embeds hclosed (hclosed _ _ _ hf) hown⟩
  | _ =>
      rw [hv] at hpart
      obtain ⟨rfl, -⟩ := hpart
      exact h.placedAt hown

end

end Composed

/-- In an assembled method every label is declared once, and every reference finds
the declaration it is meant for: a name that of the entry, a label of a fragment the
one of the same occurrence.  A name that is declared twice, or used and not declared,
keeps a method from being assembled. -/
theorem assembleMethod_closed (options : AssemblyOptions) (helpers : Helpers) (l : Listing) :
    ((∀ compile, helpers.expressions = some compile →
        ∀ text told f, compile text told = .ok f → f.Closed) →
      ∀ a, assembleMethod options helpers l = .ok a →
        (declaredLabels a.method.insns).Nodup
        ∧ (∀ id ∈ a.method.allLabels, (declaredLabels a.method.insns).count id = 1)
        ∧ (∀ i e, l.body[i]? = some e → a.Becomes helpers i e.value)
        ∧ ∃ own embedded, a.method.blocks = own ++ embedded
          ∧ List.Forall₂ (fun s b => b.Guards a.Resolves s) l.body.guards own)
    ∧ (¬l.body.labelNames.Nodup
        ∨ (∃ e ∈ l.body, ∃ name ∈ e.value.labelRefs, name ∉ l.body.labelNames) →
      ∃ fault, assembleMethod options helpers l = .error fault) := by
  constructor
  · intro hclosed a ha
    obtain ⟨ctx, parts, handlers, h⟩ := composed_of_ok ha
    have hclosed : ∀ text position f, ctx.compileExpression text position = .ok f → f.Closed := by
      intro text position f hf
      obtain ⟨classes, compile, -, hcompile, hok⟩ := LoweringContext.compileExpression_ok hf
      exact hclosed compile (h.helpers_eq ▸ hcompile) _ _ _ hok
    have hnodup := h.nodup hclosed
    refine ⟨hnodup, fun id hid => ?_, fun i e hi => h.becomes hclosed hi,
      handlers, _, h.blocks, (handlers_ok h.guarded).imp fun s b hs => ?_⟩
    · exact List.count_eq_one_of_mem hnodup (h.declared_of_mem hclosed hid)
    · cases s with
      | tryCatch start stop handler caught =>
          obtain ⟨hstart, hstop, hhandler, hcaught⟩ := hs
          exact ⟨h.resolves hnodup hstart, h.resolves hnodup hstop, h.resolves hnodup hhandler,
            hcaught⟩
      | _ => exact hs.elim
  · intro hbad
    cases ha : assembleMethod options helpers l with
    | error fault => exact ⟨fault, rfl⟩
    | ok a =>
        obtain ⟨ctx, parts, handlers, h⟩ := composed_of_ok ha
        rcases hbad with hbad | ⟨e, he, name, hname, hbad⟩
        · exact absurd h.nodup_names hbad
        · exact absurd (h.names_declared he hname) hbad

/-- A loop with a handler, and labels in no order. -/
def spin : Fragment := ⟨[.label 5, .plain .nop, .jump .goto 5, .label 2], [⟨5, 2, 2, none⟩]⟩

/-- Every expression is a loop. -/
def spinning : Helpers where
  classes := some fun _ => none
  expressions := some fun _ _ => .ok spin

/-- A method with the same expression twice, and a jump to `target` after it. -/
def spinTwice (target : String) : Listing where
  definition := .method ⟨0x0008, "m", [⟨"I", "n", {}⟩], "V", {}, {}⟩
  code := some
    [⟨.label "A", {}⟩, ⟨.expression "spin()", {}⟩, ⟨.operation (.iinc "n" 1), {}⟩,
     ⟨.expression "spin()", {}⟩, ⟨.operation (.jump .goto target), {}⟩, ⟨.label "B", {}⟩,
     ⟨.tryCatch "A" "B" "B" none, {}⟩]

theorem assembleMethod_closed_spinTwice :
    (∃ a, assembleMethod {} spinning (spinTwice "A") = .ok a
      ∧ declaredLabels a.method.insns = [0, 7, 4, 13, 10, 1]
      ∧ (∀ id ∈ a.method.allLabels, (declaredLabels a.method.insns).count id = 1)
      ∧ a.Becomes spinning 1 (.expression "spin()") ∧ a.Becomes spinning 3 (.expression "spin()")
      ∧ a.Becomes spinning 4 (.operation (.jump .goto "A")))
    ∧ ∃ fault, assembleMethod {} spinning (spinTwice "C") = .error fault := by
  have hclosed : ∀ compile, spinning.expressions = some compile →
      ∀ text told f, compile text told = .ok f → f.Closed := by
    rintro _ ⟨⟩ text told f ⟨⟩
    decide
  constructor
  · have hlabels : (assembleMethod {} spinning (spinTwice "A")).toOption.map
        (fun a => declaredLabels a.method.insns) = some [0, 7, 4, 13, 10, 1] := by decide +kernel
    cases ha : assembleMethod {} spinning (spinTwice "A") with
    | error fault =>
        rw [ha] at hlabels
        cases hlabels
    | ok a =>
        rw [ha] at hlabels
        obtain ⟨-, hcount, hentries, -⟩ :=
          (assembleMethod_closed {} spinning (spinTwice "A")).1 hclosed a ha
        exact ⟨a, rfl, Option.some.inj hlabels, hcount, hentries 1 _ rfl, hentries 3 _ rfl,
          hentries 4 _ rfl⟩
  · refine (assembleMethod_closed {} spinning (spinTwice "C")).2 (Or.inr ?_)
    exact ⟨⟨.operation (.jump .goto "C"), {}⟩, by simp [spinTwice, Listing.body], "C",
      by simp [Statement.labelRefs, Operation.labelRefs], by decide⟩

end JvmListing
