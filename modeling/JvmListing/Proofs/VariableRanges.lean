/-
# Where variables are listed

The local variable table gives every named slot two labels.  With the nearest labels
these are looked up by the indices of entries in the body, which the slots collected
while they were allocated.  Here the same is said of the body and of the finished
method alone:

* the entries that refer to a slot are those whose name has the slot in the end
  (`SlotTable.referring`), in the order of the body;
* a slot that `this` or a parameter took is listed from the first label to the last,
  any other slot between the labels around all entries that refer to it (`ListedFrom`);
* instructions and labels stand in the finished method in the order of their entries
  (`Composed.lt_of_origin`), so the two labels enclose every instruction on the slot.

A slot that cannot be listed is the only reason for a fault in this stage.
-/
import JvmListing.Proofs.LabelClosure
import JvmListing.Proofs.SlotBinding
import JvmListing.Proofs.SlotNames
import Mathlib.Order.Bounds.Basic

namespace JvmListing

/-! ## Labels by entry -/

/-- What is collected along a list with its indices stands in the order of the indices. -/
theorem pairwise_filterMap_zipIdx {α β : Type} {f : α × Nat → Option β} {index : β → Nat}
    (h : ∀ a i b, f (a, i) = some b → index b = i) (l : List α) :
    (l.zipIdx.filterMap f).Pairwise (index · < index ·) := by
  refine List.pairwise_filterMap.mpr (List.pairwise_iff_getElem.mpr ?_)
  intro i j hi hj hij
  rw [List.getElem_zipIdx, List.getElem_zipIdx]
  intro b hb b' hb'
  rw [h _ _ b hb, h _ _ b' hb']
  omega

namespace Code

/-- The label that the entry with an index declares. -/
def labelAt? (code : Code) (i : Nat) : Option String := code[i]?.bind (·.value.label?)

/-- The entries that declare a label. -/
def labelled (code : Code) : Set Nat := {i | (code.labelAt? i).isSome}

/-- Is it the last label that is declared at or before an entry? -/
def LastLabel (code : Code) (entry : Nat) (name : String) : Prop :=
  ∃ i, IsGreatest {i ∈ code.labelled | i ≤ entry} i ∧ code.labelAt? i = some name

/-- Is it the first label that is declared at or after an entry? -/
def FirstLabel (code : Code) (entry : Nat) (name : String) : Prop :=
  ∃ i, IsLeast {i ∈ code.labelled | entry ≤ i} i ∧ code.labelAt? i = some name

variable {code : Code}

theorem mem_labelEntries {i : Nat} {name : String} :
    (i, name) ∈ labelEntries code ↔ code.labelAt? i = some name := by
  unfold labelEntries labelAt?
  simp only [List.mem_filterMap, List.mem_zipIdx_iff_getElem?, Option.map_eq_some_iff, Prod.exists,
    Option.bind_eq_some_iff, Prod.mk.injEq]
  constructor
  · rintro ⟨e, k, hk, name', hname, rfl, rfl⟩
    exact ⟨e, hk, hname⟩
  · rintro ⟨e, hi, hname⟩
    exact ⟨e, i, hi, name, hname, rfl, rfl⟩

theorem mem_labelled {i : Nat} : i ∈ code.labelled ↔ ∃ name, (i, name) ∈ labelEntries code := by
  show (code.labelAt? i).isSome ↔ _
  rw [Option.isSome_iff_exists]
  exact exists_congr fun name => mem_labelEntries.symm

theorem labelEntries_ordered (code : Code) : (labelEntries code).Pairwise (·.1 < ·.1) := by
  refine pairwise_filterMap_zipIdx (fun e i p hp => ?_) code
  obtain ⟨_, -, rfl⟩ := Option.map_eq_some_iff.mp hp
  rfl

theorem map_snd_labelEntries (code : Code) : (labelEntries code).map (·.2) = code.labelNames := by
  unfold labelEntries labelNames
  rw [List.map_filterMap]
  conv_rhs => rw [← List.zipIdx_map_fst 0 code, List.filterMap_map]
  refine congrArg (List.filterMap · code.zipIdx) (funext fun p => ?_)
  show Option.map _ (Option.map _ _) = _
  rw [Option.map_map]
  exact congrFun Option.map_id _

/-- In a list by ascending index the last one is the greatest. -/
theorem isGreatest_getLast {entries : List (Nat × String)} (h : entries.Pairwise (·.1 < ·.1))
    {p : Nat × String} (hp : entries.getLast? = some p) : ∀ q ∈ entries, q.1 ≤ p.1 := by
  obtain ⟨before, rfl⟩ := List.getLast?_eq_some_iff.mp hp
  intro q hq
  rcases List.mem_append.mp hq with hq | hq
  · exact Nat.le_of_lt ((List.pairwise_append.mp h).2.2 q hq p List.mem_cons_self)
  · rw [List.mem_singleton.mp hq]

theorem lastLabel_of_labelBefore? {entry : Nat} {name : String}
    (h : labelBefore? (labelEntries code) entry = some name) : code.LastLabel entry name := by
  obtain ⟨⟨i, _⟩, hlast, rfl⟩ := Option.map_eq_some_iff.mp h
  have hmem := List.mem_filter.mp (List.mem_of_getLast? hlast)
  have hordered := (labelEntries_ordered code).filter fun p : Nat × String => decide (p.1 ≤ entry)
  refine ⟨i, ⟨⟨mem_labelled.mpr ⟨_, hmem.1⟩, by simpa using hmem.2⟩, ?_⟩,
    mem_labelEntries.mp hmem.1⟩
  rintro j ⟨hj, hle⟩
  obtain ⟨other, hother⟩ := mem_labelled.mp hj
  exact isGreatest_getLast hordered hlast (j, other)
    (List.mem_filter.mpr ⟨hother, by simpa using hle⟩)

theorem labelBefore?_eq_none {entry : Nat} :
    labelBefore? (labelEntries code) entry = none ↔ ∀ i ≤ entry, i ∉ code.labelled := by
  unfold labelBefore?
  rw [Option.map_eq_none_iff, List.getLast?_eq_none_iff, List.filter_eq_nil_iff]
  constructor
  · intro h i hi hlabel
    obtain ⟨name, hname⟩ := mem_labelled.mp hlabel
    exact h (i, name) hname (by simpa using hi)
  · intro h p hp hle
    exact h p.1 (by simpa using hle) (mem_labelled.mpr ⟨p.2, hp⟩)

theorem firstLabel_of_labelAfter? {entry : Nat} {name : String}
    (h : labelAfter? (labelEntries code) entry = some name) : code.FirstLabel entry name := by
  obtain ⟨⟨i, _⟩, hfound, rfl⟩ := Option.map_eq_some_iff.mp h
  obtain ⟨hafter, before, later, hsplit, hearlier⟩ := List.find?_eq_some_iff_append.mp hfound
  have hmem : (i, _) ∈ labelEntries code := List.mem_of_find?_eq_some hfound
  refine ⟨i, ⟨⟨mem_labelled.mpr ⟨_, hmem⟩, by simpa using hafter⟩, ?_⟩, mem_labelEntries.mp hmem⟩
  rintro j ⟨hj, hle⟩
  obtain ⟨other, hother⟩ := mem_labelled.mp hj
  have hordered := labelEntries_ordered code
  rw [hsplit] at hother hordered
  rcases List.mem_append.mp hother with hother | hother
  · have := hearlier _ hother
    simp only [Bool.not_eq_true', decide_eq_false_iff_not] at this
    exact absurd hle this
  · rcases List.mem_cons.mp hother with heq | hother
    · cases heq
      exact Nat.le_refl _
    · exact Nat.le_of_lt ((List.pairwise_cons.mp (List.pairwise_append.mp hordered).2.1).1 _ hother)

theorem labelAfter?_eq_none {entry : Nat} :
    labelAfter? (labelEntries code) entry = none ↔ ∀ i ≥ entry, i ∉ code.labelled := by
  unfold labelAfter?
  rw [Option.map_eq_none_iff, List.find?_eq_none]
  constructor
  · intro h i hi hlabel
    obtain ⟨name, hname⟩ := mem_labelled.mp hlabel
    exact h (i, name) hname (by simpa using hi)
  · intro h p hp hle
    exact h p.1 (by simpa using hle) (mem_labelled.mpr ⟨p.2, hp⟩)

/-- Of names that are declared once, each is declared by one entry. -/
theorem labelAt?_inj (h : code.labelNames.Nodup) {i j : Nat} {name : String}
    (hi : code.labelAt? i = some name) (hj : code.labelAt? j = some name) : i = j := by
  rw [← map_snd_labelEntries] at h
  have hsame := List.inj_on_of_nodup_map h (mem_labelEntries.mpr hi) (mem_labelEntries.mpr hj) rfl
  exact congrArg Prod.fst hsame

end Code

/-! ## The entries that refer to a slot -/

namespace SlotTable

/-- The entries of a body that refer to a slot: those whose name has the slot. -/
def referring (t : SlotTable) (code : Code) (slot : Nat) : Set Nat :=
  {k | ∃ e r, code[k]? = some e ∧ e.value.operation?.bind Operation.varRef? = some r
    ∧ t.slotOf? r.name = some slot}

/-- The sources of a slot, none if it is not in use. -/
def sourcesOf (t : SlotTable) (slot : Nat) : List VarSource :=
  ((t.info? slot).map (·.sources)).getD []

theorem sourcesOf_of_info? {t : SlotTable} {s : Nat} {info : VarInfo} (h : t.info? s = some info) :
    t.sourcesOf s = info.sources := by
  rw [sourcesOf, h]
  rfl

theorem sourcesOf_record (t : SlotTable) (slot : Nat) (name : String) (type : Ty)
    (kind : UsageKind) (source : VarSource) (s : Nat) :
    (t.record slot name type kind source).sourcesOf s =
      if s = slot then t.sourcesOf s ++ [source] else t.sourcesOf s := by
  unfold sourcesOf
  rw [info?_record]
  by_cases hs : s = slot
  · subst hs
    rw [if_pos rfl, if_pos rfl]
    cases t.info? s <;> rfl
  · rw [if_neg hs, if_neg hs]

/-- A run adds to the sources of a slot the references whose name has the slot after it. -/
theorem Sound.sourcesOf_run {refs : List Reference} {t t' : SlotTable} (h : t.Sound)
    (hrun : refs.foldlM SlotTable.addReference t = .ok t') (s : Nat) :
    t'.sourcesOf s = t.sourcesOf s ++ (refs.filter fun r => t'.slotOf? r.ref.name = some s).map
      fun r => ⟨r.position, some r.entry⟩ := by
  induction refs generalizing t with
  | nil =>
      cases hrun
      simp
  | cons r refs ih =>
      obtain ⟨t₁, hstep, hrest⟩ := except_bind_eq_ok.mp hrun
      have hname := h.slotOf?_reference hstep hrest
      rw [ih (h.addReference hstep) hrest]
      obtain ⟨-, -, -, rfl⟩ := h.addReference_ok hstep
      rw [sourcesOf_record]
      by_cases hs : s = t.slotFor r.ref.name
      · rw [if_pos hs, List.filter_cons_of_pos (by simp [hname, hs]), List.map_cons,
          List.append_assoc]
        rfl
      · have hne : ¬t.slotFor r.ref.name = s := fun e => hs e.symm
        rw [if_neg hs, List.filter_cons_of_neg (by simp [hname, hne])]

/-- Every slot in use has a source. -/
def Sourced (t : SlotTable) : Prop := ∀ s, (t.info? s).isSome → t.sourcesOf s ≠ []

theorem Sourced.record {t : SlotTable} (h : t.Sourced) (slot : Nat) (name : String) (type : Ty)
    (kind : UsageKind) (source : VarSource) : (t.record slot name type kind source).Sourced := by
  intro s hs
  rw [info?_record] at hs
  rw [sourcesOf_record]
  split at hs
  · rename_i heq
    rw [if_pos heq]
    exact List.concat_ne_nil source _
  · rename_i hne
    rw [if_neg hne]
    exact h s hs

theorem sourced_declared {selfType : String} {m : MethodDef} {t : SlotTable}
    (h : declared selfType m = .ok t) : t.Sourced := by
  have hempty : Sourced {} := nofun
  exact declared_keeps hempty (hempty.record _ _ _ _ _) (fun _ _ _ ht _ => ht.record _ _ _ _ _) h

theorem sourced_allocate {selfType : String} {m : MethodDef} {code : Code} {t : SlotTable}
    (h : allocate selfType m code = .ok t) : t.Sourced := by
  rw [allocate_eq] at h
  obtain ⟨t₀, h₀, hrun⟩ := except_bind_eq_ok.mp h
  have hkeep := foldlM_keeps (P := fun u : SlotTable => u.Sound ∧ u.Sourced)
    (fun u r u' hu hr => by
      refine ⟨hu.1.addReference hr, ?_⟩
      obtain ⟨-, -, -, rfl⟩ := hu.1.addReference_ok hr
      exact hu.2.record _ _ _ _ _)
    ⟨sound_declared h₀, sourced_declared h₀⟩ hrun
  exact hkeep.2

/-- No source of what is declared is an entry. -/
theorem entry_of_declared {selfType : String} {m : MethodDef} {t : SlotTable}
    (h : declared selfType m = .ok t) (s : Nat) :
    ∀ source ∈ t.sourcesOf s, source.entry = none := by
  have hstep : ∀ (t : SlotTable) (slot : Nat) (name : String) (type : Ty) (position : Position),
      (∀ source ∈ t.sourcesOf s, source.entry = none) →
      ∀ source ∈ (t.record slot name type .declared ⟨position, none⟩).sourcesOf s,
        source.entry = none := by
    intro t slot name type position ht
    rw [sourcesOf_record]
    split
    · exact List.forall_mem_append.mpr ⟨ht, by simp⟩
    · exact ht
  refine declared_keeps (P := fun t => ∀ source ∈ t.sourcesOf s, source.entry = none)
    nofun (hstep _ _ _ _ _ nofun) ?_ h
  intro t p type ht _
  exact hstep t _ _ _ _ ht

/-- References stand in the order of their entries. -/
theorem references_ordered (code : Code) : (references code).Pairwise (·.entry < ·.entry) := by
  refine pairwise_filterMap_zipIdx (fun e i r hr => ?_) code
  obtain ⟨_, -, rfl⟩ := Option.map_eq_some_iff.mp hr
  rfl

section Allocated

variable {selfType : String} {m : MethodDef} {code : Code} {t declarations : SlotTable}
  (h : allocate selfType m code = .ok t) (hdeclared : declared selfType m = .ok declarations)
include h hdeclared

theorem sourcesOf_allocate (s : Nat) :
    t.sourcesOf s = declarations.sourcesOf s
      ++ ((references code).filter fun r => t.slotOf? r.ref.name = some s).map
        fun r => ⟨r.position, some r.entry⟩ := by
  rw [allocate_eq, hdeclared] at h
  exact (sound_declared hdeclared).sourcesOf_run h s

/-- A slot that was declared was so before any entry referred to it. -/
theorem head?_sources_of_declared {s : Nat} {info : VarInfo} (hinfo : t.info? s = some info)
    (hs : (declarations.info? s).isSome) :
    ∃ position, info.sources.head? = some ⟨position, none⟩ := by
  obtain ⟨⟨position, entry⟩, rest, hrest⟩ :=
    List.exists_cons_of_ne_nil (sourced_declared hdeclared s hs)
  have hentry : entry = none :=
    entry_of_declared hdeclared s ⟨position, entry⟩ (hrest ▸ List.mem_cons_self)
  refine ⟨position, ?_⟩
  rw [← sourcesOf_of_info? hinfo, sourcesOf_allocate h hdeclared, hrest, hentry]
  rfl

/-- The sources of a slot that was not declared are the entries that refer to it. -/
theorem sources_of_not_declared {s : Nat} {info : VarInfo} (hinfo : t.info? s = some info)
    (hs : declarations.info? s = none) :
    info.sources = ((references code).filter fun r => t.slotOf? r.ref.name = some s).map
      fun r => ⟨r.position, some r.entry⟩ := by
  have hnone : declarations.sourcesOf s = [] := by
    rw [sourcesOf, hs]
    rfl
  rw [← sourcesOf_of_info? hinfo, sourcesOf_allocate h hdeclared, hnone, List.nil_append]

end Allocated

theorem mem_referring {t : SlotTable} {code : Code} {s k : Nat} :
    k ∈ t.referring code s ↔
      ∃ r ∈ (references code).filter (fun r => decide (t.slotOf? r.ref.name = some s)),
        r.entry = k := by
  simp only [List.mem_filter, decide_eq_true_eq]
  constructor
  · rintro ⟨e, ref, hk, href, hs⟩
    exact ⟨⟨ref, e.position, k⟩, ⟨mem_references.mpr ⟨e, hk, rfl, href⟩, hs⟩, rfl⟩
  · rintro ⟨r, ⟨hr, hs⟩, rfl⟩
    obtain ⟨e, hk, -, href⟩ := mem_references.mp hr
    exact ⟨e, r.ref, hk, href, hs⟩

end SlotTable

/-- The later of the uses is at the greatest entry. -/
theorem fst_foldl_laterUse (first : Nat × Position) (uses : List (Nat × Position)) :
    (uses.foldl laterUse first).1 = (uses.map (·.1)).foldl max first.1 := by
  induction uses generalizing first with
  | nil => rfl
  | cons use uses ih =>
      rw [List.foldl_cons, ih, List.map_cons, List.foldl_cons]
      congr 1
      rw [laterUse]
      split <;> omega

namespace SlotTable

section Allocated

variable {selfType : String} {m : MethodDef} {code : Code} {t declarations : SlotTable}
  (h : allocate selfType m code = .ok t) (hdeclared : declared selfType m = .ok declarations)
include h hdeclared

/-- Of the entries that refer to a slot, its first source is the first and its latest use the
last. -/
theorem entryUses_of_not_declared {s : Nat} {info : VarInfo} (hinfo : t.info? s = some info)
    (hs : declarations.info? s = none) :
    ∃ position first, info.sources.head? = some ⟨position, some first⟩
      ∧ IsLeast (t.referring code s) first
      ∧ IsGreatest (t.referring code s) (info.entryUses.foldl laterUse (first, position)).1 := by
  have hsources := sources_of_not_declared h hdeclared hinfo hs
  have hordered := (references_ordered code).filter fun r => decide (t.slotOf? r.ref.name = some s)
  have hmem := @mem_referring t code s
  -- a slot in use that was not declared is referred to
  have hne : (references code).filter (fun r => decide (t.slotOf? r.ref.name = some s)) ≠ [] := by
    intro hnil
    rw [hnil] at hsources
    exact sourced_allocate h s (by rw [hinfo]; rfl)
      (by rw [sourcesOf_of_info? hinfo, hsources]; rfl)
  generalize (references code).filter (fun r => decide (t.slotOf? r.ref.name = some s)) = refs
    at hsources hordered hmem hne
  obtain ⟨r, refs, rfl⟩ := List.exists_cons_of_ne_nil hne
  have hfirst : r.entry ∈ t.referring code s := hmem.mpr ⟨r, List.mem_cons_self, rfl⟩
  have huses : info.entryUses.map (·.1) = (r :: refs).map (·.entry) := by
    rw [VarInfo.entryUses, hsources, List.map_filterMap, List.filterMap_map]
    exact (List.filterMap_eq_map ..).symm ▸ rfl
  have hcons : (r.entry :: (r :: refs).map (·.entry)).max? =
      some (((r :: refs).map (·.entry)).foldl max r.entry) := List.max?_cons'
  have hmax := List.max?_eq_some_iff.mp hcons
  refine ⟨r.position, r.entry, by rw [hsources]; rfl, ⟨hfirst, ?_⟩, ?_⟩
  · intro k hk
    obtain ⟨r', hr', rfl⟩ := hmem.mp hk
    rcases List.mem_cons.mp hr' with rfl | hr'
    · exact Nat.le_refl _
    · exact Nat.le_of_lt ((List.pairwise_cons.mp hordered).1 r' hr')
  · rw [fst_foldl_laterUse, huses]
    constructor
    · rcases List.mem_cons.mp hmax.1 with heq | hin
      · rw [heq]
        exact hfirst
      · obtain ⟨r', hr', heq⟩ := List.mem_map.mp hin
        exact hmem.mpr ⟨r', hr', heq⟩
    · intro k hk
      obtain ⟨r', hr', rfl⟩ := hmem.mp hk
      exact hmax.2 _ (List.mem_cons_of_mem _ (List.mem_map_of_mem hr'))

end Allocated

end SlotTable

open SlotTable

/-! ## Ranges -/

/-- Are these the labels that a slot is listed between?  For a slot that was declared these are the
first and the last label of the body, else the nearest ones around all entries that refer to it. -/
def ListedFrom (declarations t : SlotTable) (code : Code) (slot : Nat)
    (start stop : String) : Prop :=
  if (declarations.info? slot).isSome then
    code.labelNames.head? = some start ∧ code.labelNames.getLast? = some stop
  else
    ∃ first last, IsLeast (t.referring code slot) first ∧ IsGreatest (t.referring code slot) last
      ∧ code.LastLabel first start ∧ code.FirstLabel last stop

/-- Is there no label before the first entry that refers to a slot, or none after the last, where
the slot was not declared? -/
def Unlisted (declarations t : SlotTable) (code : Code) (slot : Nat) : Prop :=
  declarations.info? slot = none
    ∧ ((∃ first, IsLeast (t.referring code slot) first ∧ ∀ i ≤ first, i ∉ code.labelled)
      ∨ ∃ last, IsGreatest (t.referring code slot) last ∧ ∀ i ≥ last, i ∉ code.labelled)

/-- The labels of a range are labels of the body. -/
theorem ListedFrom.mem_labelNames {declarations t : SlotTable} {code : Code} {s : Nat}
    {start stop : String} (h : ListedFrom declarations t code s start stop) :
    start ∈ code.labelNames ∧ stop ∈ code.labelNames := by
  have hdeclares : ∀ {i name}, code.labelAt? i = some name → name ∈ code.labelNames := by
    intro i name hname
    rw [← Code.map_snd_labelEntries]
    exact List.mem_map.mpr ⟨(i, name), Code.mem_labelEntries.mpr hname, rfl⟩
  rw [ListedFrom] at h
  split at h
  · exact ⟨List.mem_of_head? h.1, List.mem_of_getLast? h.2⟩
  · obtain ⟨first, last, -, -, ⟨i, -, hstart⟩, ⟨j, -, hstop⟩⟩ := h
    exact ⟨hdeclares hstart, hdeclares hstop⟩

/-- A slot has a range, or it is a fault of the shape of the listing that it has none. -/
theorem varRange_cases {selfType : String} {m : MethodDef} {code : Code}
    {t declarations : SlotTable}
    (h : allocate selfType m code = .ok t) (hdeclared : declared selfType m = .ok declarations)
    {whole : String × String} (hfirst : code.labelNames.head? = some whole.1)
    (hlast : code.labelNames.getLast? = some whole.2) {s : Nat} {info : VarInfo}
    (hinfo : t.info? s = some info) :
    (∃ start stop, varRange .nearestLabels (labelEntries code) whole info = .ok (start, stop)
        ∧ ListedFrom declarations t code s start stop ∧ ¬Unlisted declarations t code s)
      ∨ ∃ e, varRange .nearestLabels (labelEntries code) whole info = .error e
        ∧ e.value.kind = .structural ∧ Unlisted declarations t code s := by
  cases hs : declarations.info? s with
  | some declaration =>
      obtain ⟨position, hhead⟩ := head?_sources_of_declared h hdeclared hinfo (by rw [hs]; rfl)
      refine Or.inl ⟨whole.1, whole.2, by unfold varRange; rw [hhead], ?_, ?_⟩
      · rw [ListedFrom, hs]
        exact ⟨hfirst, hlast⟩
      · rintro ⟨hnone, -⟩
        rw [hs] at hnone
        cases hnone
  | none =>
      obtain ⟨position, first, hhead, hleast, hgreatest⟩ :=
        entryUses_of_not_declared h hdeclared hinfo hs
      have hrange : varRange .nearestLabels (labelEntries code) whole info =
          nearestRange (labelEntries code) info (first, position) := by
        unfold varRange
        rw [hhead]
      rw [hrange, nearestRange]
      generalize info.entryUses.foldl laterUse (first, position) = last at hgreatest ⊢
      cases hbefore : labelBefore? (labelEntries code) first with
      | none =>
          refine Or.inr ⟨_, rfl, rfl, hs, Or.inl ⟨first, hleast, ?_⟩⟩
          exact Code.labelBefore?_eq_none.mp hbefore
      | some start =>
          cases hafter : labelAfter? (labelEntries code) last.1 with
          | none =>
              refine Or.inr ⟨_, rfl, rfl, hs, Or.inr ⟨last.1, hgreatest, ?_⟩⟩
              exact Code.labelAfter?_eq_none.mp hafter
          | some stop =>
              refine Or.inl ⟨start, stop, rfl, ?_, ?_⟩
              · rw [ListedFrom, hs]
                exact ⟨first, last.1, hleast, hgreatest, Code.lastLabel_of_labelBefore? hbefore,
                  Code.firstLabel_of_labelAfter? hafter⟩
              · rintro ⟨-, ⟨first', hleast', hno⟩ | ⟨last', hgreatest', hno⟩⟩
                · rw [← hleast.unique hleast', ← Code.labelBefore?_eq_none, hbefore] at hno
                  cases hno
                · rw [← hgreatest.unique hgreatest', ← Code.labelAfter?_eq_none, hafter] at hno
                  cases hno

/-! ## The table -/

/-- The first and the last label, where there are labels. -/
theorem Code.exists_whole {code : Code} (hsome : code.labelNames ≠ []) : ∃ whole : String × String,
    code.labelNames.head? = some whole.1 ∧ code.labelNames.getLast? = some whole.2 :=
  ⟨(code.labelNames.head hsome, code.labelNames.getLast hsome), List.head?_eq_some_head hsome,
    List.getLast?_eq_some_getLast hsome⟩

theorem LoweringContext.localTable_eq {ctx : LoweringContext} {code : Code}
    {whole : String × String}
    (hfirst : code.labelNames.head? = some whole.1)
    (hlast : code.labelNames.getLast? = some whole.2) :
    ctx.localTable code = (do
      let entries ← ctx.slots.bySlot.mapM (ctx.localEntry (labelEntries code) whole)
      return entries.filterMap id) := by
  obtain ⟨first, last⟩ := whole
  rw [← Code.map_snd_labelEntries, List.head?_map] at hfirst
  rw [← Code.map_snd_labelEntries, List.getLast?_map] at hlast
  obtain ⟨⟨i, _⟩, hi, rfl⟩ := Option.map_eq_some_iff.mp hfirst
  obtain ⟨⟨j, _⟩, hj, rfl⟩ := Option.map_eq_some_iff.mp hlast
  unfold LoweringContext.localTable
  dsimp only
  rw [hi, hj]

/-- What is known of the labels and slots that a table of nearest labels is made from. -/
structure Prepared (selfType : String) (code : Code) (ctx : LoweringContext)
    (declarations : SlotTable) : Prop where
  nearest : ctx.options.range = .nearestLabels
  labels : ctx.labels = code.labelNames.zipIdx
  slots : allocate selfType ctx.method code = .ok ctx.slots
  declared : SlotTable.declared selfType ctx.method = .ok declarations

theorem Prepared.of_stages {selfType : String} {code : Code} {ctx : LoweringContext}
    (hnearest : ctx.options.range = .nearestLabels) (hlabels : labelIds code = .ok ctx.labels)
    (hslots : allocate selfType ctx.method code = .ok ctx.slots) :
    ∃ declarations, SlotTable.declared selfType ctx.method = .ok declarations
      ∧ Prepared selfType code ctx declarations := by
  have hrun := hslots
  rw [allocate_eq] at hrun
  obtain ⟨declarations, hdeclared, -⟩ := except_bind_eq_ok.mp hrun
  exact ⟨declarations, hdeclared, hnearest, (labelIds_ok hlabels).2, hslots, hdeclared⟩

namespace Prepared

variable {selfType : String} {code : Code} {ctx : LoweringContext} {declarations : SlotTable}
  (h : Prepared selfType code ctx declarations)
include h

theorem label_of_mem {name : String} (hname : name ∈ code.labelNames) (position : Position) :
    ∃ id, ctx.label name position = .ok id := by
  obtain ⟨id, hid⟩ := exists_lookup_zipIdx hname
  exact ⟨id, label_ok.mpr (by rw [h.labels]; exact hid)⟩

section Whole

variable {whole : String × String} (hfirst : code.labelNames.head? = some whole.1)
  (hlast : code.labelNames.getLast? = some whole.2)
include hfirst hlast

/-- A slot with a number for a name is left out; any other has an entry, or it is a fault of the
shape of the listing that it has none. -/
theorem localEntry_cases {s : Nat} {info : VarInfo} (hinfo : ctx.slots.info? s = some info) :
    ((rawSlot? info.name).isSome ∧ ctx.localEntry (labelEntries code) whole info = .ok none)
      ∨ (rawSlot? info.name = none ∧ ¬Unlisted declarations ctx.slots code s
        ∧ ∃ v, ctx.localEntry (labelEntries code) whole info = .ok (some v))
      ∨ (rawSlot? info.name = none ∧ Unlisted declarations ctx.slots code s
        ∧ ∃ e, ctx.localEntry (labelEntries code) whole info = .error e
          ∧ e.value.kind = .structural) := by
  unfold LoweringContext.localEntry
  cases hraw : rawSlot? info.name with
  | some n => exact Or.inl ⟨rfl, rfl⟩
  | none =>
      rw [h.nearest]
      rcases varRange_cases h.slots h.declared hfirst hlast hinfo with
        ⟨start, stop, hrange, hlisted, hanchored⟩ | ⟨e, hrange, hkind, hunlisted⟩
      · obtain ⟨hstart, hstop⟩ := hlisted.mem_labelNames
        obtain ⟨id, hid⟩ := h.label_of_mem hstart ctx.method.position
        obtain ⟨id', hid'⟩ := h.label_of_mem hstop ctx.method.position
        refine Or.inr (Or.inl ⟨rfl, hanchored, ⟨info.name,
          (info.commonType ctx.helpers.oracle).descriptor, none, id, id',
            UInt16.ofNat info.slot⟩, ?_⟩)
        refine except_bind_eq_ok.mpr ⟨(start, stop), hrange, ?_⟩
        exact except_bind_eq_ok.mpr ⟨id, hid, except_bind_eq_ok.mpr ⟨id', hid', rfl⟩⟩
      · exact Or.inr (Or.inr ⟨rfl, hunlisted, e, by rw [hrange]; rfl, hkind⟩)

/-- The entries of a table are those of the slots with names, by ascending slot. -/
theorem forall₂_of_mapM {infos : List VarInfo} {entries : List (Option LocalVariable)}
    (hinfos : ∀ info ∈ infos, ctx.slots.info? info.slot = some info)
    (hrun : infos.mapM (ctx.localEntry (labelEntries code) whole) = .ok entries) :
    List.Forall₂ (fun info v => ctx.slots.info? info.slot = some info
        ∧ ctx.localEntry (labelEntries code) whole info = .ok (some v))
      (infos.filter fun info => (rawSlot? info.name).isNone) (entries.filterMap id) := by
  induction infos generalizing entries with
  | nil =>
      cases hrun
      exact .nil
  | cons info infos ih =>
      rw [List.mapM_cons] at hrun
      obtain ⟨entry, hentry, hrun⟩ := except_bind_eq_ok.mp hrun
      obtain ⟨others, hothers, hrun⟩ := except_bind_eq_ok.mp hrun
      cases hrun
      obtain ⟨hinfo, hinfos⟩ := List.forall_mem_cons.mp hinfos
      have htail := ih hinfos hothers
      rcases h.localEntry_cases hfirst hlast hinfo with
        ⟨hraw, hnone⟩ | ⟨hraw, -, v, hv⟩ | ⟨-, -, e, he, -⟩
      · rw [hnone] at hentry
        cases hentry
        rw [List.filter_cons_of_neg (by simpa using Option.isSome_iff_ne_none.mp hraw)]
        exact htail
      · rw [hv] at hentry
        cases hentry
        rw [List.filter_cons_of_pos (by rw [hraw]; rfl)]
        exact .cons ⟨hinfo, hv⟩ htail
      · rw [he] at hentry
        cases hentry

end Whole

theorem localTable_of_labelNames_nil (hnone : code.labelNames = []) :
    ctx.localTable code = if ctx.slots.infos ≠ [] then .error ⟨.noLabels, ctx.method.position⟩
      else .ok [] := by
  have hentries : labelEntries code = [] := by
    rw [← List.map_eq_nil_iff, Code.map_snd_labelEntries, hnone]
  unfold LoweringContext.localTable
  rw [hentries, h.nearest]
  simp only [List.head?_nil, List.getLast?_nil, true_and]
  rfl

/-- A slot fits the number that is stored for it. -/
theorem slot_of_localEntry {labels : List (Nat × String)} {whole : String × String} {info : VarInfo}
    {v : LocalVariable} (hinfo : ctx.slots.info? info.slot = some info)
    (hv : ctx.localEntry labels whole info = .ok (some v)) : info.slot = v.slot.toNat := by
  have hlt := (sound_allocate h.slots).below (by rw [hinfo]; rfl)
  have hle := cap_allocate_le h.slots
  simp only [slotLimit] at hle
  rw [(LoweringContext.localEntry_ok hv).2.1]
  exact (UInt16.toNat_ofNat_of_lt' (show info.slot < 65536 by omega)).symm

/-- What stands in a table, slot by slot. -/
theorem localTable_listed (hsome : code.labelNames ≠ []) {locals : List LocalVariable}
    (hok : ctx.localTable code = .ok locals) :
    (locals.map (·.slot.toNat)).Pairwise (· < ·)
      ∧ (∀ s, s ∈ locals.map (·.slot.toNat) ↔
        ∃ info, ctx.slots.info? s = some info ∧ rawSlot? info.name = none)
      ∧ ∀ v ∈ locals, ∃ info start stop, ctx.slots.info? v.slot.toNat = some info
        ∧ v.name = info.name ∧ ctx.labels.lookup start = some v.start
        ∧ ctx.labels.lookup stop = some v.stop
        ∧ ListedFrom declarations ctx.slots code v.slot.toNat start stop := by
  obtain ⟨whole, hfirst, hlast⟩ := Code.exists_whole hsome
  rw [LoweringContext.localTable_eq hfirst hlast] at hok
  obtain ⟨entries, hentries, hok⟩ := except_bind_eq_ok.mp hok
  cases hok
  have hsound := sound_allocate h.slots
  have hinfos := hsound.info?_of_mem_bySlot
  have hlisted := h.forall₂_of_mapM hfirst hlast hinfos hentries
  have hslots : (ctx.slots.bySlot.filter fun info => (rawSlot? info.name).isNone).map (·.slot) =
      (entries.filterMap id).map (·.slot.toNat) := by
    rw [← List.forall₂_eq_eq_eq, List.forall₂_map_left_iff, List.forall₂_map_right_iff]
    exact hlisted.imp fun info v hv => h.slot_of_localEntry hv.1 hv.2
  rw [← hslots]
  refine ⟨?_, ?_, ?_⟩
  · exact List.pairwise_map.mpr (hsound.bySlot_ordered.filter _)
  · intro s
    rw [List.mem_map]
    constructor
    · rintro ⟨info, hmem, rfl⟩
      obtain ⟨hmem, hraw⟩ := List.mem_filter.mp hmem
      exact ⟨info, hinfos info hmem, Option.isNone_iff_eq_none.mp hraw⟩
    · rintro ⟨info, hinfo, hraw⟩
      have hmem := ctx.slots.perm_bySlot.mem_iff.mpr (mem_of_info? hinfo)
      exact ⟨info, List.mem_filter.mpr ⟨hmem, by rw [hraw]; rfl⟩, slot_of_info? hinfo⟩
  · intro v hv
    obtain ⟨info, -, hinfo, hentry⟩ := exists_left_of_forall₂ hlisted hv
    obtain ⟨hname, -, -, start, stop, hrange, hstart, hstop⟩ := LoweringContext.localEntry_ok hentry
    rw [← h.slot_of_localEntry hinfo hentry]
    refine ⟨info, start, stop, hinfo, hname, hstart, hstop, ?_⟩
    rw [h.nearest] at hrange
    rcases varRange_cases h.slots h.declared hfirst hlast hinfo with
      ⟨start', stop', hrange', hlisted, -⟩ | ⟨e, he, -⟩
    · cases hrange.symm.trans hrange'
      exact hlisted
    · cases hrange.symm.trans he

/-- When there is no table: a slot cannot be listed, or no label is declared but a slot is in
use. -/
theorem localTable_error_iff :
    (∀ e, ctx.localTable code = .error e → e.value.kind = .structural)
      ∧ ((∃ e, ctx.localTable code = .error e) ↔
        (code.labelNames = [] ∧ ctx.slots.infos ≠ [])
          ∨ ∃ s info, ctx.slots.info? s = some info ∧ rawSlot? info.name = none
            ∧ Unlisted declarations ctx.slots code s) := by
  by_cases hsome : code.labelNames = []
  · rw [h.localTable_of_labelNames_nil hsome]
    by_cases hinfos : ctx.slots.infos = []
    · rw [if_neg (by simpa using hinfos)]
      refine ⟨nofun, iff_of_false nofun ?_⟩
      rintro (⟨-, hne⟩ | ⟨s, info, hinfo, -⟩)
      · exact hne hinfos
      · have hmem := mem_of_info? hinfo
        rw [hinfos] at hmem
        cases hmem
    · rw [if_pos hinfos]
      refine ⟨?_, iff_of_true ⟨_, rfl⟩ (Or.inl ⟨hsome, hinfos⟩)⟩
      rintro e ⟨⟩
      rfl
  · obtain ⟨whole, hfirst, hlast⟩ := Code.exists_whole hsome
    have hinfos := (sound_allocate h.slots).info?_of_mem_bySlot
    rw [LoweringContext.localTable_eq hfirst hlast]
    cases hrun : ctx.slots.bySlot.mapM (ctx.localEntry (labelEntries code) whole) with
    | ok entries =>
        refine ⟨nofun, iff_of_false nofun ?_⟩
        rintro (⟨hnone, -⟩ | ⟨s, info, hinfo, hraw, hunlisted⟩)
        · exact hsome hnone
        · have hmem := ctx.slots.perm_bySlot.mem_iff.mpr (mem_of_info? hinfo)
          obtain ⟨entry, -, hentry⟩ := exists_right_of_forall₂ (forall₂_of_mapM_ok hrun) hmem
          rcases h.localEntry_cases hfirst hlast hinfo with
            ⟨hnumber, -⟩ | ⟨-, hlisted, -⟩ | ⟨-, -, e, he, -⟩
          · rw [hraw] at hnumber
            cases hnumber
          · exact hlisted hunlisted
          · rw [hentry] at he
            cases he
    | error e =>
        obtain ⟨info, hmem, he⟩ := exists_error_of_mapM hrun
        rcases h.localEntry_cases hfirst hlast (hinfos info hmem) with
          ⟨-, hnone⟩ | ⟨-, -, v, hv⟩ | ⟨hraw, hunlisted, e', he', hkind⟩
        · rw [hnone] at he
          cases he
        · rw [hv] at he
          cases he
        · cases he.symm.trans he'
          refine ⟨?_, iff_of_true ⟨e, rfl⟩ (Or.inr ⟨_, info, hinfos info hmem, hraw, hunlisted⟩)⟩
          rintro _ ⟨⟩
          exact hkind

end Prepared

/-! ## Instructions in order -/

theorem ofParts_ordered : ∀ (parts : List Fragment) (index : Nat),
    (Lowered.ofParts index parts).insns.Pairwise (·.2 ≤ ·.2)
  | [], _ => List.Pairwise.nil
  | own :: parts, index => by
      refine List.pairwise_append.mpr ⟨?_, ofParts_ordered parts (index + 1), ?_⟩
      · exact List.pairwise_map.mpr (List.pairwise_of_forall fun _ _ => Nat.le_refl index)
      · intro p hp q hq
        obtain ⟨insn, -, rfl⟩ := List.mem_map.mp hp
        exact Nat.le_of_succ_le (le_of_mem_ofParts hq)

/-- Entries that are no expressions become the same whoever is there to help. -/
theorem Parts.unaided {ctx : LoweringContext} {free : Nat} {code : Code} {parts : List Fragment}
    (h : Parts ctx free code parts) (hplain : ∀ e ∈ code, ∀ text, e.value ≠ .expression text) :
    Parts { ctx with helpers := {} } free code parts := by
  induction h with
  | nil free => exact .nil free
  | @cons free free' e rest own parts hown _ ih =>
      obtain ⟨he, hrest⟩ := List.forall_mem_cons.mp hplain
      refine .cons ?_ (ih hrest)
      rw [LoweringContext.lowerEntry] at hown ⊢
      cases hv : e.value with
      | expression text => exact absurd hv (he text)
      | _ =>
          rw [hv] at hown
          exact hown

namespace Composed

variable {helpers : Helpers} {l : Listing} {a : AssembledMethod} {ctx : LoweringContext}
  {parts : List Fragment} {handlers : List TryBlock}
  (h : Composed helpers l a ctx parts handlers)
include h

/-- Instructions stand in the order of their entries. -/
theorem lt_of_origin {p q i j : Nat} (hp : a.origins[p]? = some i) (hq : a.origins[q]? = some j)
    (hij : i < j) : p < q := by
  have hordered : a.origins.Pairwise (· ≤ ·) := by
    rw [h.origins]
    exact List.pairwise_map.mpr (ofParts_ordered parts 0)
  obtain ⟨hplt, rfl⟩ := List.getElem?_eq_some_iff.mp hp
  obtain ⟨hqlt, rfl⟩ := List.getElem?_eq_some_iff.mp hq
  by_contra hle
  rcases Nat.lt_or_eq_of_le (Nat.not_lt.mp hle) with hlt | rfl
  · exact Nat.not_le_of_lt hij (List.pairwise_iff_getElem.mp hordered q p hqlt hplt hlt)
  · exact Nat.lt_irrefl _ hij

theorem nodup_of_plain (hplain : ∀ e ∈ l.body, ∀ text, e.value ≠ .expression text) :
    (declaredLabels a.method.insns).Nodup := by
  rw [h.declaredLabels_eq]
  have hlabels : ({ ctx with helpers := {} } : LoweringContext).labels = l.body.labelNames.zipIdx :=
    h.labels
  refine (Parts.nodup ?_ hlabels (h.lowered.unaided hplain) (Nat.le_refl _) h.nodup_names).1
  intro text position f hf
  obtain ⟨classes, -, hclasses, -⟩ := LoweringContext.compileExpression_ok hf
  cases hclasses

end Composed

/-- Is the instruction one on a local variable, in the slot?  One that is only stored with the
slot comes from no reference (`Operation.varRef?`), and the ranges of variables are those of
the references. -/
def Insn.usesSlot (slot : Nat) : Insn → Prop
  | .var op s => op.varUse?.isSome ∧ s.toNat = slot
  | .iinc s _ => s.toNat = slot
  | _ => False

theorem Opcode.exists_varType?_of_varUse? {op : Opcode} {use : VarUse} (h : op.varUse? = some use) :
    ∃ type, op.varType? = some type := by
  cases op <;> first | exact ⟨_, rfl⟩ | cases h

/-- An instruction on a slot was written with a name that has the slot. -/
theorem LoweringContext.exists_varRef?_of_usesSlot {ctx : LoweringContext}
    (hlt : ∀ name n, ctx.slots.slotOf? name = some n → n < 65536) {position : Position}
    {op : Operation} {insn : Insn} (h : ctx.lower position op = .ok insn) {s : Nat}
    (hs : insn.usesSlot s) : ∃ r, op.varRef? = some r ∧ ctx.slots.slotOf? r.name = some s := by
  cases op with
  | var o name =>
      obtain ⟨slot, hslot, h⟩ := except_bind_eq_ok.mp h
      cases h
      obtain ⟨huse, rfl⟩ := hs
      obtain ⟨use, huse⟩ := Option.isSome_iff_exists.mp huse
      obtain ⟨type, htype⟩ := Opcode.exists_varType?_of_varUse? huse
      refine ⟨⟨name, type, use⟩, ?_, toNat_slot hlt hslot⟩
      rw [Operation.varRef?, htype, huse]
  | iinc name increment =>
      obtain ⟨slot, hslot, h⟩ := except_bind_eq_ok.mp h
      cases h
      cases hs
      exact ⟨_, rfl, toNat_slot hlt hslot⟩
  | newArray t =>
      simp only [lower] at h
      split at h
      · cases h
        cases hs
      · cases h
  | jump o label | line label number =>
      obtain ⟨id, -, h⟩ := except_bind_eq_ok.mp h
      cases h
      cases hs
  | lookupSwitch cases default | tableSwitch min max labels default =>
      obtain ⟨targets, -, h⟩ := except_bind_eq_ok.mp h
      obtain ⟨id, -, h⟩ := except_bind_eq_ok.mp h
      cases h
      cases hs
  | _ =>
      cases h
      cases hs

theorem labelAt?_of_referring {t : SlotTable} {code : Code} {s j : Nat}
    (h : j ∈ t.referring code s) : code.labelAt? j = none := by
  obtain ⟨e, r, hj, hr, -⟩ := h
  rw [Code.labelAt?, hj]
  cases hv : e.value with
  | operation op => simp [hv, Statement.label?]
  | _ =>
      rw [hv] at hr
      cases hr

/-! ## Tables of assembled methods -/

/-- A label stands where an entry declares its name. -/
theorem AssembledMethod.Resolves.origin {a : AssembledMethod} {name : String} {id : LabelId}
    (h : a.Resolves name id) : ∃ k i, a.method.labelPosition? id = some k ∧ a.origins[k]? = some i
      ∧ a.code.labelAt? i = some name := by
  obtain ⟨k, e, hk, hsource, hv⟩ := h
  obtain ⟨i, hi, he⟩ := Option.bind_eq_some_iff.mp hsource
  refine ⟨k, i, hk, hi, ?_⟩
  rw [Code.labelAt?, he]
  show e.value.label? = some name
  rw [hv]
  rfl

/-- Is the position of an instruction after one label and before another? -/
def AssembledMethod.Between (a : AssembledMethod) (start stop : LabelId) (k : Nat) : Prop :=
  ∃ p q, a.method.labelPosition? start = some p ∧ a.method.labelPosition? stop = some q
    ∧ p < k ∧ k < q

/-- Is the local variable table of a method the one with the nearest labels?  The slots that `this`
and the parameters took are those of `declarations`. -/
structure AssembledMethod.ListsNearest (a : AssembledMethod) (declarations : SlotTable) : Prop where
  ordered : (a.method.locals.map (·.slot.toNat)).Pairwise (· < ·)
  named : ∀ s, s ∈ a.method.locals.map (·.slot.toNat) ↔
    ∃ info, a.slots.info? s = some info ∧ rawSlot? info.name = none
  ranges : ∀ v ∈ a.method.locals, ∃ info start stop, a.slots.info? v.slot.toNat = some info
    ∧ v.name = info.name ∧ a.Resolves start v.start ∧ a.Resolves stop v.stop
    ∧ ListedFrom declarations a.slots a.code v.slot.toNat start stop
  enclosed : ∀ v ∈ a.method.locals, declarations.info? v.slot.toNat = none →
    ∀ k insn, a.method.insns[k]? = some insn → insn.usesSlot v.slot.toNat →
      a.Between v.start v.stop k

namespace Assembled

variable {options : AssemblyOptions} {helpers : Helpers} {l : Listing} {a : AssembledMethod}
  {ctx : LoweringContext} {low : Lowered} (h : Assembled options helpers l a ctx low)
include h

/-- The entry of an instruction on a slot refers to the slot. -/
theorem referring_of_usesSlot
    (hplain : ∀ e ∈ l.body, ∀ text, e.value ≠ .expression text) {k s : Nat}
    {insn : Insn} (hk : a.method.insns[k]? = some insn) (hs : insn.usesSlot s) :
    ∃ j, a.origins[k]? = some j ∧ j ∈ ctx.slots.referring l.body s := by
  obtain ⟨-, -, -, horigins, hinsns, -⟩ := LoweringContext.build_ok h.built
  rw [hinsns, List.getElem?_map] at hk
  obtain ⟨⟨insn, j⟩, hlow, rfl⟩ := Option.map_eq_some_iff.mp hk
  refine ⟨j, by rw [horigins, List.getElem?_map, hlow]; rfl, ?_⟩
  obtain ⟨id, rfl⟩ | ⟨e, op, hj, hv, hlower⟩ :=
    LoweringContext.operation_of_insn hplain h.lowered (List.mem_of_getElem? hlow)
  · cases hs
  · obtain ⟨r, hr, hslot⟩ :=
      LoweringContext.exists_varRef?_of_usesSlot (fun _ _ hn => h.slot_lt hn) hlower hs
    exact ⟨e, r, hj, by rw [hv]; exact hr, hslot⟩

/-- An instruction on a slot stands after the label before the entries of the slot, and before the
label after them. -/
theorem between (hplain : ∀ e ∈ l.body, ∀ text, e.value ≠ .expression text)
    {declarations : SlotTable}
    {s : Nat} (hs : declarations.info? s = none) {start stop : String} {startId stopId : LabelId}
    (hstart : a.Resolves start startId) (hstop : a.Resolves stop stopId)
    (hlisted : ListedFrom declarations ctx.slots l.body s start stop) {k : Nat} {insn : Insn}
    (hk : a.method.insns[k]? = some insn) (huses : insn.usesSlot s) :
    a.Between startId stopId k := by
  obtain ⟨parts, handlers, hcomposed⟩ := h.composed
  obtain ⟨j, hj, hrefers⟩ := h.referring_of_usesSlot hplain hk huses
  rw [ListedFrom, hs] at hlisted
  obtain ⟨first, last, hfirst, hlast, ⟨before, hbefore, hname⟩, ⟨after, hafter, hname'⟩⟩ := hlisted
  obtain ⟨p, i, hp, hi, hlabel⟩ := hstart.origin
  obtain ⟨q, i', hq, hi', hlabel'⟩ := hstop.origin
  rw [hcomposed.code] at hlabel hlabel'
  rw [Code.labelAt?_inj hcomposed.nodup_names hname hlabel] at hbefore
  rw [Code.labelAt?_inj hcomposed.nodup_names hname' hlabel'] at hafter
  have hle : i ≤ j := Nat.le_trans hbefore.1.2 (hfirst.2 hrefers)
  have hle' : j ≤ i' := Nat.le_trans (hlast.2 hrefers) hafter.1.2
  -- an entry with a label has no instruction on a variable
  have hnone : l.body.labelAt? j = none := labelAt?_of_referring hrefers
  have hne : i ≠ j := fun heq => by rw [heq, hnone] at hlabel; cases hlabel
  have hne' : j ≠ i' := fun heq => by rw [← heq, hnone] at hlabel'; cases hlabel'
  exact ⟨p, q, hp, hq, hcomposed.lt_of_origin hi hj (Nat.lt_of_le_of_ne hle hne),
    hcomposed.lt_of_origin hj hi' (Nat.lt_of_le_of_ne hle' hne')⟩

end Assembled

/-- With a table to make, the last stage fails with the table and only with it. -/
theorem LoweringContext.build_of_handlers {ctx : LoweringContext} {code : Code} (low : Lowered)
    {blocks : List TryBlock} (hblocks : ctx.handlers code = .ok blocks)
    (hemit : ctx.options.emitLocals = true) (hcode : ctx.method.hasCode = true) :
    (∀ a, ctx.build code low = .ok a → ctx.localTable code = .ok a.method.locals)
      ∧ ∀ e, ctx.build code low = .error e ↔ ctx.localTable code = .error e := by
  unfold build
  dsimp only
  rw [hblocks, hemit, hcode]
  cases htable : ctx.localTable code with
  | ok locals =>
      refine ⟨?_, fun e => iff_of_false nofun nofun⟩
      rintro a ⟨⟩
      rfl
  | error fault =>
      refine ⟨nofun, fun e => ⟨?_, ?_⟩⟩
      · rintro ⟨⟩
        rfl
      · rintro ⟨⟩
        rfl

/-- With the nearest labels the table of an assembled method has one entry for every slot with a
name that is no number.  A slot of `this` or of a parameter is listed from the first label to the
last, any other slot from the last label before all entries that refer to it to the first one
after them, and all instructions on it are between the two.  If all other stages succeed, this one
fails exactly if there is no label where a slot is in use, or a slot to be listed has no label
before its first entry or none after its last. -/
theorem assembleMethod_nearestLabels (options : AssemblyOptions) (helpers : Helpers) (l : Listing)
    (m : MethodDef) (hm : l.method? = some m) (hcode : m.hasCode = true)
    (hrange : options.range = .nearestLabels) (hemit : options.emitLocals = true)
    (hplain : ∀ e ∈ l.body, ∀ text, e.value ≠ .expression text) :
    (∀ a, assembleMethod options helpers l = .ok a → l.body.labelNames ≠ [] →
      a.code = l.body ∧ ∃ declarations, SlotTable.declared options.selfType m = .ok declarations
        ∧ a.ListsNearest declarations)
    ∧ ∀ ctx low blocks, loweringContext options helpers l = .ok ctx →
      ctx.lowerCode l.body = .ok low → ctx.handlers l.body = .ok blocks →
      ∃ declarations, SlotTable.declared options.selfType m = .ok declarations
        ∧ (∀ e, assembleMethod options helpers l = .error e → e.value.kind = .structural)
        ∧ ((∃ e, assembleMethod options helpers l = .error e) ↔
          (l.body.labelNames = [] ∧ ctx.slots.infos ≠ [])
            ∨ ∃ s info, ctx.slots.info? s = some info ∧ rawSlot? info.name = none
              ∧ Unlisted declarations ctx.slots l.body s) := by
  constructor
  · intro a ha hlabels
    obtain ⟨ctx, low, ha⟩ := assembled_of_ok ha
    cases hm.symm.trans (method?_of_assembly ha.method)
    obtain ⟨parts, handlers, hcomposed⟩ := ha.composed
    obtain ⟨declarations, hdeclared, hprepared⟩ :=
      Prepared.of_stages (by rw [ha.options_eq]; exact hrange) ha.labels ha.slots
    obtain ⟨-, -, hslots, -⟩ := LoweringContext.build_ok ha.built
    have htable := (LoweringContext.build_of_handlers low hcomposed.guarded
      (by rw [ha.options_eq]; exact hemit) hcode).1 a ha.built
    obtain ⟨hordered, hnamed, hranges⟩ := hprepared.localTable_listed hlabels htable
    have hresolves : ∀ {name id}, ctx.labels.lookup name = some id → a.Resolves name id :=
      fun hid => hcomposed.resolves (hcomposed.nodup_of_plain hplain) hid
    refine ⟨hcomposed.code, declarations, hdeclared, hordered, ?_, ?_, ?_⟩
    · rw [hslots]
      exact hnamed
    · intro v hv
      obtain ⟨info, start, stop, hinfo, hname, hstart, hstop, hlisted⟩ := hranges v hv
      rw [hslots, hcomposed.code]
      exact ⟨info, start, stop, hinfo, hname, hresolves hstart, hresolves hstop, hlisted⟩
    · intro v hv hnot k insn hk huses
      obtain ⟨info, start, stop, -, -, hstart, hstop, hlisted⟩ := hranges v hv
      exact ha.between hplain hnot (hresolves hstart) (hresolves hstop) hlisted hk huses
  · intro ctx low blocks hctx hlow hblocks
    have hassemble : assembleMethod options helpers l = ctx.build l.body low := by
      rw [assembleMethod, hctx]
      show (ctx.lowerCode l.body >>= ctx.build l.body) = _
      rw [hlow]
      rfl
    obtain ⟨hmethod, hoptions, -, hlabels, hslots⟩ := loweringContext_ok hctx
    cases hm.symm.trans (method?_of_assembly hmethod)
    rw [← hoptions] at hrange hemit
    obtain ⟨declarations, hdeclared, hprepared⟩ := Prepared.of_stages hrange hlabels hslots
    obtain ⟨-, herror⟩ := LoweringContext.build_of_handlers low hblocks hemit hcode
    obtain ⟨hkind, hiff⟩ := hprepared.localTable_error_iff
    simp only [hassemble, herror]
    exact ⟨declarations, hdeclared, hkind, hiff⟩

/-- An instance method whose third slot is used by a name and by its number, after a comment and
between labels that have nothing to do with it, and whose sixth slot has no name. -/
def sharedSlot : Listing where
  definition := .method ⟨0, "m", [⟨"I", "a", {}⟩], "V", {}, {}⟩
  code := some
    [⟨.label "A", {}⟩, ⟨.label "B", {}⟩, ⟨.operation (.var .istore "x"), {}⟩, ⟨.label "C", {}⟩,
     ⟨.comment "// the same slot", {}⟩, ⟨.operation (.iinc "2" 1), {}⟩,
     ⟨.operation (.var .istore "5"), {}⟩, ⟨.label "D", {}⟩, ⟨.label "E", {}⟩]

/-- The same method without its labels. -/
def unlabelledSlot : Listing :=
  { sharedSlot with code := some (sharedSlot.body.filter fun e => e.value.label?.isNone) }

theorem assembleMethod_nearestLabels_sharedSlot :
    (∀ e ∈ sharedSlot.body, ∀ text, e.value ≠ .expression text)
      ∧ ∃ a, assembleMethod { range := .nearestLabels } {} sharedSlot = .ok a
        ∧ a.method.locals.map (fun v => (v.name, v.slot.toNat, v.start, v.stop)) =
          [("this", 0, 0, 4), ("a", 1, 0, 4), ("x", 2, 1, 3)]
        ∧ (∀ k insn, a.method.insns[k]? = some insn → insn.usesSlot 2 → a.Between 1 3 k)
        ∧ ∃ e, assembleMethod { range := .nearestLabels } {} unlabelledSlot = .error e
          ∧ e.value.kind = .structural := by
  have hplain : ∀ e ∈ sharedSlot.body, ∀ text, e.value ≠ .expression text := by
    simp [sharedSlot, Listing.body]
  have hlocals : (assembleMethod { range := .nearestLabels } {} sharedSlot).toOption.map
      (·.method.locals.map fun v => (v.name, v.slot.toNat, v.start, v.stop)) =
        some [("this", 0, 0, 4), ("a", 1, 0, 4), ("x", 2, 1, 3)] := by
    decide +kernel
  obtain ⟨a, ha, hlocals⟩ := Option.map_eq_some_iff.mp hlocals
  have ha := toOption_eq_some.mp ha
  obtain ⟨-, declarations, hdeclared, hlists⟩ :=
    (assembleMethod_nearestLabels { range := .nearestLabels } {} sharedSlot _ rfl rfl rfl rfl
      hplain).1 a ha (by decide)
  have hnot : declarations.info? 2 = none := by
    have hnone :
        (SlotTable.declared Ty.rootClass ⟨0, "m", [⟨"I", "a", {}⟩], "V", {}, {}⟩).toOption.map
          (·.info? 2) = some none := by
      decide +kernel
    rw [show SlotTable.declared Ty.rootClass ⟨0, "m", [⟨"I", "a", {}⟩], "V", {}, {}⟩ =
      .ok declarations from hdeclared] at hnone
    exact Option.some.inj hnone
  refine ⟨hplain, a, ha, hlocals, ?_, ?_⟩
  · intro k insn hk huses
    have hmem : ("x", 2, 1, 3) ∈ a.method.locals.map fun v =>
        (v.name, v.slot.toNat, v.start, v.stop) := by
      rw [hlocals]
      decide
    obtain ⟨v, hv, heq⟩ := List.mem_map.mp hmem
    simp only [Prod.mk.injEq] at heq
    obtain ⟨-, hslot, hstart, hstop⟩ := heq
    rw [← hstart, ← hstop]
    exact hlists.enclosed v hv (by rw [hslot]; exact hnot) k insn hk (by rw [hslot]; exact huses)
  · have hstages : ((loweringContext { range := .nearestLabels } {} unlabelledSlot).toOption.bind
        fun ctx => (ctx.lowerCode unlabelledSlot.body).toOption.bind
          fun _ => (ctx.handlers unlabelledSlot.body).toOption.map
            fun _ => ctx.slots.infos.length) = some 4 := by
      decide +kernel
    obtain ⟨ctx, hctx, hstages⟩ := Option.bind_eq_some_iff.mp hstages
    obtain ⟨low, hlow, hstages⟩ := Option.bind_eq_some_iff.mp hstages
    obtain ⟨blocks, hblocks, hinfos⟩ := Option.map_eq_some_iff.mp hstages
    obtain ⟨_, -, hkind, hiff⟩ :=
      (assembleMethod_nearestLabels { range := .nearestLabels } {} unlabelledSlot _ rfl rfl rfl rfl
        (by simp [unlabelledSlot, sharedSlot, Listing.body, Statement.label?])).2 ctx low blocks
        (toOption_eq_some.mp hctx) (toOption_eq_some.mp hlow) (toOption_eq_some.mp hblocks)
    obtain ⟨e, he⟩ :=
      hiff.mpr (Or.inl ⟨by decide, fun hnil => by rw [hnil] at hinfos; cases hinfos⟩)
    exact ⟨e, he, hkind e he⟩

end JvmListing
