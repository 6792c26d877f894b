/-
# The containers behind a table

While slots are given out, what is known of them is spread over five containers, and one
use writes to all of them (`Variables.addUsage`).  Nothing in the containers says that
they agree.  `Variables.Intact` says it: the slots that appeared are those with a record,
each of them once, every name is bound to one of them, a record is that of its slot and
has a source, a type and a last type, and what is recorded or reserved lies below the next
slot.

A table says all this by its shape, and one step on a table either gives the next one or
gives none.  So the rules are stated on tables, and `Recording.Carries` ties a recording
to a step: on intact containers the table that they show changes as the step says, also
where the recording is refused half way.  Each of `addUsage`, `addThis`, `addParam` and
`addReference` carries out the step of its name, and a loop carries out the steps of its
items (`carries_forM`).  For a whole method this is `SlotTable.allocate_eq`; nothing after
it looks into the containers.
-/
import JvmListing.Assembly.Variables
import JvmListing.Proofs.SlotTable
import Mathlib.Data.List.Nodup

namespace JvmListing

/-! ## Maps from slots -/

namespace SlotMap

variable {α : Type}

theorem lookup_insertEntry (slot k : Nat) (a : α) : ∀ l : List (Nat × α),
    (insertEntry slot a l).lookup k = if k = slot then some a else l.lookup k
  | [] => by
      by_cases h : k = slot
      · simp [insertEntry, h]
      · simp [insertEntry, List.lookup_cons, h, beq_eq_false_iff_ne.mpr h]
  | (k', b) :: rest => by
      have ih := lookup_insertEntry slot k a rest
      unfold insertEntry
      split
      · by_cases h : k = slot
        · simp [h]
        · simp [List.lookup_cons, h, beq_eq_false_iff_ne.mpr h]
      · split
        · rename_i heq
          by_cases h : k = slot
          · simp [h]
          · rw [List.lookup_cons, List.lookup_cons, ← heq, beq_eq_false_iff_ne.mpr h, if_neg h]
        · rename_i hne
          rw [List.lookup_cons, List.lookup_cons, ih]
          by_cases h : k = k'
          · have hslot : ¬k' = slot := fun e => hne e.symm
            simp [h, hslot]
          · rw [beq_eq_false_iff_ne.mpr h]

theorem get?_set (m : SlotMap α) (slot k : Nat) (a : α) :
    (m.set slot a).get? k = if k = slot then some a else m.get? k :=
  lookup_insertEntry slot k a m.entries

theorem lookup_of_mem {slot : Nat} {a : α} : ∀ {l : List (Nat × α)},
    (l.map Prod.fst).Pairwise (· < ·) → (slot, a) ∈ l → l.lookup slot = some a
  | (k, b) :: rest, hl, h => by
      obtain ⟨hk, hrest⟩ := List.pairwise_cons.mp hl
      rcases List.mem_cons.mp h with heq | h
      · obtain ⟨rfl, rfl⟩ := Prod.mk.inj heq
        simp
      · have hlt : k < slot := hk slot (List.mem_map_of_mem h)
        rw [List.lookup_cons, beq_eq_false_iff_ne.mpr (Nat.ne_of_gt hlt)]
        exact lookup_of_mem hrest h

/-- Every slot has one value at most. -/
theorem mem_entries_iff {m : SlotMap α} {slot : Nat} {a : α} :
    (slot, a) ∈ m.entries ↔ m.get? slot = some a :=
  ⟨lookup_of_mem m.ascending, mem_of_lookup⟩

end SlotMap

/-! ## Records -/

/-- What the record of a used slot always is: it has a source, and a last type that is one
of its types, each of which it has once. -/
structure Variable.Intact (x : Variable) : Prop where
  sources : x.sources ≠ []
  distinct : x.usages.Nodup
  last : ∃ type ∈ x.usages, x.lastType? = some type

namespace Variable

variable {x : Variable}

/-- The first use is recorded, whatever it is. -/
theorem records_new (slot : Nat) (type : Ty) (kind : UsageKind) :
    ({ slot } : Variable).records type kind = true := by
  simp [records]

/-- After the first use the test on missing types has no effect. -/
theorem Intact.records_eq (h : x.Intact) (type : Ty) (kind : UsageKind) :
    x.records type kind = x.toInfo.records type kind := by
  obtain ⟨last, hmem, hlast⟩ := h.last
  have hne : x.usages.isEmpty = false := List.isEmpty_eq_false_iff.mpr (List.ne_nil_of_mem hmem)
  simp [records, VarInfo.records, toInfo, lastUsedType, hne, hlast]

section Use

variable (name : String) (type : Ty) (kind : UsageKind) (source : VarSource)

@[simp] theorem slot_use : (x.use name type kind source).slot = x.slot := by
  unfold use
  cases x.records type kind <;> rfl

@[simp] theorem wide_use : (x.use name type kind source).wide = (x.wide || type.isWide) := rfl

theorem toInfo_use_new (slot : Nat) :
    (({ slot } : Variable).use name type kind source).toInfo = .first slot name type source := by
  simp [use, records_new, addType, toInfo, lastUsedType, VarInfo.first]

theorem Intact.toInfo_use (h : x.Intact) :
    (x.use name type kind source).toInfo = x.toInfo.use name type kind source := by
  unfold use VarInfo.use
  rw [h.records_eq]
  cases x.toInfo.records type kind
  · rfl
  · by_cases hin : type ∈ x.usages <;> simp [addType, toInfo, lastUsedType, hin]

theorem intact_use_new (slot : Nat) : (({ slot } : Variable).use name type kind source).Intact where
  sources := List.append_ne_nil_of_right_ne_nil _ (List.cons_ne_nil _ _)
  distinct := by simp [use, records_new, addType]
  last := by simp [use, records_new, addType]

theorem Intact.use (h : x.Intact) : (x.use name type kind source).Intact where
  sources := List.append_ne_nil_of_right_ne_nil _ (List.cons_ne_nil _ _)
  distinct := by
    unfold Variable.use
    cases x.records type kind with
    | false => exact h.distinct
    | true =>
        by_cases hin : type ∈ x.usages
        · simpa [addType, hin] using h.distinct
        · simpa [addType, hin, List.nodup_append] using
            ⟨h.distinct, fun a ha e => hin (e ▸ ha)⟩
  last := by
    unfold Variable.use
    cases x.records type kind with
    | false => exact h.last
    | true =>
        refine ⟨type, ?_, rfl⟩
        by_cases hin : type ∈ x.usages <;> simp [addType, hin]

end Use

end Variable

namespace Variables

/-! ## One use -/

section Record

variable (v : Variables) (slot : Nat) (name : String) (type : Ty) (kind : UsageKind)
  (source : VarSource)

/-- The containers after a use that was not refused. -/
def record : Variables :=
  raise (slot + max type.size 1) (bindName name slot (reserve slot type kind
    (touch slot name type kind source (appear slot v))))

/-- A use is refused before it has written anything, or writes to all containers. -/
theorem addUsage_eq :
    addUsage slot name type kind source v =
      if v.table.isReserved slot then .error ⟨.reservedSlot, source.position⟩ v
      else if slotLimit < slot + max type.size 1 then .error ⟨.tooManySlots, source.position⟩ v
      else .ok () (v.record slot name type kind source) := by
  show (if v.table.isReserved slot then throw ⟨.reservedSlot, source.position⟩
      else if slotLimit < slot + max type.size 1 then throw ⟨.tooManySlots, source.position⟩
      else do
        modify (appear slot)
        modify (touch slot name type kind source)
        modify (reserve slot type kind)
        modify (bindName name slot)
        modify (raise (slot + max type.size 1)) : Recording Unit) v = _
  split
  · rfl
  · split <;> rfl

/-- What a use makes of the record of its slot. -/
def nextRecord : Variable := ((v.info? slot).getD { slot }).use name type kind source

@[simp] theorem info?_record (k : Nat) :
    (v.record slot name type kind source).info? k =
      if k = slot then some (v.nextRecord slot name type kind source) else v.info? k :=
  SlotMap.get?_set ..

@[simp] theorem slotOf?_record (k : String) :
    (v.record slot name type kind source).slotOf? k =
      if k = name then some slot else v.slotOf? k :=
  lookup_bindKey name k slot v.names

theorem mem_wideSlots_record (w : Nat) :
    w ∈ (v.record slot name type kind source).wideSlots ↔
      if type.isWide then w = slot ∨ w ∈ v.wideSlots
      else if kind = .instruction .assign then w ∈ v.wideSlots ∧ w ≠ slot
      else w ∈ v.wideSlots :=
  SlotTable.mem_wide_record v.table slot name type kind source w

@[simp] theorem nextSlot_record :
    (v.record slot name type kind source).nextSlot = max v.nextSlot (slot + max type.size 1) :=
  rfl

theorem appearance_record :
    (v.record slot name type kind source).appearance =
      if (v.info? slot).isNone then v.appearance ++ [slot] else v.appearance :=
  rfl

end Record

/-! ## What uses keep -/

/-- Do the containers agree? -/
structure Intact (v : Variables) : Prop where
  distinct : v.appearance.Nodup
  appeared : ∀ s, s ∈ v.appearance ↔ (v.info? s).isSome = true
  bound : ∀ {name : String} {s : Nat}, v.slotOf? name = some s → (v.info? s).isSome = true
  own : ∀ {s : Nat} {x : Variable}, v.info? s = some x → x.slot = s
  records : ∀ {s : Nat} {x : Variable}, v.info? s = some x → x.Intact
  below : ∀ {s : Nat}, (v.info? s).isSome = true → s < v.nextSlot
  reserved : ∀ {s : Nat}, s ∈ v.wideSlots → s + 1 < v.nextSlot
  flagged : ∀ {s : Nat}, s ∈ v.wideSlots → ∃ x, v.info? s = some x ∧ x.wide = true

theorem intact_empty : Intact {} where
  distinct := List.nodup_nil
  appeared s := by simp [info?, SlotMap.get?, SlotMap.empty]
  bound h := by cases h
  own h := by cases h
  records h := by cases h
  below h := by cases h
  reserved h := by cases h
  flagged h := by cases h

section Keep

variable {v : Variables} (h : v.Intact) (slot : Nat) (name : String) (type : Ty)
  (kind : UsageKind) (source : VarSource)
include h

theorem Intact.slot_nextRecord : (v.nextRecord slot name type kind source).slot = slot := by
  cases hx : v.info? slot with
  | none => simp [nextRecord, hx]
  | some x => simp [nextRecord, hx, h.own hx]

theorem Intact.intact_nextRecord : (v.nextRecord slot name type kind source).Intact := by
  unfold nextRecord
  cases hx : v.info? slot with
  | none => exact Variable.intact_use_new ..
  | some x => exact (h.records hx).use ..

/-- Slots with a reserved successor keep the mark that they were wide, and a new one gets
it. -/
theorem Intact.flagged_record {s : Nat}
    (hs : s ∈ (v.record slot name type kind source).wideSlots) :
    ∃ x, (v.record slot name type kind source).info? s = some x ∧ x.wide = true := by
  have hold : s ∈ v.wideSlots →
      ∃ x, (v.record slot name type kind source).info? s = some x ∧ x.wide = true := by
    intro hwide
    obtain ⟨x, hx, hmark⟩ := h.flagged hwide
    rw [info?_record]
    split
    · rename_i heq
      exact ⟨_, rfl, by simp [nextRecord, ← heq, hx, hmark]⟩
    · exact ⟨x, hx, hmark⟩
  rw [mem_wideSlots_record] at hs
  split at hs
  · rename_i hwide
    rcases hs with rfl | hs
    · exact ⟨_, by rw [info?_record, if_pos rfl], by simp [nextRecord, hwide]⟩
    · exact hold hs
  · split at hs
    · exact hold hs.1
    · exact hold hs

theorem Intact.record : (v.record slot name type kind source).Intact where
  distinct := by
    rw [appearance_record]
    split
    · rename_i hnone
      rw [← List.concat_eq_append]
      refine h.distinct.concat fun hmem => ?_
      rw [h.appeared, Option.isNone_iff_eq_none.mp hnone] at hmem
      cases hmem
    · exact h.distinct
  appeared := by
    intro s
    rw [appearance_record, info?_record]
    by_cases hs : s = slot
    · subst hs
      simp only [if_true, Option.isSome_some, iff_true]
      split
      · exact List.mem_append_right _ (List.mem_singleton_self s)
      · rename_i hsome
        exact (h.appeared s).mpr (by simpa [Option.isSome_iff_ne_none] using hsome)
    · rw [if_neg hs, ← h.appeared]
      split <;> simp [hs]
  bound := by
    intro k s hk
    rw [slotOf?_record] at hk
    rw [info?_record]
    split at hk
    · simp [Option.some.inj hk]
    · split
      · rfl
      · exact h.bound hk
  own := by
    intro s x hx
    rw [info?_record] at hx
    split at hx
    · rename_i hs
      rw [← Option.some.inj hx, h.slot_nextRecord, hs]
    · exact h.own hx
  records := by
    intro s x hx
    rw [info?_record] at hx
    split at hx
    · rw [← Option.some.inj hx]
      exact h.intact_nextRecord ..
    · exact h.records hx
  below := by
    intro s hs
    rw [info?_record] at hs
    rw [nextSlot_record]
    split at hs
    · omega
    · have := h.below hs
      omega
  reserved := by
    intro s hs
    rw [mem_wideSlots_record] at hs
    rw [nextSlot_record]
    split at hs
    · rename_i hwide
      have hsize : type.size = 2 := by simpa [Ty.isWide] using hwide
      rcases hs with rfl | hs
      · omega
      · have := h.reserved hs
        omega
    · have hold : s ∈ v.wideSlots := by
        split at hs
        · exact hs.1
        · exact hs
      have := h.reserved hold
      omega
  flagged := h.flagged_record slot name type kind source

end Keep

/-! ## The table of a use -/

section Table

variable {v : Variables} (h : v.Intact)
include h

/-- Every slot that appeared has its record. -/
theorem Intact.exists_info? {s : Nat} (hs : s ∈ v.appearance) :
    ∃ x, v.info? s = some x ∧ x.slot = s := by
  obtain ⟨x, hx⟩ := Option.isSome_iff_exists.mp ((h.appeared s).mp hs)
  exact ⟨x, hx, h.own hx⟩

theorem Intact.find?_filterMap (k : Nat) {order : List Nat} (hsub : order ⊆ v.appearance) :
    ((order.filterMap v.info?).map Variable.toInfo).find? (·.slot == k)
      = if k ∈ order then (v.info? k).map Variable.toInfo else none := by
  induction order with
  | nil => rfl
  | cons s order ih =>
      obtain ⟨x, hx, hslot⟩ := h.exists_info? (hsub List.mem_cons_self)
      rw [List.filterMap_cons_some hx, List.map_cons, List.find?_cons,
        ih (List.subset_of_cons_subset hsub)]
      by_cases hk : s = k
      · subst hk
        simp [Variable.toInfo, hslot, hx]
      · have hhead : (x.toInfo.slot == k) = false :=
          beq_eq_false_iff_ne.mpr fun e => hk (hslot.symm.trans e)
        have hne : ¬k = s := fun e => hk e.symm
        simp [hhead, hne]

/-- The table shows of a slot what its record says. -/
theorem Intact.info?_table (k : Nat) : v.table.info? k = (v.info? k).map Variable.toInfo := by
  rw [SlotTable.info?, table, inAppearanceOrder, h.find?_filterMap k (List.Subset.refl _)]
  split
  · rfl
  · rename_i hk
    rw [h.appeared, Bool.not_eq_true, Option.isSome_eq_false_iff, Option.isNone_iff_eq_none] at hk
    rw [hk]
    rfl

section Record

variable (slot : Nat) (name : String) (type : Ty) (kind : UsageKind) (source : VarSource)

theorem Intact.toInfo_nextRecord : (v.nextRecord slot name type kind source).toInfo =
    SlotTable.nextInfo slot name type kind source ((v.info? slot).map Variable.toInfo) := by
  unfold nextRecord
  cases hx : v.info? slot with
  | none => exact Variable.toInfo_use_new ..
  | some x => exact (h.records hx).toInfo_use ..

omit h in
theorem filterMap_info?_record {order : List Nat} (hslot : slot ∉ order) :
    order.filterMap (v.record slot name type kind source).info? = order.filterMap v.info? := by
  refine List.filterMap_congr fun s hs => ?_
  have hne : s ≠ slot := fun e => hslot (e ▸ hs)
  rw [info?_record, if_neg hne]

/-- A use changes the records in their order of appearance as it changes a table: the one
of its slot in place, or by one more at the end. -/
theorem Intact.touch_filterMap {order : List Nat} (hsub : order ⊆ v.appearance)
    (hdistinct : order.Nodup) (hnew : slot ∈ order ∨ v.info? slot = none) :
    ((if slot ∈ order then order else order ++ [slot]).filterMap
        (v.record slot name type kind source).info?).map Variable.toInfo
      = SlotTable.touch slot name type kind source
          ((order.filterMap v.info?).map Variable.toInfo) := by
  induction order with
  | nil =>
      have hnone : v.info? slot = none := hnew.resolve_left List.not_mem_nil
      have hinfo := h.toInfo_nextRecord slot name type kind source
      rw [hnone] at hinfo
      simp [SlotTable.touch, hinfo, SlotTable.nextInfo]
  | cons s order ih =>
      obtain ⟨hs, hdistinct⟩ := List.nodup_cons.mp hdistinct
      obtain ⟨x, hx, hxs⟩ := h.exists_info? (hsub List.mem_cons_self)
      rw [List.filterMap_cons_some hx, List.map_cons, SlotTable.touch]
      by_cases heq : s = slot
      · subst heq
        have hinfo := h.toInfo_nextRecord s name type kind source
        rw [hx] at hinfo
        have hhead : x.toInfo.slot = s := hxs
        have hnext : (v.record s name type kind source).info? s
            = some (v.nextRecord s name type kind source) := by
          rw [info?_record, if_pos rfl]
        rw [if_pos List.mem_cons_self, if_pos hhead, List.filterMap_cons_some hnext,
          filterMap_info?_record s name type kind source hs, List.map_cons, hinfo]
        rfl
      · have hhead : ¬x.toInfo.slot = slot := fun e => heq (hxs.symm.trans e)
        have hne : ¬slot = s := fun e => heq e.symm
        have hrest : slot ∈ order ∨ v.info? slot = none :=
          hnew.imp_left fun hmem => (List.mem_cons.mp hmem).resolve_left hne
        have hsame : (v.record slot name type kind source).info? s = some x := by
          rw [info?_record, if_neg heq, hx]
        have hcons : (if slot ∈ s :: order then s :: order else s :: order ++ [slot])
            = s :: (if slot ∈ order then order else order ++ [slot]) := by
          by_cases hmem : slot ∈ order <;> simp [hmem, hne]
        rw [if_neg hhead, hcons, List.filterMap_cons_some hsame, List.map_cons,
          ih (List.subset_of_cons_subset hsub) hdistinct hrest]

/-- A use changes the table that the containers show as it changes a table. -/
theorem Intact.table_record : (v.record slot name type kind source).table
    = v.table.record slot name type kind source := by
  have happear : (v.record slot name type kind source).appearance =
      if slot ∈ v.appearance then v.appearance else v.appearance ++ [slot] := by
    rw [appearance_record]
    cases hx : v.info? slot <;> simp [h.appeared, hx]
  have hnew : slot ∈ v.appearance ∨ v.info? slot = none := by
    rw [h.appeared]
    cases v.info? slot <;> simp
  have hinfos := h.touch_filterMap slot name type kind source (List.Subset.refl _) h.distinct hnew
  rw [← happear] at hinfos
  unfold table SlotTable.record
  rw [inAppearanceOrder, hinfos]
  rfl

end Record

end Table

end Variables

/-! ## The orders of the records -/

open Variables

section Order

variable {v : Variables} (h : Variables.Intact v)
include h

/-- The records appear with their slots, and none is missing. -/
theorem Variables.Intact.map_slot_inAppearanceOrder :
    v.inAppearanceOrder.map (·.slot) = v.appearance := by
  suffices hmap : ∀ order : List Nat, order ⊆ v.appearance →
      (order.filterMap v.info?).map (·.slot) = order from hmap _ (List.Subset.refl _)
  intro order hsub
  induction order with
  | nil => rfl
  | cons s order ih =>
      obtain ⟨x, hx, hslot⟩ := h.exists_info? (hsub List.mem_cons_self)
      rw [List.filterMap_cons_some hx, List.map_cons, hslot, ih (List.subset_of_cons_subset hsub)]

theorem Variables.Intact.sound_table : v.table.Sound where
  recorded hs := by
    rw [h.info?_table, Option.isSome_map]
    exact h.bound hs
  below hs := by
    rw [h.info?_table, Option.isSome_map] at hs
    exact h.below hs
  reserved := h.reserved
  distinct := by
    show ((v.inAppearanceOrder.map Variable.toInfo).map (·.slot)).Nodup
    rw [List.map_map]
    exact h.map_slot_inAppearanceOrder ▸ h.distinct

theorem Variables.Intact.map_slot_values :
    v.infos.values.map (·.slot) = v.infos.entries.map Prod.fst := by
  rw [SlotMap.values, List.map_map]
  exact List.map_congr_left fun p hp => h.own (SlotMap.mem_entries_iff.mp hp)

/-- The records in their order of appearance are those of the map, each of them once. -/
theorem Variables.Intact.perm_inAppearanceOrder : v.inAppearanceOrder.Perm v.infos.values := by
  have hnodup : v.inAppearanceOrder.Nodup :=
    List.Nodup.of_map (·.slot) (h.map_slot_inAppearanceOrder ▸ h.distinct)
  have hvalues : v.infos.values.Nodup := by
    refine List.Nodup.of_map (·.slot) ?_
    rw [h.map_slot_values]
    exact v.infos.ascending.imp Nat.ne_of_lt
  refine (List.perm_ext_iff_of_nodup hnodup hvalues).mpr fun x => ?_
  rw [inAppearanceOrder, List.mem_filterMap, SlotMap.values, List.mem_map]
  constructor
  · rintro ⟨s, -, hx⟩
    exact ⟨(s, x), SlotMap.mem_entries_iff.mpr hx, rfl⟩
  · rintro ⟨⟨s, y⟩, hmem, rfl⟩
    have hx : v.info? s = some y := SlotMap.mem_entries_iff.mp hmem
    exact ⟨s, (h.appeared s).mpr (by rw [hx]; rfl), hx⟩

/-- By ascending slot, the table has the values of the map of records. -/
theorem Variables.Intact.bySlot_table : v.table.bySlot = v.infos.values.map Variable.toInfo := by
  have hordered : (v.infos.values.map Variable.toInfo).Pairwise (·.slot < ·.slot) := by
    have hslots : v.infos.values.Pairwise (·.slot < ·.slot) :=
      List.pairwise_map.mp (h.map_slot_values ▸ v.infos.ascending)
    exact List.pairwise_map.mpr hslots
  refine List.Perm.eq_of_pairwise ?_ h.sound_table.bySlot_ordered hordered ?_
  · intro a b _ _ hab hba
    exact absurd hab (Nat.lt_asymm hba)
  · exact v.table.perm_bySlot.trans (h.perm_inAppearanceOrder.map _)

end Order

/-! ## Recordings and steps -/

/-- The containers after a recording, with the fault if it is refused. -/
def Recording.after (r : Recording Unit) (v : Variables) : Variables × Option AssemblyError :=
  match r v with
  | .ok _ v' => (v', none)
  | .error e v' => (v', some e)

/-- One step on a table.  Where it fails there is no other table. -/
def SlotTable.runStep (step : SlotTable → AssemblyResult SlotTable) (t : SlotTable) :
    SlotTable × Option AssemblyError :=
  match step t with
  | .ok t' => (t', none)
  | .error e => (t, some e)

/-- One step after another, unless the first fails. -/
def SlotTable.andThen (step step' : SlotTable → SlotTable × Option AssemblyError) (t : SlotTable) :
    SlotTable × Option AssemblyError :=
  match step t with
  | (t', none) => step' t'
  | (t', some e) => (t', some e)

/-- Does a recording carry out a step, from given containers?  It leaves them intact,
whether it is refused or not, the next slot does not go back, and the table that they show
changes as the step says, with the same fault. -/
structure Recording.Carries (r : Recording Unit)
    (step : SlotTable → SlotTable × Option AssemblyError) (v : Variables) : Prop where
  intact : (r.after v).1.Intact
  nextSlot_le : v.nextSlot ≤ (r.after v).1.nextSlot
  table : step v.table = ((r.after v).1.table, (r.after v).2)

namespace Recording

variable {v : Variables} {r r' : Recording Unit}
  {step step' : SlotTable → SlotTable × Option AssemblyError}

/-- Only what is done to the given containers counts. -/
theorem Carries.of_eq (h : r.Carries step v) (hr : r' v = r v)
    (hstep : step' v.table = step v.table) : r'.Carries step' v := by
  have hafter : r'.after v = r.after v := by rw [after, after, hr]
  exact ⟨hafter ▸ h.intact, hafter ▸ h.nextSlot_le, hafter ▸ hstep.trans h.table⟩

theorem carries_pure (hv : v.Intact) : (pure () : Recording Unit).Carries (fun t => (t, none)) v :=
  ⟨hv, Nat.le_refl _, rfl⟩

theorem carries_throw (hv : v.Intact) (e : AssemblyError) :
    (throw e : Recording Unit).Carries (fun t => (t, some e)) v :=
  ⟨hv, Nat.le_refl _, rfl⟩

/-- A use carries out the use of a table: where it is refused both stay, and where it is
not both are the next ones. -/
theorem carries_addUsage (hv : v.Intact) (slot : Nat) (name : String) (type : Ty)
    (kind : UsageKind) (source : VarSource) : (addUsage slot name type kind source).Carries
      (SlotTable.runStep (·.use slot name type kind source)) v := by
  by_cases hreserved : v.table.isReserved slot = true
  · refine (carries_throw hv ⟨.reservedSlot, source.position⟩).of_eq ?_ ?_
    · rw [addUsage_eq, if_pos hreserved]
      rfl
    · rw [SlotTable.runStep, SlotTable.use_eq, if_pos hreserved]
  · by_cases hlimit : slotLimit < slot + max type.size 1
    · refine (carries_throw hv ⟨.tooManySlots, source.position⟩).of_eq ?_ ?_
      · rw [addUsage_eq, if_neg hreserved, if_pos hlimit]
        rfl
      · rw [SlotTable.runStep, SlotTable.use_eq, if_neg hreserved, if_pos hlimit]
    · have hafter : (addUsage slot name type kind source).after v =
          (v.record slot name type kind source, none) := by
        rw [after, addUsage_eq, if_neg hreserved, if_neg hlimit]
      constructor
      · rw [hafter]
        exact hv.record ..
      · rw [hafter]
        exact Nat.le_max_left ..
      · rw [hafter, SlotTable.runStep, SlotTable.use_eq, if_neg hreserved, if_neg hlimit,
          hv.table_record]

theorem carries_addThis (hv : v.Intact) (selfType : String) (m : MethodDef) :
    (addThis selfType m).Carries (SlotTable.runStep (SlotTable.addThis selfType m)) v := by
  unfold addThis
  cases hstatic : Access.isStatic m.access with
  | true =>
      refine (carries_pure hv).of_eq rfl ?_
      rw [SlotTable.runStep, SlotTable.addThis, if_pos hstatic]
  | false =>
      refine (carries_addUsage hv 0 "this" (.object selfType) .declared _).of_eq rfl ?_
      rw [SlotTable.runStep, SlotTable.addThis, if_neg (by simp [hstatic])]
      rfl

theorem carries_addParam (m : MethodDef) (hv : v.Intact) (p : Param) :
    (addParam m p).Carries (SlotTable.runStep (SlotTable.addParam m · p)) v := by
  unfold addParam
  cases htype : Ty.ofFieldDescriptor? p.desc with
  | none =>
      refine (carries_throw hv ⟨.illegalParam p.name p.desc, m.position⟩).of_eq rfl ?_
      rw [SlotTable.runStep, SlotTable.addParam, htype]
  | some type =>
      refine (carries_addUsage hv v.nextSlot p.name type .declared _).of_eq rfl ?_
      rw [SlotTable.runStep, SlotTable.addParam, htype]
      rfl

/-- A name stands for the same record in the containers and in the table. -/
theorem resolve?_table (hv : v.Intact) (name : String) : v.table.resolve? name =
    ((v.byName? name).or ((rawSlot? name).bind v.info?)).map Variable.toInfo := by
  have hbound : v.table.byName? name = (v.byName? name).map Variable.toInfo := by
    show (v.slotOf? name).bind v.table.info? = _
    cases hs : v.slotOf? name <;> simp [byName?, hs, hv.info?_table]
  rw [SlotTable.resolve?, hbound, Option.map_or, Option.map_bind]
  congr 2
  exact funext hv.info?_table

theorem run_get {α : Type} (next : Variables → Recording α) (v : Variables) :
    (get >>= next : Recording α) v = next v v := rfl

theorem carries_addReference (hv : v.Intact) (r : SlotTable.Reference) :
    (addReference r).Carries (SlotTable.runStep (·.addReference r)) v := by
  have hresolve := resolve?_table hv r.ref.name
  cases hx : (v.byName? r.ref.name).or ((rawSlot? r.ref.name).bind v.info?) with
  | none =>
      rw [hx] at hresolve
      refine (carries_addUsage hv ((rawSlot? r.ref.name).getD v.nextSlot) r.ref.name r.ref.type
        (.instruction r.ref.use) ⟨r.position, some r.entry⟩).of_eq ?_ ?_
      · rw [Variables.addReference, run_get, hx]
      · rw [SlotTable.runStep, SlotTable.addReference, hresolve]
        rfl
  | some x =>
      rw [hx] at hresolve
      have hcheck : addReference r v = (do
          ofExcept (SlotTable.checkHeld x.toInfo r)
          addUsage x.slot r.ref.name r.ref.type (.instruction r.ref.use)
            ⟨r.position, some r.entry⟩ : Recording Unit) v := by
        rw [Variables.addReference, run_get, hx]
      have hstep : v.table.addReference r = (SlotTable.checkHeld x.toInfo r >>= fun _ =>
          v.table.use x.slot r.ref.name r.ref.type (.instruction r.ref.use)
            ⟨r.position, some r.entry⟩) := by
        rw [SlotTable.addReference, hresolve]
        simp only [Option.map_some]
        cases SlotTable.checkHeld x.toInfo r <;> rfl
      cases hheld : SlotTable.checkHeld x.toInfo r with
      | error e =>
          rw [hheld] at hcheck hstep
          refine (carries_throw hv e).of_eq hcheck ?_
          rw [SlotTable.runStep, hstep]
          rfl
      | ok _ =>
          rw [hheld] at hcheck hstep
          refine (carries_addUsage hv x.slot r.ref.name r.ref.type (.instruction r.ref.use)
            ⟨r.position, some r.entry⟩).of_eq hcheck ?_
          rw [SlotTable.runStep, hstep]
          rfl

/-- What two recordings carry out, they carry out one after the other. -/
theorem Carries.bind (h : r.Carries step v)
    (h' : ∀ {u : Variables}, u.Intact → r'.Carries step' u) :
    (r >>= fun _ => r').Carries (SlotTable.andThen step step') v := by
  cases hr : r v with
  | ok a u =>
      have hafter : r.after v = (u, none) := by rw [after, hr]
      have hbind : (r >>= fun _ => r').after v = r'.after u := by
        show after (EStateM.bind r fun _ => r') v = _
        rw [after, EStateM.bind, hr, after]
      obtain ⟨hu, hle, htable⟩ := h
      rw [hafter] at hu hle htable
      obtain ⟨hu', hle', htable'⟩ := h' hu
      rw [← hbind] at hu' hle' htable'
      exact ⟨hu', Nat.le_trans hle hle', by rw [SlotTable.andThen, htable]; exact htable'⟩
  | error e u =>
      have hbind : (r >>= fun _ => r').after v = r.after v := by
        show after (EStateM.bind r fun _ => r') v = _
        rw [after, EStateM.bind, hr, after, hr]
      have hfault : (r.after v).2 = some e := by rw [after, hr]
      obtain ⟨hu, hle, htable⟩ := h
      rw [← hbind] at hu hle htable hfault
      refine ⟨hu, hle, ?_⟩
      rw [SlotTable.andThen, htable, hfault]

/-- A loop carries out the steps of its items. -/
theorem carries_forM {α : Type} {f : α → Recording Unit}
    {step : SlotTable → α → AssemblyResult SlotTable}
    (hstep : ∀ {u : Variables} (a : α), u.Intact → (f a).Carries (SlotTable.runStep (step · a)) u) :
    ∀ (items : List α) {v : Variables}, v.Intact →
      (items.forM f).Carries (runSteps step · items) v
  | [], _, hv => carries_pure hv
  | a :: rest, v, hv => by
      refine ((hstep a hv).bind (carries_forM hstep rest)).of_eq rfl ?_
      show runSteps step v.table (a :: rest) = _
      rw [runSteps, SlotTable.andThen, SlotTable.runStep]
      cases step v.table a <;> rfl

end Recording

namespace SlotTable

/-! ## Methods -/

theorem finished_runStep (step : SlotTable → AssemblyResult SlotTable) (t : SlotTable) :
    finished (runStep step t) = step t := by
  rw [runStep]
  cases step t <;> rfl

theorem finished_andThen (step step' : SlotTable → SlotTable × Option AssemblyError)
    (t : SlotTable) :
    finished (andThen step step' t) = (finished (step t) >>= fun t' => finished (step' t')) := by
  rw [andThen]
  rcases step t with ⟨t', _ | e⟩ <;> rfl

/-- The slots of a method are given out as the rules on tables say. -/
theorem allocate_eq (selfType : String) (m : MethodDef) (code : Code) :
    allocate selfType m code =
      (declared selfType m >>= fun t => (references code).foldlM SlotTable.addReference t) := by
  have hcarries := (Recording.carries_addThis intact_empty selfType m).bind fun hu =>
    (Recording.carries_forM (fun p hu => Recording.carries_addParam m hu p) m.params hu).bind
      fun hu => Recording.carries_forM (fun r hu => Recording.carries_addReference hu r)
        (references code) hu
  have hfinished : allocate selfType m code
      = finished (((addMethod selfType m code).after {}).1.table,
        ((addMethod selfType m code).after {}).2) := by
    rw [allocate, Recording.after]
    cases addMethod selfType m code {} <;> rfl
  rw [hfinished]
  refine (congrArg finished hcarries.table.symm).trans ?_
  rw [finished_andThen, finished_runStep, declared]
  show (addThis selfType m {} >>= _) = _
  cases addThis selfType m {} with
  | error e => rfl
  | ok t =>
      show finished (andThen _ _ t) = _
      rw [finished_andThen, finished_runSteps]
      simp only [finished_runSteps]
      rfl

theorem sound_allocate {selfType : String} {m : MethodDef} {code : Code} {t : SlotTable}
    (h : allocate selfType m code = .ok t) : t.Sound := by
  rw [allocate_eq] at h
  obtain ⟨t₀, h₀, hrun⟩ := except_bind_eq_ok.mp h
  exact (sound_declared h₀).run hrun

/-- No slot lies above the limit. -/
theorem cap_allocate_le {selfType : String} {m : MethodDef} {code : Code} {t : SlotTable}
    (h : allocate selfType m code = .ok t) : t.cap ≤ slotLimit := by
  rw [allocate_eq] at h
  obtain ⟨t₀, h₀, hrun⟩ := except_bind_eq_ok.mp h
  have hdeclared : t₀.cap ≤ slotLimit := by
    refine declared_keeps (P := fun u => u.cap ≤ slotLimit) (by decide) ?_ ?_ h₀
    · show max 0 (0 + max 1 1) ≤ slotLimit
      decide
    · intro t p type ht hfit
      exact Nat.max_le.mpr ⟨ht, hfit⟩
  have hkeep := foldlM_keeps (P := fun u : SlotTable => u.Sound ∧ u.cap ≤ slotLimit)
    (fun u r u' hu hr => by
      refine ⟨hu.1.addReference hr, ?_⟩
      obtain ⟨-, -, hfit, rfl⟩ := hu.1.addReference_ok hr
      exact Nat.max_le.mpr ⟨hu.2, hfit⟩)
    ⟨sound_declared h₀, hdeclared⟩ hrun
  exact hkeep.2

end SlotTable

end JvmListing
