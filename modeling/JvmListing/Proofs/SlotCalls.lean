/-
# Variables under any use

Containers of variables can be asked to record a use, to forget everything, or to record
the variables of a method, in any order and with any arguments.  A call may be refused,
also in the middle of a body, and the next one goes on with what it left behind.

Every call but `clear` carries out what the rules on tables say (`carries_recording`), so
the containers agree after any calls, and what they show is the table after the same calls
(`run_keeps`).  `Variables.run_intact` says what it means that they agree, container by
container.
-/
import JvmListing.Proofs.Variables

namespace JvmListing

open Variables

/-- What containers of variables can be asked to do. -/
inductive SlotCall where
  | use (slot : Nat) (name : String) (type : Ty) (kind : UsageKind) (source : VarSource)
  | clear
  | addThis (selfType : String) (m : MethodDef)
  | addParams (m : MethodDef)
  | addCode (code : Code)

/-- What a call does to the containers. -/
def SlotCall.recording : SlotCall → Recording Unit
  | .use slot name type kind source => addUsage slot name type kind source
  | .clear => Variables.clear
  | .addThis selfType m => Variables.addThis selfType m
  | .addParams m => Variables.addParams m
  | .addCode code => Variables.addCode code

namespace SlotTable

/-- What a call does to a table, with the fault of the call if it fails. -/
def perform (t : SlotTable) : SlotCall → SlotTable × Option AssemblyError
  | .use slot name type kind source => runStep (·.use slot name type kind source) t
  | .clear => ({}, none)
  | .addThis selfType m => runStep (addThis selfType m) t
  | .addParams m => addParams m t
  | .addCode code => addCode code t

/-- A new table after calls, in order. -/
def run (calls : List SlotCall) : SlotTable := calls.foldl (fun t call => (t.perform call).1) {}

end SlotTable

namespace Variables

/-- The containers after a call, with the fault of the call if it is refused. -/
def perform (v : Variables) (call : SlotCall) : Variables × Option AssemblyError :=
  call.recording.after v

/-- New containers after calls, in order. -/
def run (calls : List SlotCall) : Variables := calls.foldl (fun v call => (v.perform call).1) {}

/-- Every call but `clear` carries out what it does to a table. -/
theorem carries_recording {v : Variables} (hv : v.Intact) {call : SlotCall}
    (hcall : call ≠ .clear) : call.recording.Carries (·.perform call) v := by
  cases call with
  | use slot name type kind source => exact Recording.carries_addUsage hv ..
  | clear => exact absurd rfl hcall
  | addThis selfType m => exact Recording.carries_addThis hv selfType m
  | addParams m =>
      exact Recording.carries_forM (fun p hu => Recording.carries_addParam m hu p) m.params hv
  | addCode code =>
      exact Recording.carries_forM (fun r hu => Recording.carries_addReference hu r) _ hv

/-- A call leaves intact containers, which show the table after the call. -/
theorem perform_keeps {v : Variables} (hv : v.Intact) (call : SlotCall) :
    (v.perform call).1.Intact ∧ (v.perform call).1.table = (v.table.perform call).1
      ∧ (v.perform call).2 = (v.table.perform call).2 := by
  by_cases hcall : call = .clear
  · subst hcall
    exact ⟨intact_empty, rfl, rfl⟩
  · have hcarries := carries_recording hv hcall
    refine ⟨hcarries.intact, ?_, ?_⟩
    · rw [hcarries.table]
      rfl
    · rw [hcarries.table]
      rfl

/-- Calls leave intact containers, which show the table after the calls. -/
theorem run_keeps (calls : List SlotCall) :
    (run calls).Intact ∧ (run calls).table = SlotTable.run calls := by
  suffices h : ∀ v : Variables, v.Intact →
      (calls.foldl (fun v call => (v.perform call).1) v).Intact
      ∧ (calls.foldl (fun v call => (v.perform call).1) v).table
        = calls.foldl (fun t call => (t.perform call).1) v.table from h {} intact_empty
  induction calls with
  | nil => exact fun v hv => ⟨hv, rfl⟩
  | cons call calls ih =>
      intro v hv
      obtain ⟨hintact, htable, -⟩ := perform_keeps hv call
      rw [List.foldl_cons, List.foldl_cons, ← htable]
      exact ih _ hintact

/-- A use that is refused leaves the containers as they were. -/
theorem eq_of_addUsage_error {v v' : Variables} {slot : Nat} {name : String} {type : Ty}
    {kind : UsageKind} {source : VarSource} {e : AssemblyError}
    (h : addUsage slot name type kind source v = .error e v') : v' = v := by
  rw [addUsage_eq] at h
  split at h
  · cases h
    rfl
  · split at h
    · cases h
      rfl
    · cases h

/-- Whatever was asked of the containers, and whether it was refused or not, they agree.
The records in their order of appearance are all that there are, each of them once; a
bound name has a recorded slot; the record of a slot is that of the slot, has a source and
types without repetition, and its last type is one of them; all recorded slots and all
reserved ones lie below the next slot, and what a slot is reserved for is known to have
been wide.  A use that is refused leaves all containers as they were, and only `clear`
lowers the next slot.  What the containers show is the table after the same calls. -/
theorem run_intact (calls : List SlotCall) :
    let v := run calls
    -- the order of appearance and the map of records
    (v.inAppearanceOrder.Perm v.infos.values
      ∧ (v.inAppearanceOrder.map (·.slot)).Nodup
      ∧ ∀ s, s ∈ v.inAppearanceOrder.map (·.slot) ↔ (v.info? s).isSome = true)
    -- the names
    ∧ (∀ name s, v.slotOf? name = some s → (v.info? s).isSome = true)
    -- the records
    ∧ (∀ s x, v.info? s = some x → x.slot = s ∧ x.sources ≠ [] ∧ x.usages ≠ []
        ∧ x.usages.Nodup ∧ (∃ type ∈ x.usages, x.lastType? = some type) ∧ s + 1 ≤ v.nextSlot)
    -- the slots with a reserved successor
    ∧ (∀ s ∈ v.wideSlots, s + 2 ≤ v.nextSlot ∧ ∃ x, v.info? s = some x ∧ x.wide = true)
    -- what a refused use leaves, and what no call but `clear` does
    ∧ (∀ slot name type kind source e v', addUsage slot name type kind source v = .error e v' →
        v' = v)
    ∧ (∀ call, call ≠ .clear → v.nextSlot ≤ (v.perform call).1.nextSlot)
    -- what the containers show
    ∧ v.table = SlotTable.run calls ∧ v.table.bySlot = v.infos.values.map Variable.toInfo := by
  intro v
  obtain ⟨h, htable⟩ := run_keeps calls
  refine ⟨⟨h.perm_inAppearanceOrder, ?_, ?_⟩, fun name s => h.bound, ?_, ?_, ?_, ?_, htable,
    h.bySlot_table⟩
  · rw [h.map_slot_inAppearanceOrder]
    exact h.distinct
  · rw [h.map_slot_inAppearanceOrder]
    exact h.appeared
  · intro s x hx
    obtain ⟨hsources, hdistinct, type, hmem, hlast⟩ := h.records hx
    exact ⟨h.own hx, hsources, List.ne_nil_of_mem hmem, hdistinct, ⟨type, hmem, hlast⟩,
      h.below (by rw [hx]; rfl)⟩
  · intro s hs
    exact ⟨h.reserved hs, h.flagged hs⟩
  · intro slot name type kind source e v' hrefused
    exact eq_of_addUsage_error hrefused
  · intro call hcall
    exact (carries_recording h hcall).nextSlot_le

/-- A body that loads a float where an int is stored. -/
def floatOfInt : Code :=
  [⟨.operation (.var .istore "i"), {}⟩, ⟨.operation (.var .fload "i"), {}⟩,
   ⟨.operation (.var .astore "o"), {}⟩]

/-- A long whose upper half is then asked for, parameters of which the second has no
type, and a body that stops in the middle. -/
def refusals : List SlotCall :=
  [.use 0 "l" (.prim .long) .declared ⟨{}, none⟩,
   .use 1 "x" .int (.instruction .assign) ⟨{}, none⟩,
   .addParams ⟨0x0008, "m", [⟨"I", "a", {}⟩, ⟨"Q", "b", {}⟩], "V", {}, {}⟩,
   .addCode floatOfInt]

theorem run_intact_refusals :
    let v := run refusals
    v.appearance = [0, 2, 3] ∧ v.slotOf? "o" = none
    ∧ (v.slotOf? "i" = some 3 ∧ (v.info? 3).isSome = true)
    ∧ (0 ∈ v.wideSlots ∧ 2 ≤ v.nextSlot ∧ ∃ x, v.info? 0 = some x ∧ x.wide = true)
    ∧ (∃ e v', addUsage 65534 "j" (.prim .double) .declared ⟨{}, none⟩ v = .error e v' ∧ v' = v)
    ∧ (let call := .use 0 "l" .int (.instruction .assign) ⟨{}, none⟩
      (v.perform call).1.wideSlots = [] ∧ v.nextSlot ≤ (v.perform call).1.nextSlot) := by
  obtain ⟨-, hbound, -, hreserved, hrefused, hcall, -⟩ := run_intact refusals
  have hname : (run refusals).slotOf? "i" = some 3 := by decide
  have hwide : 0 ∈ (run refusals).wideSlots := by decide
  have hfail : ∃ e v', addUsage 65534 "j" (.prim .double) .declared ⟨{}, none⟩ (run refusals)
      = .error e v' := ⟨_, _, rfl⟩
  obtain ⟨e, v', hfail⟩ := hfail
  exact ⟨by decide, by decide, ⟨hname, hbound _ _ hname⟩, ⟨hwide, hreserved 0 hwide⟩,
    ⟨e, v', hfail, hrefused _ _ _ _ _ _ _ hfail⟩, by decide, hcall _ (fun h => by cases h)⟩

end Variables

end JvmListing
