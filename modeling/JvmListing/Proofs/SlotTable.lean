/-
# What a use does to the slots

`SlotTable.use` either refuses a use or gives the table `record`, and every fact
about the slots of a method comes from what `record` does to the four parts of a
table.  `Sound` is what any sequence of uses keeps: a bound name has a recorded
slot, every recorded slot and every reserved upper half lies below `cap`, and no
slot is recorded twice.

In a sound table a name stands for one slot, `slotFor`: the one it is bound to,
else the one it is the number of, else the next one.  `addReference_eq` says what
a reference does in these words; nothing after it looks into `addReference`.
-/
import JvmListing.Assembly.SlotTable
import Mathlib.Data.List.Basic
import Mathlib.Tactic.Common

namespace JvmListing

/-! ## Association lists -/

theorem lookup_bindKey {α β : Type} [DecidableEq α] [BEq α] [LawfulBEq α] (key k : α) (value : β) :
    ∀ l : List (α × β),
      (bindKey key value l).lookup k = if k = key then some value else l.lookup k
  | [] => by
      by_cases h : k = key
      · simp [bindKey, h]
      · have hb : (k == key) = false := beq_eq_false_iff_ne.mpr h
        simp [bindKey, List.lookup_cons, h, hb]
  | (k', v) :: rest => by
      by_cases hk : k' = key
      · subst hk
        by_cases h : k = k'
        · simp [bindKey, h]
        · have hb : (k == k') = false := beq_eq_false_iff_ne.mpr h
          simp [bindKey, List.lookup_cons, h, hb]
      · have ih := lookup_bindKey key k value rest
        simp only [bindKey, if_neg hk, List.lookup_cons, ih]
        by_cases h : k = k'
        · subst h
          simp [hk]
        · simp [beq_eq_false_iff_ne.mpr h]

theorem mem_of_lookup {α β : Type} [BEq α] [LawfulBEq α] {l : List (α × β)} {key : α} {value : β}
    (h : l.lookup key = some value) : (key, value) ∈ l := by
  obtain ⟨before, after, rfl, -⟩ := List.lookup_eq_some_iff.mp h
  exact List.mem_append_right _ List.mem_cons_self

/-! ## Runs of steps -/

/-- A computation that goes on succeeds exactly if both parts do. -/
theorem except_bind_eq_ok {ε α β : Type} {x : Except ε α} {f : α → Except ε β} {b : β} :
    (x >>= f) = .ok b ↔ ∃ a, x = .ok a ∧ f a = .ok b := by
  cases x with
  | error e =>
      constructor
      · intro h
        cases h
      · rintro ⟨_, h, _⟩
        cases h
  | ok a =>
      constructor
      · exact fun h => ⟨a, rfl, h⟩
      · rintro ⟨_, h, hf⟩
        cases h
        exact hf

theorem toOption_eq_some {ε α : Type} {x : Except ε α} {a : α} :
    x.toOption = some a ↔ x = .ok a := by
  cases x <;> simp [Except.toOption]

/-- Steps that all have to succeed are a monadic fold. -/
theorem finished_runSteps {σ α ε : Type} (step : σ → α → Except ε σ) :
    ∀ (s : σ) (items : List α), finished (runSteps step s items) = items.foldlM step s
  | _, [] => rfl
  | s, a :: rest => by
      cases h : step s a with
      | ok s' =>
          simp only [runSteps, h, List.foldlM_cons]
          exact finished_runSteps step s' rest
      | error e => simp [runSteps, h, finished, bind, Except.bind]

/-- What one step keeps, a run of steps keeps. -/
theorem foldlM_keeps {σ α ε : Type} {step : σ → α → Except ε σ} {P : σ → Prop}
    (hstep : ∀ s a s', P s → step s a = .ok s' → P s') :
    ∀ {items : List α} {s s' : σ}, P s → items.foldlM step s = .ok s' → P s'
  | [], _, _, hs, h => by
      cases h
      exact hs
  | a :: rest, s, s', hs, h => by
      rw [List.foldlM_cons] at h
      cases ha : step s a with
      | error e =>
          rw [ha] at h
          cases h
      | ok s₁ =>
          rw [ha] at h
          exact foldlM_keeps hstep (hstep s a s₁ hs ha) h

/-- What a step on any of the items keeps, a run over the items keeps. -/
theorem foldlM_keeps_of_mem {σ α ε : Type} {step : σ → α → Except ε σ} {P : σ → Prop} :
    ∀ {items : List α}, (∀ s a s', a ∈ items → P s → step s a = .ok s' → P s') →
    ∀ {s s' : σ}, P s → items.foldlM step s = .ok s' → P s'
  | [], _, _, _, hs, h => by
      cases h
      exact hs
  | a :: rest, hstep, s, s', hs, h => by
      rw [List.foldlM_cons] at h
      obtain ⟨s₁, ha, hrest⟩ := except_bind_eq_ok.mp h
      have hs₁ := hstep s a s₁ List.mem_cons_self hs ha
      exact foldlM_keeps_of_mem
        (fun s b s' hb => hstep s b s' (List.mem_cons_of_mem _ hb)) hs₁ hrest

namespace SlotTable

/-! ## One use -/

/-- The table after a use that was not refused. -/
def record (t : SlotTable) (slot : Nat) (name : String) (type : Ty) (kind : UsageKind)
    (source : VarSource) : SlotTable where
  infos := touch slot name type kind source t.infos
  names := bindKey name slot t.names
  wide :=
    if type.isWide then (if t.wide.contains slot then t.wide else slot :: t.wide)
    else if kind = .instruction .assign then t.wide.filter (· ≠ slot)
    else t.wide
  cap := max t.cap (slot + max type.size 1)

section Record

variable (t : SlotTable) (slot : Nat) (name : String) (type : Ty) (kind : UsageKind)
  (source : VarSource)

theorem use_eq :
    t.use slot name type kind source =
      if t.isReserved slot then .error ⟨.reservedSlot, source.position⟩
      else if slotLimit < slot + max type.size 1 then .error ⟨.tooManySlots, source.position⟩
      else .ok (t.record slot name type kind source) :=
  rfl

theorem use_eq_ok {t' : SlotTable} :
    t.use slot name type kind source = .ok t' ↔
      t.isReserved slot = false ∧ slot + max type.size 1 ≤ slotLimit
        ∧ t' = t.record slot name type kind source := by
  rw [use_eq]
  by_cases hr : t.isReserved slot = true
  · simp [hr]
  · by_cases hl : slotLimit < slot + max type.size 1
    · simp only [hr, if_neg, if_pos hl, Bool.false_eq_true, not_false_eq_true]
      constructor
      · intro h
        cases h
      · rintro ⟨-, h, -⟩
        omega
    · simp only [hr, if_neg hl, if_neg, Bool.false_eq_true, not_false_eq_true,
        Except.ok.injEq, true_and]
      constructor
      · intro h
        exact ⟨by omega, h.symm⟩
      · rintro ⟨-, h⟩
        exact h.symm

@[simp] theorem slotOf?_record (k : String) :
    (t.record slot name type kind source).slotOf? k =
      if k = name then some slot else t.slotOf? k :=
  lookup_bindKey name k slot t.names

@[simp] theorem cap_record :
    (t.record slot name type kind source).cap = max t.cap (slot + max type.size 1) := rfl

/-- What a use makes of what was known of its slot. -/
def nextInfo : Option VarInfo → VarInfo
  | none => .first slot name type source
  | some info => info.use name type kind source

theorem find?_touch (k : Nat) : ∀ l : List VarInfo,
    (touch slot name type kind source l).find? (·.slot == k) =
      if k = slot then
        some (nextInfo slot name type kind source (l.find? (·.slot == slot)))
      else l.find? (·.slot == k)
  | [] => by
      by_cases h : k = slot
      · simp [touch, nextInfo, VarInfo.first, h]
      · have h' : slot ≠ k := fun e => h e.symm
        simp [touch, VarInfo.first, h, h']
  | info :: rest => by
      have ih := find?_touch k rest
      by_cases hs : info.slot = slot
      · by_cases h : k = slot
        · simp [touch, nextInfo, VarInfo.use, hs, h]
        · have h' : info.slot ≠ k := fun e => h (e.symm.trans hs)
          simp only [touch, if_pos hs, if_neg h, List.find?_cons, VarInfo.use,
            beq_eq_false_iff_ne.mpr h']
      · by_cases h : k = slot
        · subst h
          simp only [if_true] at ih ⊢
          simp only [touch, if_neg hs, List.find?_cons, beq_eq_false_iff_ne.mpr hs]
          exact ih
        · simp only [if_neg h] at ih ⊢
          simp only [touch, if_neg hs, List.find?_cons, ih]

@[simp] theorem info?_record (k : Nat) :
    (t.record slot name type kind source).info? k =
      if k = slot then some (nextInfo slot name type kind source (t.info? slot))
      else t.info? k :=
  find?_touch slot name type kind source k t.infos

theorem map_slot_touch : ∀ l : List VarInfo,
    (touch slot name type kind source l).map (·.slot) =
      if slot ∈ l.map (·.slot) then l.map (·.slot) else l.map (·.slot) ++ [slot]
  | [] => by simp [touch, VarInfo.first]
  | info :: rest => by
      by_cases hs : info.slot = slot
      · simp [touch, VarInfo.use, hs]
      · have ih := map_slot_touch rest
        have hne : slot ≠ info.slot := fun e => hs e.symm
        simp only [touch, if_neg hs, List.map_cons, ih, List.mem_cons, hne, false_or]
        split <;> rfl

theorem mem_wide_record (w : Nat) :
    w ∈ (t.record slot name type kind source).wide ↔
      if type.isWide then w = slot ∨ w ∈ t.wide
      else if kind = .instruction .assign then w ∈ t.wide ∧ w ≠ slot
      else w ∈ t.wide := by
  simp only [record]
  split
  · by_cases hc : slot ∈ t.wide
    · simp only [List.contains_iff_mem, hc, if_true]
      constructor
      · exact Or.inr
      · rintro (rfl | h)
        · exact hc
        · exact h
    · simp [hc]
  · split <;> simp

end Record

/-! ## What uses keep -/

/-- A table that uses can lead to. -/
structure Sound (t : SlotTable) : Prop where
  recorded : ∀ {name : String} {s : Nat}, t.slotOf? name = some s → (t.info? s).isSome
  below : ∀ {s : Nat}, (t.info? s).isSome → s < t.cap
  reserved : ∀ {s : Nat}, s ∈ t.wide → s + 1 < t.cap
  distinct : (t.infos.map (·.slot)).Nodup

theorem slot_of_info? {t : SlotTable} {s : Nat} {info : VarInfo} (h : t.info? s = some info) :
    info.slot = s := by
  have := List.find?_some h
  simpa using this

theorem mem_of_info? {t : SlotTable} {s : Nat} {info : VarInfo} (h : t.info? s = some info) :
    info ∈ t.infos :=
  List.mem_of_find?_eq_some h

/-- Of slots that are recorded once, each is found. -/
theorem Sound.info?_of_mem {t : SlotTable} (h : t.Sound) {info : VarInfo}
    (hmem : info ∈ t.infos) : t.info? info.slot = some info := by
  have hd := h.distinct
  unfold info?
  generalize t.infos = l at hd hmem
  induction l with
  | nil => cases hmem
  | cons x rest ih =>
      rw [List.map_cons, List.nodup_cons] at hd
      rcases List.mem_cons.mp hmem with rfl | hrest
      · simp
      · have hne : x.slot ≠ info.slot := fun e =>
          hd.1 (e ▸ List.mem_map_of_mem hrest)
        simp only [List.find?_cons, beq_eq_false_iff_ne.mpr hne]
        exact ih hd.2 hrest

theorem sound_empty : Sound {} where
  recorded := by intro _ _ h; cases h
  below := by intro _ h; cases h
  reserved := by intro _ h; cases h
  distinct := List.nodup_nil

theorem Sound.record {t : SlotTable} (h : t.Sound) (slot : Nat) (name : String) (type : Ty)
    (kind : UsageKind) (source : VarSource) : (t.record slot name type kind source).Sound where
  recorded := by
    intro k s hs
    rw [slotOf?_record] at hs
    rw [info?_record]
    split at hs
    · cases hs
      simp
    · split
      · rfl
      · exact h.recorded hs
  below := by
    intro s hs
    rw [info?_record] at hs
    rw [cap_record]
    split at hs
    · omega
    · have := h.below hs
      omega
  reserved := by
    intro s hs
    rw [mem_wide_record] at hs
    rw [cap_record]
    split at hs
    · rename_i hw
      have hsize : type.size = 2 := by simpa [Ty.isWide] using hw
      rcases hs with rfl | hs
      · omega
      · have := h.reserved hs
        omega
    · have hold : s ∈ t.wide := by
        split at hs
        · exact hs.1
        · exact hs
      have := h.reserved hold
      omega
  distinct := by
    show ((touch slot name type kind source t.infos).map (·.slot)).Nodup
    rw [map_slot_touch]
    split
    · exact h.distinct
    · rename_i hnot
      exact List.nodup_append.mpr
        ⟨h.distinct, by simp, by
          intro a ha b hb e
          rw [List.mem_singleton] at hb
          exact hnot (hb ▸ e ▸ ha)⟩

/-- In a sound table nothing is known of the next slot. -/
theorem Sound.info?_cap {t : SlotTable} (h : t.Sound) : t.info? t.cap = none := by
  cases hc : t.info? t.cap with
  | none => rfl
  | some info => exact absurd (h.below (by rw [hc]; rfl)) (Nat.lt_irrefl _)

/-! ## Slots in order -/

theorem perm_insertBySlot (info : VarInfo) : ∀ l : List VarInfo,
    (insertBySlot info l).Perm (info :: l)
  | [] => .refl _
  | x :: rest => by
      rw [insertBySlot]
      split
      · exact .refl _
      · exact ((perm_insertBySlot info rest).cons x).trans (.swap ..)

theorem perm_bySlot (t : SlotTable) : t.bySlot.Perm t.infos := by
  unfold bySlot
  induction t.infos with
  | nil => exact .refl _
  | cons info rest ih => exact (perm_insertBySlot info _).trans (ih.cons info)

theorem pairwise_insertBySlot {info : VarInfo} {l : List VarInfo}
    (h : l.Pairwise (·.slot ≤ ·.slot)) : (insertBySlot info l).Pairwise (·.slot ≤ ·.slot) := by
  induction l with
  | nil => exact List.pairwise_singleton _ _
  | cons x rest ih =>
      obtain ⟨hx, hrest⟩ := List.pairwise_cons.mp h
      rw [insertBySlot]
      split
      · rename_i hle
        refine List.pairwise_cons.mpr ⟨List.forall_mem_cons.mpr ⟨hle, ?_⟩, h⟩
        exact fun y hy => Nat.le_trans hle (hx y hy)
      · rename_i hlt
        refine List.pairwise_cons.mpr ⟨fun y hy => ?_, ih hrest⟩
        rcases List.mem_cons.mp ((perm_insertBySlot info rest).mem_iff.mp hy) with rfl | hy
        · exact Nat.le_of_lt (Nat.not_le.mp hlt)
        · exact hx y hy

theorem Sound.bySlot_ordered {t : SlotTable} (h : t.Sound) :
    t.bySlot.Pairwise (·.slot < ·.slot) := by
  have hle : t.bySlot.Pairwise (·.slot ≤ ·.slot) := by
    unfold bySlot
    induction t.infos with
    | nil => exact List.Pairwise.nil
    | cons info rest ih => exact pairwise_insertBySlot ih
  have hne : (t.bySlot.map (·.slot)).Nodup := (t.perm_bySlot.map _).nodup_iff.mpr h.distinct
  exact (hle.and (List.pairwise_map.mp hne)).imp fun hboth => Nat.lt_of_le_of_ne hboth.1 hboth.2

theorem Sound.info?_of_mem_bySlot {t : SlotTable} (h : t.Sound) :
    ∀ info ∈ t.bySlot, t.info? info.slot = some info :=
  fun _ hmem => h.info?_of_mem (t.perm_bySlot.mem_iff.mp hmem)

/-! ## References -/

/-- The slot that a name stands for: the one it is bound to, else the one it is the
number of, else the next one. -/
def slotFor (t : SlotTable) (name : String) : Nat :=
  ((t.slotOf? name).or (rawSlot? name)).getD t.cap

theorem slotFor_of_bound {t : SlotTable} {name : String} {s : Nat}
    (h : t.slotOf? name = some s) : t.slotFor name = s := by
  simp [slotFor, h]

theorem Sound.resolve?_eq {t : SlotTable} (h : t.Sound) (name : String) :
    t.resolve? name = t.info? (t.slotFor name) := by
  cases hb : t.slotOf? name with
  | some s =>
      obtain ⟨info, hi⟩ := Option.isSome_iff_exists.mp (h.recorded hb)
      simp [resolve?, byName?, slotFor, hb, hi]
  | none =>
      cases hr : rawSlot? name with
      | some n => simp [resolve?, byName?, slotFor, hb, hr]
      | none => simp [resolve?, byName?, slotFor, hb, hr, h.info?_cap]

/-- Does the type that a slot holds, if it holds any, admit the use? -/
def checkSlot (t : SlotTable) (slot : Nat) (r : Reference) : AssemblyResult Unit :=
  match t.info? slot with
  | none => .ok ()
  | some info => checkHeld info r

/-- A reference checks the slot that its name stands for, and then uses it. -/
theorem Sound.addReference_eq {t : SlotTable} (h : t.Sound) (r : Reference) :
    t.addReference r =
      (t.checkSlot (t.slotFor r.ref.name) r >>= fun _ =>
        t.use (t.slotFor r.ref.name) r.ref.name r.ref.type (.instruction r.ref.use)
          ⟨r.position, some r.entry⟩) := by
  unfold addReference checkSlot
  have hres := h.resolve?_eq r.ref.name
  cases hi : t.info? (t.slotFor r.ref.name) with
  | some info =>
      rw [hi] at hres
      rw [hres, ← slot_of_info? hi]
      cases hc : checkHeld info r <;> simp [hc, bind, Except.bind]
  | none =>
      rw [hi] at hres
      have hb : t.slotOf? r.ref.name = none := by
        cases hb : t.slotOf? r.ref.name with
        | none => rfl
        | some s =>
            rw [slotFor_of_bound hb] at hi
            have := h.recorded hb
            rw [hi] at this
            cases this
      rw [hres]
      simp [slotFor, hb, bind, Except.bind]

theorem Sound.addReference_ok {t t' : SlotTable} (h : t.Sound) {r : Reference}
    (hr : t.addReference r = .ok t') :
    t.checkSlot (t.slotFor r.ref.name) r = .ok ()
      ∧ t.isReserved (t.slotFor r.ref.name) = false
      ∧ t.slotFor r.ref.name + max r.ref.type.size 1 ≤ slotLimit
      ∧ t' = t.record (t.slotFor r.ref.name) r.ref.name r.ref.type (.instruction r.ref.use)
          ⟨r.position, some r.entry⟩ := by
  rw [h.addReference_eq] at hr
  cases hc : t.checkSlot (t.slotFor r.ref.name) r with
  | error e =>
      rw [hc] at hr
      cases hr
  | ok u =>
      rw [hc] at hr
      exact ⟨rfl, (use_eq_ok ..).mp hr⟩

theorem Sound.addReference {t t' : SlotTable} (h : t.Sound) {r : Reference}
    (hr : t.addReference r = .ok t') : t'.Sound := by
  obtain ⟨-, -, -, rfl⟩ := h.addReference_ok hr
  exact h.record ..

/-- A reference leaves every name that is bound where it is. -/
theorem Sound.slotOf?_addReference {t t' : SlotTable} (h : t.Sound) {r : Reference}
    (hr : t.addReference r = .ok t') {name : String} {s : Nat}
    (hs : t.slotOf? name = some s) : t'.slotOf? name = some s := by
  obtain ⟨-, -, -, rfl⟩ := h.addReference_ok hr
  rw [slotOf?_record]
  split
  · rename_i e
    rw [← e, slotFor_of_bound hs]
  · exact hs

/-! ## Methods -/

/-- The slots of `this` and the parameters. -/
def declared (selfType : String) (m : MethodDef) : AssemblyResult SlotTable :=
  addThis selfType m {} >>= fun t => m.params.foldlM (addParam m) t

theorem addThis_ok {selfType : String} {m : MethodDef} {t t' : SlotTable}
    (h : addThis selfType m t = .ok t') :
    t' = t ∨ t' = t.record 0 "this" (.object selfType) .declared ⟨m.position, none⟩ := by
  unfold addThis at h
  split at h
  · cases h
    exact Or.inl rfl
  · exact Or.inr ((use_eq_ok ..).mp h).2.2

theorem addParam_ok {m : MethodDef} {t t' : SlotTable} {p : Param}
    (h : addParam m t p = .ok t') :
    ∃ type, Ty.ofFieldDescriptor? p.desc = some type ∧ t.cap + max type.size 1 ≤ slotLimit
      ∧ t' = t.record t.cap p.name type .declared ⟨p.position, none⟩ := by
  unfold addParam at h
  split at h
  · cases h
  · rename_i type htype
    exact ⟨type, htype, ((use_eq_ok ..).mp h).2⟩

/-- What `this` and parameters in the next slots keep, holds of declared slots. -/
theorem declared_keeps {P : SlotTable → Prop} {selfType : String} {m : MethodDef}
    {t : SlotTable} (hempty : P {})
    (hthis : P (record {} 0 "this" (.object selfType) .declared ⟨m.position, none⟩))
    (hparam : ∀ (t : SlotTable) (p : Param) (type : Ty), P t →
      t.cap + max type.size 1 ≤ slotLimit →
      P (t.record t.cap p.name type .declared ⟨p.position, none⟩))
    (h : declared selfType m = .ok t) : P t := by
  obtain ⟨t₀, h₀, hrun⟩ := except_bind_eq_ok.mp h
  have hstart : P t₀ := by
    rcases addThis_ok h₀ with rfl | rfl
    · exact hempty
    · exact hthis
  refine foldlM_keeps ?_ hstart hrun
  intro t p t' ht hp
  obtain ⟨type, -, hfit, rfl⟩ := addParam_ok hp
  exact hparam t p type ht hfit

theorem sound_declared {selfType : String} {m : MethodDef} {t : SlotTable}
    (h : declared selfType m = .ok t) : t.Sound :=
  declared_keeps sound_empty (sound_empty.record ..) (fun _ _ _ ht _ => ht.record ..) h

theorem Sound.run {refs : List Reference} {t t' : SlotTable} (h : t.Sound)
    (hrun : refs.foldlM SlotTable.addReference t = .ok t') : t'.Sound :=
  foldlM_keeps (fun _ _ _ hs hr => hs.addReference hr) h hrun

/-- A run of references leaves every name that is bound where it is. -/
theorem Sound.slotOf?_run {refs : List Reference} {t t' : SlotTable} (h : t.Sound)
    (hrun : refs.foldlM SlotTable.addReference t = .ok t') {name : String} {s : Nat}
    (hs : t.slotOf? name = some s) : t'.slotOf? name = some s := by
  have hkeep := foldlM_keeps (P := fun u : SlotTable => u.Sound ∧ u.slotOf? name = some s)
    (fun u r u' hu hr => ⟨hu.1.addReference hr, hu.1.slotOf?_addReference hr hu.2⟩)
    ⟨h, hs⟩ hrun
  exact hkeep.2

/-- A reference has in the end the slot that its name stood for. -/
theorem Sound.slotOf?_reference {refs : List Reference} {r : Reference} {t t₁ t' : SlotTable}
    (h : t.Sound) (hstep : t.addReference r = .ok t₁)
    (hrun : refs.foldlM SlotTable.addReference t₁ = .ok t') :
    t'.slotOf? r.ref.name = some (t.slotFor r.ref.name) := by
  refine (h.addReference hstep).slotOf?_run hrun ?_
  obtain ⟨-, -, -, rfl⟩ := h.addReference_ok hstep
  simp

end SlotTable

end JvmListing
