/-
# Who reserves a slot

A long or double covers its own slot and the one above, anything else its own
only.  The occupant of a slot is the latest use that covers it
(`History.occupant?`).

A reservation follows the latest use of a slot *itself*: slot `i + 1` is reserved
as long as that use of slot `i` was a long or double.  This is not the same as the
occupant being one that stands in slot `i`.  When a long or double is put into
slot `i - 1`, its upper half takes slot `i` and the value that was there is gone,
but slot `i + 1` stays reserved.  `History.Overlaid` names this case, and
`allocate_wideSlot` says that it is the only one: a slot is refused as reserved
either for the long or double that occupies the slot below, or for one that was
overlaid like this.
-/
import JvmListing.Proofs.SlotConsistency

namespace JvmListing

/-- Does the value of a use take the slot, as its own or as its upper half? -/
def SlotUse.covers (u : SlotUse) (slot : Nat) : Bool :=
  u.slot == slot || (u.type.isWide && u.slot + 1 == slot)

namespace History

/-- The latest use that covers a slot. -/
def occupant? (h : History) (slot : Nat) : Option SlotUse := h.find? (·.covers slot)

/-- The latest use of a slot itself. -/
def latest? (h : History) (slot : Nat) : Option SlotUse := h.find? (·.slot == slot)

/-- The uses after the latest one of a slot itself. -/
def since (h : History) (slot : Nat) : History := h.takeWhile (·.slot != slot)

/-- Was a long or double put into the slot below, after the latest use of the slot
itself? -/
def Overlaid (h : History) (slot : Nat) : Prop :=
  ∃ v ∈ h.since slot, v.type.isWide = true ∧ v.slot + 1 = slot

instance (h : History) (slot : Nat) : Decidable (h.Overlaid slot) := by
  unfold Overlaid
  infer_instance

/-! ## Latest uses and occupants -/

theorem occupant?_cons (u : SlotUse) (h : History) (slot : Nat) :
    occupant? (u :: h) slot = if u.covers slot then some u else occupant? h slot := by
  cases hu : u.covers slot <;> simp [occupant?, hu]

theorem latest?_cons (u : SlotUse) (h : History) (slot : Nat) :
    latest? (u :: h) slot = if u.slot = slot then some u else latest? h slot := by
  by_cases hu : u.slot = slot <;> simp [latest?, hu]

theorem slot_of_latest? {slot : Nat} {u : SlotUse} {h : History} (hu : h.latest? slot = some u) :
    u.slot = slot := by
  simpa using List.find?_some hu

/-- The value of the latest use of a slot itself is there until it is overlaid. -/
theorem occupant?_of_not_overlaid {slot : Nat} {u : SlotUse} : ∀ {h : History},
    h.latest? slot = some u → ¬h.Overlaid slot → h.occupant? slot = some u
  | [], hu, _ => by cases hu
  | v :: h, hu, hno => by
      rw [latest?_cons] at hu
      rw [occupant?_cons]
      by_cases hv : v.slot = slot
      · have hcov : v.covers slot = true := by simp [SlotUse.covers, hv]
        rw [if_pos hv] at hu
        rwa [if_pos hcov]
      · have hcov : ¬v.covers slot = true := by
          intro hc
          simp only [SlotUse.covers, beq_iff_eq, Bool.or_eq_true, hv, false_or,
            Bool.and_eq_true] at hc
          exact hno ⟨v, by simp [since, hv], hc⟩
        have hno' : ¬Overlaid h slot := by
          rintro ⟨w, hw, hwide⟩
          exact hno ⟨w, by simpa [since, hv] using Or.inr hw, hwide⟩
        rw [if_neg hv] at hu
        rw [if_neg hcov]
        exact occupant?_of_not_overlaid hu hno'

/-- An overlaid slot is the upper half of a long or double. -/
theorem occupant?_of_overlaid {slot : Nat} : ∀ {h : History}, h.Overlaid slot →
    ∃ v, h.occupant? slot = some v ∧ v.type.isWide = true ∧ v.slot + 1 = slot
  | [], ⟨_, hw, _⟩ => by cases hw
  | v :: h, ⟨w, hw, hwide⟩ => by
      have hv : v.slot ≠ slot := by
        intro hv
        simp [since, hv] at hw
      rw [occupant?_cons]
      by_cases hcov : v.covers slot = true
      · rw [if_pos hcov]
        exact ⟨v, rfl, by simpa [SlotUse.covers, hv] using hcov⟩
      · have hne : w ≠ v := by
          rintro rfl
          exact hcov (by simp [SlotUse.covers, hwide])
        have hmem : w ∈ since h slot := by simpa [since, hv, hne] using hw
        rw [if_neg hcov]
        exact occupant?_of_overlaid ⟨w, hmem, hwide⟩

theorem occupant?_eq_latest?_iff {h : History} {slot : Nat} {u : SlotUse}
    (hu : h.latest? slot = some u) : h.occupant? slot = some u ↔ ¬h.Overlaid slot := by
  constructor
  · rintro ho hover
    obtain ⟨v, hv, -, hslot⟩ := occupant?_of_overlaid hover
    have huv : u = v := Option.some.inj (ho.symm.trans hv)
    have := slot_of_latest? hu
    rw [← huv] at hslot
    omega
  · exact occupant?_of_not_overlaid hu

/-- A reference that is refused as reserved stands above the latest use of a slot by
a long or double. -/
theorem latest?_of_faultKind {h : History} {r : VarRef} (hk : h.faultKind r = .wideSlot) :
    ∃ i u, h.slotOf r.name = i + 1 ∧ h.latest? i = some u
      ∧ (u.type = .prim .long ∨ u.type = .prim .double) := by
  have hfree : ¬h.Free (h.slotOf r.name) := by
    unfold faultKind at hk
    split at hk
    · cases hk
    · split at hk
      · assumption
      · cases hk
  cases hs : h.slotOf r.name with
  | zero => exact absurd (Or.inl hs) hfree
  | succ i =>
      rw [hs] at hfree
      simp only [Free, Nat.add_one_ne_zero, false_or, Nat.add_sub_cancel, not_forall] at hfree
      obtain ⟨held, hheld, hwide⟩ := hfree
      obtain ⟨u, hu, rfl⟩ := Option.map_eq_some_iff.mp hheld
      refine ⟨i, u, rfl, hu, ?_⟩
      by_contra hnot
      exact hwide ⟨fun e => hnot (Or.inl e), fun e => hnot (Or.inr e)⟩

theorem declare_cons (h : History) (p : Param) (params : List Param) :
    h.declare (p :: params) = (h.declare [p]).declare params := by
  simp only [declare]
  split <;> rfl

end History

namespace SlotTable

/-! ## Declarations -/

/-- A parameter takes the next slot, or the listing is of the wrong shape: no
declaration meets a reserved slot. -/
theorem addParam_of_follows (m : MethodDef) {t : SlotTable} {h : History} (f : t.Follows h)
    (p : Param) :
    (∃ t', addParam m t p = .ok t' ∧ t'.Follows (h.declare [p]))
      ∨ ∃ e, addParam m t p = .error e ∧ e.value.kind = .structural := by
  unfold addParam
  cases htype : Ty.ofFieldDescriptor? p.desc with
  | none => exact Or.inr ⟨_, rfl, rfl⟩
  | some type =>
      have hclass := (Ty.ofFieldDescriptor?_eq_some_iff.mp htype).1.valueClass?
      simp only [History.declare, htype]
      by_cases hfit : h.top + type.size ≤ slotLimit
      · obtain ⟨t', huse, f'⟩ := f.declare p.name ⟨p.position, none⟩ hclass hfit
        exact Or.inl ⟨t', by rw [f.cap]; exact huse, f'⟩
      · have hfree : t.isReserved t.cap = false := by
          rw [f.isReserved, f.cap]
          refine or_iff_not_imp_left.mpr fun hne held hheld => ?_
          have hmem : h.top - 1 ∈ t.wide ↔ _ := f.wide (h.top - 1)
          constructor <;> rintro rfl
          all_goals
            have := f.sound.reserved (hmem.mpr ⟨_, hheld, rfl⟩)
            have := f.cap
            omega
        have hlim : slotLimit < t.cap + max type.size 1 := by
          have := f.cap
          omega
        refine Or.inr ⟨⟨.tooManySlots, p.position⟩, ?_, rfl⟩
        simp only [use_eq, hfree, hlim, if_true, Bool.false_eq_true, if_false]

theorem addParams_cases (m : MethodDef) : ∀ (params : List Param) {t : SlotTable} {h : History},
    t.Follows h →
    (∃ t', params.foldlM (addParam m) t = .ok t' ∧ t'.Follows (h.declare params))
      ∨ ∃ e, params.foldlM (addParam m) t = .error e ∧ e.value.kind = .structural
  | [], t, _, f => Or.inl ⟨t, rfl, f⟩
  | p :: params, t, h, f => by
      rw [History.declare_cons]
      simp only [List.foldlM_cons]
      rcases addParam_of_follows m f p with ⟨t₁, hstep, f₁⟩ | ⟨e, hstep, hk⟩
      · simp only [hstep, bind, Except.bind]
        exact addParams_cases m params f₁
      · exact Or.inr ⟨e, by simp only [hstep, bind, Except.bind], hk⟩

/-- The slots of `this` and the parameters follow the history of the method, unless
they do not fit or a descriptor is illegal. -/
theorem declared_cases (selfType : String) (m : MethodDef) :
    (∃ t, declared selfType m = .ok t ∧ t.Follows (History.ofMethod selfType m))
      ∨ ∃ e, declared selfType m = .error e ∧ e.value.kind = .structural := by
  unfold declared addThis History.ofMethod
  by_cases hs : Access.isStatic m.access = true
  · simp only [hs, if_true, bind, Except.bind]
    exact addParams_cases m m.params follows_empty
  · obtain ⟨t, huse, f⟩ := follows_empty.declare "this" ⟨m.position, none⟩
      (show (Ty.object selfType).valueClass?.isSome from rfl)
      (show 0 + 1 ≤ slotLimit by decide)
    have huse : use {} 0 "this" (.object selfType) .declared ⟨m.position, none⟩ = .ok t := huse
    simp only [hs, if_false, Bool.false_eq_true, huse, bind, Except.bind]
    exact addParams_cases m m.params f

/-! ## Methods -/

/-- Where slots cannot be allocated because one is reserved, this is found at a
reference to some slot `i + 1`, the first that is not consistent, and the latest use
of slot `i` itself was a long or double.  It still occupies slot `i` exactly if it
was not overlaid; if it was, slot `i` is the upper half of the long or double in
slot `i - 1`. -/
theorem allocate_wideSlot (selfType : String) (m : MethodDef) (code : Code) {e : AssemblyError}
    (hfail : allocate selfType m code = .error e) (hwide : e.value.kind = .wideSlot) :
    ∃ k r i u, FirstViolation (History.ofMethod selfType m) (references code) k r
      ∧ e.position = r.position
      ∧ (History.before selfType m code k).slotOf r.ref.name = i + 1
      ∧ (History.before selfType m code k).latest? i = some u
      ∧ (u.type = .prim .long ∨ u.type = .prim .double)
      ∧ ((History.before selfType m code k).occupant? i = some u
          ↔ ¬(History.before selfType m code k).Overlaid i)
      ∧ ((History.before selfType m code k).Overlaid i →
          ∃ v, (History.before selfType m code k).occupant? i = some v
            ∧ v.type.isWide = true ∧ v.slot + 1 = i) := by
  rw [allocate_eq] at hfail
  rcases declared_cases selfType m with ⟨t, hdecl, f⟩ | ⟨e', hdecl, hk⟩
  · simp only [hdecl, bind, Except.bind] at hfail
    rcases run_of_follows (references code) f fun r hr => wellTyped_of_mem hr with
      ⟨-, t', hok⟩ | ⟨k, r, fault, hfirst, herr, hkind⟩
    · rw [hok] at hfail
      cases hfail
    · rw [herr] at hfail
      cases hfail
      obtain ⟨i, u, hslot, hu, htype⟩ := History.latest?_of_faultKind (hkind.symm.trans hwide)
      exact ⟨k, r, i, u, hfirst, rfl, hslot, hu, htype, History.occupant?_eq_latest?_iff hu,
        History.occupant?_of_overlaid⟩
  · -- a declaration fails for its shape only
    simp only [hdecl, bind, Except.bind] at hfail
    cases hfail
    rw [hk] at hwide
    cases hwide

/-- A static method without parameters. -/
def noParams : MethodDef := ⟨0x0008, "m", [], "V", {}, {}⟩

/-- A long in slots 1 and 2 loses slot 1 to the upper half of the long in slot 0; the
int is then refused in slot 2. -/
def overlaidLong : Code :=
  [⟨.operation (.var .lstore "1"), ⟨1, 1, 0, 8⟩⟩, ⟨.operation (.var .lstore "0"), ⟨2, 1, 9, 17⟩⟩,
   ⟨.operation (.var .istore "2"), ⟨3, 1, 18, 26⟩⟩]

theorem allocate_overlaidLong :
    allocate "A" noParams overlaidLong = .error ⟨.reservedSlot, ⟨3, 1, 18, 26⟩⟩ := by
  decide +kernel

theorem firstViolation_overlaidLong : FirstViolation (History.ofMethod "A" noParams)
    (references overlaidLong) 2 ⟨⟨"2", .int, .assign⟩, ⟨3, 1, 18, 26⟩, 2⟩ := by
  have hearlier : ∀ j < 2, ∀ r' ∈ (references overlaidLong)[j]?,
      (History.before "A" noParams overlaidLong j).Consistent r'.ref := by
    decide +kernel
  exact ⟨rfl, fun j r' hj hr' => hearlier j hj r' hr', by decide +kernel⟩

theorem slotOf_overlaidLong : (History.before "A" noParams overlaidLong 2).slotOf "2" = 2 := by
  decide +kernel

theorem allocate_wideSlot_overlaidLong :
    allocate "A" noParams overlaidLong = .error ⟨.reservedSlot, ⟨3, 1, 18, 26⟩⟩
      ∧ ∃ v, (History.before "A" noParams overlaidLong 2).occupant? 1 = some v
        ∧ v.type.isWide = true ∧ v.slot + 1 = 1 := by
  obtain ⟨k, r, i, u, hfirst, -, hslot, -, -, -, hover⟩ :=
    allocate_wideSlot "A" noParams overlaidLong allocate_overlaidLong rfl
  obtain ⟨rfl, rfl⟩ := hfirst.unique firstViolation_overlaidLong
  have hi : i = 1 := Nat.succ.inj (hslot.symm.trans slotOf_overlaidLong)
  subst hi
  exact ⟨allocate_overlaidLong, hover (by decide +kernel)⟩

/-- The slot below a refused one need not be occupied by a long or double of its own: the
one that it was refused for may be gone. -/
theorem not_occupied_of_wideSlot :
    ¬∀ (selfType : String) (m : MethodDef) (code : Code) (e : AssemblyError),
      (∀ p ∈ m.params, p.isValid = true) → allocate selfType m code = .error e →
      e.value.kind = .wideSlot →
      ∀ k r i, FirstViolation (History.ofMethod selfType m) (references code) k r →
        r.ref.use = .assign → (History.before selfType m code k).slotOf r.ref.name = i + 1 →
        ∃ u, (History.before selfType m code k).occupant? i = some u ∧ u.slot = i
          ∧ (u.type = .prim .long ∨ u.type = .prim .double) := by
  intro hclaim
  obtain ⟨u, hu, hslot, -⟩ := hclaim "A" noParams overlaidLong _ (List.forall_mem_nil _)
    allocate_overlaidLong rfl 2 _ 1 firstViolation_overlaidLong rfl slotOf_overlaidLong
  have hlower : ((History.before "A" noParams overlaidLong 2).occupant? 1).map (·.slot)
      = some 0 := by
    decide +kernel
  rw [hu, Option.map_some, hslot] at hlower
  cases hlower

end SlotTable

end JvmListing
