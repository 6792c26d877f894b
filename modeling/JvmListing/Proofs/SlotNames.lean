/-
# Names come back

Assembling a listing records a name for every slot.  A namer that took these names
over hands them out again, but it asks for a slot together with a kind of value and
has the name under the kind that the slot held last.

* A slot above the parameters holds what the references to it imply.  If they
  all imply one kind, the name is found.
* A parameter is asked for under its declared type.  If something of another kind
  was stored in its slot last, its name is lost (`keptName`): it counts as taken, so
  the local variable table does not bring it back either.
-/
import JvmListing.Proofs.SlotReplay
import Mathlib.Data.List.Nodup

namespace JvmListing

namespace SlotTable

/-! ## The name of a slot -/

/-- Does the slot of every name that is no number go by that name? -/
def Named (t : SlotTable) : Prop :=
  ∀ (name : String) (s : Nat), rawSlot? name = none → t.slotOf? name = some s →
    ∃ info, t.info? s = some info ∧ info.name = name

theorem named_empty : Named {} := by
  intro _ _ _ h
  cases h

/-- A name that is no number becomes the name of the slot it is used for. -/
theorem name_nextInfo {name : String} (hraw : rawSlot? name = none) (slot : Nat) (type : Ty)
    (kind : UsageKind) (source : VarSource) (info? : Option VarInfo) :
    (nextInfo slot name type kind source info?).name = name := by
  cases info? with
  | none => rfl
  | some info => simp [nextInfo, VarInfo.use, hraw]

theorem Named.record {t : SlotTable} (h : t.Named) {slot : Nat} {name : String} {type : Ty}
    {kind : UsageKind} {source : VarSource} (hraw : rawSlot? name = none)
    (honly : ∀ k, rawSlot? k = none → t.slotOf? k = some slot → k = name) :
    (t.record slot name type kind source).Named := by
  intro k s hk hs
  rw [slotOf?_record] at hs
  rw [info?_record]
  split at hs
  · rename_i e
    cases hs
    exact ⟨_, if_pos rfl, (name_nextInfo hraw ..).trans e.symm⟩
  · rename_i hne
    have hslot : s ≠ slot := by
      rintro rfl
      exact hne (honly k hk hs)
    rw [if_neg hslot]
    exact h k s hk hs

/-- A use of the next slot makes a new slot. -/
theorem Named.record_fresh {t : SlotTable} (h : t.Named) (hsound : t.Sound) {name : String}
    {type : Ty} {kind : UsageKind} {source : VarSource} (hraw : rawSlot? name = none) :
    (t.record t.cap name type kind source).Named :=
  h.record hraw fun _ _ hs => absurd (hsound.lt_cap hs) (Nat.lt_irrefl _)

/-- What a name that is no number stands for goes by that name, or is new. -/
theorem Named.slotFor_cases {t : SlotTable} (h : t.Named) {name : String}
    (hraw : rawSlot? name = none) :
    (∃ info, t.info? (t.slotFor name) = some info ∧ info.name = name
        ∧ t.slotOf? name = some (t.slotFor name))
      ∨ t.slotFor name = t.cap := by
  cases hs : t.slotOf? name with
  | some s =>
      rw [slotFor_of_bound hs]
      obtain ⟨info, hinfo, hname⟩ := h name s hraw hs
      exact Or.inl ⟨info, hinfo, hname, rfl⟩
  | none => exact Or.inr (by simp [slotFor, hs, hraw])

/-! ## What references keep -/

/-- What is known of the slots after some of the references, of which `start` was
the table before: declared slots keep their names, and any other slot goes by the
name of a reference and holds its type. -/
structure Continues (start : SlotTable) (refs : List Reference) (t : SlotTable) : Prop where
  sound : t.Sound
  named : t.Named
  kept : ∀ {s : Nat} {info : VarInfo}, start.info? s = some info →
    ∃ info', t.info? s = some info' ∧ info'.name = info.name
  added : ∀ {s : Nat} {info : VarInfo}, t.info? s = some info → start.info? s = none →
    ∃ r ∈ refs, r.ref.name = info.name ∧ r.ref.type = info.lastType

theorem Continues.refl {t : SlotTable} (hsound : t.Sound) (hnamed : t.Named)
    (refs : List Reference) : Continues t refs t where
  sound := hsound
  named := hnamed
  kept := fun h => ⟨_, h, rfl⟩
  added := by
    intro s info hinfo hnone
    rw [hinfo] at hnone
    cases hnone

theorem Continues.addReference {start t t' : SlotTable} {refs : List Reference}
    (h : Continues start refs t) {r : Reference} (hr : r ∈ refs)
    (hraw : rawSlot? r.ref.name = none) (hstep : t.addReference r = .ok t') :
    Continues start refs t' := by
  have hcases := h.named.slotFor_cases hraw
  obtain ⟨-, -, -, rfl⟩ := h.sound.addReference_ok hstep
  -- a recorded slot that is used goes by the name of the reference already
  have hsame : ∀ {info : VarInfo}, t.info? (t.slotFor r.ref.name) = some info →
      info.name = r.ref.name := by
    intro info hinfo
    rcases hcases with ⟨info', hinfo', hname, -⟩ | hcap
    · rw [hinfo] at hinfo'
      cases hinfo'
      exact hname
    · rw [hcap, h.sound.info?_cap] at hinfo
      cases hinfo
  refine ⟨h.sound.record .., ?_, ?_, ?_⟩
  · refine h.named.record hraw fun k hk hs => ?_
    obtain ⟨info, hinfo, hname⟩ := h.named k _ hk hs
    exact hname.symm.trans (hsame hinfo)
  · intro s info hinfo
    obtain ⟨info', hinfo', hname⟩ := h.kept hinfo
    rw [info?_record]
    split
    · rename_i e
      subst e
      exact ⟨_, rfl, (name_nextInfo hraw ..).trans ((hsame hinfo').symm.trans hname)⟩
    · exact ⟨info', hinfo', hname⟩
  · intro s info hinfo hnone
    rw [info?_record] at hinfo
    split at hinfo
    · rename_i e
      subst e
      cases hinfo
      cases hold : t.info? (t.slotFor r.ref.name) with
      | none => exact ⟨r, hr, rfl, rfl⟩
      | some info =>
          rw [name_nextInfo hraw]
          simp only [nextInfo, VarInfo.use]
          split
          · exact ⟨r, hr, rfl, rfl⟩
          · obtain ⟨r', hr', hname, htype⟩ := h.added hold hnone
            exact ⟨r', hr', hname.trans (hsame hold), htype⟩
    · exact h.added hinfo hnone

theorem Continues.run {start : SlotTable} {all : List Reference}
    (hraw : ∀ r ∈ all, rawSlot? r.ref.name = none) : ∀ {refs : List Reference} {t t' : SlotTable},
    (∀ r ∈ refs, r ∈ all) → Continues start all t →
    refs.foldlM SlotTable.addReference t = .ok t' → Continues start all t'
  | [], _, _, _, h, hrun => by
      cases hrun
      exact h
  | r :: refs, _, _, hsub, h, hrun => by
      obtain ⟨t₁, hstep, hrun⟩ := except_bind_eq_ok.mp hrun
      obtain ⟨hr, hsub⟩ := List.forall_mem_cons.mp hsub
      exact run hraw hsub (h.addReference hr (hraw r hr) hstep) hrun

/-! ## The slots of parameters -/

end SlotTable

/-- The type of a parameter, with an int for what is none. -/
def Param.type (p : Param) : Ty := (Ty.ofFieldDescriptor? p.desc).getD .int

/-- Parameters with their slots, of which the first is given. -/
def paramSlots : Nat → List Param → List (Nat × Param)
  | _, [] => []
  | slot, p :: rest => (slot, p) :: paramSlots (slot + p.type.size) rest

theorem map_snd_paramSlots : ∀ (params : List Param) (slot : Nat),
    (paramSlots slot params).map (·.2) = params
  | [], _ => rfl
  | p :: params, slot => by
      rw [paramSlots, List.map_cons, map_snd_paramSlots params]

namespace SlotTable

/-- What declaring parameters does to a table: they have the next slots and give
them their names, and all else stays as it is. -/
structure Declares (t : SlotTable) (params : List Param) (t' : SlotTable) : Prop where
  sound : t'.Sound
  named : t'.Named
  typed : ∀ p ∈ params, Ty.ofFieldDescriptor? p.desc = some p.type
  fits : ∀ s p, (s, p) ∈ paramSlots t.cap params → s + p.type.size ≤ slotLimit
  own : ∀ s p, (s, p) ∈ paramSlots t.cap params →
    ∃ info, t'.info? s = some info ∧ info.name = p.name
  below : ∀ s, s < t.cap → t'.info? s = t.info? s
  only : ∀ s info, t.cap ≤ s → t'.info? s = some info → ∃ p, (s, p) ∈ paramSlots t.cap params

theorem declares_nil {t : SlotTable} (hsound : t.Sound) (hnamed : t.Named) : Declares t [] t where
  sound := hsound
  named := hnamed
  typed := fun _ h => absurd h List.not_mem_nil
  fits := fun _ _ h => absurd h List.not_mem_nil
  own := fun _ _ h => absurd h List.not_mem_nil
  below := fun _ _ => rfl
  only := by
    intro s info hle hinfo
    exact absurd (hsound.below (Option.isSome_of_eq_some hinfo)) (Nat.not_lt_of_le hle)

/-- A parameter is recorded in the next slot. -/
theorem addParam_type_ok {m : MethodDef} {t t' : SlotTable} {p : Param}
    (h : addParam m t p = .ok t') :
    Ty.ofFieldDescriptor? p.desc = some p.type ∧ 1 ≤ p.type.size ∧ t.cap + p.type.size ≤ slotLimit
      ∧ t' = t.record t.cap p.name p.type .declared ⟨p.position, none⟩
      ∧ t'.cap = t.cap + p.type.size := by
  obtain ⟨type, htype, hfit, rfl⟩ := addParam_ok h
  have hptype : p.type = type := by simp [Param.type, htype]
  subst hptype
  have hsize := Ty.one_le_size (Ty.ofFieldDescriptor?_eq_some_iff.mp htype).1.2
  refine ⟨htype, hsize, by omega, rfl, ?_⟩
  rw [cap_record]
  omega

theorem Declares.cons {t t₁ t' : SlotTable} {m : MethodDef} {p : Param} {params : List Param}
    (hsound : t.Sound) (hraw : rawSlot? p.name = none) (hstep : addParam m t p = .ok t₁)
    (h : Declares t₁ params t') : Declares t (p :: params) t' := by
  obtain ⟨htype, hsize, hfit, rfl, hcap⟩ := addParam_type_ok hstep
  obtain ⟨hsound', hnamed', htyped, hfits, hown, hbelow, honly⟩ := h
  rw [hcap] at hfits hown hbelow honly
  refine ⟨hsound', hnamed', List.forall_mem_cons.mpr ⟨htype, htyped⟩, ?_, ?_, ?_, ?_⟩
  · intro s q hmem
    rcases List.mem_cons.mp hmem with he | hmem
    · cases he
      omega
    · exact hfits s q hmem
  · intro s q hmem
    rcases List.mem_cons.mp hmem with he | hmem
    · cases he
      rw [hbelow t.cap (by omega), info?_record, if_pos rfl]
      exact ⟨_, rfl, name_nextInfo hraw ..⟩
    · exact hown s q hmem
  · intro s hs
    rw [hbelow s (by omega), info?_record, if_neg (by omega)]
  · intro s info hle hinfo
    by_cases hs : s < t.cap + p.type.size
    · by_cases he : s = t.cap
      · exact ⟨p, he ▸ List.mem_cons_self⟩
      · -- the upper half of a wide parameter is not recorded
        rw [hbelow s hs, info?_record, if_neg he] at hinfo
        exact absurd (hsound.below (Option.isSome_of_eq_some hinfo)) (Nat.not_lt_of_le hle)
    · obtain ⟨q, hq⟩ := honly s info (Nat.le_of_not_lt hs) hinfo
      exact ⟨q, List.mem_cons_of_mem _ hq⟩

theorem declares_of_ok (m : MethodDef) : ∀ {params : List Param} {t t' : SlotTable},
    t.Sound → t.Named → (∀ p ∈ params, rawSlot? p.name = none) →
    params.foldlM (addParam m) t = .ok t' → Declares t params t'
  | [], _, _, hsound, hnamed, _, hrun => by
      cases hrun
      exact declares_nil hsound hnamed
  | p :: params, t, t', hsound, hnamed, hraw, hrun => by
      obtain ⟨t₁, hstep, hrun⟩ := except_bind_eq_ok.mp hrun
      obtain ⟨hp, hraw⟩ := List.forall_mem_cons.mp hraw
      refine .cons hsound hp hstep ?_
      obtain ⟨type, -, -, rfl⟩ := addParam_ok hstep
      exact declares_of_ok m (hsound.record ..) (hnamed.record_fresh hsound hp) hraw hrun

/-! ## The slots of a method -/

end SlotTable

/-- The slot of the first parameter. -/
def MethodDef.firstSlot (m : MethodDef) : Nat := if Access.isStatic m.access then 0 else 1

namespace SlotTable

/-- What is recorded for a method with the given references. -/
structure Records (m : MethodDef) (refs : List Reference) (t : SlotTable) : Prop where
  sound : t.Sound
  named : t.Named
  typed : ∀ p ∈ m.params, Ty.ofFieldDescriptor? p.desc = some p.type
  fits : ∀ s p, (s, p) ∈ paramSlots m.firstSlot m.params → s + p.type.size ≤ slotLimit
  own : ∀ s p, (s, p) ∈ paramSlots m.firstSlot m.params →
    ∃ info, t.info? s = some info ∧ info.name = p.name
  this : Access.isStatic m.access = false → ∃ info, t.info? 0 = some info ∧ info.name = "this"
  /-- A slot is that of `this`, of a parameter, or of references. -/
  origin : ∀ s info, t.info? s = some info →
    (s = 0 ∧ Access.isStatic m.access = false ∧ info.name = "this")
      ∨ (∃ p, (s, p) ∈ paramSlots m.firstSlot m.params ∧ p.name = info.name)
      ∨ ∃ r ∈ refs, r.ref.name = info.name ∧ r.ref.type = info.lastType

/-- What is there before the parameters. -/
theorem addThis_firstSlot {selfType : String} {m : MethodDef} {t : SlotTable}
    (h : addThis selfType m {} = .ok t) :
    t.Sound ∧ t.Named ∧ t.cap = m.firstSlot
      ∧ (Access.isStatic m.access = false → ∃ info, t.info? 0 = some info)
      ∧ ∀ s info, t.info? s = some info →
          s = 0 ∧ Access.isStatic m.access = false ∧ info.name = "this" := by
  unfold addThis at h
  unfold MethodDef.firstSlot
  split at h
  · rename_i hstatic
    cases h
    refine ⟨sound_empty, named_empty, (if_pos hstatic).symm, ?_, ?_⟩
    · intro hfalse
      rw [hstatic] at hfalse
      cases hfalse
    · intro s info hinfo
      cases hinfo
  · rename_i hstatic
    obtain ⟨-, -, rfl⟩ := (use_eq_ok ..).mp h
    refine ⟨sound_empty.record .., named_empty.record_fresh sound_empty rawSlot?_this,
      (if_neg hstatic).symm, fun _ => ⟨_, rfl⟩, ?_⟩
    intro s info hinfo
    rw [info?_record] at hinfo
    split at hinfo
    · rename_i e
      cases hinfo
      exact ⟨e, Bool.eq_false_iff.mpr hstatic, rfl⟩
    · cases hinfo

theorem records_of_allocate {selfType : String} {m : MethodDef} {code : Code} {t : SlotTable}
    (hparams : ∀ p ∈ m.params, rawSlot? p.name = none)
    (hrefs : ∀ r ∈ references code, rawSlot? r.ref.name = none)
    (h : allocate selfType m code = .ok t) : Records m (references code) t := by
  rw [allocate_eq] at h
  obtain ⟨t₀, h₀, hrun⟩ := except_bind_eq_ok.mp h
  obtain ⟨start, hthis, hdeclared⟩ := except_bind_eq_ok.mp h₀
  obtain ⟨hsound, hnamed, hfirst, hthis, hstart⟩ := addThis_firstSlot hthis
  have hd := declares_of_ok m hsound hnamed hparams hdeclared
  have hc := (Continues.refl hd.sound hd.named _).run hrefs (fun _ hr => hr) hrun
  obtain ⟨-, -, htyped, hfits, hown, hbelow, honly⟩ := hd
  rw [hfirst] at hfits hown hbelow honly
  refine ⟨hc.sound, hc.named, htyped, hfits, ?_, ?_, ?_⟩
  · intro s p hp
    obtain ⟨info, hinfo, hname⟩ := hown s p hp
    obtain ⟨info', hinfo', hname'⟩ := hc.kept hinfo
    exact ⟨info', hinfo', hname'.trans hname⟩
  · intro hstatic
    obtain ⟨info, hinfo⟩ := hthis hstatic
    have hzero : 0 < m.firstSlot := by simp [MethodDef.firstSlot, hstatic]
    obtain ⟨info', hinfo', hname⟩ := hc.kept ((hbelow 0 hzero).trans hinfo)
    exact ⟨info', hinfo', hname.trans (hstart 0 info hinfo).2.2⟩
  · intro s info hinfo
    cases h₀ : t₀.info? s with
    | none => exact Or.inr (Or.inr (hc.added hinfo h₀))
    | some info₀ =>
        obtain ⟨info', hinfo', hname⟩ := hc.kept h₀
        rw [hinfo] at hinfo'
        cases hinfo'
        rcases Nat.lt_or_ge s m.firstSlot with hlt | hge
        · rw [hbelow s hlt] at h₀
          obtain ⟨hzero, hstatic, hthis⟩ := hstart s info₀ h₀
          exact Or.inl ⟨hzero, hstatic, hname.trans hthis⟩
        · obtain ⟨p, hp⟩ := honly s info₀ hge h₀
          obtain ⟨info₁, hinfo₁, hname₁⟩ := hown s p hp
          rw [h₀] at hinfo₁
          cases hinfo₁
          exact Or.inr (Or.inl ⟨p, hp, hname₁.symm.trans hname.symm⟩)

end SlotTable

/-! ## Taking names over -/

section BindKeys

variable {α β γ : Type} [DecidableEq β] [BEq β] [LawfulBEq β] {key : α → β} {value : α → γ}

theorem lookup_foldl_bindKey_of_not_mem {k : β} : ∀ {l : List α} {init : List (β × γ)},
    k ∉ l.map key →
    (l.foldl (fun all a => bindKey (key a) (value a) all) init).lookup k = init.lookup k
  | [], _, _ => rfl
  | a :: l, init, h => by
      rw [List.map_cons, List.mem_cons, not_or] at h
      rw [List.foldl_cons, lookup_foldl_bindKey_of_not_mem h.2, lookup_bindKey, if_neg h.1]

/-- Of keys that occur once, each is found with its value. -/
theorem lookup_foldl_bindKey_of_mem {a : α} : ∀ {l : List α} {init : List (β × γ)},
    (l.map key).Nodup → a ∈ l →
    (l.foldl (fun all a => bindKey (key a) (value a) all) init).lookup (key a) = some (value a)
  | x :: l, init, hnodup, h => by
      rw [List.map_cons, List.nodup_cons] at hnodup
      rw [List.foldl_cons]
      rcases List.mem_cons.mp h with rfl | h
      · rw [lookup_foldl_bindKey_of_not_mem hnodup.1, lookup_bindKey, if_pos rfl]
      · exact lookup_foldl_bindKey_of_mem hnodup.2 h

end BindKeys

namespace Namer

/-- What a namer knows of a table whose names it took over, while the parameters from
a slot on are still to be named. -/
structure Recalls (n : Namer) (t : SlotTable) (slot : Nat) : Prop where
  known : ∀ s info, t.info? s = some info →
    n.names.lookup (s, info.lastType.kind.normalized) = some info.name
  fresh : ∀ s kind name, slot ≤ s → n.names.lookup (s, kind) = some name →
    ∃ info, t.info? s = some info ∧ info.lastType.kind.normalized = kind
  unnamed : ∀ s, slot ≤ s → n.params.lookup s = none
  /-- The local variable table has no other names. -/
  covered : ∀ v ∈ n.method.locals, ∃ s info, t.info? s = some info ∧ info.name = v.name

theorem recalls_prepopulate {t : SlotTable} (h : t.Sound) {m : MethodNode}
    (hlocals : ∀ v ∈ m.locals, ∃ s info, t.info? s = some info ∧ info.name = v.name) (slot : Nat) :
    (prepopulate { method := m } t).Recalls t slot where
  known := by
    intro s info hinfo
    have hslots : (t.bySlot.map (·.slot)).Nodup :=
      (t.perm_bySlot.map _).nodup_iff.mpr h.distinct
    have hkeys : (t.bySlot.map fun i => (i.slot, i.lastType.kind.normalized)).Nodup := by
      refine List.Nodup.of_map Prod.fst ?_
      rwa [List.map_map]
    have hmem : info ∈ t.bySlot := t.perm_bySlot.mem_iff.mpr (SlotTable.mem_of_info? hinfo)
    rw [← SlotTable.slot_of_info? hinfo]
    exact lookup_foldl_bindKey_of_mem hkeys hmem
  fresh := by
    intro s kind name _ hname
    by_cases hkey : (s, kind) ∈ t.bySlot.map fun i => (i.slot, i.lastType.kind.normalized)
    · obtain ⟨info, hinfo, he⟩ := List.mem_map.mp hkey
      cases he
      exact ⟨info, h.info?_of_mem (t.perm_bySlot.mem_iff.mp hinfo), rfl⟩
    · have hnone : (prepopulate { method := m } t).names.lookup (s, kind) = none :=
        lookup_foldl_bindKey_of_not_mem hkey
      rw [hnone] at hname
      cases hname
  unnamed := fun _ _ => rfl
  covered := hlocals

/-! ## Naming parameters -/

/-- Is the slot that of `this`? -/
abbrev IsThis (n : Namer) (slot : Nat) : Prop := slot = 0 ∧ !Access.isStatic n.method.access

/-- The namer with a name for a slot and the kind of a type. -/
def remember (n : Namer) (slot : Nat) (type : Ty) (name : String) : Namer :=
  { n with names := bindKey (slot, type.kind.normalized) name n.names }

theorem lookup_remember (n : Namer) (slot : Nat) (type : Ty) (name : String) (s : Nat)
    (kind : TypeKind) :
    (n.remember slot type name).names.lookup (s, kind) =
      if s = slot ∧ kind = type.kind.normalized then some name else n.names.lookup (s, kind) := by
  simp only [remember, lookup_bindKey, Prod.mk.injEq]

/-- A slot that is not yet named as a parameter gets the name that is known of it, if
that will do, and keeps it. -/
theorem name_of_unnamed {n : Namer} {slot : Nat} (hthis : ¬n.IsThis slot)
    (hparam : n.params.lookup slot = none) (site : Site) (type : Ty) {name : String}
    (hname : name = ((n.knownName? site type slot).filter (isGoodName ·)).getD
      (fallbackName type slot)) :
    n.name site type slot = (name, n.remember slot type name) := by
  unfold Namer.name remember
  rw [if_neg hthis, hparam]
  subst hname
  cases n.knownName? site type slot with
  | none => simp
  | some known => cases hgood : isGoodName known <;> simp [Option.filter, hgood]

variable {n : Namer} {t : SlotTable} {slot : Nat}

/-- All names of the local variable table are taken, so it is of no help. -/
theorem Recalls.knownName?_eq (h : n.Recalls t slot) (site : Site) (type : Ty) (s : Nat) :
    n.knownName? site type s = n.names.lookup (s, type.kind.normalized) := by
  rw [knownName?, List.find?_eq_none.mpr, Option.map_none, Option.or_none]
  intro v hv
  obtain ⟨s', info, hinfo, hname⟩ := h.covered v hv
  rw [List.any_eq_true.mpr ⟨_, mem_of_lookup (h.known s' info hinfo), by simp [hname]⟩]
  simp

end Namer

/-- What the parameter in a slot is called by a namer that took the names of the table
over: what it was called, if the slot held a value of its kind last. -/
def keptName (t : SlotTable) (slot : Nat) (p : Param) : String :=
  if (t.info? slot).any (·.lastType.kind.normalized == p.type.kind.normalized) then p.name
  else fallbackName p.type slot

namespace Namer

variable {n : Namer} {t : SlotTable} {slot : Nat}

/-- The name of a parameter. -/
theorem Recalls.name_param (h : n.Recalls t slot) {p : Param} {info : VarInfo}
    (hthis : ¬n.IsThis slot) (hinfo : t.info? slot = some info) (hname : info.name = p.name)
    (hgood : isGoodName p.name = true) :
    n.name .param p.type slot =
      (keptName t slot p, n.remember slot p.type (keptName t slot p)) := by
  refine name_of_unnamed hthis (h.unnamed slot (Nat.le_refl _)) .param p.type ?_
  rw [h.knownName?_eq, keptName, hinfo, Option.any_some]
  by_cases hkind : info.lastType.kind.normalized = p.type.kind.normalized
  · rw [← hkind, h.known slot info hinfo, hname]
    simp [Option.filter, hgood]
  · have hnone : n.names.lookup (slot, p.type.kind.normalized) = none := by
      rw [Option.eq_none_iff_forall_ne_some]
      intro name hlookup
      obtain ⟨info', hinfo', hkind'⟩ := h.fresh slot _ name (Nat.le_refl _) hlookup
      rw [hinfo] at hinfo'
      cases hinfo'
      exact hkind hkind'
    rw [hnone, if_neg (by simpa using hkind), Option.filter_none, Option.getD_none]

/-- Naming a parameter leaves all that is known of the slots above. -/
theorem Recalls.next (h : n.Recalls t slot) {p : Param} {info : VarInfo}
    (hinfo : t.info? slot = some info) (hname : info.name = p.name) {above : Nat}
    (habove : slot < above) :
    Recalls ((n.remember slot p.type (keptName t slot p)).addParam slot (keptName t slot p)) t
      above where
  known := by
    intro s info' hinfo'
    refine (lookup_remember ..).trans ?_
    split
    · rename_i e
      obtain ⟨rfl, hkind⟩ := e
      obtain rfl : info = info' := Option.some.inj (hinfo.symm.trans hinfo')
      rw [keptName, hinfo, Option.any_some, if_pos (beq_iff_eq.mpr hkind), hname]
    · exact h.known s info' hinfo'
  fresh := by
    intro s kind name hle hlookup
    have hlookup := (lookup_remember ..).symm.trans hlookup
    rw [if_neg (by omega)] at hlookup
    exact h.fresh s kind name (by omega) hlookup
  unnamed := by
    intro s hle
    refine (lookup_bindKey ..).trans ?_
    rw [if_neg (by omega)]
    exact h.unnamed s (by omega)
  covered := h.covered

/-- What naming parameters in slots does to a namer. -/
structure NamesParams (n : Namer) (t : SlotTable) (slots : List (Nat × Param)) (n' : Namer) :
    Prop where
  method : n'.method = n.method
  recalls : ∃ slot, n'.Recalls t slot
  only : ∀ s name, n'.params.lookup s = some name →
    n.params.lookup s = some name ∨ ∃ p, (s, p) ∈ slots ∧ name = keptName t s p
  all : ∀ s, (n.params.lookup s).isSome ∨ (∃ p, (s, p) ∈ slots) → (n'.params.lookup s).isSome

end Namer

/-- Parameters from a slot on as they are listed again. -/
def keptParams (t : SlotTable) (slot : Nat) (params : List Param) : List Param :=
  (paramSlots slot params).map fun (s, p) => ⟨p.desc, keptName t s p, {}⟩

/-- The parameters of a table whose names were taken over. -/
theorem nameParams_eq {t : SlotTable} : ∀ (params : List Param) (slot : Nat) (vars : VarNames),
    vars.namer.Recalls t slot → (∀ s, slot ≤ s → ¬vars.namer.IsThis s) →
    (∀ p ∈ params, isGoodName p.name = true ∧ Ty.ofFieldDescriptor? p.desc = some p.type) →
    (∀ s p, (s, p) ∈ paramSlots slot params → s + p.type.size ≤ slotLimit
      ∧ ∃ info, t.info? s = some info ∧ info.name = p.name) →
    (nameParams vars slot (params.map Param.type)).1 = keptParams t slot params
      ∧ vars.namer.NamesParams t (paramSlots slot params)
          (nameParams vars slot (params.map Param.type)).2.namer
  | [], slot, vars, h, _, _, _ => by
      refine ⟨rfl, rfl, ⟨slot, h⟩, fun s name hs => Or.inl hs, ?_⟩
      rintro s (hs | ⟨p, hp⟩)
      · exact hs
      · exact absurd hp List.not_mem_nil
  | p :: params, slot, vars, h, hthis, hgood, hslots => by
      obtain ⟨⟨hp, htype⟩, hgood⟩ := List.forall_mem_cons.mp hgood
      obtain ⟨hfield, hdesc⟩ := Ty.ofFieldDescriptor?_eq_some_iff.mp htype
      have hsize : 0 < p.type.size := Ty.one_le_size hfield.2
      obtain ⟨hfit, info, hinfo, hname⟩ := hslots slot p List.mem_cons_self
      have hfirst := h.name_param (hthis slot (Nat.le_refl _)) hinfo hname hp
      have hdeclare : vars.declare p.type slot =
          (keptName t slot p,
            ⟨(vars.namer.remember slot p.type (keptName t slot p)).addParam slot
              (keptName t slot p), vars.replay.declare (keptName t slot p) slot p.type.size⟩) := by
        rw [VarNames.declare, hfirst]
      have hnext := h.next hinfo hname (Nat.lt_add_of_pos_right hsize)
      rw [List.map_cons, nameParams, hdeclare, Nat.min_eq_left hfit]
      obtain ⟨hparams, hmethod, hrecalls, honly, hall⟩ := nameParams_eq params _ ⟨_, _⟩ hnext
        (fun s hs => hthis s (by omega)) hgood
        (fun s q hq => hslots s q (List.mem_cons_of_mem _ hq))
      rw [keptParams, paramSlots]
      refine ⟨?_, hmethod, hrecalls, ?_, ?_⟩
      · refine List.cons_eq_cons.mpr ⟨?_, hparams⟩
        rw [← hdesc]
      · intro s name hs
        rcases honly s name hs with hs | ⟨q, hq, rfl⟩
        · simp only [lookup_bindKey] at hs
          split at hs
          · rename_i e
            cases hs
            exact Or.inr ⟨p, e ▸ List.mem_cons_self, e ▸ rfl⟩
          · exact Or.inl hs
        · exact Or.inr ⟨q, List.mem_cons_of_mem _ hq, rfl⟩
      · intro s hs
        refine hall s ?_
        simp only [lookup_bindKey]
        rcases hs with hs | ⟨q, hq⟩
        · left
          split
          · rfl
          · exact hs
        · rcases List.mem_cons.mp hq with he | hq
          · cases he
            exact Or.inl (by simp)
          · exact Or.inr ⟨q, hq⟩

/-- All names are kept if the lists of names are the same. -/
theorem keptName_eq_of_names {t : SlotTable} {slot : Nat} {params : List Param}
    (h : (keptParams t slot params).map (·.name) = params.map (·.name)) :
    ∀ s p, (s, p) ∈ paramSlots slot params → keptName t s p = p.name := by
  intro s p hp
  conv_rhs at h => rw [← map_snd_paramSlots params slot]
  rw [keptParams, List.map_map, List.map_map] at h
  exact List.map_inj_left.mp h (s, p) hp

theorem spelling_keptParams {t : SlotTable} {slot : Nat} {params : List Param}
    (h : ∀ s p, (s, p) ∈ paramSlots slot params → keptName t s p = p.name) :
    (keptParams t slot params).map Param.spelling = params.map Param.spelling := by
  conv_rhs => rw [← map_snd_paramSlots params slot]
  rw [keptParams, List.map_map, List.map_map]
  refine List.map_congr_left ?_
  rintro ⟨s, p⟩ hp
  exact congrArg (p.desc, ·) (h s p hp)

/-! ## Naming references -/

open SlotTable

/-- Is every slot above the parameters used for values of one kind? -/
def SlotTable.OneKind (t : SlotTable) (m : MethodDef) (refs : List Reference) : Prop :=
  ∀ s, m.firstSlot ≤ s → (∀ p, (s, p) ∉ paramSlots m.firstSlot m.params) →
    ∀ r ∈ refs, ∀ r' ∈ refs, t.slotOf? r.ref.name = some s → t.slotOf? r'.ref.name = some s →
    r.ref.type.kind.normalized = r'.ref.type.kind.normalized

namespace Namer

variable {n : Namer} {slot : Nat} {type : Ty} {name : String}

/-- Does a slot have a name wherever there is a value of a kind in it? -/
def Calls (n : Namer) (slot : Nat) (kind : TypeKind) (name : String) : Prop :=
  n.IsThis slot ∧ name = "this"
    ∨ ¬n.IsThis slot ∧ n.params.lookup slot = some name
    ∨ ¬n.IsThis slot ∧ n.params.lookup slot = none ∧ n.names.lookup (slot, kind) = some name
        ∧ isGoodName name = true

/-- A slot that has a name is called by it, and nothing is forgotten. -/
theorem Calls.name_eq (h : n.Calls slot type.kind.normalized name) (site : Site) :
    (n.name site type slot).1 = name ∧ ∀ s kind other, n.Calls s kind other →
      (n.name site type slot).2.Calls s kind other := by
  rcases h with ⟨hthis, rfl⟩ | ⟨hthis, hparam⟩ | ⟨hthis, hparam, hname, hgood⟩
  · rw [Namer.name, if_pos hthis]
    exact ⟨rfl, fun _ _ _ h => h⟩
  · rw [Namer.name, if_neg hthis, hparam]
    exact ⟨rfl, fun _ _ _ h => h⟩
  · have hsame : ∀ s kind, (n.remember slot type name).names.lookup (s, kind) =
        n.names.lookup (s, kind) := by
      intro s kind
      rw [lookup_remember]
      split
      · rename_i e
        rw [e.1, e.2, hname]
      · rfl
    have hstep : n.name site type slot = (name, n.remember slot type name) :=
      name_of_unnamed hthis hparam site type (by simp [knownName?, hname, Option.filter, hgood])
    rw [hstep]
    refine ⟨rfl, ?_⟩
    rintro s kind other (h | h | ⟨h₁, h₂, h₃, h₄⟩)
    · exact Or.inl h
    · exact Or.inr (Or.inl h)
    · exact Or.inr (Or.inr ⟨h₁, h₂, (hsame s kind).trans h₃, h₄⟩)

/-- Every reference is called what it was called, if all parameters are and the slot
of no other variable is used for values of different kinds. -/
theorem NamesParams.calls {n n' : Namer} {t : SlotTable} {m : MethodDef} {refs : List Reference}
    (h : n.NamesParams t (paramSlots m.firstSlot m.params) n') (hrec : t.Records m refs)
    (hparams : n.params = [])
    (hstatic : Access.isStatic n.method.access = Access.isStatic m.access)
    (hkept : ∀ s p, (s, p) ∈ paramSlots m.firstSlot m.params → keptName t s p = p.name)
    (hgood : ∀ r ∈ refs, isGoodName r.ref.name = true)
    (hkinds : t.OneKind m refs)
    {r : Reference} (hr : r ∈ refs) {s : Nat} (hs : t.slotOf? r.ref.name = some s) :
    n'.Calls s r.ref.type.kind.normalized r.ref.name := by
  obtain ⟨info, hinfo, hname⟩ := hrec.named r.ref.name s (rawSlot?_of_isGoodName (hgood r hr)) hs
  have hthis : n'.IsThis s ↔ s = 0 ∧ Access.isStatic m.access = false := by
    rw [IsThis, h.method, hstatic, Bool.not_eq_true']
  by_cases hzero : n'.IsThis s
  · obtain ⟨rfl, hinstance⟩ := hthis.mp hzero
    obtain ⟨info', hinfo', hname'⟩ := hrec.this hinstance
    rw [hinfo] at hinfo'
    cases hinfo'
    exact Or.inl ⟨hzero, hname.symm.trans hname'⟩
  · cases hlookup : n'.params.lookup s with
    | some name =>
        rcases h.only s name hlookup with hold | ⟨p, hp, rfl⟩
        · rw [hparams] at hold
          cases hold
        · obtain ⟨info', hinfo', hname'⟩ := hrec.own s p hp
          rw [hinfo] at hinfo'
          cases hinfo'
          rw [← hname, hname', ← hkept s p hp]
          exact Or.inr (Or.inl ⟨hzero, hlookup⟩)
    | none =>
        have hnone : ∀ p, (s, p) ∉ paramSlots m.firstSlot m.params := by
          intro p hp
          have := h.all s (Or.inr ⟨p, hp⟩)
          rw [hlookup] at this
          cases this
        rcases hrec.origin s info hinfo with
          ⟨hs, hinstance, -⟩ | ⟨p, hp, -⟩ | ⟨r', hr', hname', htype⟩
        · exact absurd (hthis.mpr ⟨hs, hinstance⟩) hzero
        · exact absurd hp (hnone p)
        · have hfirst : m.firstSlot ≤ s := by
            unfold MethodDef.firstSlot
            split
            · exact Nat.zero_le _
            · rename_i hinstance
              refine Nat.pos_of_ne_zero fun e => hzero (hthis.mpr ⟨e, ?_⟩)
              exact Bool.eq_false_iff.mpr hinstance
          have hkind := hkinds s hfirst hnone r hr r' hr' hs (hname'.trans hname ▸ hs)
          obtain ⟨_, hrecalls⟩ := h.recalls
          refine Or.inr (Or.inr ⟨hzero, hlookup, ?_, hgood r hr⟩)
          rw [hkind, htype, ← hname]
          exact hrecalls.known s info hinfo

end Namer

end JvmListing
