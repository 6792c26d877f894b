/-
# Names and their slots

Instructions are lowered with the finished table, long after the references were
checked against the tables before it.  That the two agree rests on three facts.

* A bound name keeps its slot through every later reference.
* No two names that are not numbers share a slot: a new name takes the next slot,
  and every slot so far lies below that.
* An entry is a source of one slot only, the one that its name has in the end.
-/
import JvmListing.Proofs.Lowering

namespace JvmListing

/-- Is an entry of the body among the sources of the slot? -/
def VarInfo.HasSource (info : VarInfo) (entry : Nat) : Prop :=
  ∃ source ∈ info.sources, source.entry = some entry

namespace SlotTable

/-! ## Sources -/

/-- Is a slot used by an entry of the body? -/
def UsedBy (t : SlotTable) (slot entry : Nat) : Prop :=
  ∃ info, t.info? slot = some info ∧ info.HasSource entry

theorem usedBy_record (t : SlotTable) (slot : Nat) (name : String) (type : Ty)
    (kind : UsageKind) (source : VarSource) (s k : Nat) :
    (t.record slot name type kind source).UsedBy s k ↔
      t.UsedBy s k ∨ s = slot ∧ source.entry = some k := by
  unfold UsedBy VarInfo.HasSource
  rw [info?_record]
  by_cases hs : s = slot
  · subst hs
    cases hi : t.info? s with
    | none => simp [nextInfo, VarInfo.first]
    | some info => simp [nextInfo, VarInfo.use, or_and_right, exists_or]
  · simp [hs]

/-- The sources of slots after a run are those before it and the entries of the
references, each at the slot that its name has after the run. -/
theorem Sound.usedBy_run : ∀ {refs : List Reference} {t t' : SlotTable}, t.Sound →
    refs.foldlM SlotTable.addReference t = .ok t' → ∀ s k,
    (t'.UsedBy s k ↔
      t.UsedBy s k ∨ ∃ r ∈ refs, r.entry = k ∧ t'.slotOf? r.ref.name = some s)
  | [], _, _, _, hrun, s, k => by
      cases hrun
      simp
  | r :: refs, t, t', h, hrun, s, k => by
      obtain ⟨t₁, hstep, hrest⟩ := except_bind_eq_ok.mp hrun
      have h₁ := h.addReference hstep
      have ih := h₁.usedBy_run hrest s k
      -- the name of `r` keeps the slot it has been recorded at
      have hname := h.slotOf?_reference hstep hrest
      obtain ⟨-, -, -, rfl⟩ := h.addReference_ok hstep
      rw [ih, usedBy_record]
      simp only [List.mem_cons, exists_eq_or_imp, hname, Option.some.injEq]
      constructor
      · rintro ((hold | ⟨hs, hk⟩) | hlater)
        · exact Or.inl hold
        · exact Or.inr (Or.inl ⟨hk, hs.symm⟩)
        · exact Or.inr (Or.inr hlater)
      · rintro (hold | ⟨hk, hs⟩ | hlater)
        · exact Or.inl (Or.inl hold)
        · exact Or.inl (Or.inr ⟨hs.symm, hk⟩)
        · exact Or.inr hlater

theorem not_usedBy_declared {selfType : String} {m : MethodDef} {t : SlotTable}
    (h : declared selfType m = .ok t) (s k : Nat) : ¬t.UsedBy s k := by
  refine declared_keeps (P := fun u => ¬u.UsedBy s k) ?_ ?_ ?_ h
  · rintro ⟨info, hi, -⟩
    cases hi
  · rw [usedBy_record]
    rintro (⟨info, hi, -⟩ | ⟨-, hk⟩)
    · cases hi
    · cases hk
  · intro t p type ht _
    rw [usedBy_record]
    rintro (hold | ⟨-, hk⟩)
    · exact ht hold
    · cases hk

/-! ## References of a body -/

/-- The uses of variables in entries, of which the first has an index. -/
def referencesFrom : Nat → Code → List Reference
  | _, [] => []
  | index, e :: rest =>
    ((e.value.operation?.bind Operation.varRef?).map (⟨·, e.position, index⟩)).toList
      ++ referencesFrom (index + 1) rest

theorem referencesFrom_none {e : Entry} {index : Nat} {body : Code}
    (h : e.value.operation?.bind Operation.varRef? = none) :
    referencesFrom index (e :: body) = referencesFrom (index + 1) body := by
  rw [referencesFrom, h]
  rfl

theorem referencesFrom_some {e : Entry} {index : Nat} {body : Code} {ref : VarRef}
    (h : e.value.operation?.bind Operation.varRef? = some ref) :
    referencesFrom index (e :: body) =
      ⟨ref, e.position, index⟩ :: referencesFrom (index + 1) body := by
  rw [referencesFrom, h]
  rfl

theorem references_eq (code : Code) : references code = referencesFrom 0 code := by
  unfold references
  generalize 0 = index
  induction code generalizing index with
  | nil => rfl
  | cons e rest ih =>
      simp only [List.zipIdx_cons, List.filterMap_cons, referencesFrom, ← ih]
      cases e.value.operation?.bind Operation.varRef? <;> rfl

theorem referencesFrom_append : ∀ (a b : Code) (index : Nat),
    referencesFrom index (a ++ b) = referencesFrom index a ++ referencesFrom (index + a.length) b
  | [], _, _ => rfl
  | e :: a, b, index => by
      rw [List.cons_append, referencesFrom, referencesFrom, referencesFrom_append,
        List.append_assoc, List.length_cons, Nat.add_comm a.length, Nat.add_assoc]

theorem Statement.eq_of_operation? {st : Statement} {op : Operation} (h : st.operation? = some op) :
    st = .operation op := by
  cases st with
  | operation op' => exact congrArg _ (Option.some.inj h)
  | _ => cases h

theorem mem_references {code : Code} {r : Reference} :
    r ∈ references code ↔ ∃ e, code[r.entry]? = some e ∧ e.position = r.position
      ∧ e.value.operation?.bind Operation.varRef? = some r.ref := by
  unfold references
  simp only [List.mem_filterMap, List.mem_zipIdx_iff_getElem?, Option.map_eq_some_iff, Prod.exists]
  constructor
  · rintro ⟨e, i, hi, ref, href, rfl⟩
    exact ⟨e, hi, rfl, href⟩
  · rintro ⟨e, hi, hpos, href⟩
    refine ⟨e, r.entry, hi, r.ref, href, ?_⟩
    rw [hpos]

/-- An entry has one reference at most. -/
theorem reference_unique {code : Code} {r r' : Reference} (hr : r ∈ references code)
    (hr' : r' ∈ references code) (h : r.entry = r'.entry) : r = r' := by
  obtain ⟨e, hk, hpos, href⟩ := mem_references.mp hr
  obtain ⟨e', hk', hpos', href'⟩ := mem_references.mp hr'
  rw [h, hk'] at hk
  cases hk
  cases r
  cases r'
  simp_all

/-- The references of a body are those of its first entries and then others. -/
theorem references_take (code : Code) (k : Nat) :
    references (code.take k) <+: references code := by
  rw [references_eq, references_eq]
  conv_rhs => rw [← List.take_append_drop k code, referencesFrom_append]
  exact List.prefix_append ..

/-- The entry at an index adds its reference, if it has one. -/
theorem references_take_succ {code : Code} {k : Nat} {e : Entry} {ref : VarRef}
    (hk : code[k]? = some e) (href : e.value.operation?.bind Operation.varRef? = some ref) :
    references (code.take (k + 1)) = references (code.take k) ++ [⟨ref, e.position, k⟩] := by
  obtain ⟨hlt, rfl⟩ := List.getElem?_eq_some_iff.mp hk
  rw [references_eq, references_eq, List.take_add_one, List.getElem?_eq_getElem hlt,
    Option.toList_some, referencesFrom_append, List.length_take, Nat.min_eq_left (Nat.le_of_lt hlt),
    Nat.zero_add, referencesFrom, href]
  rfl

/-- No other entry adds one. -/
theorem references_take_succ_none {code : Code} {k : Nat}
    (h : code[k]?.bind (fun e => e.value.operation?.bind Operation.varRef?) = none) :
    references (code.take (k + 1)) = references (code.take k) := by
  rw [references_eq, references_eq, List.take_add_one, referencesFrom_append]
  cases hk : code[k]? with
  | none => exact List.append_nil _
  | some e =>
      rw [hk, Option.bind_some] at h
      rw [Option.toList_some, referencesFrom_none h]
      exact List.append_nil _

/-! ## Slots after the first entries -/

/-- What is allocated for a body is allocated for its first entries, and the other
references lead on from there. -/
theorem allocate_take {selfType : String} {m : MethodDef} {code : Code} {t : SlotTable}
    (h : allocate selfType m code = .ok t) (k : Nat) :
    ∃ t', allocate selfType m (code.take k) = .ok t'
      ∧ ∀ {name : String} {s : Nat}, t'.slotOf? name = some s → t.slotOf? name = some s := by
  obtain ⟨later, hrefs⟩ := references_take code k
  rw [allocate_eq, ← hrefs] at h
  obtain ⟨t₀, h₀, hrun⟩ := except_bind_eq_ok.mp h
  rw [List.foldlM_append] at hrun
  obtain ⟨t', hfirst, hlater⟩ := except_bind_eq_ok.mp hrun
  refine ⟨t', ?_, fun hs => ((sound_declared h₀).run hfirst).slotOf?_run hlater hs⟩
  rw [allocate_eq]
  exact except_bind_eq_ok.mpr ⟨t₀, h₀, hfirst⟩

/-- A reference is recorded at the slot that its name stood for before. -/
theorem allocate_succ {selfType : String} {m : MethodDef} {code : Code} {k : Nat} {e : Entry}
    {ref : VarRef} {t t' : SlotTable} (hk : code[k]? = some e)
    (href : e.value.operation?.bind Operation.varRef? = some ref)
    (h : allocate selfType m (code.take k) = .ok t)
    (h' : allocate selfType m (code.take (k + 1)) = .ok t') :
    t' = t.record (t.slotFor ref.name) ref.name ref.type (.instruction ref.use)
      ⟨e.position, some k⟩ := by
  have hsound := sound_allocate h
  rw [allocate_eq] at h
  obtain ⟨t₀, h₀, hrun⟩ := except_bind_eq_ok.mp h
  rw [allocate_eq, references_take_succ hk href, h₀] at h'
  obtain ⟨t₀', h₀', hrun'⟩ := except_bind_eq_ok.mp h'
  cases h₀'
  rw [List.foldlM_append, hrun] at hrun'
  obtain ⟨_, hsame, hlast⟩ := except_bind_eq_ok.mp hrun'
  cases hsame
  rw [List.foldlM_cons] at hlast
  obtain ⟨t₂, hstep, hend⟩ := except_bind_eq_ok.mp hlast
  cases hend
  exact (hsound.addReference_ok hstep).2.2.2

/-- A reference binds its name to the slot that the name stood for before. -/
theorem slotOf?_allocate_succ {selfType : String} {m : MethodDef} {code : Code} {k : Nat}
    {e : Entry} {ref : VarRef} {t t' : SlotTable} (hk : code[k]? = some e)
    (href : e.value.operation?.bind Operation.varRef? = some ref)
    (h : allocate selfType m (code.take k) = .ok t)
    (h' : allocate selfType m (code.take (k + 1)) = .ok t') :
    t'.slotOf? ref.name = some (t.slotFor ref.name) := by
  rw [allocate_succ hk href h h']
  simp

/-- The sources of a slot are the references whose name has the slot in the end. -/
theorem usedBy_allocate {selfType : String} {m : MethodDef} {code : Code} {t : SlotTable}
    (h : allocate selfType m code = .ok t) (s k : Nat) :
    t.UsedBy s k ↔
      ∃ r ∈ references code, r.entry = k ∧ t.slotOf? r.ref.name = some s := by
  rw [allocate_eq] at h
  obtain ⟨t₀, h₀, hrun⟩ := except_bind_eq_ok.mp h
  rw [(sound_declared h₀).usedBy_run hrun, or_iff_right (not_usedBy_declared h₀ s k)]

/-- Every name that is referred to is bound. -/
theorem bound_of_mem_references {selfType : String} {m : MethodDef} {code : Code}
    {t : SlotTable} (h : allocate selfType m code = .ok t) {r : Reference}
    (hr : r ∈ references code) : ∃ s, t.slotOf? r.ref.name = some s := by
  obtain ⟨e, hk, -, href⟩ := mem_references.mp hr
  obtain ⟨t₁, ht₁, -⟩ := allocate_take h r.entry
  obtain ⟨t₂, ht₂, hkeep⟩ := allocate_take h (r.entry + 1)
  exact ⟨_, hkeep (slotOf?_allocate_succ hk href ht₁ ht₂)⟩

/-- An entry with a reference is a source of exactly one slot, the one that the name
has in the end. -/
theorem source_unique {selfType : String} {m : MethodDef} {code : Code} {t : SlotTable}
    (h : allocate selfType m code = .ok t) {r : Reference} (hr : r ∈ references code) :
    ∃ info ∈ t.infos, info.HasSource r.entry
      ∧ (∀ other ∈ t.infos, other.HasSource r.entry → other = info)
      ∧ t.slotOf? r.ref.name = some info.slot := by
  have hsound := sound_allocate h
  obtain ⟨s, hs⟩ := bound_of_mem_references h hr
  obtain ⟨info, hinfo, hsource⟩ := (usedBy_allocate h s r.entry).mpr ⟨r, hr, rfl, hs⟩
  refine ⟨info, mem_of_info? hinfo, hsource, ?_, slot_of_info? hinfo ▸ hs⟩
  intro other hother hsource'
  have hfound := hsound.info?_of_mem hother
  obtain ⟨r', hr', hentry, hs'⟩ :=
    (usedBy_allocate h other.slot r.entry).mp ⟨other, hfound, hsource'⟩
  rw [reference_unique hr' hr hentry, hs] at hs'
  rw [← Option.some.inj hs', hinfo] at hfound
  exact (Option.some.inj hfound).symm

/-- An entry without a reference is no source. -/
theorem not_hasSource {selfType : String} {m : MethodDef} {code : Code} {t : SlotTable}
    (h : allocate selfType m code = .ok t) {k : Nat} {e : Entry} (hk : code[k]? = some e)
    (hnone : e.value.operation?.bind Operation.varRef? = none) :
    ∀ info ∈ t.infos, ¬info.HasSource k := by
  intro info hinfo hsource
  have hfound := (sound_allocate h).info?_of_mem hinfo
  obtain ⟨r, hr, rfl, -⟩ := (usedBy_allocate h info.slot k).mp ⟨info, hfound, hsource⟩
  obtain ⟨e', hk', -, href⟩ := mem_references.mp hr
  rw [hk] at hk'
  cases hk'
  rw [hnone] at href
  cases href

/-! ## Names that are not numbers -/

/-- No two names that are not numbers share a slot. -/
def AliasFree (t : SlotTable) : Prop :=
  ∀ (x y : String) (s : Nat), rawSlot? x = none → rawSlot? y = none →
    t.slotOf? x = some s → t.slotOf? y = some s → x = y

/-- Nothing is bound to a slot at or above the next one. -/
theorem Sound.lt_cap {t : SlotTable} (h : t.Sound) {name : String} {s : Nat}
    (hs : t.slotOf? name = some s) : s < t.cap :=
  h.below (h.recorded hs)

theorem AliasFree.record_fresh {t : SlotTable} (ha : t.AliasFree) (h : t.Sound) {name : String}
    {type : Ty} {kind : UsageKind} {source : VarSource} :
    (t.record t.cap name type kind source).AliasFree := by
  intro x y s hx hy hsx hsy
  rw [slotOf?_record] at hsx hsy
  split at hsx
  · rename_i ex
    cases hsx
    split at hsy
    · rename_i ey
      rw [ex, ey]
    · exact absurd (h.lt_cap hsy) (Nat.lt_irrefl _)
  · split at hsy
    · cases hsy
      exact absurd (h.lt_cap hsx) (Nat.lt_irrefl _)
    · exact ha x y s hx hy hsx hsy

theorem AliasFree.addReference {t t' : SlotTable} (ha : t.AliasFree) (h : t.Sound)
    {r : Reference} (hr : t.addReference r = .ok t') : t'.AliasFree := by
  obtain ⟨-, -, -, rfl⟩ := h.addReference_ok hr
  cases hb : t.slotOf? r.ref.name with
  | some bound =>
      -- a bound name is recorded where it is
      rw [slotFor_of_bound hb]
      have hsame : ∀ x, (t.record bound r.ref.name r.ref.type (.instruction r.ref.use)
          ⟨r.position, some r.entry⟩).slotOf? x = t.slotOf? x := by
        intro x
        rw [slotOf?_record]
        split
        · rename_i e
          rw [e, hb]
        · rfl
      intro x y s hx hy hsx hsy
      rw [hsame] at hsx hsy
      exact ha x y s hx hy hsx hsy
  | none =>
      cases hraw : rawSlot? r.ref.name with
      | none =>
          have hslot : t.slotFor r.ref.name = t.cap := by simp [slotFor, hb, hraw]
          rw [hslot]
          exact ha.record_fresh h
      | some n =>
          -- a number is none of the names in question
          intro x y s hx hy hsx hsy
          have hne : ∀ {z : String}, rawSlot? z = none → z ≠ r.ref.name := by
            rintro z hz rfl
            rw [hraw] at hz
            cases hz
          rw [slotOf?_record, if_neg (hne hx)] at hsx
          rw [slotOf?_record, if_neg (hne hy)] at hsy
          exact ha x y s hx hy hsx hsy

theorem aliasFree_allocate {selfType : String} {m : MethodDef} {code : Code} {t : SlotTable}
    (h : allocate selfType m code = .ok t) : t.AliasFree := by
  rw [allocate_eq] at h
  obtain ⟨t₀, h₀, hrun⟩ := except_bind_eq_ok.mp h
  have hempty : AliasFree {} := by
    intro _ _ _ _ _ hx
    cases hx
  have hdeclared : t₀.Sound ∧ t₀.AliasFree :=
    declared_keeps (P := fun u => u.Sound ∧ u.AliasFree) ⟨sound_empty, hempty⟩
      ⟨sound_empty.record .., hempty.record_fresh sound_empty⟩
      (fun u _ _ hu _ => ⟨hu.1.record .., hu.2.record_fresh hu.1⟩) h₀
  have hkeep := foldlM_keeps (P := fun u : SlotTable => u.Sound ∧ u.AliasFree)
    (fun u r u' hu hr => ⟨hu.1.addReference hr, hu.2.addReference hu.1 hr⟩) hdeclared hrun
  exact hkeep.2

end SlotTable

open SlotTable

/-! ## Assembled methods -/

theorem Assembled.slot_lt {options : AssemblyOptions} {helpers : Helpers} {l : Listing}
    {a : AssembledMethod} {ctx : LoweringContext} {low : Lowered}
    (h : Assembled options helpers l a ctx low) {name : String} {s : Nat}
    (hs : ctx.slots.slotOf? name = some s) : s < 65536 := by
  have hlt := (sound_allocate h.slots).lt_cap hs
  have hle := cap_allocate_le h.slots
  simp only [slotLimit] at hle
  omega

/-- An entry that is written with a variable is lowered to the slot that the name has in the
end. -/
theorem Assembled.slot?_of_name {options : AssemblyOptions} {helpers : Helpers}
    {l : Listing} {a : AssembledMethod} {ctx : LoweringContext} {low : Lowered}
    (h : Assembled options helpers l a ctx low) {k : Nat} {e : Entry} {name : String}
    (hk : l.body[k]? = some e) (hname : e.value.operation?.bind Operation.varName? = some name) :
    ∃ s, ctx.slots.slotOf? name = some s ∧ (∃ i : Nat, a.origins[i]? = some k)
      ∧ ∀ i : Nat, a.origins[i]? = some k → a.method.insns[i]?.bind Insn.slot? = some s := by
  obtain ⟨op, hop, hvar⟩ := Option.bind_eq_some_iff.mp hname
  have hvalue := Statement.eq_of_operation? hop
  obtain ⟨-, -, -, horigins, hinsns, -⟩ := LoweringContext.build_ok h.built
  rw [horigins, hinsns]
  simp only [List.getElem?_map, Option.map_eq_some_iff]
  obtain ⟨_, own, _, hown, hall⟩ := LoweringContext.lowerEntries_of_entry h.lowered hk
  obtain ⟨insn, hlower, rfl, -⟩ := LoweringContext.lowerEntry_operation hvalue hown
  obtain ⟨s, hs, -⟩ := LoweringContext.slot?_lower hvar hlower
  refine ⟨s, hs, ?_, ?_⟩
  · obtain ⟨i, hi⟩ := List.mem_iff_getElem?.mp (hall insn List.mem_cons_self)
    exact ⟨i, _, hi, Nat.zero_add k⟩
  · rintro i ⟨⟨insn, k'⟩, hi, rfl⟩
    obtain ⟨j, e', _, own', _, rfl, hj, hown', hmem⟩ :=
      LoweringContext.lowerEntries_of_insn h.lowered (List.mem_of_getElem? hi)
    simp only [Nat.zero_add, hj, Option.some.injEq] at hk
    subst hk
    obtain ⟨insn', hlower', rfl, -⟩ := LoweringContext.lowerEntry_operation hvalue hown'
    rw [List.mem_singleton] at hmem
    subst hmem
    obtain ⟨n, hn, hslot⟩ := LoweringContext.slot?_lower hvar hlower'
    rw [hs] at hn
    cases hn
    rw [hi, Option.map_some, Option.bind_some, hslot, UInt16.toNat_ofNat_of_lt' (h.slot_lt hs)]

/-- A reference is lowered, and to the slot that its name has in the end. -/
theorem Assembled.slot?_of_reference {options : AssemblyOptions} {helpers : Helpers}
    {l : Listing} {a : AssembledMethod} {ctx : LoweringContext} {low : Lowered}
    (h : Assembled options helpers l a ctx low) {k : Nat} {e : Entry} {r : VarRef} {s : Nat}
    (hk : l.body[k]? = some e) (hr : e.value.operation?.bind Operation.varRef? = some r)
    (hs : ctx.slots.slotOf? r.name = some s) :
    (∃ i : Nat, a.origins[i]? = some k)
      ∧ ∀ i : Nat, a.origins[i]? = some k → a.method.insns[i]?.bind Insn.slot? = some s := by
  obtain ⟨op, hop, href⟩ := Option.bind_eq_some_iff.mp hr
  have hname : e.value.operation?.bind Operation.varName? = some r.name := by
    rw [hop]
    exact Operation.varName?_of_varRef? href
  obtain ⟨s', hs', hlowered⟩ := h.slot?_of_name hk hname
  cases hs.symm.trans hs'
  exact hlowered

/-- Names are bound once and for all, and every reference is lowered to the slot
that it was recorded at. -/
theorem assembleMethod_binding (options : AssemblyOptions) (helpers : Helpers) (l : Listing)
    (a : AssembledMethod) (h : assembleMethod options helpers l = .ok a) :
    -- an entry with a reference is a source of one slot, and lowered to that slot
    (∀ (k : Nat) (e : Entry) (r : VarRef), l.body[k]? = some e →
      e.value.operation?.bind Operation.varRef? = some r →
      ∃ info ∈ a.slots.infos, info.HasSource k
        ∧ (∀ other ∈ a.slots.infos, other.HasSource k → other = info)
        ∧ (∃ i : Nat, a.origins[i]? = some k)
        ∧ ∀ i : Nat, a.origins[i]? = some k →
            a.method.insns[i]?.bind Insn.slot? = some info.slot)
    -- one with a name but no reference is lowered to the slot of the name, and no source
    ∧ (∀ (k : Nat) (e : Entry) (name : String), l.body[k]? = some e →
        e.value.operation?.bind Operation.varName? = some name →
        e.value.operation?.bind Operation.varRef? = none →
        (∀ info ∈ a.slots.infos, ¬info.HasSource k)
          ∧ ∃ s, a.slots.slotOf? name = some s ∧ (∃ i : Nat, a.origins[i]? = some k)
            ∧ ∀ i : Nat, a.origins[i]? = some k →
                a.method.insns[i]?.bind Insn.slot? = some s)
    -- names that are not numbers have slots of their own
    ∧ (∀ (x y : String) (s : Nat), rawSlot? x = none → rawSlot? y = none →
        a.slots.slotOf? x = some s → a.slots.slotOf? y = some s → x = y)
    ∧ ∀ m, l.method? = some m →
      allocate options.selfType m l.body = .ok a.slots
      ∧ ∀ k : Nat, ∃ t, allocate options.selfType m (l.body.take k) = .ok t
        -- the next slot lies above all that is recorded or reserved
        ∧ (∀ info ∈ t.infos, info.slot < t.cap) ∧ (∀ w ∈ t.wide, w + 1 < t.cap)
        -- a name that is met first takes the next slot
        ∧ (∀ (e : Entry) (r : VarRef), l.body[k]? = some e →
            e.value.operation?.bind Operation.varRef? = some r →
            rawSlot? r.name = none → t.slotOf? r.name = none →
            a.slots.slotOf? r.name = some t.cap)
        -- and no name that is bound moves
        ∧ ∀ k' t', k ≤ k' →
            allocate options.selfType m (l.body.take k') = .ok t' →
            ∀ (name : String) (s : Nat), t.slotOf? name = some s → t'.slotOf? name = some s := by
  obtain ⟨ctx, low, ha⟩ := assembled_of_ok h
  obtain ⟨-, -, hslots, -⟩ := LoweringContext.build_ok ha.built
  have hmethod : l.method? = some ctx.method := method?_of_assembly ha.method
  rw [hslots]
  refine ⟨?_, ?_, aliasFree_allocate ha.slots, ?_⟩
  · intro k e r hk hr
    have hmem : (⟨r, e.position, k⟩ : Reference) ∈ references l.body :=
      mem_references.mpr ⟨e, hk, rfl, hr⟩
    obtain ⟨info, hinfo, hsource, hunique, hs⟩ := source_unique ha.slots hmem
    exact ⟨info, hinfo, hsource, hunique, ha.slot?_of_reference hk hr hs⟩
  · intro k e name hk hname hnone
    exact ⟨not_hasSource ha.slots hk hnone, ha.slot?_of_name hk hname⟩
  · intro m hm
    rw [hmethod] at hm
    cases hm
    refine ⟨ha.slots, fun k => ?_⟩
    obtain ⟨t, ht, hkeep⟩ := allocate_take ha.slots k
    have hsound := sound_allocate ht
    refine ⟨t, ht, fun info hi => ?_, fun w hw => hsound.reserved hw, ?_, ?_⟩
    · exact hsound.below (by rw [hsound.info?_of_mem hi]; rfl)
    · intro e r hk hr hraw hnew
      obtain ⟨t', ht', hkeep'⟩ := allocate_take ha.slots (k + 1)
      refine hkeep' ?_
      rw [slotOf?_allocate_succ hk hr ht ht', slotFor, hnew, hraw]
      rfl
    · intro k' t' hle ht' name s hs
      obtain ⟨t'', ht'', hkeep''⟩ := allocate_take ht' k
      rw [List.take_take, Nat.min_eq_left hle, ht] at ht''
      cases ht''
      exact hkeep'' hs

/-- A parameter that is declared twice, a new name above its slots, the number of the slot of
the new name, and the new name with an opcode that is none on variables. -/
def mixedNames : Listing where
  definition := .method ⟨0x0008, "m", [⟨"J", "a", {}⟩, ⟨"I", "a", {}⟩], "V", {}, {}⟩
  code := some
    [⟨.operation (.var .iload "a"), {}⟩, ⟨.operation (.var .istore "b"), {}⟩,
     ⟨.operation (.iinc "3" 1), {}⟩, ⟨.operation (.var .iload "b"), {}⟩,
     ⟨.operation (.var .nop "b"), {}⟩]

theorem assembleMethod_binding_mixedNames :
    ∃ a, assembleMethod {} {} mixedNames = .ok a
      ∧ (∃ info ∈ a.slots.infos, info.HasSource 3
          ∧ ∀ i : Nat, a.origins[i]? = some 3 →
              a.method.insns[i]?.bind Insn.slot? = some info.slot)
      ∧ ∃ t, allocate Ty.rootClass ⟨0x0008, "m", [⟨"J", "a", {}⟩, ⟨"I", "a", {}⟩], "V", {}, {}⟩
            (mixedNames.body.take 1) = .ok t
          ∧ t.slotOf? "b" = none ∧ a.slots.slotOf? "b" = some t.cap
          ∧ (∀ info ∈ a.slots.infos, ¬info.HasSource 4)
          ∧ ∀ i : Nat, a.origins[i]? = some 4 →
              a.method.insns[i]?.bind Insn.slot? = some t.cap := by
  obtain ⟨a, ha⟩ : ∃ a, assembleMethod {} {} mixedNames = .ok a := ⟨_, rfl⟩
  obtain ⟨hsource, hother, -, hlater⟩ := assembleMethod_binding {} {} mixedNames a ha
  obtain ⟨info, hinfo, hentry, -, -, hslot⟩ := hsource 3 _ _ rfl rfl
  obtain ⟨hnone, s, hs, -, hslot'⟩ := hother 4 _ "b" rfl rfl rfl
  obtain ⟨-, hbefore⟩ := hlater _ rfl
  obtain ⟨t, ht, -, -, hfresh, -⟩ := hbefore 1
  have hunbound : t.slotOf? "b" = none := by
    have hrun : ((allocate Ty.rootClass
        ⟨0x0008, "m", [⟨"J", "a", {}⟩, ⟨"I", "a", {}⟩], "V", {}, {}⟩
        (mixedNames.body.take 1)).toOption.map (·.slotOf? "b")) = some none := by
      decide +kernel
    rw [show allocate Ty.rootClass _ (mixedNames.body.take 1) = .ok t from ht] at hrun
    exact Option.some.inj hrun
  have hbound := hfresh _ ⟨"b", .int, .assign⟩ rfl rfl rfl hunbound
  cases hs.symm.trans hbound
  exact ⟨a, ha, ⟨info, hinfo, hentry, hslot⟩, t, ht, hunbound, hbound, hnone, hslot'⟩

end JvmListing
