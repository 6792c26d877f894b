/-
# The replay of slots is faithful

While a method is disassembled, `SlotReplay` follows what assembling its listing
will do with the names in it.  `Tracks` relates the two: the replay knows the
next slot, and it knows where every name is bound that is no number.  A number in
a listing is always bound to itself, which is why the replay does not have to
remember numbers.

Each step of the replay is matched by a step of `SlotTable`, so a variable that
was written for a slot is bound to that slot.
-/
import JvmListing.Disassembly.Member
import JvmListing.Proofs.Descriptor
import JvmListing.Proofs.Digits
import JvmListing.Proofs.SlotBinding

namespace JvmListing

open SlotTable

/-- Does a replay know what assembling has done so far? -/
structure Tracks (t : SlotTable) (r : SlotReplay) : Prop where
  sound : t.Sound
  next : t.cap = r.next
  names : ∀ {name : String}, rawSlot? name = none → t.slotOf? name = r.bound.lookup name
  numbers : ∀ {name : String} {n s : Nat}, rawSlot? name = some n →
    t.slotOf? name = some s → s = n

namespace Tracks

theorem empty : Tracks {} {} where
  sound := sound_empty
  next := rfl
  names := fun _ => rfl
  numbers := by
    intro _ _ _ _ h
    cases h

/-- Recording a use that fits keeps the replay of the next slot in step. -/
theorem cap_record_eq {t : SlotTable} {r : SlotReplay} (h : Tracks t r) {slot : Nat}
    (name : String) {type : Ty} (kind : UsageKind) (source : VarSource)
    (hfit : slot + max type.size 1 ≤ slotLimit) :
    (t.record slot name type kind source).cap = r.nextAfter slot type.size := by
  rw [cap_record, SlotReplay.nextAfter, Nat.min_eq_left hfit, h.next]

/-- A name bound in both, or a number bound to itself in the table only. -/
theorem record {t : SlotTable} {r : SlotReplay} (h : Tracks t r) {slot : Nat} {name : String}
    {type : Ty} {kind : UsageKind} {source : VarSource} {bound : List (String × Nat)}
    (hfit : slot + max type.size 1 ≤ slotLimit)
    (hbound : ∀ k, rawSlot? k = none →
      bound.lookup k = if k = name then some slot else r.bound.lookup k)
    (hnumber : ∀ n, rawSlot? name = some n → slot = n) :
    Tracks (t.record slot name type kind source) ⟨bound, r.nextAfter slot type.size⟩ where
  sound := h.sound.record slot name type kind source
  next := h.cap_record_eq name kind source hfit
  names := by
    intro k hk
    rw [slotOf?_record, hbound k hk, h.names hk]
  numbers := by
    intro k n s hk hs
    rw [slotOf?_record] at hs
    split at hs
    · rename_i e
      cases hs
      exact hnumber n (e ▸ hk)
    · exact h.numbers hk hs

/-- What is written for a slot stands for it. -/
theorem slotFor_resolve {t : SlotTable} {r : SlotReplay} (h : Tracks t r) (name : String)
    {slot : Nat} (size : Nat) (hslot : slot ≤ slotLimit) :
    t.slotFor (r.resolve name slot size).1 = slot := by
  unfold SlotReplay.resolve
  dsimp only
  split
  · rename_i htarget
    cases hraw : rawSlot? name with
    | none =>
        rw [hraw, Option.none_or] at htarget
        rw [slotFor, h.names hraw, hraw, Option.or_none, h.next, htarget]
    | some n =>
        rw [hraw, Option.some_or, Option.getD_some] at htarget
        cases hs : t.slotOf? name with
        | none => simp [slotFor, hs, hraw, htarget]
        | some s => rw [slotFor_of_bound hs, h.numbers hraw hs, htarget]
  · have hraw := rawSlot?_toString hslot
    cases hs : t.slotOf? (toString slot) with
    | none =>
        rw [slotFor, hs, hraw]
        rfl
    | some s => rw [slotFor_of_bound hs, h.numbers hraw hs]

/-- A name is written for the slot that it stands for. -/
theorem resolve_eq {t : SlotTable} {r : SlotReplay} (h : Tracks t r) {name : String}
    (hraw : rawSlot? name = none) (size : Nat) :
    (r.resolve name (t.slotFor name) size).1 = name := by
  have htarget : ((rawSlot? name).or (r.bound.lookup name)).getD r.next = t.slotFor name := by
    rw [slotFor, h.names hraw, hraw, Option.none_or, Option.or_none, h.next]
  rw [SlotReplay.resolve, htarget, if_pos rfl]

/-- A reference to what is written for a slot is recorded at the slot, and the
replay keeps up. -/
theorem addReference {t t' : SlotTable} {r : SlotReplay} (h : Tracks t r) {ref : Reference}
    {name : String} {slot : Nat} (hslot : slot ≤ slotLimit)
    (hname : ref.ref.name = (r.resolve name slot ref.ref.type.size).1)
    (hstep : t.addReference ref = .ok t') :
    Tracks t' (r.resolve name slot ref.ref.type.size).2
      ∧ t'.slotOf? ref.ref.name = some slot := by
  have hfor := h.slotFor_resolve name ref.ref.type.size hslot
  obtain ⟨-, -, hfit, rfl⟩ := h.sound.addReference_ok hstep
  rw [hname, hfor] at hfit ⊢
  refine ⟨?_, by simp⟩
  unfold SlotReplay.resolve at hname ⊢
  dsimp only at hname ⊢
  split
  · rename_i htarget
    refine h.record hfit (fun k _ => lookup_bindKey name k slot r.bound) ?_
    intro n hn
    rw [hn] at htarget
    exact htarget.symm
  · have hraw := rawSlot?_toString hslot
    refine h.record hfit ?_ ?_
    · intro k hk
      rw [if_neg]
      rintro rfl
      rw [hraw] at hk
      cases hk
    · intro n hn
      rw [hraw] at hn
      exact Option.some.inj hn

end Tracks

/-! ## Names that are handed out -/

theorem isDecimal_of_isDigit {cs : List Char} (hne : cs ≠ [])
    (hdigits : ∀ c ∈ cs, c.isDigit = true) : isDecimal cs = true := by
  simp only [isDecimal, Bool.and_eq_true, List.any_eq_true, List.all_eq_true, Bool.or_eq_true]
  obtain ⟨c, rest, hcs⟩ := List.exists_cons_of_ne_nil hne
  exact ⟨⟨c, hcs ▸ List.mem_cons_self, hdigits c (hcs ▸ List.mem_cons_self)⟩,
    fun c hc => Or.inl (hdigits c hc)⟩

theorem rawSlot?_of_isGoodName {name : String} (h : isGoodName name = true) :
    rawSlot? name = none := by
  cases hraw : readDigits? name.toList with
  | none => simp [rawSlot?, hraw]
  | some n =>
      obtain ⟨hne, hdigits⟩ := isDigit_of_readDigits? hraw
      have hdecimal := isDecimal_of_isDigit hne hdigits
      simp [isGoodName, hdecimal] at h

theorem rawSlot?_this : rawSlot? "this" = none :=
  rawSlot?_eq_none (c := 't') (by decide) rfl

theorem rawSlot?_fallbackName (t : Ty) (slot : Nat) : rawSlot? (fallbackName t slot) = none := by
  unfold fallbackName
  dsimp only
  split
  · rename_i h
    exact rawSlot?_of_isGoodName h
  · refine rawSlot?_eq_none (c := 'v') ?_ rfl
    rw [String.toList_append]
    exact List.mem_append_left _ List.mem_cons_self

/-- Are the parameters so far called by no number? -/
def Namer.ParamsNamed (n : Namer) : Prop :=
  ∀ (slot : Nat) (name : String), n.params.lookup slot = some name → rawSlot? name = none

theorem Namer.rawSlot?_name {n : Namer} (h : n.ParamsNamed) (site : Site) (t : Ty) (slot : Nat) :
    rawSlot? (n.name site t slot).1 = none := by
  unfold Namer.name
  split
  · exact rawSlot?_this
  · split
    · rename_i hp
      exact h slot _ hp
    · dsimp only
      split
      · split
        · rename_i hgood
          exact rawSlot?_of_isGoodName hgood
        · exact rawSlot?_fallbackName t slot
      · exact rawSlot?_fallbackName t slot

theorem Namer.params_name (n : Namer) (site : Site) (t : Ty) (slot : Nat) :
    (n.name site t slot).2.params = n.params := by
  unfold Namer.name
  split
  · rfl
  · split <;> rfl

/-- What is true of the names of all parameters stays so, if it is true of a new one. -/
theorem VarNames.params_declare {P : String → Prop} {v : VarNames}
    (h : ∀ (slot : Nat) (name : String), v.namer.params.lookup slot = some name → P name) (t : Ty)
    (slot : Nat) (hname : P (v.namer.name .param t slot).1) (k : Nat) (name : String)
    (hk : (v.declare t slot).2.namer.params.lookup k = some name) : P name := by
  simp only [VarNames.declare, Namer.addParam, lookup_bindKey, Namer.params_name] at hk
  split at hk
  · cases hk
    exact hname
  · exact h k name hk

theorem VarNames.paramsNamed_declare {v : VarNames} (h : v.namer.ParamsNamed) (t : Ty)
    (slot : Nat) : (v.declare t slot).2.namer.ParamsNamed :=
  VarNames.params_declare h t slot (Namer.rawSlot?_name h .param t slot)

/-! ## Declarations -/

theorem Tracks.declareThis {t : SlotTable} {r : SlotReplay} (h : Tracks t r) (type : String)
    (source : VarSource) :
    Tracks (t.record 0 "this" (.object type) .declared source) (r.declare "this" 0 1) := by
  have hfit : 0 + max (Ty.object type).size 1 ≤ slotLimit := by
    show 0 + max 1 1 ≤ slotLimit
    decide
  refine h.record hfit (fun k _ => lookup_bindKey "this" k 0 r.bound) ?_
  intro n hn
  rw [rawSlot?_this] at hn
  cases hn

theorem Tracks.declareParam {t t' : SlotTable} {vars : VarNames} (h : Tracks t vars.replay)
    (hnamed : vars.namer.ParamsNamed) {m : MethodDef} {p : Param} {type : Ty}
    (htype : type.IsField) (hdesc : p.desc = type.descriptor)
    (hname : p.name = (vars.declare type vars.replay.next).1)
    (hstep : addParam m t p = .ok t') :
    Tracks t' (vars.declare type vars.replay.next).2.replay
      ∧ (vars.declare type vars.replay.next).2.replay.next =
          min (vars.replay.next + type.size) slotLimit := by
  obtain ⟨type', htype', hfit, rfl⟩ := addParam_ok hstep
  rw [Ty.ofFieldDescriptor?_eq_some_iff.mpr ⟨htype, hdesc⟩] at htype'
  cases htype'
  have hsize := Ty.one_le_size htype.2
  have hnext := h.next
  refine ⟨?_, ?_⟩
  · rw [hnext] at hfit ⊢
    rw [hname]
    refine h.record hfit (fun k _ => lookup_bindKey _ k _ vars.replay.bound) ?_
    intro n hn
    have hraw := Namer.rawSlot?_name hnamed .param type vars.replay.next
    exact absurd (hraw.symm.trans hn) (by simp)
  · show vars.replay.nextAfter vars.replay.next type.size = _
    rw [SlotReplay.nextAfter]
    omega

/-- What a parameter is without its position. -/
def Param.spelling (p : Param) : String × String := (p.desc, p.name)

/-- Parameters are declared in the slots that they were named for. -/
theorem Tracks.declareParams (m : MethodDef) : ∀ {params : List Param} {types : List Ty}
    {vars : VarNames} {t t' : SlotTable}, Tracks t vars.replay → vars.namer.ParamsNamed →
    (∀ type ∈ types, type.IsField) →
    params.map Param.spelling = (nameParams vars vars.replay.next types).1.map Param.spelling →
    params.foldlM (addParam m) t = .ok t' →
    Tracks t' (nameParams vars vars.replay.next types).2.replay
  | params, [], _, _, _, h, _, _, hparams, hrun => by
      obtain rfl : params = [] := List.map_eq_nil_iff.mp hparams
      cases hrun
      exact h
  | [], type :: types, _, _, _, _, _, _, hparams, _ => by cases hparams
  | p :: params, type :: types, vars, t, t', h, hnamed, hfields, hparams, hrun => by
      rw [nameParams] at hparams ⊢
      obtain ⟨hp, hparams⟩ := List.cons.inj hparams
      obtain ⟨hdesc, hname⟩ := Prod.mk.inj hp
      obtain ⟨t₁, hstep, hrest⟩ := except_bind_eq_ok.mp hrun
      obtain ⟨h₁, hnext⟩ :=
        h.declareParam hnamed (hfields type List.mem_cons_self) hdesc hname hstep
      rw [← hnext] at hparams ⊢
      exact declareParams m h₁ (VarNames.paramsNamed_declare hnamed type _)
        (fun u hu => hfields u (List.mem_cons_of_mem _ hu)) hparams hrest

end JvmListing
