/-
# What is written for variables

The text of a variable operand is made in two steps.  The namer has a name for the slot
and the kind of value in it, and the replay writes that name or the number of the slot,
depending on what the name is bound to so far.  Both change while a body is written.

Still the text is settled with the first instruction (`VarNames.Settled`): the name is
kept; a name that is bound stays bound, so it will be written again; and a slot that a
number was written for is below the next slot from then on, so no name will be bound to
it.

  `VarNames.settled_use`, `VarNames.Settled.use`   what one instruction settles and keeps
  `shows_of_liftInsns`                             a body shows what is settled in the end
  `disassembleMethod_operands`                     texts and slots determine each other
-/
import JvmListing.Proofs.ClosedListings
import JvmListing.Proofs.MaxLocals
import JvmListing.Proofs.Plain
import JvmListing.Proofs.SlotNames

namespace JvmListing

/-! ## Names that will do -/

theorem isDigit_toString {n : Nat} {c : Char} (hc : c ∈ (toString n).toList) : c.isDigit = true :=
  (isDigit_of_readDigits? (readDigits?_toString n)).2 c hc

/-- A slot has at most five digits. -/
theorem length_toString_slot {slot : Nat} (h : slot ≤ slotLimit) :
    (toString slot).toList.length ≤ 5 := by
  rw [toList_toString]
  rcases Nat.eq_zero_or_pos slot with rfl | hpos
  · decide
  · have hpow := (length_toDigits_bounds hpos).1
    have hlt : 10 ^ (Nat.toDigits 10 slot).length < 10 ^ 6 := by
      unfold slotLimit at h
      omega
    exact Nat.le_of_lt_succ ((Nat.pow_lt_pow_iff_right (by decide)).mp hlt)

/-- The name of a slot that nothing else gives a name to will do. -/
theorem isGoodName_fallbackName (t : Ty) {slot : Nat} (hslot : slot ≤ slotLimit) :
    isGoodName (fallbackName t slot) = true := by
  unfold fallbackName
  dsimp only
  split
  · assumption
  · have hlength := length_toString_slot hslot
    have hlist : ("v" ++ toString slot).toList = 'v' :: (toString slot).toList := by
      rw [String.toList_append]
      rfl
    have hdigits : ∀ c ∈ (toString slot).toList, 48 ≤ c.toNat ∧ c.toNat ≤ 57 :=
      fun c hc => isDigit_iff.mp (isDigit_toString hc)
    simp only [isGoodName, hlist, isDecimal, Bool.and_eq_true, Bool.not_eq_true', decide_eq_true_eq,
      List.length_cons, longestName, List.all_cons, List.all_eq_true, List.contains_eq_mem]
    refine ⟨⟨⟨⟨⟨by omega, rfl⟩, ?_⟩, rfl⟩, ⟨by decide, ?_⟩⟩, ?_⟩
    · simp only [List.mem_cons, decide_eq_false_iff_not, not_or]
      exact ⟨by decide, fun hc => absurd (hdigits _ hc) (by decide)⟩
    · intro c hc
      have := hdigits c hc
      refine ⟨⟨⟨by omega, by omega⟩, ?_⟩, ?_⟩
      · rintro rfl
        exact absurd this (by decide)
      · rintro rfl
        exact absurd this (by decide)
    · simp

theorem isGoodName_this : isGoodName "this" = true := by decide

/-- A name that will do can be seen and is no number. -/
theorem visible_of_isGoodName {name : String} (h : isGoodName name = true) :
    name ≠ "" ∧ (∀ c ∈ name.toList, isVisible c = true)
      ∧ ¬ ∀ c ∈ name.toList, c.isDigit = true := by
  simp only [isGoodName, Bool.and_eq_true, Bool.not_eq_true', List.isEmpty_eq_false_iff,
    List.all_eq_true, decide_eq_true_eq] at h
  obtain ⟨⟨⟨⟨⟨-, hne⟩, -⟩, -⟩, hchars⟩, hdecimal⟩ := h
  refine ⟨fun he => hne (by rw [he]; rfl), ?_, fun hdigits => ?_⟩
  · intro c hc
    obtain ⟨⟨⟨hlow, hhigh⟩, -⟩, -⟩ := hchars c hc
    simp [isVisible, hlow, hhigh]
  · rw [isDecimal_of_isDigit hne hdigits] at hdecimal
    cases hdecimal

namespace Namer

variable {n : Namer} {slot : Nat}

/-- Will the names of the parameters so far do? -/
def ParamsGood (n : Namer) : Prop :=
  ∀ (slot : Nat) (name : String), n.params.lookup slot = some name → isGoodName name = true

/-- Where a name comes from. -/
theorem name_cases (n : Namer) (site : Site) (t : Ty) (hslot : slot ≤ slotLimit) :
    (n.IsThis slot ∧ n.name site t slot = ("this", n))
    ∨ (∃ name, ¬n.IsThis slot ∧ n.params.lookup slot = some name ∧ n.name site t slot = (name, n))
    ∨ ∃ name, ¬n.IsThis slot ∧ n.params.lookup slot = none ∧ isGoodName name = true
        ∧ n.name site t slot = (name, n.remember slot t name) := by
  by_cases hthis : n.IsThis slot
  · exact Or.inl ⟨hthis, by rw [Namer.name, if_pos hthis]⟩
  · cases hparam : n.params.lookup slot with
    | some name =>
        exact Or.inr (Or.inl ⟨name, hthis, rfl, by rw [Namer.name, if_neg hthis, hparam]⟩)
    | none =>
        obtain ⟨name, hname⟩ : ∃ name,
          name = ((n.knownName? site t slot).filter (isGoodName ·)).getD
            (fallbackName t slot) := ⟨_, rfl⟩
        refine Or.inr (Or.inr ⟨name, hthis, rfl, ?_, name_of_unnamed hthis hparam site t hname⟩)
        rw [hname]
        cases hknown : (n.knownName? site t slot).filter (isGoodName ·) with
        | none =>
            rw [Option.getD_none]
            exact isGoodName_fallbackName t hslot
        | some known =>
            rw [Option.getD_some]
            exact (Option.filter_eq_some_iff.mp hknown).2

theorem isGoodName_name (h : n.ParamsGood) (site : Site) (t : Ty) (hslot : slot ≤ slotLimit) :
    isGoodName (n.name site t slot).1 = true := by
  rcases n.name_cases site t hslot with ⟨-, he⟩ | ⟨name, -, hparam, he⟩ | ⟨name, -, -, hgood, he⟩
  · rw [he]
    exact isGoodName_this
  · rw [he]
    exact h slot name hparam
  · rw [he]
    exact hgood

/-- The name that is handed out is kept. -/
theorem calls_name (n : Namer) (site : Site) (t : Ty) (hslot : slot ≤ slotLimit) :
    (n.name site t slot).2.Calls slot t.kind.normalized (n.name site t slot).1 := by
  rcases n.name_cases site t hslot with
    ⟨hthis, he⟩ | ⟨name, hthis, hparam, he⟩ | ⟨name, hthis, hparam, hgood, he⟩
  · rw [he]
    exact Or.inl ⟨hthis, rfl⟩
  · rw [he]
    exact Or.inr (Or.inl ⟨hthis, hparam⟩)
  · rw [he]
    refine Or.inr (Or.inr ⟨hthis, hparam, ?_, hgood⟩)
    rw [lookup_remember, if_pos ⟨rfl, rfl⟩]

/-- Handing out a name takes none back. -/
theorem Calls.after_name {s : Nat} {kind : TypeKind} {name : String} (h : n.Calls s kind name)
    (site : Site) (t : Ty) (hslot : slot ≤ slotLimit) :
    (n.name site t slot).2.Calls s kind name := by
  by_cases hsame : s = slot ∧ kind = t.kind.normalized
  · obtain ⟨rfl, rfl⟩ := hsame
    exact (h.name_eq site).2 _ _ _ h
  · rcases n.name_cases site t hslot with ⟨-, he⟩ | ⟨_, -, -, he⟩ | ⟨name', -, -, -, he⟩
    · rwa [he]
    · rwa [he]
    · rw [he]
      rcases h with h | h | ⟨h₁, h₂, h₃, h₄⟩
      · exact Or.inl h
      · exact Or.inr (Or.inl h)
      · exact Or.inr (Or.inr ⟨h₁, h₂, by rw [lookup_remember, if_neg hsame, h₃], h₄⟩)

theorem Calls.unique {kind : TypeKind} {name name' : String} (h : n.Calls slot kind name)
    (h' : n.Calls slot kind name') : name = name' := by
  rcases h with ⟨hthis, rfl⟩ | ⟨hthis, hparam⟩ | ⟨hthis, hparam, hname, -⟩
  · rcases h' with ⟨-, rfl⟩ | ⟨hthis', -⟩ | ⟨hthis', -⟩
    · rfl
    · exact absurd hthis hthis'
    · exact absurd hthis hthis'
  · rcases h' with ⟨hthis', -⟩ | ⟨-, hparam'⟩ | ⟨-, hparam', -⟩
    · exact absurd hthis' hthis
    · exact Option.some.inj (hparam.symm.trans hparam')
    · exact absurd (hparam.symm.trans hparam') (by simp)
  · rcases h' with ⟨hthis', -⟩ | ⟨-, hparam'⟩ | ⟨-, -, hname', -⟩
    · exact absurd hthis' hthis
    · exact absurd (hparam.symm.trans hparam') (by simp)
    · exact Option.some.inj (hname.symm.trans hname')

end Namer

/-! ## Settled texts -/

/-- What is written for a slot by a name that is no number: the name exactly if it is bound to the
slot, or will be because it is new and the slot is next. -/
theorem SlotReplay.resolve_cases (r : SlotReplay) {name : String} (hraw : rawSlot? name = none)
    (slot size : Nat) :
    ((r.bound.lookup name).getD r.next = slot ∧
      r.resolve name slot size = (name, ⟨bindKey name slot r.bound, r.nextAfter slot size⟩))
    ∨ ((r.bound.lookup name).getD r.next ≠ slot ∧
      r.resolve name slot size = (toString slot, ⟨r.bound, r.nextAfter slot size⟩)) := by
  unfold SlotReplay.resolve
  rw [hraw, Option.none_or]
  by_cases htarget : (r.bound.lookup name).getD r.next = slot
  · exact Or.inl ⟨htarget, if_pos htarget⟩
  · exact Or.inr ⟨htarget, if_neg htarget⟩

namespace VarNames

variable {v : VarNames} {slot : Nat} {kind : TypeKind} {text : String}

/-- Is it settled what is written for a slot with a kind of value in it?  A name is bound to the
slot then, or else it never will be. -/
def Settled (v : VarNames) (slot : Nat) (kind : TypeKind) (text : String) : Prop :=
  ∃ name, v.namer.Calls slot kind name ∧ isGoodName name = true
    ∧ (text = name ∧ v.replay.bound.lookup name = some slot
      ∨ text = toString slot ∧ v.replay.bound.lookup name ≠ some slot ∧ slot < v.replay.next)

/-- What an instruction says is settled from then on. -/
theorem settled_use (hgood : v.namer.ParamsGood) (index : Nat) (t : Ty)
    (hfit : slot + max t.size 1 ≤ slotLimit) :
    (v.use index t slot).2.Settled slot t.kind.normalized (v.use index t slot).1 := by
  have hslot : slot ≤ slotLimit := by omega
  have hname := Namer.isGoodName_name hgood (.insn index) t hslot
  refine ⟨_, v.namer.calls_name (.insn index) t hslot, hname, ?_⟩
  rcases v.replay.resolve_cases (rawSlot?_of_isGoodName hname) slot t.size with
    ⟨-, he⟩ | ⟨htarget, he⟩
  · refine Or.inl ⟨congrArg Prod.fst he, ?_⟩
    rw [show (v.use index t slot).2.replay = _ from congrArg Prod.snd he,
      lookup_bindKey, if_pos rfl]
  · refine Or.inr ⟨congrArg Prod.fst he, ?_⟩
    rw [show (v.use index t slot).2.replay = _ from congrArg Prod.snd he]
    refine ⟨fun hbound => htarget (by rw [hbound, Option.getD_some]), ?_⟩
    show slot < max v.replay.next (min (slot + max t.size 1) slotLimit)
    omega

/-- What is settled stays so. -/
theorem Settled.use (h : v.Settled slot kind text) (hgood : v.namer.ParamsGood) (index : Nat)
    (t : Ty) {s : Nat} (hs : s ≤ slotLimit) : (v.use index t s).2.Settled slot kind text := by
  obtain ⟨name, hcalls, hname, htext⟩ := h
  have hnext : v.replay.next ≤ v.replay.nextAfter s t.size := Nat.le_max_left _ _
  refine ⟨name, hcalls.after_name (.insn index) t hs, hname, ?_⟩
  have hraw := rawSlot?_of_isGoodName (Namer.isGoodName_name hgood (.insn index) t hs)
  rcases v.replay.resolve_cases hraw s t.size with ⟨htarget, he⟩ | ⟨-, he⟩
  · rw [show (v.use index t s).2.replay = _ from congrArg Prod.snd he]
    simp only [lookup_bindKey]
    rcases htext with ⟨rfl, hbound⟩ | ⟨rfl, hbound, hlt⟩
    · refine Or.inl ⟨rfl, ?_⟩
      split
      · rename_i hsame
        rw [← hsame, hbound, Option.getD_some] at htarget
        rw [htarget]
      · exact hbound
    · refine Or.inr ⟨rfl, ?_, Nat.lt_of_lt_of_le hlt hnext⟩
      split
      · rename_i hsame
        rw [← hsame] at htarget
        rintro ⟨⟩
        -- the name is neither bound to the slot nor new with the slot next
        cases hlookup : v.replay.bound.lookup name with
        | some s' =>
            rw [hlookup, Option.getD_some] at htarget
            exact hbound (hlookup.trans (congrArg some htarget))
        | none =>
            rw [hlookup, Option.getD_none] at htarget
            omega
      · exact hbound
  · rw [show (v.use index t s).2.replay = _ from congrArg Prod.snd he]
    rcases htext with htext | ⟨htext, hbound, hlt⟩
    · exact Or.inl htext
    · exact Or.inr ⟨htext, hbound, Nat.lt_of_lt_of_le hlt hnext⟩

theorem Settled.unique {text' : String} (h : v.Settled slot kind text)
    (h' : v.Settled slot kind text') : text = text' := by
  obtain ⟨name, hcalls, -, htext⟩ := h
  obtain ⟨name', hcalls', -, htext'⟩ := h'
  obtain rfl := hcalls.unique hcalls'
  rcases htext with ⟨rfl, hbound⟩ | ⟨rfl, hbound, -⟩
  · rcases htext' with ⟨rfl, -⟩ | ⟨-, hbound', -⟩
    · rfl
    · exact absurd hbound hbound'
  · rcases htext' with ⟨-, hbound'⟩ | ⟨rfl, -⟩
    · exact absurd hbound' hbound
    · rfl

/-- No text is written for two slots. -/
theorem Settled.slot_eq {slot' : Nat} {kind' : TypeKind} (h : v.Settled slot kind text)
    (h' : v.Settled slot' kind' text) (hslot : slot ≤ slotLimit) (hslot' : slot' ≤ slotLimit) :
    slot = slot' := by
  obtain ⟨name, -, hname, htext⟩ := h
  obtain ⟨name', -, hname', htext'⟩ := h'
  rcases htext with ⟨rfl, hbound⟩ | ⟨rfl, -⟩
  · rcases htext' with ⟨rfl, hbound'⟩ | ⟨rfl, -⟩
    · exact Option.some.inj (hbound.symm.trans hbound')
    · exact absurd ((rawSlot?_toString hslot').symm.trans (rawSlot?_of_isGoodName hname)) (by simp)
  · rcases htext' with ⟨rfl, -⟩ | ⟨htext, -⟩
    · exact absurd ((rawSlot?_toString hslot).symm.trans (rawSlot?_of_isGoodName hname')) (by simp)
    · have := congrArg rawSlot? htext
      rw [rawSlot?_toString hslot, rawSlot?_toString hslot'] at this
      exact Option.some.inj this

/-- What is written can be seen, and is a number only if it is that of the slot. -/
theorem Settled.visible (h : v.Settled slot kind text) :
    text ≠ "" ∧ (∀ c ∈ text.toList, isVisible c = true)
      ∧ ((∀ c ∈ text.toList, c.isDigit = true) → text = toString slot) := by
  obtain ⟨name, -, hname, ⟨rfl, -⟩ | ⟨rfl, -⟩⟩ := h
  · obtain ⟨hne, hvisible, hnumber⟩ := visible_of_isGoodName hname
    exact ⟨hne, hvisible, fun hdigits => absurd hdigits hnumber⟩
  · refine ⟨fun he => ?_, fun c hc => ?_, fun _ => rfl⟩
    · exact (isDigit_of_readDigits? (readDigits?_toString slot)).1 (by rw [he]; rfl)
    · have := isDigit_iff.mp (isDigit_toString hc)
      simp only [isVisible, Bool.and_eq_true, decide_eq_true_eq]
      omega

end VarNames

/-! ## Parameters -/

theorem VarNames.paramsGood_declare {v : VarNames} (h : v.namer.ParamsGood) (t : Ty) {slot : Nat}
    (hslot : slot ≤ slotLimit) : (v.declare t slot).2.namer.ParamsGood :=
  VarNames.params_declare h t slot (Namer.isGoodName_name h .param t hslot)

theorem paramsGood_nameParams : ∀ (types : List Ty) {v : VarNames} {slot : Nat},
    v.namer.ParamsGood → slot ≤ slotLimit → (nameParams v slot types).2.namer.ParamsGood
  | [], _, _, h, _ => h
  | t :: types, v, slot, h, hslot => by
      rw [nameParams]
      exact paramsGood_nameParams types (VarNames.paramsGood_declare h t hslot)
        (Nat.min_le_right _ _)

theorem Disassembled.paramsGood {stem : String} {namer : Namer} {d : MethodDef}
    {handlers core : Code} {vars : VarNames} {types : List Ty} {result : Ty}
    (h : Disassembled stem namer d handlers core vars types result) (hgood : namer.ParamsGood) :
    vars.namer.ParamsGood := by
  have hvars := congrArg Prod.snd h.named
  split at hvars
  · rw [show vars = _ from hvars]
    exact paramsGood_nameParams types hgood (Nat.zero_le _)
  · rw [show vars = _ from hvars]
    exact paramsGood_nameParams types hgood (by decide)

/-! ## Bodies -/

/-- The slot that an instruction reads or writes, with the kind of value that it takes to be
there. -/
def Insn.access? : Insn → Option (Nat × TypeKind)
  | .var op slot => op.varType?.map fun t => (slot.toNat, t.kind.normalized)
  | .iinc slot _ => some (slot.toNat, Ty.int.kind.normalized)
  | _ => none

/-- The text of the variable operand. -/
def Statement.operand? (s : Statement) : Option String :=
  (s.operation?.bind Operation.varRef?).map (·.name)

theorem Statement.operand?_operation (op : Operation) :
    (Statement.operation op).operand? = op.varRef?.map (·.name) := rfl

/-- Does an entry say what is settled about the access of an instruction? -/
def Shows (v : VarNames) (insn : Insn) (e : Entry) : Prop :=
  insn.access? = none ∧ e.value.operand? = none
    ∨ ∃ slot kind text, insn.access? = some (slot, kind) ∧ slot ≤ slotLimit
        ∧ e.value.operand? = some text ∧ v.Settled slot kind text

theorem Opcode.varWidth_pos (op : Opcode) : 1 ≤ op.varWidth := by
  unfold varWidth
  split <;> decide

section Bodies

variable {names : LabelNames}

/-- What one instruction settles. -/
theorem shows_of_liftInsn {index : Nat} {v v' : VarNames} {insn : Insn} {op : Operation}
    (hgood : v.namer.ParamsGood) (hfit : ∀ stop ∈ insn.slotEnd?, stop ≤ slotLimit)
    (h : liftInsn names index v insn = .ok (op, v')) :
    v'.namer.ParamsGood ∧ (∀ slot kind text, v.Settled slot kind text → v'.Settled slot kind text)
      ∧ Shows v' insn ⟨.operation op, {}⟩ := by
  have huse : ∀ (t : Ty) (slot : Nat), slot + max t.size 1 ≤ slotLimit →
      (v.use index t slot).2.namer.ParamsGood ∧
        ∀ s kind text, v.Settled s kind text → (v.use index t slot).2.Settled s kind text := by
    intro t slot hslot
    refine ⟨fun k name hk => hgood k name ?_, fun s kind text hs => hs.use hgood index t (by omega)⟩
    rw [← hk]
    exact congrArg (List.lookup k) (Namer.params_name v.namer (.insn index) t slot).symm
  cases insn with
  | var o slot =>
      obtain ⟨t, use, ht, huse', rfl, rfl⟩ := liftInsn_var_ok h
      have hslot : slot.toNat + max t.size 1 ≤ slotLimit := by
        rw [Opcode.size_of_varType? ht, Nat.max_eq_left o.varWidth_pos]
        exact hfit _ rfl
      obtain ⟨hgood', hkeep⟩ := huse t slot.toNat hslot
      refine ⟨hgood', hkeep, Or.inr ⟨slot.toNat, t.kind.normalized, _, ?_, by omega, ?_,
        VarNames.settled_use hgood index t hslot⟩⟩
      · rw [Insn.access?, ht]
        rfl
      · rw [Statement.operand?_operation, varRef?_var _ ht huse', Option.map_some]
  | iinc slot increment =>
      obtain ⟨rfl, rfl⟩ := liftInsn_iinc_ok h
      have hslot : slot.toNat + max Ty.int.size 1 ≤ slotLimit := hfit _ rfl
      obtain ⟨hgood', hkeep⟩ := huse .int slot.toNat hslot
      exact ⟨hgood', hkeep, Or.inr ⟨slot.toNat, _, _, rfl, by omega, rfl,
        VarNames.settled_use hgood index .int hslot⟩⟩
  | _ =>
      obtain ⟨rfl, hvar⟩ := liftInsn_other rfl h
      exact ⟨hgood, fun _ _ _ hs => hs,
        Or.inl ⟨rfl, by rw [Statement.operand?_operation, hvar, Option.map_none]⟩⟩

/-- A body says of each access what is settled about it in the end. -/
theorem shows_of_liftInsns : ∀ {insns : List Insn} {index : Nat} {v : VarNames} {core : Code},
    v.namer.ParamsGood → (∀ insn ∈ insns, ∀ stop ∈ insn.slotEnd?, stop ≤ slotLimit) →
    liftInsns names index v insns = .ok core →
    ∃ v' : VarNames, (∀ slot kind text, v.Settled slot kind text → v'.Settled slot kind text)
      ∧ List.Forall₂ (Shows v') insns core
  | [], _, v, _, _, _, h => by
      cases h
      exact ⟨v, fun _ _ _ hs => hs, .nil⟩
  | insn :: insns, index, v, core, hgood, hfit, h => by
      obtain ⟨hfirst, hfits⟩ := List.forall_mem_cons.mp hfit
      cases hlabel : insn.label? with
      | some id =>
          cases insn with
          | label id' =>
              obtain ⟨name, -, h⟩ := except_bind_eq_ok.mp h
              obtain ⟨rest, hrest, h⟩ := except_bind_eq_ok.mp h
              cases h
              obtain ⟨v', hkeep, hshows⟩ := shows_of_liftInsns hgood hfits hrest
              exact ⟨v', hkeep, .cons (Or.inl ⟨rfl, rfl⟩) hshows⟩
          | _ => cases hlabel
      | none =>
          obtain ⟨op, v₁, rest, hop, hrest, rfl⟩ := liftInsns_cons_ok hlabel h
          obtain ⟨hgood₁, hkeep₁, hshows₁⟩ := shows_of_liftInsn hgood hfirst hop
          obtain ⟨v', hkeep, hshows⟩ := shows_of_liftInsns hgood₁ hfits hrest
          refine ⟨v', fun slot kind text hs => hkeep _ _ _ (hkeep₁ _ _ _ hs), .cons ?_ hshows⟩
          rcases hshows₁ with hnone | ⟨slot, kind, text, haccess, hslot, htext, hsettled⟩
          · exact Or.inl hnone
          · exact Or.inr ⟨slot, kind, text, haccess, hslot, htext, hkeep _ _ _ hsettled⟩

end Bodies

/-- Is a text written for a slot and a kind of value, by the entry of some instruction? -/
def Spells (insns : List Insn) (core : Code) (slot : Nat) (kind : TypeKind)
    (text : String) : Prop :=
  ∃ p ∈ insns.zip core, p.1.access? = some (slot, kind) ∧ p.2.value.operand? = some text

theorem settled_of_spells {v : VarNames} {insns : List Insn} {core : Code}
    (h : List.Forall₂ (Shows v) insns core) {slot : Nat} {kind : TypeKind} {text : String}
    (hspells : Spells insns core slot kind text) :
    slot ≤ slotLimit ∧ v.Settled slot kind text := by
  obtain ⟨p, hp, haccess, htext⟩ := hspells
  rcases (List.forall₂_iff_zip.mp h).2 hp with ⟨hnone, -⟩
    | ⟨s, k, x, haccess', hs, htext', hsettled⟩
  · rw [haccess] at hnone
    cases hnone
  · rw [haccess] at haccess'
    cases haccess'
    rw [htext] at htext'
    cases htext'
    exact ⟨hs, hsettled⟩

/-- Variables are written consistently: for a slot and a kind of value there is one text, a text
stands for one slot, and it is a number only if it is that of the slot. -/
theorem disassembleMethod_operands (stem : String) (slots : SlotTable)
    (m : MethodNode) (l : Listing)
    (hfit : ∀ insn ∈ m.insns, ∀ stop ∈ insn.slotEnd?, stop ≤ slotLimit)
    (h : disassembleMethod stem slots m = .ok l) :
    ∃ before core after : Code,
      l.body = before ++ core ++ after
      ∧ (∀ e ∈ before ++ after, e.value.operation? = none)
      ∧ core.length = m.insns.length
      ∧ (∀ p ∈ m.insns.zip core, p.2.value.operation?.bind Operation.opcode? = p.1.opcode?
          ∧ p.2.value.operand?.isSome = p.1.access?.isSome)
      ∧ (∀ slot kind text text', Spells m.insns core slot kind text →
          Spells m.insns core slot kind text' → text = text')
      ∧ (∀ slot kind slot' kind' text, Spells m.insns core slot kind text →
          Spells m.insns core slot' kind' text → slot = slot')
      ∧ ∀ slot kind text, Spells m.insns core slot kind text →
          text ≠ "" ∧ (∀ c ∈ text.toList, isVisible c = true)
            ∧ ((∀ c ∈ text.toList, c.isDigit = true) → text = toString slot) := by
  obtain ⟨d, code, handlers, core, vars, types, result, trailing, -, -, hd, hbody, -⟩ :=
    disassembleMethod_ok h
  have hgood : vars.namer.ParamsGood := hd.paramsGood nofun
  obtain ⟨v, -, hshows⟩ := shows_of_liftInsns hgood hfit hd.insns
  refine ⟨handlers ++ labelEntriesOf (LabelNames.ofInsns stem m.insns).leading, core,
    labelEntriesOf trailing, hbody, ?_, hshows.length_eq.symm, ?_, ?_, ?_, ?_⟩
  · have hlabels : ∀ name? : Option String, ∀ e ∈ labelEntriesOf name?,
        e.value.operation? = none := by
      intro name? e he
      obtain ⟨name, hname⟩ := exists_label_of_mem he
      rw [hname]
      rfl
    intro e he
    rcases List.mem_append.mp he with he | he
    · rcases List.mem_append.mp he with he | he
      · obtain ⟨b, -, hb⟩ := exists_left_of_forall₂ (tryCatch_of_liftBlocks hd.blocks) he
        rw [hb]
        rfl
      · exact hlabels _ e he
    · exact hlabels _ e he
  · intro p hp
    refine ⟨((List.forall₂_iff_zip.mp (written_of_liftInsns hd.insns)).2 hp).opcode?_eq, ?_⟩
    rcases (List.forall₂_iff_zip.mp hshows).2 hp with ⟨haccess, htext⟩
      | ⟨_, _, _, haccess, -, htext, -⟩
    · rw [haccess, htext]
      rfl
    · rw [haccess, htext]
      rfl
  · intro slot kind text text' hspells hspells'
    exact (settled_of_spells hshows hspells).2.unique (settled_of_spells hshows hspells').2
  · intro slot kind slot' kind' text hspells hspells'
    obtain ⟨hslot, hsettled⟩ := settled_of_spells hshows hspells
    obtain ⟨hslot', hsettled'⟩ := settled_of_spells hshows hspells'
    exact hsettled.slot_eq hsettled' hslot hslot'
  · intro slot kind text hspells
    exact (settled_of_spells hshows hspells).2.visible

/-- A variable above a gap comes before those in the gap, one of which is an int and a reference. -/
def slotsInGap : MethodNode where
  access := 0x0008
  name := "m"
  desc := "(J)V"
  insns :=
    [.var .iload 5, .var .istore 6, .var .istore 2, .var .aload 2, .iinc 6 1, .iinc 2 1,
     .var .lload 0, .plain .vreturn]

theorem disassembleMethod_operands_slotsInGap :
    (∀ insn ∈ slotsInGap.insns, ∀ stop ∈ insn.slotEnd?, stop ≤ slotLimit)
      ∧ ∃ l : Listing, disassembleMethod "" {} slotsInGap = .ok l
        ∧ l.body.filterMap (·.value.operand?) = ["5", "i6", "2", "2", "i6", "2", "j0"]
        ∧ ∃ core : Code, core.length = 8 ∧ ∀ slot kind slot' kind' text,
          Spells slotsInGap.insns core slot kind text →
          Spells slotsInGap.insns core slot' kind' text → slot = slot' := by
  have hfit : ∀ insn ∈ slotsInGap.insns, ∀ stop ∈ insn.slotEnd?, stop ≤ slotLimit := by decide
  obtain ⟨_, core, _, -, -, hlength, -, -, hslots, -⟩ :=
    disassembleMethod_operands "" {} slotsInGap _ hfit rfl
  exact ⟨hfit, _, rfl, by decide, core, hlength, hslots⟩

end JvmListing
