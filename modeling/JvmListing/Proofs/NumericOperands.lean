/-
# Numbers as operands

A variable may be written as the number of its slot.  Numbers and names are kept in
one table though, and a number is looked up there first:

* a parameter may be called by a number, and then takes it for itself, whatever its slot;
* a number above the slots is like any other new name and gets the next slot.

Every other number stands for itself.

  `rawSlot?_of_isDigit`           which slot digits denote
  `SlotTable.slotOf?_declared`    what the declaration of a method binds
  `SlotTable.slotOf?_first`       what is bound later, is bound by the first entry that says it
  `assembleMethod_numericOperand` the slot of a number, and when it is the number
-/
import JvmListing.Proofs.OperandTexts

namespace JvmListing

/-! ## Digits -/

/-- The number that the digits of a text denote. -/
def numeral (text : String) : Nat := Nat.ofDigitChars 10 text.toList 0

theorem foldDigits_of_isDigit : ∀ {cs : List Char} (init : Nat), (∀ c ∈ cs, c.isDigit = true) →
    foldDigits 10 digitValue? init cs = some (Nat.ofDigitChars 10 cs init)
  | [], _, _ => rfl
  | c :: cs, init, h => by
      obtain ⟨hc, hcs⟩ := List.forall_mem_cons.mp h
      have hvalue : digitValue? c = some (c.toNat - '0'.toNat) := by rw [digitValue?_eq, if_pos hc]
      rw [foldDigits, hvalue, Nat.ofDigitChars_cons, Nat.mul_comm]
      exact foldDigits_of_isDigit _ hcs

/-- A number denotes a slot, if there is one with the number. -/
theorem rawSlot?_of_isDigit {text : String} (hne : text ≠ "")
    (h : ∀ c ∈ text.toList, c.isDigit = true) :
    rawSlot? text = if numeral text ≤ slotLimit then some (numeral text) else none := by
  have hlist : text.toList ≠ [] := fun he => hne (String.toList_eq_nil_iff.mp he)
  rw [rawSlot?, readDigits?_of_ne_nil hlist, foldDigits_of_isDigit 0 h]
  rfl

/-! ## Numbers of parameters -/

/-- The slot of the last parameter with a name. -/
def MethodDef.paramSlot? (m : MethodDef) (name : String) : Option Nat :=
  ((paramSlots m.firstSlot m.params).findRev? (·.2.name == name)).map (·.1)

namespace SlotTable

variable {selfType : String} {m : MethodDef} {code : Code} {name : String}

/-- The last parameter with a name has it. -/
theorem slotOf?_addParams : ∀ {params : List Param} {t t' : SlotTable},
    params.foldlM (addParam m) t = .ok t' →
    t'.slotOf? name =
      (((paramSlots t.cap params).findRev? (·.2.name == name)).map (·.1)).or (t.slotOf? name)
  | [], _, _, h => by
      cases h
      rfl
  | p :: params, t, t', h => by
      obtain ⟨t₁, hstep, hrest⟩ := except_bind_eq_ok.mp h
      obtain ⟨-, -, -, rfl, hcap⟩ := addParam_type_ok hstep
      rw [slotOf?_addParams hrest, hcap, slotOf?_record, paramSlots, List.findRev?]
      cases (paramSlots (t.cap + p.type.size) params).findRev? (·.2.name == name) with
      | some last => rfl
      | none =>
          by_cases hname : name = p.name
          · rw [if_pos hname, if_pos (beq_iff_eq.mpr hname.symm)]
            rfl
          · rw [if_neg hname, if_neg fun he => hname (beq_iff_eq.mp he).symm]

/-- What the declaration of a method binds, apart from `this`. -/
theorem slotOf?_declared {t : SlotTable} (h : declared selfType m = .ok t) (hname : name ≠ "this") :
    t.slotOf? name = m.paramSlot? name := by
  obtain ⟨t₀, hthis, hparams⟩ := except_bind_eq_ok.mp h
  obtain ⟨-, -, hcap, -⟩ := addThis_firstSlot hthis
  have hnone : t₀.slotOf? name = none := by
    rcases addThis_ok hthis with rfl | rfl
    · rfl
    · rw [slotOf?_record, if_neg hname]
      rfl
  rw [slotOf?_addParams hparams, hnone, Option.or_none, hcap]
  rfl

/-- A parameter keeps its name, whatever comes in the body. -/
theorem slotOf?_of_paramSlot? {t : SlotTable} (h : allocate selfType m code = .ok t)
    (hname : name ≠ "this") {s : Nat} (hs : m.paramSlot? name = some s) :
    t.slotOf? name = some s := by
  rw [allocate_eq] at h
  obtain ⟨t₀, h₀, hrun⟩ := except_bind_eq_ok.mp h
  exact (sound_declared h₀).slotOf?_run hrun ((slotOf?_declared h₀ hname).trans hs)

/-! ## Numbers of a body -/

/-- An entry binds the name that it says, and no other. -/
theorem slotOf?_allocate_step {k : Nat} {t t' : SlotTable}
    (h : allocate selfType m (code.take k) = .ok t)
    (h' : allocate selfType m (code.take (k + 1)) = .ok t') :
    t'.slotOf? name = t.slotOf? name
      ∨ code[k]?.bind (·.value.operand?) = some name ∧ t'.slotOf? name = some (t.slotFor name) := by
  cases href : code[k]?.bind (fun e => e.value.operation?.bind Operation.varRef?) with
  | none =>
      rw [allocate_eq, references_take_succ_none href, ← allocate_eq, h] at h'
      cases h'
      exact Or.inl rfl
  | some ref =>
      obtain ⟨e, hk, href⟩ := Option.bind_eq_some_iff.mp href
      rw [allocate_succ hk href h h', slotOf?_record]
      by_cases hname : name = ref.name
      · subst hname
        refine Or.inr ⟨?_, if_pos rfl⟩
        rw [hk, Option.bind_some, Statement.operand?, href, Option.map_some]
      · exact Or.inl (if_neg hname)

/-- A name that is bound in the end was bound by the declaration, or by the first entry that says
it. -/
theorem slotOf?_first {s : Nat} : ∀ {k : Nat} {t : SlotTable},
    allocate selfType m (code.take k) = .ok t → t.slotOf? name = some s →
    (∃ t₀, declared selfType m = .ok t₀ ∧ t₀.slotOf? name = some s)
    ∨ ∃ j t₁, j < k ∧ code[j]?.bind (·.value.operand?) = some name
        ∧ allocate selfType m (code.take j) = .ok t₁ ∧ t₁.slotOf? name = none
        ∧ s = t₁.slotFor name
  | 0, t, h, hs => by
      rw [allocate_eq] at h
      obtain ⟨t₀, h₀, hrun⟩ := except_bind_eq_ok.mp h
      cases hrun
      exact Or.inl ⟨t, h₀, hs⟩
  | k + 1, t, h, hs => by
      obtain ⟨t', h', hkeep⟩ := allocate_take h k
      rw [List.take_take, Nat.min_eq_left (Nat.le_succ k)] at h'
      cases hs' : t'.slotOf? name with
      | some s' =>
          obtain rfl : s' = s := Option.some.inj ((hkeep hs').symm.trans hs)
          rcases slotOf?_first h' hs' with hdeclared | ⟨j, t₁, hj, hfirst⟩
          · exact Or.inl hdeclared
          · exact Or.inr ⟨j, t₁, Nat.lt_succ_of_lt hj, hfirst⟩
      | none =>
          rcases slotOf?_allocate_step h' h with hsame | ⟨hnames, hbound⟩
          · rw [hsame, hs'] at hs
            cases hs
          · exact Or.inr ⟨k, t', Nat.lt_succ_self k, hnames, h', hs',
              Option.some.inj (hs.symm.trans hbound)⟩

end SlotTable

open SlotTable

/-- A number is lowered to the slot of the last parameter that is called by it, else to the slot
that it denotes, and else, for want of such a slot, to the one that was next when it was said first.
So it is lowered to its own slot exactly if no parameter in another slot is called by it and there
is a slot with that number. -/
theorem assembleMethod_numericOperand (options : AssemblyOptions) (helpers : Helpers) (l : Listing)
    (a : AssembledMethod) (m : MethodDef) (k : Nat) (e : Entry) (x : String)
    (h : assembleMethod options helpers l = .ok a) (hm : l.method? = some m)
    (hk : l.body[k]? = some e) (hx : e.value.operand? = some x) (hne : x ≠ "")
    (hdigits : ∀ c ∈ x.toList, c.isDigit = true) :
    ∃ s, (∃ i : Nat, a.origins[i]? = some k)
      ∧ (∀ i : Nat, a.origins[i]? = some k → a.method.insns[i]?.bind Insn.slot? = some s)
      ∧ (∀ p, m.paramSlot? x = some p → s = p)
      ∧ (m.paramSlot? x = none → numeral x ≤ slotLimit → s = numeral x)
      ∧ (m.paramSlot? x = none → slotLimit < numeral x →
          ∃ j t, j ≤ k ∧ l.body[j]?.bind (·.value.operand?) = some x
            ∧ allocate options.selfType m (l.body.take j) = .ok t ∧ t.slotOf? x = none ∧ s = t.cap)
      ∧ (s = numeral x ↔
          m.paramSlot? x = some (numeral x) ∨ m.paramSlot? x = none ∧ numeral x ≤ slotLimit) := by
  obtain ⟨ctx, low, ha⟩ := assembled_of_ok h
  obtain rfl : m = ctx.method := Option.some.inj (hm.symm.trans (method?_of_assembly ha.method))
  obtain ⟨ref, href, rfl⟩ := Option.map_eq_some_iff.mp hx
  have hraw := rawSlot?_of_isDigit hne hdigits
  have hthis : ref.name ≠ "this" := by
    intro he
    exact absurd (hdigits 't' (by rw [he]; decide)) (by decide)
  obtain ⟨t, ht, -⟩ := allocate_take ha.slots k
  obtain ⟨t', ht', hkeep⟩ := allocate_take ha.slots (k + 1)
  have hbound := slotOf?_allocate_succ hk href ht ht'
  obtain ⟨horigin, hlowered⟩ := ha.slot?_of_reference hk href (hkeep hbound)
  generalize t.slotFor ref.name = s at hbound hlowered
  have hparam : ∀ p, ctx.method.paramSlot? ref.name = some p → s = p := fun p hp =>
    Option.some.inj (hbound.symm.trans (slotOf?_of_paramSlot? ht' hthis hp))
  have hfree : ctx.method.paramSlot? ref.name = none →
      ∃ j t, j ≤ k ∧ l.body[j]?.bind (·.value.operand?) = some ref.name
        ∧ allocate options.selfType ctx.method (l.body.take j) = .ok t ∧ t.slotOf? ref.name = none
        ∧ s = (rawSlot? ref.name).getD t.cap := by
    intro hnone
    rcases slotOf?_first ht' hbound with ⟨t₀, h₀, hs⟩ | ⟨j, t₁, hj, hnames, h₁, hnew, hs⟩
    · rw [slotOf?_declared h₀ hthis, hnone] at hs
      cases hs
    · refine ⟨j, t₁, Nat.le_of_lt_succ hj, hnames, h₁, hnew, ?_⟩
      rw [hs, slotFor, hnew, Option.none_or]
  have hown : ctx.method.paramSlot? ref.name = none → numeral ref.name ≤ slotLimit →
      s = numeral ref.name := by
    intro hnone hle
    obtain ⟨_, _, -, -, -, -, hs⟩ := hfree hnone
    rwa [hraw, if_pos hle] at hs
  refine ⟨s, horigin, hlowered, hparam, hown, fun hnone hlt => ?_, fun hs => ?_, ?_⟩
  · obtain ⟨j, t₁, hj, hnames, h₁, hnew, hs⟩ := hfree hnone
    rw [hraw, if_neg (Nat.not_le_of_lt hlt)] at hs
    exact ⟨j, t₁, hj, hnames, h₁, hnew, hs⟩
  · cases hslot : ctx.method.paramSlot? ref.name with
    | some p => exact Or.inl (by rw [← hparam p hslot, hs])
    | none =>
        -- a slot is never above the last one
        have hlt := ha.slot_lt (hkeep hbound)
        refine Or.inr ⟨rfl, ?_⟩
        rw [← hs]
        exact Nat.le_of_lt_succ hlt
  · rintro (hp | ⟨hnone, hle⟩)
    · exact hparam _ hp
    · exact hown hnone hle

/-- A parameter that is called 3 in slot 0, a number of no parameter and one above all slots. -/
def numbersAsNames : Listing where
  definition := .method ⟨0x0008, "m", [⟨"I", "3", {}⟩], "V", {}, {}⟩
  code := some
    [⟨.operation (.var .iload "3"), {}⟩, ⟨.operation (.var .istore "2"), {}⟩,
     ⟨.operation (.var .istore "70000"), {}⟩, ⟨.operation (.plain .vreturn), {}⟩]

theorem assembleMethod_numericOperand_numbersAsNames :
    ∃ a, assembleMethod {} {} numbersAsNames = .ok a
      ∧ (∀ i : Nat, a.origins[i]? = some 0 → a.method.insns[i]?.bind Insn.slot? = some 0)
      ∧ (∀ i : Nat, a.origins[i]? = some 1 → a.method.insns[i]?.bind Insn.slot? = some 2)
      ∧ ∃ s, s ≠ numeral "70000"
        ∧ ∀ i : Nat, a.origins[i]? = some 2 → a.method.insns[i]?.bind Insn.slot? = some s := by
  obtain ⟨a, ha⟩ : ∃ a, assembleMethod {} {} numbersAsNames = .ok a := ⟨_, rfl⟩
  obtain ⟨s₀, -, hslot₀, hparam, -⟩ :=
    assembleMethod_numericOperand {} {} numbersAsNames a _ 0 _ "3"
    ha rfl rfl rfl (by decide) (List.all_eq_true.mp (by decide))
  obtain ⟨s₁, -, hslot₁, -, hown, -⟩ :=
    assembleMethod_numericOperand {} {} numbersAsNames a _ 1 _ "2"
    ha rfl rfl rfl (by decide) (List.all_eq_true.mp (by decide))
  obtain ⟨s₂, -, hslot₂, -, -, -, hiff⟩ :=
    assembleMethod_numericOperand {} {} numbersAsNames a _ 2 _ "70000" ha rfl rfl rfl (by decide)
      (List.all_eq_true.mp (by decide))
  obtain rfl : s₀ = 0 := hparam 0 rfl
  obtain rfl : s₁ = 2 := hown rfl (by decide)
  refine ⟨a, ha, hslot₀, hslot₁, s₂, fun he => absurd (hiff.mp he) ?_, hslot₂⟩
  decide

end JvmListing
