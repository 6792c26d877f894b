/-
# Flags that are kept

Dropping the flags that cannot be written for a target keeps every flag that can.
-/
import JvmListing.Access
import Mathlib.Data.List.Basic
import Mathlib.Data.Nat.Bitwise
import Mathlib.Tactic.Common

namespace JvmListing

theorem and_of_or (a b c : UInt32) : (a ||| b) &&& c = (a &&& c) ||| (b &&& c) := by
  rw [← UInt32.toBitVec_inj]
  exact BitVec.and_or_distrib_right

theorem or_and_self (a b : UInt32) : (a ||| b) &&& b = b := by
  rw [← UInt32.toNat_inj, UInt32.toNat_and, UInt32.toNat_or]
  refine Nat.eq_of_testBit_eq ?_
  intro i
  rw [Nat.testBit_and, Nat.testBit_or]
  cases a.toNat.testBit i <;> simp

/-- Setting a flag sets a bit if it is that bit and else does nothing to it. -/
theorem has_or {a flag bit : Access} (h : flag = bit ∨ flag &&& bit = 0) (hne : bit ≠ 0) :
    Access.has (a ||| flag) bit = (Access.has a bit || flag == bit) := by
  unfold Access.has
  rcases h with rfl | h
  · rw [or_and_self]
    simp
  · have hflag : flag ≠ bit := by
      rintro rfl
      rw [UInt32.and_self] at h
      exact hne h
    rw [and_of_or, h, UInt32.or_zero]
    simp [hflag]

theorem has_foldl_or {bit : Access} (hne : bit ≠ 0) : ∀ {l : List (String × Access)} {acc : Access},
    (∀ p ∈ l, p.2 = bit ∨ p.2 &&& bit = 0) →
    Access.has (l.foldl (fun acc (_, flag) => acc ||| flag) acc) bit =
      (Access.has acc bit || l.any (·.2 == bit))
  | [], _, _ => by simp
  | p :: l, acc, h => by
      rw [List.foldl_cons, has_foldl_or hne fun q hq => h q (List.mem_cons_of_mem _ hq),
        has_or (h p List.mem_cons_self) hne, List.any_cons, Bool.or_assoc]

/-- A flag of a target is kept when all else is dropped. -/
theorem has_applicable {target : FlagTarget} {bit : Access} (access : Access)
    (hbit : bit ∈ target.modifiers.map (·.2))
    (hflags : ∀ p ∈ target.modifiers, p.2 = bit ∨ p.2 &&& bit = 0) (hne : bit ≠ 0) :
    Access.has (Access.applicable access target) bit = Access.has access bit := by
  unfold Access.applicable
  rw [has_foldl_or hne fun p hp => hflags p (List.mem_of_mem_filter hp)]
  have hzero : Access.has 0 bit = false := by
    simpa [Access.has] using fun e => hne e.symm
  rw [hzero, Bool.false_or, Bool.eq_iff_iff, List.any_eq_true]
  constructor
  · rintro ⟨p, hp, he⟩
    rw [beq_iff_eq] at he
    exact he ▸ (List.mem_filter.mp hp).2
  · intro h
    obtain ⟨p, hp, rfl⟩ := List.mem_map.mp hbit
    exact ⟨p, List.mem_filter.mpr ⟨hp, h⟩, by simp⟩

theorem isStatic_applicable (access : Access) :
    Access.isStatic (Access.applicable access .method) = Access.isStatic access :=
  has_applicable access (by decide) (by decide) (by decide)

/-! ## Masks -/

/-- A flag of one bit is set or has nothing in common with what is set. -/
theorem and_flag {access flag : Access} {k : Nat} (hflag : flag.toNat = 2 ^ k) :
    access &&& flag = if Access.has access flag then flag else 0 := by
  by_cases h : access &&& flag = flag
  · simp [Access.has, h]
  · have hhas : Access.has access flag = false := by simpa [Access.has] using h
    rw [hhas, if_neg Bool.false_ne_true]
    rw [← UInt32.toNat_inj, UInt32.toNat_and, hflag, Nat.and_two_pow] at h
    rw [← UInt32.toNat_inj, UInt32.toNat_and, hflag, Nat.and_two_pow]
    cases hbit : access.toNat.testBit k with
    | false => simp
    | true =>
        rw [hbit, Bool.toNat_true, Nat.one_mul] at h
        exact absurd rfl h

/-- All flags that can be written for a target. -/
def FlagTarget.mask (target : FlagTarget) : Access :=
  target.modifiers.foldl (fun acc (_, flag) => acc ||| flag) 0

theorem foldl_filter_has (access : Access) : ∀ (l : List (String × Access)) (mask : Access),
    (∀ p ∈ l, ∃ k, p.2.toNat = 2 ^ k) →
    (l.filter fun (_, flag) => Access.has access flag).foldl (fun acc (_, flag) => acc ||| flag)
        (access &&& mask) =
      access &&& l.foldl (fun acc (_, flag) => acc ||| flag) mask
  | [], _, _ => rfl
  | p :: l, mask, h => by
      obtain ⟨k, hk⟩ := h p List.mem_cons_self
      have hstep : access &&& (mask ||| p.2) =
          (access &&& mask) ||| if Access.has access p.2 then p.2 else 0 := by
        rw [UInt32.and_comm, and_of_or, UInt32.and_comm mask, UInt32.and_comm p.2, and_flag hk]
      rw [List.foldl_cons, ← foldl_filter_has access l _ fun q hq =>
        h q (List.mem_cons_of_mem _ hq), hstep, List.filter_cons]
      dsimp only
      split
      · rfl
      · rw [UInt32.or_zero]

/-- Dropping the flags that cannot be written is masking. -/
theorem applicable_eq_and (access : Access) (target : FlagTarget) :
    Access.applicable access target = access &&& target.mask := by
  have hbits : ∀ p ∈ target.modifiers, ∃ k, p.2.toNat = 2 ^ k := by
    have hbelow : ∀ p ∈ target.modifiers, ∃ k < 32, p.2.toNat = 2 ^ k := by
      cases target <;> decide
    exact fun p hp => (hbelow p hp).imp fun _ h => h.2
  have h := foldl_filter_has access target.modifiers 0 hbits
  rw [UInt32.and_zero] at h
  exact h

end JvmListing
