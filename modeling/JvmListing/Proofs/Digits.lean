/-
# Decimal digits

`readDigits?` accepts exactly the texts of one or more digits, and the digits of
a number denote it.
-/
import JvmListing.Assembly.SlotTable
import Mathlib.Algebra.Ring.Nat
import Mathlib.Data.List.Basic
import Mathlib.Tactic.Common

namespace JvmListing

theorem foldDigits_append (base : Nat) (value? : Char → Option Nat) :
    ∀ (cs ds : List Char) (acc : Nat),
      foldDigits base value? acc (cs ++ ds) =
        (foldDigits base value? acc cs).bind fun v => foldDigits base value? v ds
  | [], _, _ => rfl
  | c :: cs, ds, acc => by
      rw [List.cons_append, foldDigits, foldDigits]
      cases value? c with
      | none => rfl
      | some v => exact foldDigits_append base value? cs ds _

theorem digitValue?_eq (c : Char) :
    digitValue? c = if c.isDigit then some (c.toNat - '0'.toNat) else none := by
  have h : ('0' ≤ c ∧ c ≤ '9') ↔ c.isDigit = true := by
    simp [Char.isDigit, Char.le_def]
  unfold digitValue?
  simp only [h]

theorem digitValue?_digitChar {n : Nat} (h : n < 10) : digitValue? n.digitChar = some n := by
  revert n
  decide

theorem foldDigits_eq_none_of_mem {base : Nat} {value? : Char → Option Nat} {c : Char}
    (hc : value? c = none) : ∀ {cs : List Char} {acc : Nat}, c ∈ cs →
    foldDigits base value? acc cs = none
  | d :: cs, acc, h => by
      rw [foldDigits]
      rcases List.mem_cons.mp h with rfl | h
      · rw [hc]
      · cases value? d with
        | none => rfl
        | some v => exact foldDigits_eq_none_of_mem hc h

theorem foldDigits_toDigits (n : Nat) :
    foldDigits 10 digitValue? 0 (Nat.toDigits 10 n) = some n := by
  induction n using Nat.strongRecOn with
  | _ n ih =>
      by_cases h : n < 10
      · rw [Nat.toDigits_of_lt_base h, foldDigits, digitValue?_digitChar h]
        simp [foldDigits]
      · have hlt : n % 10 < 10 := Nat.mod_lt _ (by decide)
        rw [Nat.toDigits_of_base_le (by decide) (by omega), foldDigits_append, ih _ (by omega),
          Option.bind_some, foldDigits, digitValue?_digitChar hlt]
        simp only [foldDigits, Option.some.injEq]
        omega

theorem toDigits_ne_nil (n : Nat) : Nat.toDigits 10 n ≠ [] := by
  intro h
  by_cases hn : n < 10
  · rw [Nat.toDigits_of_lt_base hn] at h
    cases h
  · rw [Nat.toDigits_of_base_le (by decide) (by omega)] at h
    simp at h

/-- A number with `k` digits lies between two powers of ten. -/
theorem length_toDigits_bounds {n : Nat} (hn : 0 < n) :
    10 ^ (Nat.toDigits 10 n).length ≤ 10 * n ∧ n < 10 ^ (Nat.toDigits 10 n).length := by
  induction n using Nat.strongRecOn with
  | _ n ih =>
      by_cases h : n < 10
      · rw [Nat.toDigits_of_lt_base h]
        simp only [List.length_singleton, Nat.pow_one]
        omega
      · obtain ⟨h₁, h₂⟩ := ih (n / 10) (by omega) (by omega)
        rw [Nat.toDigits_of_base_le (by decide) (by omega), List.length_append,
          List.length_singleton, Nat.pow_succ]
        omega

theorem toList_toString (n : Nat) : (toString n).toList = Nat.toDigits 10 n := by
  rw [Nat.toString_eq_repr, Nat.toList_repr]

theorem readDigits?_of_ne_nil {cs : List Char} (h : cs ≠ []) :
    readDigits? cs = foldDigits 10 digitValue? 0 cs := by
  cases cs with
  | nil => exact absurd rfl h
  | cons c cs => rfl

theorem readDigits?_toString (n : Nat) : readDigits? (toString n).toList = some n := by
  rw [toList_toString, readDigits?_of_ne_nil (toDigits_ne_nil n), foldDigits_toDigits]

theorem isDigit_of_readDigits? {cs : List Char} {n : Nat} (h : readDigits? cs = some n) :
    cs ≠ [] ∧ ∀ c ∈ cs, c.isDigit = true := by
  have hne : cs ≠ [] := by
    rintro rfl
    cases h
  refine ⟨hne, fun c hc => ?_⟩
  rw [readDigits?_of_ne_nil hne] at h
  cases hd : c.isDigit with
  | true => rfl
  | false =>
      have hnone : digitValue? c = none := by simp [digitValue?_eq, hd]
      rw [foldDigits_eq_none_of_mem hnone hc] at h
      cases h

/-! ## Numbers as slots -/

/-- A number is the number of itself. -/
theorem rawSlot?_toString {n : Nat} (h : n ≤ slotLimit) : rawSlot? (toString n) = some n := by
  rw [rawSlot?, readDigits?_toString]
  simp [h]

theorem rawSlot?_eq_none {name : String} {c : Char} (hmem : c ∈ name.toList)
    (hc : c.isDigit = false) : rawSlot? name = none := by
  unfold rawSlot?
  cases h : readDigits? name.toList with
  | none => rfl
  | some n =>
      have := (isDigit_of_readDigits? h).2 c hmem
      rw [hc] at this
      cases this

end JvmListing
