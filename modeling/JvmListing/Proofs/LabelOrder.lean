/-
# Generated label names are all words, in order

The generated names are the non-empty words over the capital letters, each of them once,
short words first and words of one length in alphabetical order: `List.Shortlex`.

A name is the name of `index / 26 - 1` with one more letter (`toList_labelName`).  Both
directions go along this equation.  A word that ends with a letter has the index that
undoes the division, and of two names either the fronts are in order already, or the
fronts are the same and the last letters are in order.
-/
import JvmListing.Proofs.LabelNames
import Mathlib.Data.List.Shortlex
import Mathlib.Data.Set.Function

namespace JvmListing

/-! ## The letters of a name -/

/-- More fuel than letters makes no difference. -/
theorem labelLetters_of_le : ∀ {fuel index : Nat}, index ≤ fuel →
    labelLetters fuel index = labelLetters index index
  | 0, index, h => by
      obtain rfl := Nat.le_zero.mp h
      rfl
  | fuel + 1, 0, _ => rfl
  | fuel + 1, index + 1, h => by
      have hfront : (index + 1) / 26 - 1 ≤ index := by omega
      have hfuel : (index + 1) / 26 - 1 ≤ fuel := by omega
      rw [labelLetters, labelLetters, labelLetters_of_le hfuel, labelLetters_of_le hfront]

/-- A name is a letter, or a name with one more letter. -/
theorem toList_labelName (index : Nat) :
    (labelName index).toList =
      if index < 26 then [capitalLetter index]
      else (labelName (index / 26 - 1)).toList ++ [capitalLetter (index % 26)] := by
  simp only [labelName, String.toList_ofList]
  cases index with
  | zero => rfl
  | succ index =>
      have hfront : (index + 1) / 26 - 1 ≤ index := by omega
      rw [labelLetters, labelLetters_of_le hfront]

theorem toList_labelName_ne_nil (index : Nat) : (labelName index).toList ≠ [] := by
  rw [toList_labelName]
  split <;> simp

/-! ## Every word is a name -/

theorem isCapital_of_mem_labelName {index : Nat} {c : Char} (hc : c ∈ (labelName index).toList) :
    'A' ≤ c ∧ c ≤ 'Z' := by
  rw [labelName, String.toList_ofList] at hc
  exact of_decide_eq_true (isUpper_of_mem_labelLetters hc)

theorem exists_capitalLetter {c : Char} (h : 'A' ≤ c ∧ c ≤ 'Z') :
    ∃ i < 26, capitalLetter i = c := by
  have hlow : 'A'.toNat ≤ c.toNat := h.1
  have hhigh : c.toNat ≤ 'Z'.toNat := h.2
  have hA : 'A'.toNat = 65 := rfl
  have hZ : 'Z'.toNat = 90 := rfl
  have hi : c.toNat - 'A'.toNat < 26 := by omega
  refine ⟨c.toNat - 'A'.toNat, hi, ?_⟩
  rw [capitalLetter, Nat.add_sub_cancel' hlow, Char.ofNat_toNat]

theorem exists_labelName {word : List Char} (hword : word ≠ [])
    (h : ∀ c ∈ word, 'A' ≤ c ∧ c ≤ 'Z') : ∃ index, (labelName index).toList = word := by
  induction word using List.reverseRecOn with
  | nil => exact absurd rfl hword
  | append_singleton front c ih =>
      obtain ⟨i, hi, rfl⟩ := exists_capitalLetter (h c (by simp))
      by_cases hfront : front = []
      · refine ⟨i, ?_⟩
        rw [toList_labelName, if_pos hi, hfront, List.nil_append]
      · obtain ⟨index, hindex⟩ := ih hfront fun c hc => h c (List.mem_append_left _ hc)
        have hlarge : ¬ (index + 1) * 26 + i < 26 := by omega
        have hdiv : ((index + 1) * 26 + i) / 26 - 1 = index := by omega
        have hmod : ((index + 1) * 26 + i) % 26 = i := by omega
        refine ⟨(index + 1) * 26 + i, ?_⟩
        rw [toList_labelName, if_neg hlarge, hdiv, hmod, hindex]

/-! ## Names are in order -/

/-- Words of one length that are in order stay so, whatever follows. -/
theorem lex_append_of_length_eq {α : Type} {r : α → α → Prop} : ∀ {s t : List α},
    List.Lex r s t → s.length = t.length → ∀ u v, List.Lex r (s ++ u) (t ++ v)
  | _, _, .nil, hlength, _, _ => by cases hlength
  | _, _, .rel h, _, _, _ => .rel h
  | _, _, .cons h, hlength, u, v =>
      .cons (lex_append_of_length_eq h (Nat.succ.inj hlength) u v)

theorem shortlex_concat {α : Type} {r : α → α → Prop} {s t : List α} (h : List.Shortlex r s t)
    (a b : α) : List.Shortlex r (s ++ [a]) (t ++ [b]) := by
  rcases List.shortlex_def.mp h with hlength | ⟨hlength, hlex⟩
  · exact .of_length_lt (by simpa using hlength)
  · exact .of_lex (by simpa using hlength) (lex_append_of_length_eq hlex hlength [a] [b])

theorem capitalLetter_lt {i j : Nat} (h : i < j) (hj : j < 26) :
    capitalLetter i < capitalLetter j := by
  show (capitalLetter i).toNat < (capitalLetter j).toNat
  rw [toNat_capitalLetter (Nat.lt_trans h hj), toNat_capitalLetter hj]
  omega

theorem shortlex_labelName {i j : Nat} (h : i < j) :
    List.Shortlex (· < ·) (labelName i).toList (labelName j).toList := by
  induction j using Nat.strongRecOn generalizing i with
  | ind j ih =>
      rw [toList_labelName i, toList_labelName j]
      by_cases hj : j < 26
      · rw [if_pos hj, if_pos (Nat.lt_trans h hj), List.shortlex_singleton_iff]
        exact capitalLetter_lt h hj
      · rw [if_neg hj]
        by_cases hi : i < 26
        · rw [if_pos hi]
          have hfront := List.length_pos_of_ne_nil (toList_labelName_ne_nil (j / 26 - 1))
          exact .of_length_lt (by simpa using hfront)
        · rw [if_neg hi]
          rcases Nat.lt_or_eq_of_le (show i / 26 - 1 ≤ j / 26 - 1 by omega) with hlt | heq
          · exact shortlex_concat (ih (j / 26 - 1) (by omega) hlt) _ _
          · -- the fronts are the same, so the last letters decide
            have hlast : i % 26 < j % 26 := by omega
            rw [heq]
            refine List.Shortlex.append_left ?_ _
            rw [List.shortlex_singleton_iff]
            exact capitalLetter_lt hlast (Nat.mod_lt _ (by decide))

theorem lt_iff_shortlex_labelName {i j : Nat} :
    i < j ↔ List.Shortlex (· < ·) (labelName i).toList (labelName j).toList := by
  refine ⟨shortlex_labelName, fun h => ?_⟩
  rcases Nat.lt_trichotomy i j with hlt | rfl | hgt
  · exact hlt
  · exact absurd h (Std.Asymm.asymm _ _ h)
  · exact absurd h (Std.Asymm.asymm _ _ (shortlex_labelName hgt))

/-! ## The names of a method -/

namespace LabelNames

/-- The names of the labels and the one that comes next are all different. -/
theorem Numbered.nodup_next {l : LabelNames} (h : l.Numbered) :
    (l.leading.toList ++ l.names.map (·.2) ++ [l.next]).Nodup := by
  have hnames : l.leading.toList ++ l.names.map (·.2) ++ [l.next] =
      (List.range (l.count + 1)).map (nameAt l.stem) := by
    rw [List.range_succ, List.map_append, ← show _ = _ from h]
    rfl
  rw [hnames]
  exact List.nodup_range.map (nameAt_injective l.stem)

end LabelNames

/-- The generated names are the non-empty words over the capital letters, each with one
index, and the order of the indices is that of the words: short words first, then
alphabetically.  So the labels of a method, the one in front of its body and the one at
its end included, have different names. -/
theorem labelName_enumerates :
    Set.BijOn labelName Set.univ
      {name | name ≠ "" ∧ ∀ c ∈ name.toList, 'A' ≤ c ∧ c ≤ 'Z'}
    ∧ (∀ i j, i < j ↔ List.Shortlex (· < ·) (labelName i).toList (labelName j).toList)
    ∧ ∀ stem insns, let l := LabelNames.ofInsns stem insns
      (l.leading.toList ++ l.names.map (·.2) ++ [l.next]).Nodup := by
  refine ⟨⟨?_, labelName_injective.injOn, ?_⟩, fun i j => lt_iff_shortlex_labelName,
    fun stem insns => (LabelNames.Numbered.ofInsns stem insns).nodup_next⟩
  · intro index _
    refine ⟨fun hempty => toList_labelName_ne_nil index ?_, fun c => isCapital_of_mem_labelName⟩
    rw [hempty]
    rfl
  · rintro name ⟨hne, hcapitals⟩
    have hword : name.toList ≠ [] := fun h => hne (String.toList_eq_nil_iff.mp h)
    obtain ⟨index, hindex⟩ := exists_labelName hword hcapitals
    exact ⟨index, Set.mem_univ index, String.toList_inj.mp hindex⟩

-- The names next to the powers of 26.
example : [25, 26, 701, 702].map labelName = ["Z", "AA", "ZZ", "AAA"] := by decide

end JvmListing
