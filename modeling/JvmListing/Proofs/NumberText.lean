/-
# Numbers as text

What `Number.text` writes, `Number.read` reads back: the digits and the sign of
an integer, and for a binary number the shortest decimal in either layout.  The
layouts need not spell the same digits as the decimal they lay out (a whole
number gets `.0`, a small one leading zeros); they spell the same value.
-/
import JvmListing.Number.Literal
import JvmListing.Proofs.Rounding

namespace JvmListing

/-! ## Signs and digits -/

/-- The sign of a number with a sign. -/
def signText (negative : Bool) : List Char := if negative then ['-'] else []

/-- Does the text start with no sign? -/
def Unsigned (cs : List Char) : Prop := cs.head? ≠ some '-' ∧ cs.head? ≠ some '+'

theorem splitSign_signText {cs : List Char} (h : Unsigned cs) (negative : Bool) :
    splitSign (signText negative ++ cs) = (negative, cs) := by
  cases negative with
  | true => rfl
  | false =>
      obtain ⟨h₁, h₂⟩ := h
      unfold splitSign signText
      split <;> simp_all

theorem isDigit_toDigits {n : Nat} {c : Char} (h : c ∈ Nat.toDigits 10 n) : c.isDigit = true :=
  Nat.isDigit_of_mem_toDigits (by omega) (Nat.le_refl 10) h

/-- A text that starts with a digit. -/
theorem unsigned_of_head {c : Char} {cs : List Char} (h : c.isDigit = true) :
    Unsigned (c :: cs) := by
  constructor <;> rintro heq <;> obtain rfl := Option.some.inj heq <;> cases h

theorem exists_toDigits_eq (n : Nat) :
    ∃ c cs, Nat.toDigits 10 n = c :: cs ∧ c.isDigit = true ∧ ∀ x ∈ cs, x.isDigit = true := by
  cases h : Nat.toDigits 10 n with
  | nil => exact absurd h (toDigits_ne_nil n)
  | cons c cs =>
      have hall : ∀ x ∈ c :: cs, x.isDigit = true := fun x hx => isDigit_toDigits (h ▸ hx)
      exact ⟨c, cs, rfl, hall c List.mem_cons_self, fun x hx => hall x (List.mem_cons_of_mem c hx)⟩

theorem unsigned_toDigits_append (n : Nat) (cs : List Char) :
    Unsigned (Nat.toDigits 10 n ++ cs) := by
  obtain ⟨c, ds, h, hc, -⟩ := exists_toDigits_eq n
  rw [h]
  exact unsigned_of_head hc

theorem readDigits?_toDigits (n : Nat) : readDigits? (Nat.toDigits 10 n) = some n := by
  rw [readDigits?_of_ne_nil (toDigits_ne_nil n), foldDigits_toDigits]

theorem toList_toString_int (v : Int) :
    (toString v).toList = signText (decide (v < 0)) ++ Nat.toDigits 10 v.natAbs := by
  cases v with
  | ofNat n =>
      show (toString n).toList = _
      rw [toList_toString]
      simp [signText]
  | negSucc n =>
      show ("-" ++ toString (n + 1)).toList = _
      rw [String.toList_append, toList_toString]
      simp [signText, Int.negSucc_lt_zero]

theorem signed_natAbs (v : Int) : signed (decide (v < 0)) v.natAbs = v := by
  unfold signed
  split
  · rename_i h
    have := of_decide_eq_true h
    omega
  · rename_i h
    have := of_decide_eq_false (Bool.not_eq_true _ ▸ h)
    omega

theorem readInteger?_signText (v : Int) :
    readInteger? (signText (decide (v < 0)) ++ Nat.toDigits 10 v.natAbs) = some v := by
  have h := unsigned_toDigits_append v.natAbs []
  rw [List.append_nil] at h
  simp only [readInteger?, splitSign_signText h, readDigits?_toDigits, Option.map_some,
    signed_natAbs]

theorem foldDigits_replicate_zero (k acc : Nat) :
    foldDigits 10 digitValue? acc (List.replicate k '0') = some (acc * 10 ^ k) := by
  induction k generalizing acc with
  | zero => simp [foldDigits]
  | succ k ih =>
      rw [List.replicate_succ, foldDigits, show digitValue? '0' = some 0 by decide]
      show foldDigits 10 digitValue? (acc * 10 + 0) (List.replicate k '0') = _
      rw [ih, Nat.pow_succ]
      congr 1
      ring

/-! ## Decimals -/

theorem takeWhile_isDigit_append {ds : List Char} (h : ∀ c ∈ ds, c.isDigit = true)
    {rest : List Char}
    (hrest : rest.takeWhile Char.isDigit = []) : (ds ++ rest).takeWhile Char.isDigit = ds := by
  rw [List.takeWhile_append_of_pos h, hrest, List.append_nil]

theorem dropWhile_isDigit_append {ds : List Char} (h : ∀ c ∈ ds, c.isDigit = true)
    {rest : List Char}
    (hrest : rest.takeWhile Char.isDigit = []) : (ds ++ rest).dropWhile Char.isDigit = rest := by
  rw [List.dropWhile_append_of_pos h]
  have := List.takeWhile_append_dropWhile (p := Char.isDigit) (l := rest)
  rwa [hrest, List.nil_append] at this

theorem readDecimal?_point (whole places rest : List Char) {digits : Nat} {exponent : Int}
    (hwhole : ∀ c ∈ whole, c.isDigit = true) (hplaces : ∀ c ∈ places, c.isDigit = true)
    (hrest : rest.takeWhile Char.isDigit = [])
    (hdigits : readDigits? (whole ++ places) = some digits)
    (hexp : readExponent? rest = some exponent) :
    readDecimal? (whole ++ '.' :: (places ++ rest)) = some ⟨digits, exponent - places.length⟩ := by
  have hpoint : ('.' :: (places ++ rest)).takeWhile Char.isDigit = [] := rfl
  simp only [readDecimal?, takeWhile_isDigit_append hwhole hpoint,
    dropWhile_isDigit_append hwhole hpoint, takeWhile_isDigit_append hplaces hrest,
    dropWhile_isDigit_append hplaces hrest, hdigits, hexp]

theorem readDecimal?_whole {whole rest : List Char} {digits : Nat} {exponent : Int}
    (hwhole : ∀ c ∈ whole, c.isDigit = true) (hdigits : readDigits? whole = some digits)
    (hexp : readInteger? rest = some exponent) :
    readDecimal? (whole ++ 'e' :: rest) = some ⟨digits, exponent⟩ := by
  have hmark : ('e' :: rest).takeWhile Char.isDigit = [] := rfl
  have hexp' : readExponent? ('e' :: rest) = some exponent := by simpa [readExponent?] using hexp
  unfold readDecimal?
  simp only [takeWhile_isDigit_append hwhole hmark, dropWhile_isDigit_append hwhole hmark]
  simp [hdigits, hexp']

namespace DecimalStyle

theorem digit_digitChars {d : Decimal} {c : Char} (h : c ∈ d.digitChars) : c.isDigit = true :=
  isDigit_toDigits h

theorem readDecimal?_positional (d : Decimal) :
    ∃ d' : Decimal, readDecimal? (positional d.digitChars d.exponent) = some d'
      ∧ d'.value = d.value := by
  have hzeros : ∀ (k : Nat) (c : Char), c ∈ List.replicate k '0' → c.isDigit = true := by
    intro k c hc
    obtain rfl := List.eq_of_mem_replicate hc
    rfl
  have hfold : foldDigits 10 digitValue? 0 d.digitChars = some d.digits := foldDigits_toDigits _
  have hdigits : ∀ c ∈ d.digitChars, c.isDigit = true := fun _ => digit_digitChars
  have hne : d.digitChars ≠ [] := toDigits_ne_nil _
  unfold positional
  dsimp only
  split
  · -- zeros fill the places up to the point, and one stands after it
    rename_i hexp
    obtain ⟨k, hk⟩ : ∃ k : Nat, d.exponent = (k : Int) := ⟨d.exponent.toNat, by omega⟩
    have hread : readDigits? (d.digitChars ++ List.replicate d.exponent.toNat '0' ++ ['0'])
        = some (d.digits * 10 ^ (k + 1)) := by
      rw [readDigits?_of_ne_nil (by simp), foldDigits_append, foldDigits_append, hfold,
        Option.bind_some, foldDigits_replicate_zero, Option.bind_some, hk, Int.toNat_natCast,
        show ['0'] = List.replicate 1 '0' from rfl, foldDigits_replicate_zero, Nat.pow_succ]
      congr 1
      ring
    refine ⟨_, readDecimal?_point _ ['0'] [] ?_ (List.forall_mem_singleton.mpr rfl) rfl hread rfl,
      ?_⟩
    · intro c hc
      rcases List.mem_append.mp hc with hc | hc
      · exact hdigits c hc
      · exact hzeros _ c hc
    · rw [Decimal.value, Decimal.value, hk]
      simp only [List.length_singleton, Nat.cast_one, zero_sub, Nat.cast_mul, Nat.cast_pow,
        Nat.cast_ofNat, zpow_natCast, zpow_neg, zpow_one, pow_succ]
      field_simp
  split
  · -- the point stands among the digits
    rename_i hneg hwhole
    refine ⟨d, ?_, rfl⟩
    have hlen : ((d.digitChars.drop ((d.digitChars.length : Int) + d.exponent).toNat).length : Int)
        = -d.exponent := by
      rw [List.length_drop]
      omega
    have hpoint := readDecimal?_point
      (d.digitChars.take ((d.digitChars.length : Int) + d.exponent).toNat) _ []
      (fun c hc => hdigits c (List.mem_of_mem_take hc))
      (fun c hc => hdigits c (List.mem_of_mem_drop hc)) rfl
      (by rw [List.take_append_drop, readDigits?_of_ne_nil hne, hfold]) rfl
    rw [List.append_nil, hlen, zero_sub, neg_neg] at hpoint
    exact hpoint
  · -- zeros stand before the digits
    rename_i hneg hwhole
    refine ⟨d, ?_, rfl⟩
    have hread : readDigits? (['0'] ++ (List.replicate
        (-((d.digitChars.length : Int) + d.exponent)).toNat '0' ++ d.digitChars))
          = some d.digits := by
      rw [readDigits?_of_ne_nil (by simp), foldDigits_append,
        show ['0'] = List.replicate 1 '0' from rfl, foldDigits_replicate_zero, Option.bind_some,
        foldDigits_append, foldDigits_replicate_zero, Option.bind_some, Nat.zero_mul, Nat.zero_mul,
        hfold]
    have hpoint := readDecimal?_point ['0'] _ [] (List.forall_mem_singleton.mpr rfl)
      (fun c hc => (List.mem_append.mp hc).elim (hzeros _ c) (hdigits c)) rfl hread rfl
    rw [List.append_nil, List.length_append, List.length_replicate] at hpoint
    refine hpoint.trans ?_
    congr 2
    omega

theorem exponentText_eq (leading : Int) :
    (if leading < 0 then ['-'] else []) ++ Nat.toDigits 10 leading.natAbs
      = signText (decide (leading < 0)) ++ Nat.toDigits 10 leading.natAbs := by
  simp [signText]

theorem readDecimal?_scientific (d : Decimal) :
    readDecimal? (scientific d.digitChars (d.digitChars.length + d.exponent - 1)) = some d := by
  have hfold : foldDigits 10 digitValue? 0 d.digitChars = some d.digits := foldDigits_toDigits _
  have hdigits : ∀ c ∈ d.digitChars, c.isDigit = true := fun _ => digit_digitChars
  have hne : d.digitChars ≠ [] := toDigits_ne_nil _
  have hpos : 0 < d.digitChars.length := List.length_pos_iff.mpr hne
  unfold scientific
  dsimp only
  rw [List.append_assoc, List.cons_append, exponentText_eq]
  split
  · rename_i hlen
    rw [readDecimal?_whole hdigits (by rw [readDigits?_of_ne_nil hne, hfold])
      (readInteger?_signText _)]
    congr 2
    omega
  · rename_i hlen
    have hread : readDigits? (d.digitChars.take 1 ++ d.digitChars.drop 1) = some d.digits := by
      rw [List.take_append_drop, readDigits?_of_ne_nil hne, hfold]
    have hexp : readExponent? ('e' :: (signText (decide ((d.digitChars.length : Int) + d.exponent
        - 1 < 0)) ++ Nat.toDigits 10 ((d.digitChars.length : Int) + d.exponent - 1).natAbs))
          = some ((d.digitChars.length : Int) + d.exponent - 1) := by
      rw [readExponent?, if_pos (Or.inl rfl), readInteger?_signText]
    rw [List.append_assoc, List.cons_append, readDecimal?_point _ _ _
      (fun c hc => hdigits c (List.mem_of_mem_take hc))
      (fun c hc => hdigits c (List.mem_of_mem_drop hc)) rfl hread hexp]
    congr 2
    rw [List.length_drop]
    omega

/-- Either layout spells the value of the decimal. -/
theorem readDecimal?_write (style : DecimalStyle) (d : Decimal) :
    ∃ d' : Decimal, readDecimal? (style.write d) = some d' ∧ d'.value = d.value := by
  unfold write
  dsimp only
  split
  · exact readDecimal?_positional d
  · exact ⟨d, readDecimal?_scientific d, rfl⟩

end DecimalStyle

/-! ## Spellings -/

/-- What the spellings of integers and finite binary numbers look like, signs and marks apart. -/
structure IsSpelling (cs : List Char) : Prop where
  head : cs.head?.any Char.isDigit = true
  chars : ∀ c ∈ cs, c.isDigit = true ∨ c = '.' ∨ c = 'e' ∨ c = '-'
  last : cs.getLast?.any Char.isDigit = true

/-- Does the spelling show that it is no integer? -/
def isMarked (cs : List Char) : Bool := cs.any fun c => c = '.' || c = 'e' || c = 'E'

theorem isSpelling_toDigits (n : Nat) : IsSpelling (Nat.toDigits 10 n) := by
  have hall : ∀ c ∈ Nat.toDigits 10 n, c.isDigit = true := fun _ => isDigit_toDigits
  refine ⟨?_, fun c hc => Or.inl (hall c hc), ?_⟩
  · obtain ⟨c, cs, h, hc, -⟩ := exists_toDigits_eq n
    rw [h]
    exact hc
  · rw [List.getLast?_eq_some_getLast (toDigits_ne_nil n)]
    exact hall _ (List.getLast_mem _)

theorem IsSpelling.append {cs ds : List Char} (hcs : IsSpelling cs) (hds : IsSpelling ds)
    {sep : List Char} (hsep : ∀ c ∈ sep, c = '.' ∨ c = 'e' ∨ c = '-') :
    IsSpelling (cs ++ sep ++ ds) := by
  refine ⟨?_, fun c hc => ?_, ?_⟩
  · have := hcs.head
    cases cs with
    | nil => cases this
    | cons c cs => exact this
  · rcases List.mem_append.mp hc with hc | hc
    · rcases List.mem_append.mp hc with hc | hc
      · exact hcs.chars c hc
      · exact Or.inr (hsep c hc)
    · exact hds.chars c hc
  · have := hds.last
    cases ds using List.reverseRecOn with
    | nil => cases this
    | append_singleton ds d => simpa using this

theorem point_separates : ∀ c ∈ ['.'], c = '.' ∨ c = 'e' ∨ c = '-' := by simp

theorem isSpelling_of_digits (cs : List Char) (hne : cs ≠ []) (h : ∀ c ∈ cs, c.isDigit = true) :
    IsSpelling cs := by
  refine ⟨?_, fun c hc => Or.inl (h c hc), ?_⟩
  · cases cs with
    | nil => exact absurd rfl hne
    | cons c cs => exact h c List.mem_cons_self
  · rw [List.getLast?_eq_some_getLast hne]
    exact h _ (List.getLast_mem hne)

theorem isSpelling_zero : IsSpelling ['0'] :=
  isSpelling_of_digits ['0'] (List.cons_ne_nil _ _) (List.forall_mem_singleton.mpr rfl)

namespace DecimalStyle

theorem isSpelling_positional (d : Decimal) :
    IsSpelling (positional d.digitChars d.exponent)
      ∧ isMarked (positional d.digitChars d.exponent) = true := by
  have hzero : ∀ {k : Nat} {c : Char}, c ∈ List.replicate k '0' → c.isDigit = true := by
    intro k c hc
    obtain rfl := List.eq_of_mem_replicate hc
    rfl
  have hdigits : ∀ c ∈ d.digitChars, c.isDigit = true := fun _ => digit_digitChars
  have hne : d.digitChars ≠ [] := toDigits_ne_nil _
  unfold positional
  dsimp only
  split
  · refine ⟨?_, by simp [isMarked]⟩
    have := (isSpelling_of_digits (d.digitChars ++ List.replicate d.exponent.toNat '0')
      (by simp [hne]) (fun c hc => (List.mem_append.mp hc).elim (hdigits c) hzero)).append
      isSpelling_zero point_separates
    simpa using this
  split
  · rename_i hneg hwhole
    refine ⟨?_, by simp [isMarked]⟩
    have := (isSpelling_of_digits
      (d.digitChars.take ((d.digitChars.length : Int) + d.exponent).toNat) (by
        simp only [ne_eq, List.take_eq_nil_iff, hne, or_false]
        omega)
      (fun c hc => hdigits c (List.mem_of_mem_take hc))).append
      (isSpelling_of_digits
        (d.digitChars.drop ((d.digitChars.length : Int) + d.exponent).toNat) (by
          simp only [ne_eq, List.drop_eq_nil_iff]
          omega)
        (fun c hc => hdigits c (List.mem_of_mem_drop hc))) point_separates
    simpa using this
  · refine ⟨?_, by simp [isMarked]⟩
    have := isSpelling_zero.append
      (isSpelling_of_digits
        (List.replicate (-((d.digitChars.length : Int) + d.exponent)).toNat '0'
          ++ d.digitChars) (by simp [hne])
        (fun c hc => (List.mem_append.mp hc).elim hzero (hdigits c))) point_separates
    simpa using this

theorem isSpelling_scientific (d : Decimal) (leading : Int) :
    IsSpelling (scientific d.digitChars leading)
      ∧ isMarked (scientific d.digitChars leading) = true := by
  have hdigits : ∀ c ∈ d.digitChars, c.isDigit = true := fun _ => digit_digitChars
  have hne : d.digitChars ≠ [] := toDigits_ne_nil _
  have hpos : 0 < d.digitChars.length := List.length_pos_iff.mpr hne
  have hmark : ∀ c ∈ 'e' :: signText (decide (leading < 0)), c = '.' ∨ c = 'e' ∨ c = '-' := by
    cases decide (leading < 0) <;> simp [signText]
  unfold scientific
  dsimp only
  rw [List.append_assoc, List.cons_append, exponentText_eq]
  refine ⟨?_, by simp [isMarked]⟩
  rw [← List.cons_append, ← List.append_assoc]
  refine IsSpelling.append ?_ (isSpelling_toDigits _) hmark
  split
  · exact isSpelling_of_digits _ hne hdigits
  · rename_i hlen
    have := (isSpelling_of_digits (d.digitChars.take 1) (by simp [hne])
      (fun c hc => hdigits c (List.mem_of_mem_take hc))).append
      (isSpelling_of_digits (d.digitChars.drop 1) (by
          simp only [ne_eq, List.drop_eq_nil_iff]
          omega)
        (fun c hc => hdigits c (List.mem_of_mem_drop hc))) point_separates
    simpa using this

theorem isSpelling_write (style : DecimalStyle) (d : Decimal) :
    IsSpelling (style.write d) ∧ isMarked (style.write d) = true := by
  unfold write
  dsimp only
  split
  · exact isSpelling_positional d
  · exact isSpelling_scientific d _

end DecimalStyle

namespace IsSpelling

variable {cs : List Char}

theorem exists_cons (h : IsSpelling cs) : ∃ c ds, cs = c :: ds ∧ c.isDigit = true := by
  have := h.head
  cases cs with
  | nil => cases this
  | cons c ds => exact ⟨c, ds, rfl, this⟩

theorem exists_concat (h : IsSpelling cs) : ∃ ds c, cs = ds ++ [c] ∧ c.isDigit = true := by
  have := h.last
  cases cs using List.reverseRecOn with
  | nil => cases this
  | append_singleton ds d => exact ⟨ds, d, rfl, by simpa using this⟩

theorem unsigned (h : IsSpelling cs) (mark : List Char) : Unsigned (cs ++ mark) := by
  obtain ⟨c, ds, rfl, hc⟩ := h.exists_cons
  exact unsigned_of_head hc

theorem not_mem (h : IsSpelling cs) {c : Char}
    (hc : ¬ (c.isDigit = true ∨ c = '.' ∨ c = 'e' ∨ c = '-')) : c ∉ cs :=
  fun hmem => hc (h.chars c hmem)

end IsSpelling

theorem dropFinal?_concat (p : Char → Bool) (cs : List Char) (c : Char) :
    dropFinal? p (cs ++ [c]) = if p c then some cs else none := by
  simp [dropFinal?]

theorem dropFinal?_eq_none {p : Char → Bool} (hp : ∀ c : Char, c.isDigit = true → p c = false)
    {cs : List Char} (h : IsSpelling cs) : dropFinal? p cs = none := by
  obtain ⟨ds, c, rfl, hc⟩ := h.exists_concat
  rw [dropFinal?_concat, hp c hc]
  rfl

theorem hexBody?_eq_none {cs : List Char} (h : 'x' ∉ cs) (h' : 'X' ∉ cs) : hexBody? cs = none := by
  unfold hexBody?
  split
  · simp at h
  · simp at h'
  · rfl

theorem IsSpelling.hexBody?_append {cs : List Char} (h : IsSpelling cs) (mark : List Char)
    (hx : 'x' ∉ mark) (hX : 'X' ∉ mark) : hexBody? (cs ++ mark) = none := by
  have h₁ : 'x' ∉ cs := h.not_mem (by decide)
  have h₂ : 'X' ∉ cs := h.not_mem (by decide)
  exact hexBody?_eq_none (by simp [h₁, hx]) (by simp [h₂, hX])

theorem digit_ne_mark {a b : Char} (ha : a.isDigit = false) (hb : b.isDigit = false) (c : Char)
    (h : c.isDigit = true) : (c = a || c = b) = false := by
  have h₁ : c ≠ a := by
    rintro rfl
    rw [h] at ha
    cases ha
  have h₂ : c ≠ b := by
    rintro rfl
    rw [h] at hb
    cases hb
  simp [h₁, h₂]

namespace IsSpelling

variable {cs : List Char}

theorem dropFinal?_isLongMark (h : IsSpelling cs) : dropFinal? isLongMark cs = none :=
  dropFinal?_eq_none (digit_ne_mark rfl rfl) h

theorem dropFinal?_isFloatMark (h : IsSpelling cs) : dropFinal? isFloatMark cs = none :=
  dropFinal?_eq_none (digit_ne_mark rfl rfl) h

theorem dropFinal?_isDoubleMark (h : IsSpelling cs) : dropFinal? isDoubleMark cs = none :=
  dropFinal?_eq_none (digit_ne_mark rfl rfl) h

theorem withoutUnderscores_eq (h : IsSpelling cs) : withoutUnderscores cs = cs := by
  have hmem : '_' ∉ cs := h.not_mem (by decide)
  refine List.filter_eq_self.mpr ?_
  intro c hc
  have : c ≠ '_' := fun heq => hmem (heq ▸ hc)
  simpa using this

theorem ne_of_head (h : IsSpelling cs) {ds : List Char} (hd : ds.head?.any Char.isDigit = false) :
    cs ≠ ds := by
  rintro rfl
  rw [h.head] at hd
  cases hd

theorem looksNumeric (h : IsSpelling cs) (negative : Bool) (mark : List Char) :
    JvmListing.looksNumeric (String.ofList (signText negative ++ cs ++ mark)) = true := by
  unfold JvmListing.looksNumeric
  rw [String.toList_ofList, List.append_assoc, splitSign_signText (h.unsigned mark)]
  obtain ⟨c, ds, rfl, hc⟩ := h.exists_cons
  dsimp only [List.cons_append]
  split
  · rename_i heq
    obtain rfl := (List.cons.inj heq).1
    cases hc
  · simp [hc]

end IsSpelling

/-! ## Binary numbers -/

namespace Binary

variable {f : BinaryFormat}

/-- The spelling of a magnitude. -/
def magnitudeText (f : BinaryFormat) (m : Nat) : List Char :=
  if m = f.infinity then "Infinity".toList
  else if m = 0 then "0.0".toList
  else listingDecimals.write (f.shortest m)

theorem text_number (negative : Bool) {m : Nat} (h : m ≤ f.infinity) :
    (number negative m h : Binary f).text = signText negative ++ magnitudeText f m := by
  unfold text magnitudeText signText
  dsimp only
  cases negative <;> rfl

theorem isSpelling_magnitudeText {m : Nat} (h : m ≠ f.infinity) :
    IsSpelling (magnitudeText f m) ∧ isMarked (magnitudeText f m) = true := by
  unfold magnitudeText
  rw [if_neg h]
  split
  · exact ⟨isSpelling_zero.append isSpelling_zero point_separates, rfl⟩
  · exact DecimalStyle.isSpelling_write _ _

theorem ofMagnitude_of_le (negative : Bool) {m : Nat} (h : m ≤ f.infinity) :
    (ofMagnitude negative m : Binary f) = number negative m h := by
  simp [ofMagnitude, h]

/-- The spelling of a magnitude reads as the number, with either sign. -/
theorem read?_magnitudeText (hf : f.Regular) (negative : Bool) {m : Nat} (h : m ≤ f.infinity) :
    (read? negative (magnitudeText f m) : Option (Binary f)) = some (number negative m h) := by
  by_cases hinf : m = f.infinity
  · subst hinf
    rw [magnitudeText, if_pos rfl]
    rfl
  have hspell := (isSpelling_magnitudeText hinf).1
  rw [read?, if_neg (hspell.ne_of_head (by decide)), if_neg (hspell.ne_of_head (by decide)),
    ← ofMagnitude_of_le negative h, magnitudeText, if_neg hinf]
  by_cases hzero : m = 0
  · subst hzero
    rw [if_pos rfl]
    rfl
  · rw [if_neg hzero]
    obtain ⟨d, hread, hvalue⟩ := listingDecimals.readDecimal?_write (f.shortest m)
    rw [hread, Option.map_some, ofDecimal_shortest hf (Nat.pos_of_ne_zero hzero) (by omega)
      negative hvalue]

end Binary

/-! ## Literals -/

theorem int32?_toInt (v : Int32) : int32? v.toInt = some v := by
  have h₁ := v.le_toInt
  have h₂ := v.toInt_lt
  rw [int32?, if_pos (by omega), Int32.ofInt_toInt]

theorem int64?_toInt (v : Int64) : int64? v.toInt = some v := by
  have h₁ := v.le_toInt
  have h₂ := v.toInt_lt
  rw [int64?, if_pos (by omega), Int64.ofInt_toInt]

namespace Number

theorem read_eq {text : String} {negative : Bool} {body : List Char}
    (htext : text.toList = signText negative ++ body) (hsign : Unsigned body)
    (hhex : hexBody? body = none) (hlong : dropFinal? isLongMark body = none) :
    read text = readDecimalLiteral negative body := by
  simp only [read, htext, splitSign_signText hsign, hhex, hlong]

theorem toList_text_int (v : Int32) :
    (text (.int v)).toList = signText (decide (v.toInt < 0)) ++ Nat.toDigits 10 v.toInt.natAbs :=
  toList_toString_int _

theorem read_int (v : Int32) : read (text (.int v)) = .ok (.int v) := by
  have h := isSpelling_toDigits v.toInt.natAbs
  have hmarked : (Nat.toDigits 10 v.toInt.natAbs).any (fun c => c = '.' || c = 'e' || c = 'E')
      = false := by
    rw [List.any_eq_false]
    intro c hc
    have hd := isDigit_toDigits hc
    have := digit_ne_mark (a := 'e') (b := 'E') rfl rfl c hd
    have := digit_ne_mark (a := '.') (b := '.') rfl rfl c hd
    simp_all
  have hNaN : (Nat.toDigits 10 v.toInt.natAbs == "NaN".toList) = false :=
    beq_eq_false_iff_ne.mpr (h.ne_of_head rfl)
  have hInfinity : (Nat.toDigits 10 v.toInt.natAbs == "Infinity".toList) = false :=
    beq_eq_false_iff_ne.mpr (h.ne_of_head rfl)
  have hhex := h.hexBody?_append [] (by decide) (by decide)
  rw [List.append_nil] at hhex
  rw [read_eq (toList_text_int v) (by simpa using h.unsigned []) hhex h.dropFinal?_isLongMark]
  unfold readDecimalLiteral
  rw [h.dropFinal?_isFloatMark, h.dropFinal?_isDoubleMark]
  simp only [Option.isSome_none, Option.getD_none, hmarked, hNaN, hInfinity, Bool.or_self,
    Bool.false_eq_true, if_false, h.withoutUnderscores_eq, readDigits?_toDigits, Option.map_some,
    signed_natAbs, Option.bind_some, int32?_toInt]

theorem toList_text_long (v : Int64) :
    (text (.long v)).toList
      = signText (decide (v.toInt < 0)) ++ (Nat.toDigits 10 v.toInt.natAbs ++ ['L']) := by
  rw [text, String.toList_append, toList_toString_int, List.append_assoc]
  rfl

theorem read_long (v : Int64) : read (text (.long v)) = .ok (.long v) := by
  have h := isSpelling_toDigits v.toInt.natAbs
  have hhex := h.hexBody?_append ['L'] (by decide) (by decide)
  have hlong : dropFinal? isLongMark (Nat.toDigits 10 v.toInt.natAbs ++ ['L'])
      = some (Nat.toDigits 10 v.toInt.natAbs) := dropFinal?_concat _ _ _
  simp only [read, toList_text_long, splitSign_signText (h.unsigned ['L']), hhex, hlong,
    h.withoutUnderscores_eq, readDigits?_toDigits, Option.map_some, signed_natAbs,
    Option.bind_some, int64?_toInt]

theorem read_float_number (negative : Bool) {m : Nat} (h : m ≤ BinaryFormat.single.infinity) :
    read (text (.float (.number negative m h))) = .ok (.float (.number negative m h)) := by
  have htext : (text (.float (.number negative m h))).toList
      = signText negative ++ (Binary.magnitudeText .single m ++ ['F']) := by
    rw [text, String.toList_ofList, Binary.text_number, List.append_assoc]
  have hread := Binary.read?_magnitudeText BinaryFormat.single_regular negative h
  have hlong : dropFinal? isLongMark (Binary.magnitudeText .single m ++ ['F']) = none :=
    dropFinal?_concat _ _ _
  have hfloat : dropFinal? isFloatMark (Binary.magnitudeText .single m ++ ['F'])
      = some (Binary.magnitudeText .single m) := dropFinal?_concat _ _ _
  have hbody : Unsigned (Binary.magnitudeText .single m ++ ['F'])
      ∧ hexBody? (Binary.magnitudeText .single m ++ ['F']) = none := by
    by_cases hinf : m = BinaryFormat.single.infinity
    · rw [Binary.magnitudeText, if_pos hinf]
      exact ⟨⟨by decide, by decide⟩, rfl⟩
    · have hspell := (Binary.isSpelling_magnitudeText hinf).1
      exact ⟨hspell.unsigned _, hspell.hexBody?_append _ (by decide) (by decide)⟩
  rw [read_eq htext hbody.1 hbody.2 hlong, readDecimalLiteral, hfloat]
  simp only [hread]

theorem read_double_number (negative : Bool) {m : Nat} (h : m ≤ BinaryFormat.double.infinity) :
    read (text (.double (.number negative m h))) = .ok (.double (.number negative m h)) := by
  have htext : (text (.double (.number negative m h))).toList
      = signText negative ++ Binary.magnitudeText .double m := by
    rw [text, String.toList_ofList, Binary.text_number]
  have hread := Binary.read?_magnitudeText BinaryFormat.double_regular negative h
  by_cases hinf : m = BinaryFormat.double.infinity
  · have hspell : Binary.magnitudeText .double m = "Infinity".toList := if_pos hinf
    rw [hspell] at htext hread
    rw [read_eq htext ⟨by decide, by decide⟩ rfl rfl]
    show (Binary.read? negative "Infinity".toList).elim (Except.error NumberKind.double)
      (fun v => Except.ok (Number.double v)) = _
    rw [hread, Option.elim_some]
  · obtain ⟨hspell, hmarked⟩ := Binary.isSpelling_magnitudeText hinf
    have hsign := hspell.unsigned []
    have hhex := hspell.hexBody?_append [] (by decide) (by decide)
    rw [List.append_nil] at hsign hhex
    unfold isMarked at hmarked
    rw [read_eq htext hsign hhex hspell.dropFinal?_isLongMark, readDecimalLiteral,
      hspell.dropFinal?_isFloatMark, hspell.dropFinal?_isDoubleMark]
    simp only [Option.isSome_none, Option.getD_none, hmarked, Bool.true_or, Bool.or_true, if_true,
      hread]

/-- Reading gives back what was written. -/
theorem read_text : ∀ n : Number, read n.text = .ok n
  | .int v => read_int v
  | .long v => read_long v
  | .float .nan => rfl
  | .float (.number negative _ h) => read_float_number negative h
  | .double .nan => rfl
  | .double (.number negative _ h) => read_double_number negative h

end Number

/-! ## The characters of a literal -/

/-- Does the character occur in the text of numbers? -/
def Number.isTextChar (c : Char) : Bool := c.isAlphanum || c = '-' || c = '.'

theorem isTextChar_signText (negative : Bool) :
    ∀ c ∈ signText negative, Number.isTextChar c = true := by
  cases negative <;> exact List.all_eq_true.mp rfl

theorem IsSpelling.isTextChar {cs : List Char} (h : IsSpelling cs) :
    ∀ c ∈ cs, Number.isTextChar c = true := by
  intro c hc
  rcases h.chars c hc with hd | rfl | rfl | rfl
  · simp [Number.isTextChar, Char.isAlphanum, hd]
  all_goals rfl

namespace Number

theorem shape_magnitudeText {f : BinaryFormat} (m : Nat) :
    IsSpelling (Binary.magnitudeText f m) ∨ Binary.magnitudeText f m = "Infinity".toList := by
  by_cases hinf : m = f.infinity
  · exact Or.inr (if_pos hinf)
  · exact Or.inl (Binary.isSpelling_magnitudeText hinf).1

/-- The text of a number is a spelling or one of two words, with a sign before it and a mark
after it. -/
theorem exists_shape : ∀ n : Number, ∃ negative body mark,
    n.text.toList = signText negative ++ body ++ mark
      ∧ (mark = [] ∨ mark = ['L'] ∨ mark = ['F'])
      ∧ (IsSpelling body ∨ (body = "NaN".toList ∨ body = "Infinity".toList) ∧ mark ≠ ['L'])
  | .int v =>
      ⟨_, _, [], (toList_text_int v).trans (List.append_nil _).symm, Or.inl rfl,
        Or.inl (isSpelling_toDigits _)⟩
  | .long v =>
      ⟨_, _, ['L'], (toList_text_long v).trans (List.append_assoc ..).symm, Or.inr (Or.inl rfl),
        Or.inl (isSpelling_toDigits _)⟩
  | .float .nan =>
      ⟨false, "NaN".toList, ['F'], rfl, Or.inr (Or.inr rfl), Or.inr ⟨Or.inl rfl, by decide⟩⟩
  | .float (.number negative m h) => by
      refine ⟨negative, Binary.magnitudeText .single m, ['F'], ?_, Or.inr (Or.inr rfl), ?_⟩
      · rw [text, String.toList_ofList, Binary.text_number]
      · exact (shape_magnitudeText m).imp_right fun hw => ⟨Or.inr hw, by decide⟩
  | .double .nan => ⟨false, "NaN".toList, [], rfl, Or.inl rfl, Or.inr ⟨Or.inl rfl, by decide⟩⟩
  | .double (.number negative m h) => by
      refine ⟨negative, Binary.magnitudeText .double m, [], ?_, Or.inl rfl, ?_⟩
      · rw [text, String.toList_ofList, Binary.text_number, List.append_nil]
      · exact (shape_magnitudeText m).imp_right fun hw => ⟨Or.inr hw, by decide⟩

theorem isTextChar_text (n : Number) : ∀ c ∈ n.text.toList, isTextChar c = true := by
  obtain ⟨negative, body, mark, htext, hmark, hbody⟩ := n.exists_shape
  rw [htext]
  intro c hc
  rcases List.mem_append.mp hc with hc | hc
  · rcases List.mem_append.mp hc with hc | hc
    · exact isTextChar_signText negative c hc
    · rcases hbody with hbody | ⟨rfl | rfl, -⟩
      · exact hbody.isTextChar c hc
      all_goals exact List.all_eq_true.mp (by decide) c hc
  · rcases hmark with rfl | rfl | rfl
    all_goals exact List.all_eq_true.mp (by decide) c hc

theorem looksNumeric_text (n : Number) : looksNumeric n.text = true := by
  obtain ⟨negative, body, mark, htext, hmark, hbody⟩ := n.exists_shape
  have hstring : n.text = String.ofList (signText negative ++ body ++ mark) := by
    rw [← htext, String.ofList_toList]
  rw [hstring]
  rcases hbody with hbody | ⟨rfl | rfl, hne⟩
  · exact hbody.looksNumeric negative mark
  all_goals
    rcases hmark with rfl | rfl | rfl
    · cases negative <;> decide
    · exact absurd rfl hne
    · cases negative <;> decide

end Number

end JvmListing
