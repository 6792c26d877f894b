/-
# Integers as they are spelled

Which texts are read as an int or a long, and as which number.  The spellings are given by
a grammar of their own: a sign, then decimal digits or `0x` and hexadecimal digits, with
underscores among the digits.  Its numbers are those of arithmetic, so a number that does
not fit its kind is neither wrapped nor cut off.

The sign is taken off a literal before anything else is read, and yet the hexadecimal
digits may start with a plus.  A text with such a plus is no spelling of the grammar, and
these are the only other texts that are read as integers.

  `SpellsDigits`, `SpellsHex`          digits of a base, and hexadecimal digits after a plus
  `SpellsInteger`                      a sign and digits
  `foldDigits_withoutUnderscores`      digits are read as what they spell
  `SpellsInteger.integer?_eq`,
  `exists_spellsInteger`               so are integers, and no other text is
  `Number.read_of_integer?`,
  `Number.read_concat`                 an integer is an int, before a long mark a long
  `Number.read_integer`                the literals that are read as ints and as longs
-/
import JvmListing.Proofs.NumberText
import Mathlib.Data.List.DropRight
import Mathlib.Data.Nat.Digits.Defs

namespace JvmListing

/-! ## The grammar -/

/-- The signs that a literal may start with. -/
inductive Sign where
  | none | plus | minus
  deriving DecidableEq, Repr

namespace Sign

def text : Sign → List Char
  | .none => []
  | .plus => ['+']
  | .minus => ['-']

/-- The number with the sign. -/
def apply : Sign → Nat → Int
  | .minus, n => -(n : Int)
  | _, n => n

end Sign

/-- Do the characters spell the digits, most significant first?  A digit has either case,
and an underscore stands for nothing. -/
inductive SpellsDigits (base : Nat) : List Char → List Nat → Prop
  | nil : SpellsDigits base [] []
  | digit {c : Char} {cs : List Char} {d : Nat} {ds : List Nat} :
      d < base → c = d.digitChar ∨ c = d.digitChar.toUpper → SpellsDigits base cs ds →
      SpellsDigits base (c :: cs) (d :: ds)
  | underscore {cs : List Char} {ds : List Nat} :
      SpellsDigits base cs ds → SpellsDigits base ('_' :: cs) ds

/-- The number that digits denote, most significant first. -/
def digitsValue (base : Nat) (ds : List Nat) : Nat := Nat.ofDigits base ds.reverse

/-- Do the characters after `0x` spell the digits?  If `stray` is true, a plus stands among
the underscores before the first digit, where no sign belongs. -/
inductive SpellsHex : Bool → List Char → List Nat → Prop
  | digits {cs : List Char} {ds : List Nat} :
      SpellsDigits 16 cs ds → ds ≠ [] → SpellsHex false cs ds
  | plus {pad cs : List Char} {ds : List Nat} :
      (∀ c ∈ pad, c = '_') → SpellsDigits 16 cs ds → ds ≠ [] →
      SpellsHex true (pad ++ '+' :: cs) ds

/-- Do the characters spell the integer, with a stray plus or without? -/
inductive SpellsInteger : Bool → List Char → Int → Prop
  | decimal (sign : Sign) {c : Char} {cs : List Char} {ds : List Nat} :
      c ≠ '_' → SpellsDigits 10 (c :: cs) ds →
      SpellsInteger false (sign.text ++ c :: cs) (sign.apply (digitsValue 10 ds))
  | hex (sign : Sign) {x : Char} {stray : Bool} {cs : List Char} {ds : List Nat} :
      x = 'x' ∨ x = 'X' → SpellsHex stray cs ds →
      SpellsInteger stray (sign.text ++ '0' :: x :: cs) (sign.apply (digitsValue 16 ds))

/-! ## Signs -/

theorem splitSign_text (sign : Sign) {cs : List Char} (h : Unsigned cs) :
    splitSign (sign.text ++ cs) = (decide (sign = .minus), cs) := by
  cases sign with
  | none => exact splitSign_signText h false
  | plus => rfl
  | minus => rfl

theorem signed_minus (sign : Sign) (n : Nat) :
    signed (decide (sign = .minus)) n = sign.apply n := by
  cases sign <;> rfl

/-- Every text is a sign and what follows it. -/
theorem exists_sign (cs : List Char) :
    ∃ sign : Sign, cs = sign.text ++ (splitSign cs).2
      ∧ (splitSign cs).1 = decide (sign = .minus) := by
  unfold splitSign
  split
  · exact ⟨.minus, rfl, rfl⟩
  · exact ⟨.plus, rfl, rfl⟩
  · exact ⟨.none, rfl, rfl⟩

theorem splitSign_concat (cs : List Char) {c : Char} (h : Unsigned [c]) :
    splitSign (cs ++ [c]) = ((splitSign cs).1, (splitSign cs).2 ++ [c]) := by
  cases cs with
  | nil => exact splitSign_text .none h
  | cons a cs =>
      by_cases hminus : a = '-'
      · subst hminus
        rfl
      by_cases hplus : a = '+'
      · subst hplus
        rfl
      have hun : ∀ r, Unsigned (a :: r) := fun r => ⟨by simpa using hminus, by simpa using hplus⟩
      have h₁ := splitSign_text .none (hun cs)
      have h₂ := splitSign_text .none (hun (cs ++ [c]))
      simp only [Sign.text, List.nil_append] at h₁ h₂
      rw [List.cons_append, h₁, h₂]
      rfl

/-! ## Digits -/

/-- Are the values of characters those of the digits of a base? -/
structure ReadsDigits (base : Nat) (value? : Char → Option Nat) : Prop where
  digit : ∀ c d, value? c = some d ↔ d < base ∧ (c = d.digitChar ∨ c = d.digitChar.toUpper)
  underscore : value? '_' = none

/-- It is enough to look at the ASCII characters. -/
theorem readsDigits_of_ascii {base : Nat} {value? : Char → Option Nat}
    (hascii : ∀ c d, value? c = some d → c.toNat < 128)
    (hvalue : ∀ n < 128, ∀ d ∈ value? (Char.ofNat n), d < base
      ∧ (Char.ofNat n = d.digitChar ∨ Char.ofNat n = d.digitChar.toUpper))
    (hdigit : ∀ d < base, value? d.digitChar = some d ∧ value? d.digitChar.toUpper = some d)
    (hunderscore : value? '_' = none) : ReadsDigits base value? := by
  refine ⟨fun c d => ⟨fun h => ?_, ?_⟩, hunderscore⟩
  · have := hvalue c.toNat (hascii c d h) d
    rw [Char.ofNat_toNat] at this
    exact this h
  · rintro ⟨hd, rfl | rfl⟩
    · exact (hdigit d hd).1
    · exact (hdigit d hd).2

theorem toNat_lt_of_le {c d : Char} {n : Nat} (h : c ≤ d) (hd : d.toNat < n) : c.toNat < n :=
  Nat.lt_of_le_of_lt (UInt32.le_iff_toNat_le.mp (Char.le_def.mp h)) hd

theorem readsDigits_decimal : ReadsDigits 10 digitValue? := by
  refine readsDigits_of_ascii (fun c d h => ?_) (by decide) (by decide) (by decide)
  unfold digitValue? at h
  split_ifs at h with hc
  exact toNat_lt_of_le hc.2 (by decide)

theorem readsDigits_hex : ReadsDigits 16 hexValue? := by
  refine readsDigits_of_ascii (fun c d h => ?_) (by decide) (by decide) (by decide)
  unfold hexValue? at h
  split_ifs at h with hc hc hc
  · exact toNat_lt_of_le hc.2 (by decide)
  · exact toNat_lt_of_le hc.2 (by decide)
  · exact toNat_lt_of_le hc.2 (by decide)

theorem digitsValue_eq (base : Nat) (ds : List Nat) :
    digitsValue base ds = ds.foldl (fun n d => n * base + d) 0 := by
  rw [digitsValue, Nat.ofDigits_eq_foldr, List.foldr_reverse]
  congr 1
  funext n d
  simp only [Nat.cast_id]
  ring

section

variable {base : Nat} {value? : Char → Option Nat}

theorem ReadsDigits.ne_underscore (hv : ReadsDigits base value?) {c : Char} {d : Nat}
    (hd : d < base) (hc : c = d.digitChar ∨ c = d.digitChar.toUpper) : c ≠ '_' := by
  rintro rfl
  have := (hv.digit _ _).mpr ⟨hd, hc⟩
  rw [hv.underscore] at this
  cases this

theorem withoutUnderscores_cons {c : Char} (h : c ≠ '_') (cs : List Char) :
    withoutUnderscores (c :: cs) = c :: withoutUnderscores cs := by
  simp [withoutUnderscores, h]

theorem withoutUnderscores_underscore (cs : List Char) :
    withoutUnderscores ('_' :: cs) = withoutUnderscores cs := by
  simp [withoutUnderscores]

/-- Digits are read in order, each after the value of those before it. -/
theorem foldDigits_withoutUnderscores (hv : ReadsDigits base value?) {cs : List Char} :
    ∀ {acc n : Nat}, foldDigits base value? acc (withoutUnderscores cs) = some n ↔
      ∃ ds, SpellsDigits base cs ds ∧ ds.foldl (fun n d => n * base + d) acc = n := by
  induction cs with
  | nil =>
      intro acc n
      constructor
      · intro h
        exact ⟨[], .nil, Option.some.inj h⟩
      · rintro ⟨ds, ⟨⟩, rfl⟩
        rfl
  | cons c cs ih =>
      intro acc n
      by_cases hc : c = '_'
      · subst hc
        rw [withoutUnderscores_underscore, ih]
        constructor
        · rintro ⟨ds, hds, rfl⟩
          exact ⟨ds, .underscore hds, rfl⟩
        · rintro ⟨ds, hds, rfl⟩
          cases hds with
          | digit hd hc _ => exact absurd rfl (hv.ne_underscore hd hc)
          | underscore hds => exact ⟨ds, hds, rfl⟩
      · rw [withoutUnderscores_cons hc, foldDigits]
        constructor
        · intro h
          cases hd : value? c with
          | none =>
              rw [hd] at h
              cases h
          | some d =>
              rw [hd] at h
              obtain ⟨ds, hds, hn⟩ := ih.mp h
              obtain ⟨hlt, hchar⟩ := (hv.digit c d).mp hd
              exact ⟨d :: ds, .digit hlt hchar hds, hn⟩
        · rintro ⟨ds, hds, hn⟩
          cases hds with
          | digit hd hchar hds =>
              rw [(hv.digit _ _).mpr ⟨hd, hchar⟩]
              exact ih.mpr ⟨_, hds, hn⟩
          | underscore _ => exact absurd rfl hc

/-- What is left without the underscores are the digits. -/
theorem SpellsDigits.length_eq (hv : ReadsDigits base value?) {cs : List Char} {ds : List Nat}
    (h : SpellsDigits base cs ds) : (withoutUnderscores cs).length = ds.length := by
  induction h with
  | nil => rfl
  | digit hd hc _ ih =>
      rw [withoutUnderscores_cons (hv.ne_underscore hd hc), List.length_cons, List.length_cons, ih]
  | underscore _ ih => rw [withoutUnderscores_underscore, ih]

theorem SpellsDigits.ne_nil_iff (hv : ReadsDigits base value?) {cs : List Char} {ds : List Nat}
    (h : SpellsDigits base cs ds) : withoutUnderscores cs ≠ [] ↔ ds ≠ [] := by
  rw [← List.length_pos_iff, ← List.length_pos_iff, h.length_eq hv]

/-- One or more digits denote the number that they spell. -/
theorem foldDigits_eq_digitsValue (hv : ReadsDigits base value?) {cs : List Char} {n : Nat} :
    (withoutUnderscores cs ≠ [] ∧ foldDigits base value? 0 (withoutUnderscores cs) = some n) ↔
      ∃ ds, SpellsDigits base cs ds ∧ ds ≠ [] ∧ digitsValue base ds = n := by
  rw [foldDigits_withoutUnderscores hv]
  constructor
  · rintro ⟨hne, ds, hds, hn⟩
    exact ⟨ds, hds, (hds.ne_nil_iff hv).mp hne, by rw [digitsValue_eq, hn]⟩
  · rintro ⟨ds, hds, hne, hn⟩
    exact ⟨(hds.ne_nil_iff hv).mpr hne, ds, hds, by rw [← digitsValue_eq, hn]⟩

end

theorem readDigits?_eq_some_iff {cs : List Char} {n : Nat} :
    readDigits? cs = some n ↔ cs ≠ [] ∧ foldDigits 10 digitValue? 0 cs = some n := by
  cases cs with
  | nil => simp [readDigits?]
  | cons c cs => simp [readDigits?]

theorem readHex?_eq_some_iff {cs : List Char} {n : Nat} :
    readHex? cs = some n ↔
      (cs ≠ [] ∧ foldDigits 16 hexValue? 0 cs = some n)
        ∨ ∃ r, cs = '+' :: r ∧ r ≠ [] ∧ foldDigits 16 hexValue? 0 r = some n := by
  have hplus : ∀ r, foldDigits 16 hexValue? 0 ('+' :: r) = none := fun _ => rfl
  unfold readHex?
  split
  · simp
  · simp [hplus]
  · rename_i r hr
    simpa [hplus] using fun _ => hr
  · rename_i hne _ hr
    constructor
    · intro hfold
      exact .inl ⟨hne, hfold⟩
    · rintro (⟨-, hfold⟩ | ⟨r, heq, -⟩)
      · exact hfold
      · exact absurd heq (hr r)

theorem readDigits?_withoutUnderscores {cs : List Char} {n : Nat} :
    readDigits? (withoutUnderscores cs) = some n ↔
      ∃ ds, SpellsDigits 10 cs ds ∧ ds ≠ [] ∧ digitsValue 10 ds = n := by
  rw [readDigits?_eq_some_iff, foldDigits_eq_digitsValue readsDigits_decimal]

/-- The hexadecimal digits may follow a plus. -/
theorem readHex?_withoutUnderscores {cs : List Char} {n : Nat} :
    readHex? (withoutUnderscores cs) = some n ↔
      ∃ stray ds, SpellsHex stray cs ds ∧ digitsValue 16 ds = n := by
  rw [readHex?_eq_some_iff, foldDigits_eq_digitsValue readsDigits_hex]
  constructor
  · rintro (⟨ds, hds, hne, hn⟩ | ⟨r, heq, hfold⟩)
    · exact ⟨false, ds, .digits hds hne, hn⟩
    · obtain ⟨pad, body, rfl, hpad, -, rfl⟩ := List.filter_eq_cons_iff.mp heq
      obtain ⟨ds, hds, hne, hn⟩ := (foldDigits_eq_digitsValue readsDigits_hex).mp hfold
      refine ⟨true, ds, .plus (fun c hc => ?_) hds hne, hn⟩
      simpa using hpad c hc
  · rintro ⟨stray, ds, hds, hn⟩
    cases hds with
    | digits hds hne => exact .inl ⟨ds, hds, hne, hn⟩
    | @plus pad body _ hpad hds hne =>
        refine .inr ⟨withoutUnderscores body, ?_,
          (foldDigits_eq_digitsValue readsDigits_hex).mpr ⟨ds, hds, hne, hn⟩⟩
        exact List.filter_eq_cons_iff.mpr
          ⟨pad, body, rfl, fun c hc => by simp [hpad c hc], by decide, rfl⟩

/-! ## Integers -/

/-- The integer that a sign and digits of either base denote. -/
def integer? (cs : List Char) : Option Int :=
  (match hexBody? (splitSign cs).2 with
    | some digits => readHex? (withoutUnderscores digits)
    | none => readDigits? (withoutUnderscores (splitSign cs).2)).map (signed (splitSign cs).1)

theorem hexBody?_eq_some_iff {cs digits : List Char} :
    hexBody? cs = some digits ↔ ∃ x, (x = 'x' ∨ x = 'X') ∧ cs = '0' :: x :: digits := by
  unfold hexBody?
  split
  · simp
  · simp
  · rename_i h₁ h₂
    simp only [reduceCtorEq, false_iff]
    rintro ⟨x, rfl | rfl, rfl⟩
    · exact h₁ digits rfl
    · exact h₂ digits rfl

theorem SpellsDigits.not_mem {base : Nat} {c : Char} {cs : List Char} {ds : List Nat}
    (h : SpellsDigits base cs ds) (hdigit : ∀ d < base, c ≠ d.digitChar ∧ c ≠ d.digitChar.toUpper)
    (hc : c ≠ '_') : c ∉ cs := by
  induction h with
  | nil => exact List.not_mem_nil
  | digit hd hchar _ ih =>
      rintro (_ | ⟨_, hmem⟩)
      · rcases hchar with heq | heq
        · exact (hdigit _ hd).1 heq
        · exact (hdigit _ hd).2 heq
      · exact ih hmem
  | underscore _ ih =>
      rintro (_ | ⟨_, hmem⟩)
      · exact hc rfl
      · exact ih hmem

theorem SpellsHex.not_mem {c : Char} {stray : Bool} {cs : List Char} {ds : List Nat}
    (h : SpellsHex stray cs ds) (hdigit : ∀ d < 16, c ≠ d.digitChar ∧ c ≠ d.digitChar.toUpper)
    (hunderscore : c ≠ '_') (hplus : c ≠ '+') : c ∉ cs := by
  cases h with
  | digits hds _ => exact hds.not_mem hdigit hunderscore
  | plus hpad hds _ =>
      intro hmem
      rcases List.mem_append.mp hmem with hmem | hmem
      · exact hunderscore (hpad c hmem)
      rcases List.mem_cons.mp hmem with heq | hmem
      · exact hplus heq
      · exact hds.not_mem hdigit hunderscore hmem

theorem SpellsDigits.unsigned {cs : List Char} {ds : List Nat} (h : SpellsDigits 10 cs ds) :
    Unsigned cs := by
  have hminus : '-' ∉ cs := h.not_mem (by decide) (by decide)
  have hplus : '+' ∉ cs := h.not_mem (by decide) (by decide)
  exact ⟨fun heq => hminus (List.mem_of_head? heq), fun heq => hplus (List.mem_of_head? heq)⟩

/-- The two shapes that a spelling has behind its sign. -/
theorem SpellsInteger.body {stray : Bool} {cs : List Char} {v : Int}
    (h : SpellsInteger stray cs v) :
    ∃ sign body, splitSign cs = (decide (sign = Sign.minus), body)
      ∧ ((∃ digits ds, hexBody? body = some digits ∧ SpellsHex stray digits ds
          ∧ sign.apply (digitsValue 16 ds) = v)
        ∨ stray = false ∧ hexBody? body = none ∧ ∃ ds, SpellsDigits 10 body ds ∧ ds ≠ []
          ∧ sign.apply (digitsValue 10 ds) = v) := by
  cases h with
  | @decimal sign c cs ds hc hds =>
      have hne : ds ≠ [] := by
        rintro rfl
        cases hds
        exact hc rfl
      have hhex : hexBody? (c :: cs) = none :=
        hexBody?_eq_none (hds.not_mem (by decide) (by decide)) (hds.not_mem (by decide) (by decide))
      exact ⟨sign, c :: cs, splitSign_text sign hds.unsigned,
        .inr ⟨rfl, hhex, ds, hds, hne, rfl⟩⟩
  | @hex sign x stray cs ds hx hds =>
      have hun : Unsigned ('0' :: x :: cs) := unsigned_of_head rfl
      exact ⟨sign, '0' :: x :: cs, splitSign_text sign hun,
        .inl ⟨cs, ds, hexBody?_eq_some_iff.mpr ⟨x, hx, rfl⟩, hds, rfl⟩⟩

theorem SpellsInteger.integer?_eq {stray : Bool} {cs : List Char} {v : Int}
    (h : SpellsInteger stray cs v) : integer? cs = some v := by
  obtain ⟨sign, body, hsplit, ⟨digits, ds, hhex, hds, rfl⟩ | ⟨-, hhex, ds, hds, hne, rfl⟩⟩ := h.body
  · simp only [integer?, hsplit, hhex, readHex?_withoutUnderscores.mpr ⟨stray, ds, hds, rfl⟩,
      Option.map_some, signed_minus]
  · simp only [integer?, hsplit, hhex, readDigits?_withoutUnderscores.mpr ⟨ds, hds, hne, rfl⟩,
      Option.map_some, signed_minus]

/-- No spelling with a stray plus is also one without. -/
theorem SpellsInteger.not_plain {cs : List Char} {v v' : Int} (h : SpellsInteger true cs v) :
    ¬ SpellsInteger false cs v' := by
  intro h'
  obtain ⟨sign, body, hsplit, ⟨digits, ds, hhex, hds, -⟩ | ⟨hstray, -⟩⟩ := h.body
  · obtain ⟨sign', body', hsplit', hplain⟩ := h'.body
    obtain rfl : body = body' := congrArg Prod.snd (hsplit.symm.trans hsplit')
    rcases hplain with ⟨digits', ds', hhex', hds', -⟩ | ⟨-, hhex', -⟩
    · obtain rfl : digits = digits' := Option.some.inj (hhex.symm.trans hhex')
      cases hds with
      | plus _ _ _ =>
          cases hds' with
          | digits hds' _ =>
              exact hds'.not_mem (c := '+') (by decide) (by decide) (by simp)
    · rw [hhex] at hhex'
      cases hhex'
  · cases hstray

/-- Only spellings denote an integer.  The head is looked at because the readers skip every
underscore, also one before the first decimal digit. -/
theorem exists_spellsInteger {cs : List Char} {v : Int} (h : integer? cs = some v)
    (hhead : (splitSign cs).2.head? ≠ some '_') : ∃ stray, SpellsInteger stray cs v := by
  obtain ⟨sign, hcs, hneg⟩ := exists_sign cs
  obtain ⟨n, hn, rfl⟩ := Option.map_eq_some_iff.mp h
  rw [hneg, signed_minus]
  cases hhex : hexBody? (splitSign cs).2 with
  | some digits =>
      rw [hhex] at hn
      obtain ⟨x, hx, hbody⟩ := hexBody?_eq_some_iff.mp hhex
      obtain ⟨stray, ds, hds, rfl⟩ := readHex?_withoutUnderscores.mp hn
      rw [hcs, hbody]
      exact ⟨stray, .hex sign hx hds⟩
  | none =>
      rw [hhex] at hn
      obtain ⟨ds, hds, hne, rfl⟩ := readDigits?_withoutUnderscores.mp hn
      rw [hcs]
      cases hbody : (splitSign cs).2 with
      | nil =>
          rw [hbody] at hds
          cases hds
          exact absurd rfl hne
      | cons c r =>
          rw [hbody] at hds hhead
          have hc : c ≠ '_' := fun heq => hhead (congrArg some heq)
          exact ⟨false, .decimal sign hc hds⟩

/-! ## Numbers that fit their kind -/

theorem int32?_eq_some_iff (v : Int) (w : Int32) : int32? v = some w ↔ w.toInt = v := by
  constructor
  · intro h
    unfold int32? at h
    split_ifs at h with hv
    rw [← Option.some.inj h, Int32.toInt_ofInt_of_le (by omega) (by omega)]
  · rintro rfl
    exact int32?_toInt w

theorem int64?_eq_some_iff (v : Int) (w : Int64) : int64? v = some w ↔ w.toInt = v := by
  constructor
  · intro h
    unfold int64? at h
    split_ifs at h with hv
    rw [← Option.some.inj h, Int64.toInt_ofInt_of_le (by omega) (by omega)]
  · rintro rfl
    exact int64?_toInt w

namespace Number

/-- The constant of a kind for an integer, or the kind if there is no such integer or it
does not fit. -/
def fitted {α : Type} (kind : NumberKind) (make : α → Number) (fit? : Int → Option α)
    (v? : Option Int) : Except NumberKind Number :=
  match v?.bind fit? with
  | some w => .ok (make w)
  | none => .error kind

section

variable {α : Type} {kind : NumberKind} {make : α → Number} {fit? : Int → Option α}
  {toInt : α → Int}

theorem exists_of_fitted {v? : Option Int} {m : Number} (h : fitted kind make fit? v? = .ok m) :
    ∃ w, m = make w := by
  unfold fitted at h
  split at h
  · rename_i w _
    exact ⟨w, (Except.ok.inj h).symm⟩
  · cases h

theorem fitted_eq_ok_iff (hfit : ∀ v w, fit? v = some w ↔ toInt w = v)
    (hmake : Function.Injective make) {v? : Option Int} {w : α} :
    fitted kind make fit? v? = .ok (make w) ↔ v? = some (toInt w) := by
  unfold fitted
  constructor
  · intro h
    split at h
    · rename_i w' hw'
      obtain rfl := hmake (Except.ok.inj h)
      obtain ⟨v, hv, hfits⟩ := Option.bind_eq_some_iff.mp hw'
      rw [hv, (hfit v w').mp hfits]
    · cases h
  · rintro rfl
    rw [Option.bind_some, (hfit _ w).mpr rfl]

theorem fitted_eq_error (hfit : ∀ v w, fit? v = some w ↔ toInt w = v) {v : Int}
    (h : ∀ w, toInt w ≠ v) : fitted kind make fit? (some v) = .error kind := by
  unfold fitted
  cases hv : fit? v with
  | none => rw [Option.bind_some, hv]
  | some w => exact absurd ((hfit v w).mp hv) (h w)

end

theorem fitted_int_eq_ok_iff {v? : Option Int} {w : Int32} :
    fitted .int .int int32? v? = .ok (.int w) ↔ v? = some w.toInt :=
  fitted_eq_ok_iff int32?_eq_some_iff fun _ _ => Number.int.inj

theorem fitted_long_eq_ok_iff {v? : Option Int} {w : Int64} :
    fitted .long .long int64? v? = .ok (.long w) ↔ v? = some w.toInt :=
  fitted_eq_ok_iff int64?_eq_some_iff fun _ _ => Number.long.inj

theorem fitted_int (v? : Option Int) :
    fitted .int .int int32? v? =
      match v?.bind int32? with
      | some w => .ok (.int w)
      | none => .error .int := by
  unfold fitted
  cases v?.bind int32? <;> rfl

theorem fitted_long (v? : Option Int) :
    fitted .long .long int64? v? =
      match v?.bind int64? with
      | some w => .ok (.long w)
      | none => .error .long := by
  unfold fitted
  cases v?.bind int64? <;> rfl

theorem unfit_of_large (negative : Bool) {n : Nat} (hn : ¬ n < 18446744073709551616) :
    int32? (signed negative n) = none ∧ int64? (signed negative n) = none := by
  have hlarge : signed negative n < -9223372036854775808
      ∨ 9223372036854775807 < signed negative n := by
    unfold signed
    split <;> omega
  exact ⟨if_neg (by omega), if_neg (by omega)⟩

/-- The bound on hexadecimal digits refuses nothing that would fit a kind. -/
theorem readHexLiteral_eq (negative : Bool) (body : List Char) :
    readHexLiteral negative body =
      match dropFinal? isLongMark body with
      | some digits =>
        fitted .long .long int64? ((readHex? (withoutUnderscores digits)).map (signed negative))
      | none =>
        fitted .int .int int32? ((readHex? (withoutUnderscores body)).map (signed negative)) := by
  unfold readHexLiteral
  dsimp only
  cases dropFinal? isLongMark body with
  | some digits =>
      dsimp only
      rw [fitted_long]
      cases readHex? (withoutUnderscores digits) with
      | none => rfl
      | some n =>
          by_cases hn : n < 18446744073709551616
          · cases hv : int64? (signed negative n) <;> simp [hn, hv]
          · simp [hn, unfit_of_large negative hn]
  | none =>
      dsimp only
      rw [fitted_int]
      cases readHex? (withoutUnderscores body) with
      | none => rfl
      | some n =>
          by_cases hn : n < 18446744073709551616
          · cases hv : int32? (signed negative n) <;> simp [hn, hv]
          · simp [hn, unfit_of_large negative hn]

/-! ## Long literals -/

theorem unsigned_isLongMark {mark : Char} (h : isLongMark mark = true) : Unsigned [mark] := by
  constructor <;> rintro heq <;> obtain rfl := Option.some.inj heq <;> cases h

theorem hexBody?_concat (cs : List Char) {mark : Char} (h : isLongMark mark = true) :
    hexBody? (cs ++ [mark]) = (hexBody? cs).map (· ++ [mark]) := by
  cases hcs : hexBody? cs with
  | some digits =>
      obtain ⟨x, hx, rfl⟩ := hexBody?_eq_some_iff.mp hcs
      exact hexBody?_eq_some_iff.mpr ⟨x, hx, rfl⟩
  | none =>
      refine Option.eq_none_iff_forall_ne_some.mpr fun digits hdigits => ?_
      obtain ⟨x, hx, heq⟩ := hexBody?_eq_some_iff.mp hdigits
      cases cs with
      | nil => cases heq
      | cons a r =>
          obtain ⟨rfl, hr⟩ := List.cons.inj heq
          cases r with
          | nil =>
              obtain ⟨rfl, -⟩ := List.cons.inj hr
              rcases hx with rfl | rfl <;> cases h
          | cons b r =>
              obtain ⟨rfl, -⟩ := List.cons.inj hr
              rw [hexBody?_eq_some_iff.mpr ⟨b, hx, rfl⟩] at hcs
              cases hcs

/-- A final mark makes a long of the integer before it. -/
theorem read_concat {text : String} {cs : List Char} {mark : Char}
    (htext : text.toList = cs ++ [mark]) (hmark : isLongMark mark = true) :
    read text = fitted .long .long int64? (integer? cs) := by
  unfold read integer?
  simp only [htext, splitSign_concat cs (unsigned_isLongMark hmark), hexBody?_concat _ hmark]
  cases hexBody? (splitSign cs).2 with
  | some digits =>
      simp only [Option.map_some, readHexLiteral_eq, dropFinal?_concat, hmark, if_true]
  | none =>
      simp only [Option.map_none, dropFinal?_concat, hmark, if_true]
      exact (fitted_long _).symm

/-! ## Int literals -/

theorem dropFinal?_eq_some_iff {p : Char → Bool} {cs r : List Char} :
    dropFinal? p cs = some r ↔ ∃ c, p c = true ∧ cs = r ++ [c] := by
  cases cs using List.reverseRecOn with
  | nil => simp [dropFinal?]
  | append_singleton ds d =>
      rw [dropFinal?_concat]
      constructor
      · intro h
        split_ifs at h with hd
        exact ⟨d, hd, by rw [Option.some.inj h]⟩
      · rintro ⟨c, hc, heq⟩
        obtain ⟨rfl, hlast⟩ := List.append_inj' heq rfl
        obtain rfl := List.singleton_inj.mp hlast
        rw [if_pos hc]

/-- Decimal digits bear none of the marks of other kinds. -/
theorem not_mem_of_readDigits? {body : List Char} {n : Nat}
    (h : readDigits? (withoutUnderscores body) = some n) {c : Char} (hne : c ≠ '_')
    (hdigit : c.isDigit = false) : c ∉ body := by
  intro hc
  have := (isDigit_of_readDigits? h).2 c (List.mem_filter.mpr ⟨hc, by simpa using hne⟩)
  rw [hdigit] at this
  cases this

theorem dropFinal?_of_not_mem {p : Char → Bool} {a b : Char} {cs : List Char}
    (hp : ∀ c, p c = true → c = a ∨ c = b) (ha : a ∉ cs) (hb : b ∉ cs) :
    dropFinal? p cs = none := by
  refine Option.eq_none_iff_forall_ne_some.mpr fun r hr => ?_
  obtain ⟨c, hc, rfl⟩ := dropFinal?_eq_some_iff.mp hr
  rcases hp c hc with rfl | rfl
  · exact ha (by simp)
  · exact hb (by simp)

theorem isLongMark_iff {c : Char} : isLongMark c = true ↔ c = 'L' ∨ c = 'l' := by
  simp [isLongMark]

theorem readDecimalLiteral_of_digits {negative : Bool} {body : List Char} {n : Nat}
    (h : readDigits? (withoutUnderscores body) = some n) :
    readDecimalLiteral negative body = fitted .int .int int32? (some (signed negative n)) := by
  have hfloat : dropFinal? isFloatMark body = none :=
    dropFinal?_of_not_mem (a := 'F') (b := 'f') (by simp [isFloatMark])
      (not_mem_of_readDigits? h (by decide) rfl) (not_mem_of_readDigits? h (by decide) rfl)
  have hdouble : dropFinal? isDoubleMark body = none :=
    dropFinal?_of_not_mem (a := 'D') (b := 'd') (by simp [isDoubleMark])
      (not_mem_of_readDigits? h (by decide) rfl) (not_mem_of_readDigits? h (by decide) rfl)
  have hmarked : body.any (fun c => c = '.' || c = 'e' || c = 'E') = false := by
    rw [List.any_eq_false]
    intro c hc
    have hpoint : '.' ∉ body := not_mem_of_readDigits? h (by decide) rfl
    have hlower : 'e' ∉ body := not_mem_of_readDigits? h (by decide) rfl
    have hupper : 'E' ∉ body := not_mem_of_readDigits? h (by decide) rfl
    have : c ≠ '.' ∧ c ≠ 'e' ∧ c ≠ 'E' :=
      ⟨fun heq => hpoint (heq ▸ hc), fun heq => hlower (heq ▸ hc), fun heq => hupper (heq ▸ hc)⟩
    simp [this]
  have hnan : body ≠ "NaN".toList := by
    rintro rfl
    exact not_mem_of_readDigits? h (c := 'N') (by decide) rfl (by decide)
  have hinf : body ≠ "Infinity".toList := by
    rintro rfl
    exact not_mem_of_readDigits? h (c := 'I') (by decide) rfl (by decide)
  simp only [readDecimalLiteral, hfloat, hdouble, Option.getD_none, Option.isSome_none, hmarked,
    beq_eq_false_iff_ne.mpr hnan, beq_eq_false_iff_ne.mpr hinf, Bool.or_false,
    Bool.false_eq_true, if_false, h, Option.map_some]
  exact (fitted_int _).symm

theorem readDecimalLiteral_cases {negative : Bool} {body : List Char} {m : Number}
    (h : readDecimalLiteral negative body = .ok m) :
    (∃ x, m = .float x) ∨ (∃ x, m = .double x)
      ∨ fitted .int .int int32? ((readDigits? (withoutUnderscores body)).map (signed negative))
        = .ok m := by
  unfold readDecimalLiteral at h
  dsimp only at h
  split at h
  · split at h
    · exact .inl ⟨_, (Except.ok.inj h).symm⟩
    · cases h
  split at h
  · split at h
    · exact .inr (.inl ⟨_, (Except.ok.inj h).symm⟩)
    · cases h
  · rename_i hkind
    have hdouble : (dropFinal? isDoubleMark body).isSome = false := by
      simp only [Bool.or_eq_true, not_or] at hkind
      exact Bool.eq_false_iff.mpr hkind.1.1.1
    rw [Option.isSome_eq_false_iff, Option.isNone_iff_eq_none] at hdouble
    rw [hdouble, Option.getD_none] at h
    rw [fitted_int]
    exact .inr (.inr h)

/-- A text of a sign and digits is an int. -/
theorem read_of_integer? {text : String} {v : Int} (h : integer? text.toList = some v) :
    read text = fitted .int .int int32? (some v) := by
  obtain ⟨n, hn, rfl⟩ := Option.map_eq_some_iff.mp h
  unfold read
  dsimp only
  cases hhex : hexBody? (splitSign text.toList).2 with
  | some digits =>
      rw [hhex] at hn
      obtain ⟨stray, ds, hds, -⟩ := readHex?_withoutUnderscores.mp hn
      have hlong : dropFinal? isLongMark digits = none :=
        dropFinal?_of_not_mem (fun _ => isLongMark_iff.mp)
          (hds.not_mem (by decide) (by decide) (by decide))
          (hds.not_mem (by decide) (by decide) (by decide))
      simp only [readHexLiteral_eq, hlong, hn, Option.map_some]
  | none =>
      rw [hhex] at hn
      have hlong : dropFinal? isLongMark (splitSign text.toList).2 = none :=
        dropFinal?_of_not_mem (fun _ => isLongMark_iff.mp)
          (not_mem_of_readDigits? hn (by decide) rfl) (not_mem_of_readDigits? hn (by decide) rfl)
      simp only [hlong, readDecimalLiteral_of_digits hn]

theorem concat_of_dropFinal? {text : String} (lead : List Char) {r : List Char}
    (htext : (splitSign text.toList).2 = lead ++ r) {p : Char → Bool} {rest : List Char}
    (h : dropFinal? p r = some rest) : ∃ cs mark, text.toList = cs ++ [mark] ∧ p mark = true := by
  obtain ⟨sign, heq, -⟩ := exists_sign text.toList
  obtain ⟨mark, hmark, rfl⟩ := dropFinal?_eq_some_iff.mp h
  exact ⟨sign.text ++ (lead ++ rest), mark, by rw [heq, htext]; simp, hmark⟩

/-- What a number can be read from. -/
theorem read_cases {text : String} {m : Number} (h : read text = .ok m) :
    (∃ x, m = .float x) ∨ (∃ x, m = .double x)
      ∨ fitted .int .int int32? (integer? text.toList) = .ok m
      ∨ ∃ cs mark, text.toList = cs ++ [mark] ∧ isLongMark mark = true := by
  unfold read at h
  dsimp only at h
  unfold integer?
  cases hhex : hexBody? (splitSign text.toList).2 with
  | some digits =>
      simp only [hhex, readHexLiteral_eq] at h
      cases hlong : dropFinal? isLongMark digits with
      | some rest =>
          obtain ⟨x, -, hbody⟩ := hexBody?_eq_some_iff.mp hhex
          exact .inr (.inr (.inr (concat_of_dropFinal? ['0', x] hbody hlong)))
      | none =>
          rw [hlong] at h
          exact .inr (.inr (.inl h))
  | none =>
      simp only [hhex] at h
      cases hlong : dropFinal? isLongMark (splitSign text.toList).2 with
      | some rest => exact .inr (.inr (.inr (concat_of_dropFinal? [] rfl hlong)))
      | none =>
          simp only [hlong] at h
          rcases readDecimalLiteral_cases h with h | h | h
          · exact .inl h
          · exact .inr (.inl h)
          · exact .inr (.inr (.inl h))

/-- A word that looks like a number starts with no underscore. -/
theorem head?_of_looksNumeric {text : String} (h : looksNumeric text = true) :
    (splitSign text.toList).2.head? ≠ some '_' := by
  intro hhead
  cases hcs : (splitSign text.toList).2 with
  | nil =>
      rw [hcs] at hhead
      cases hhead
  | cons c cs =>
      rw [hcs] at hhead
      obtain rfl := Option.some.inj hhead
      -- `NaN` and `Infinity` are prefixes of the text if the marks after them are dropped.
      have hbare := List.rdropWhile_prefix (fun c => isFloatMark c || isDoubleMark c) ('_' :: cs)
      simp only [looksNumeric, hcs] at h
      split at h
      · rename_i heq
        cases heq
      simp only [Bool.or_eq_true, beq_iff_eq] at h
      rcases h with (h | h) | h
      · cases h
      · rw [List.rdropWhile, h] at hbare
        exact absurd (List.cons_prefix_cons.mp hbare).1 (by decide)
      · rw [List.rdropWhile, h] at hbare
        exact absurd (List.cons_prefix_cons.mp hbare).1 (by decide)

theorem read_eq_int_iff {text : String} (h : looksNumeric text = true) {w : Int32} :
    read text = .ok (.int w) ↔ ∃ stray, SpellsInteger stray text.toList w.toInt := by
  constructor
  · intro hread
    rcases read_cases hread with ⟨x, hx⟩ | ⟨x, hx⟩ | hint | ⟨cs, mark, htext, hmark⟩
    · cases hx
    · cases hx
    · exact exists_spellsInteger (fitted_int_eq_ok_iff.mp hint) (head?_of_looksNumeric h)
    · rw [read_concat htext hmark] at hread
      obtain ⟨x, hx⟩ := exists_of_fitted hread
      cases hx
  · rintro ⟨stray, hs⟩
    rw [read_of_integer? hs.integer?_eq]
    exact fitted_int_eq_ok_iff.mpr rfl

theorem read_eq_long_iff {text : String} (h : looksNumeric text = true) {w : Int64} :
    read text = .ok (.long w) ↔ ∃ cs mark stray, text.toList = cs ++ [mark]
      ∧ isLongMark mark = true ∧ SpellsInteger stray cs w.toInt := by
  constructor
  · intro hread
    rcases read_cases hread with ⟨x, hx⟩ | ⟨x, hx⟩ | hint | ⟨cs, mark, htext, hmark⟩
    · cases hx
    · cases hx
    · obtain ⟨x, hx⟩ := exists_of_fitted hint
      cases hx
    · rw [read_concat htext hmark] at hread
      have hhead : (splitSign cs).2.head? ≠ some '_' := by
        have := head?_of_looksNumeric h
        rw [htext, splitSign_concat cs (unsigned_isLongMark hmark)] at this
        intro heq
        simp [heq] at this
      obtain ⟨stray, hs⟩ := exists_spellsInteger (fitted_long_eq_ok_iff.mp hread) hhead
      exact ⟨cs, mark, stray, htext, hmark, hs⟩
  · rintro ⟨cs, mark, stray, htext, hmark, hs⟩
    rw [read_concat htext hmark, hs.integer?_eq]
    exact fitted_long_eq_ok_iff.mpr rfl

/-- A word that looks like a number is read as an int exactly if it spells an integer that
fits 32 bits, as a long exactly if a long mark follows the spelling of an integer that fits
64 bits, and is refused if the integer does not fit.  Spellings with a stray plus are read
like the others, and none of them is also a spelling without one. -/
theorem read_integer (text : String) (h : looksNumeric text = true) :
    (∀ w : Int32, read text = .ok (.int w) ↔
      ∃ stray, SpellsInteger stray text.toList w.toInt)
    ∧ (∀ w : Int64, read text = .ok (.long w) ↔
      ∃ cs mark stray, text.toList = cs ++ [mark] ∧ (mark = 'L' ∨ mark = 'l')
        ∧ SpellsInteger stray cs w.toInt)
    ∧ (∀ stray v, SpellsInteger stray text.toList v → (∀ w : Int32, w.toInt ≠ v) →
      read text = .error .int)
    ∧ (∀ cs mark stray v, text.toList = cs ++ [mark] → mark = 'L' ∨ mark = 'l' →
      SpellsInteger stray cs v → (∀ w : Int64, w.toInt ≠ v) → read text = .error .long)
    ∧ (∀ cs v, SpellsInteger true cs v → ∀ v', ¬ SpellsInteger false cs v') := by
  refine ⟨fun w => read_eq_int_iff h, fun w => ?_, ?_, ?_, ?_⟩
  · simp only [← isLongMark_iff]
    exact read_eq_long_iff h
  · intro stray v hs hfit
    rw [read_of_integer? hs.integer?_eq]
    exact fitted_eq_error int32?_eq_some_iff hfit
  · intro cs mark stray v htext hmark hs hfit
    rw [read_concat htext (isLongMark_iff.mpr hmark), hs.integer?_eq]
    exact fitted_eq_error int64?_eq_some_iff hfit
  · intro cs v hs v'
    exact hs.not_plain

/-- A plus behind `0x`, the first int that is too large, and the least int as a long. -/
theorem read_integer_strayPlus :
    (looksNumeric "0x+5" = true ∧ read "0x+5" = .ok (.int 5)
      ∧ ∀ v, ¬ SpellsInteger false "0x+5".toList v)
    ∧ (looksNumeric "0x8000_0000" = true ∧ read "0x8000_0000" = .error .int)
    ∧ (looksNumeric "-0x8000_0000l" = true
      ∧ read "-0x8000_0000l" = .ok (.long (-2147483648))) := by
  have hplus : SpellsInteger true "0x+5".toList 5 :=
    .hex .none (.inl rfl) (@SpellsHex.plus [] ['5'] [5] (by simp)
      (.digit (by decide) (.inl rfl) .nil) (by simp))
  have hlarge : ∃ stray, SpellsInteger stray "0x8000_0000".toList 2147483648 :=
    exists_spellsInteger (by decide) (by decide)
  have hsmall : ∃ stray, SpellsInteger stray "-0x8000_0000".toList (-2147483648) :=
    exists_spellsInteger (by decide) (by decide)
  have h₁ := read_integer "0x+5" (by decide)
  have h₂ := read_integer "0x8000_0000" (by decide)
  have h₃ := read_integer "-0x8000_0000l" (by decide)
  refine ⟨⟨by decide, (h₁.1 5).mpr ⟨true, hplus⟩, h₁.2.2.2.2 _ _ hplus⟩, ⟨by decide, ?_⟩,
    ⟨by decide, ?_⟩⟩
  · obtain ⟨stray, hs⟩ := hlarge
    refine h₂.2.2.1 stray _ hs fun w hw => ?_
    have := w.toInt_lt
    omega
  · obtain ⟨stray, hs⟩ := hsmall
    exact (h₃.2.1 (-2147483648)).mpr ⟨"-0x8000_0000".toList, 'l', stray, by decide, .inr rfl, hs⟩

end Number

end JvmListing
