/-
# Lexemes of written text

The length of each kind of lexeme at the front of a text that starts with one:
words, blanks, string literals and descriptors.  What may follow is part of every
statement, since nothing but what follows ends a lexeme.
-/
import JvmListing.Proofs.DescriptorScans
import JvmListing.Proofs.Plain
import JvmListing.Proofs.Digits

namespace JvmListing

namespace Lexeme

/-! ## Words and blanks -/

theorem spanLength_append {p : Char → Bool} {cs rest : List Char} (hcs : ∀ c ∈ cs, p c = true)
    (hrest : rest.head?.any p = false) : spanLength p (cs ++ rest) = cs.length := by
  have : rest.takeWhile p = [] := by
    cases rest with
    | nil => rfl
    | cons c rest => exact List.takeWhile_cons_of_neg (by simpa using hrest)
  rw [spanLength, List.takeWhile_append_of_pos hcs, this, List.append_nil]

/-- Does a word end before the text? -/
def EndsWord (stop : Char → Bool) (rest : List Char) : Prop :=
  rest.head?.all (fun c => isBlank c || stop c) = true

theorem endsWord_cons {stop : Char → Bool} {c : Char} (h : (isBlank c || stop c) = true)
    (rest : List Char) : EndsWord stop (c :: rest) := h

/-- Can the characters stand in a word? -/
def InWord (stop : Char → Bool) (cs : List Char) : Prop :=
  ∀ c ∈ cs, isBlank c = false ∧ stop c = false

theorem inWord_of_all {stop : Char → Bool} {cs : List Char}
    (h : (cs.all fun c => !isBlank c && !stop c) = true) : InWord stop cs := by
  intro c hc
  simpa using List.all_eq_true.mp h c hc

theorem wordLength_append {stop : Char → Bool} {cs rest : List Char} (hcs : InWord stop cs)
    (hrest : EndsWord stop rest) : wordLength stop (cs ++ rest) = cs.length := by
  refine spanLength_append (fun c hc => by simp [hcs c hc]) ?_
  cases rest with
  | nil => rfl
  | cons c rest =>
      have : isBlank c = true ∨ stop c = true := by simpa [EndsWord] using hrest
      rcases this with h | h <;> simp [h]

/-- Does the text start with neither a blank nor a comment? -/
structure NoTrivia (cs : List Char) : Prop where
  blank : cs.head?.any isBlank = false
  comment : commentLength? cs = none

theorem noTrivia_cons {c : Char} (hblank : isBlank c = false) (hslash : c ≠ '/') (cs : List Char) :
    NoTrivia (c :: cs) := by
  refine ⟨by simpa using hblank, ?_⟩
  unfold commentLength?
  split <;> simp_all

theorem blanksLength_append {blanks cs : List Char} (hblanks : ∀ c ∈ blanks, isBlank c = true)
    (hcs : cs.head?.any isBlank = false) : blanksLength (blanks ++ cs) = blanks.length :=
  spanLength_append hblanks hcs

theorem triviaLength_append {blanks cs : List Char} (hblanks : ∀ c ∈ blanks, isBlank c = true)
    (hcs : NoTrivia cs) : triviaLength (blanks ++ cs) = blanks.length := by
  have hlength := blanksLength_append hblanks hcs.blank
  unfold triviaLength
  cases (blanks ++ cs).length with
  | zero => exact hlength
  | succ fuel =>
      rw [triviaLengthIn, hlength]
      simp [hcs.comment]

/-! ## String literals -/

theorem quoteChar_ne_nil (c : Char) : quoteChar c ≠ [] := by
  unfold quoteChar
  repeat' split
  all_goals simp

theorem hexValue?_digitChar {n : Nat} (h : n < 16) : hexValue? n.digitChar = some n := by
  revert n
  decide

/-- The four digits of a small code read as the character. -/
theorem readUnicode_fourHexDigits {c : Char} (h : c.toNat < 65536) (cs : List Char) :
    readUnicode (fourHexDigits c.toNat ++ cs) = .ok (c, 4) := by
  have h₁ := hexValue?_digitChar (n := c.toNat / 4096 % 16) (Nat.mod_lt _ (by decide))
  have h₂ := hexValue?_digitChar (n := c.toNat / 256 % 16) (Nat.mod_lt _ (by decide))
  have h₃ := hexValue?_digitChar (n := c.toNat / 16 % 16) (Nat.mod_lt _ (by decide))
  have h₄ := hexValue?_digitChar (n := c.toNat % 16) (Nat.mod_lt _ (by decide))
  have hsum : (((0 * 16 + c.toNat / 4096 % 16) * 16 + c.toNat / 256 % 16) * 16
      + c.toNat / 16 % 16) * 16 + c.toNat % 16 = c.toNat := by omega
  have hchar : charOfCode? c.toNat = some c := by
    have hvalid : c.toNat.isValidChar := c.valid
    rw [charOfCode?, dif_pos hvalid]
    exact congrArg some (Char.ext rfl)
  unfold readUnicode fourHexDigits
  simp only [List.cons_append, List.nil_append, List.take_succ_cons, List.take_zero]
  simp only [spanLength, List.takeWhile_cons, h₁, h₂, h₃, h₄, Option.isSome_some, if_true,
    foldDigits, hsum, Option.bind_some, hchar]
  rfl

theorem isControl_lt {c : Char} (h : isControl c = true) : c.toNat < 65536 := by
  simp only [isControl, Bool.or_eq_true, Bool.and_eq_true, decide_eq_true_eq] at h
  omega

/-- A character is written as itself or as an escape that reads back. -/
theorem quoteChar_cases (c : Char) :
    (∃ escape, quoteChar c = '\\' :: escape
      ∧ ∀ cs, readEscape (escape ++ cs) = .ok (c, escape.length))
    ∨ (quoteChar c = [c] ∧ c ≠ '"' ∧ c ≠ '\\') := by
  unfold quoteChar
  split
  · rename_i h
    subst h
    exact Or.inl ⟨['n'], rfl, fun _ => rfl⟩
  split
  · rename_i h
    subst h
    exact Or.inl ⟨['t'], rfl, fun _ => rfl⟩
  split
  · rename_i h
    subst h
    exact Or.inl ⟨['r'], rfl, fun _ => rfl⟩
  split
  · rename_i h
    subst h
    exact Or.inl ⟨['b'], rfl, fun _ => rfl⟩
  split
  · rename_i h
    subst h
    exact Or.inl ⟨['f'], rfl, fun _ => rfl⟩
  split
  · rename_i h
    subst h
    exact Or.inl ⟨['"'], rfl, fun _ => rfl⟩
  split
  · rename_i h
    subst h
    exact Or.inl ⟨['\\'], rfl, fun _ => rfl⟩
  rename_i hquote hbackslash
  split
  · rename_i h
    refine Or.inl ⟨_, rfl, fun cs => ?_⟩
    rw [List.cons_append, readEscape, readUnicode_fourHexDigits (isControl_lt h)]
    rfl
  · exact Or.inr ⟨rfl, hquote, hbackslash⟩

/-- One written character reads back. -/
theorem readStringBody_quoteChar (fuel : Nat) (c : Char) {cs text : List Char} {n : Nat}
    (h : readStringBody fuel cs = .ok (text, n)) :
    readStringBody (fuel + 1) (quoteChar c ++ cs)
      = .ok (c :: text, (quoteChar c).length + n) := by
  rcases quoteChar_cases c with ⟨escape, hquote, hread⟩ | ⟨hquote, hne, hne'⟩
  · rw [hquote, List.cons_append, readStringBody, hread]
    simp only [List.drop_left, h, List.length_cons]
  · rw [hquote, List.singleton_append, readStringBody, h]
    · simp only [List.length_singleton, Nat.add_comm 1]
    all_goals simp_all

theorem readStringBody_flatMap (rest : List Char) : ∀ (cs : List Char) (fuel : Nat),
    cs.length ≤ fuel → readStringBody fuel (cs.flatMap quoteChar ++ '"' :: rest)
      = .ok (cs, (cs.flatMap quoteChar).length + 1)
  | [], fuel, _ => by
      show readStringBody fuel ('"' :: rest) = _
      rw [readStringBody]
      rfl
  | c :: cs, fuel, h => by
      rw [List.length_cons] at h
      obtain ⟨fuel, rfl⟩ : ∃ n, fuel = n + 1 := ⟨fuel - 1, by omega⟩
      have ih := readStringBody_flatMap rest cs fuel (by omega)
      rw [List.flatMap_cons, List.append_assoc, readStringBody_quoteChar fuel c ih,
        List.length_append, Nat.add_assoc]

theorem length_le_flatMap_quoteChar (cs : List Char) :
    cs.length ≤ (cs.flatMap quoteChar).length := by
  induction cs with
  | nil => exact Nat.le_refl 0
  | cons c cs ih =>
      have := List.length_pos_of_ne_nil (quoteChar_ne_nil c)
      rw [List.flatMap_cons, List.length_append, List.length_cons]
      omega

/-- A string literal reads back, whatever follows. -/
theorem readString_quote (s : String) (rest : List Char) :
    readString ((quote s).toList ++ rest) = .ok (s, (quote s).toList.length) := by
  have hquote : (quote s).toList = '"' :: (s.toList.flatMap quoteChar ++ ['"']) := by
    rw [quote, String.toList_ofList]
    rfl
  have hbody := readStringBody_flatMap rest s.toList
    (s.toList.flatMap quoteChar ++ '"' :: rest).length (by
      have := length_le_flatMap_quoteChar s.toList
      rw [List.length_append]
      omega)
  rw [hquote, List.cons_append, List.append_assoc, List.singleton_append, readString, hbody]
  simp [String.ofList_toList]

/-! ## Descriptors -/

theorem typeLength?_descriptor : ∀ {t : Ty}, t.Readable →
    (∀ c ∈ t.descriptor.toList, isBlank c = false) → ∀ {voids : Bool}, (t = .void → voids = true) →
    ∀ rest : List Char,
      typeLength? voids (t.descriptor.toList ++ rest) = some t.descriptor.toList.length
  | .prim p, _, _, voids, hvoid, rest => by
      rw [Ty.toList_descriptor_prim]
      cases p with
      | void =>
          rw [hvoid rfl]
          rfl
      | _ => rfl
  | .array t, h, hblank, voids, _, rest => by
      rw [Ty.toList_descriptor_array] at hblank ⊢
      rw [List.cons_append, typeLength?, typeLength?_descriptor (t := t) h.1
        (fun c hc => hblank c (List.mem_cons_of_mem _ hc)) (fun hvoid => absurd hvoid h.2) rest]
      rfl
  | .object name, h, hblank, voids, _, rest => by
      rw [Ty.toList_descriptor_object] at hblank ⊢
      have hin : ∀ c ∈ name.toList, inClassName c = true := by
        intro c hc
        have hne : c ≠ ';' := fun heq => h.2 (heq ▸ hc)
        simp [inClassName, hne, hblank c (List.mem_cons_of_mem _ (List.mem_append_left _ hc))]
      have hspan : spanLength inClassName (name.toList ++ ';' :: rest) = name.toList.length :=
        spanLength_append hin rfl
      rw [List.cons_append, List.append_assoc, typeLength?]
      simp only [List.singleton_append, hspan, List.drop_left, List.head?_cons, if_true]
      rw [if_neg fun hzero => h.1 (String.toList_eq_nil_iff.mp (List.length_eq_zero_iff.mp hzero))]
      simp

theorem typeLength?_result {t : Ty} (h : t.isPlainResult = true) (rest : List Char) :
    typeLength? true (t.descriptor.toList ++ rest) = some t.descriptor.toList.length := by
  simp only [Ty.isPlainResult, Bool.or_eq_true, decide_eq_true_eq] at h
  rcases h with rfl | h
  · rfl
  · refine typeLength?_descriptor (Ty.IsField.of_isPlain h).1 ?_ (fun _ => rfl) rest
    exact (Ty.IsWritten.of_isPlain (Ty.isPlainConstant_of_isPlain h)).unbroken

theorem paramsLength?_descriptors (rest : List Char) : ∀ {ts : List Ty} {fuel : Nat},
    (∀ t ∈ ts, t.IsField) → (∀ c ∈ (Ty.descriptors ts).toList, isBlank c = false) →
    ts.length ≤ fuel → paramsLength? fuel ((Ty.descriptors ts).toList ++ ')' :: rest)
      = some ((Ty.descriptors ts).toList.length + 1)
  | [], fuel, _, _, _ => by
      show paramsLength? fuel (')' :: rest) = some 1
      rw [paramsLength?]
  | t :: ts, fuel, h, hblank, hfuel => by
      rw [List.length_cons] at hfuel
      obtain ⟨fuel, rfl⟩ : ∃ n, fuel = n + 1 := ⟨fuel - 1, by omega⟩
      obtain ⟨hreadable, hvoid⟩ := h t List.mem_cons_self
      rw [Ty.toList_descriptors_cons] at hblank ⊢
      have ih := paramsLength?_descriptors rest (fun u hu => h u (List.mem_cons_of_mem t hu))
        (fun c hc => hblank c (List.mem_append_right _ hc)) (show ts.length ≤ fuel by omega)
      have hhead := (Ty.head_descriptor_ne hreadable ((Ty.descriptors ts).toList ++ ')' :: rest)).2
      rw [List.append_assoc, paramsLength?, typeLength?_descriptor hreadable
        (fun c hc => hblank c (List.mem_append_left _ hc)) (fun heq => absurd heq hvoid)]
      · simp only [List.drop_left, ih, Option.map_some, List.length_append, Nat.add_assoc]
      · intro tail heq
        rw [heq] at hhead
        exact hhead rfl

theorem length_le_descriptors (ts : List Ty) : ts.length ≤ (Ty.descriptors ts).toList.length := by
  induction ts with
  | nil => exact Nat.le_refl 0
  | cons t ts ih =>
      have := List.length_pos_of_ne_nil (Ty.descriptor_ne_nil t)
      rw [Ty.toList_descriptors_cons, List.length_append, List.length_cons]
      omega

/-- A descriptor without a blank is read to its end, whatever follows. -/
theorem descriptorLength?_descriptor {t : Ty} (h : t.IsWritten) (rest : List Char) :
    descriptorLength? (t.descriptor.toList ++ rest) = some t.descriptor.toList.length := by
  obtain ⟨hdescribed, hblank⟩ := h
  cases t with
  | method params result =>
      rw [Ty.toList_descriptor_method] at hblank ⊢
      have hblanks : (∀ c ∈ (Ty.descriptors params).toList, isBlank c = false)
          ∧ ∀ c ∈ result.descriptor.toList, isBlank c = false :=
        ⟨fun c hc => hblank c (by simp [hc]), fun c hc => hblank c (by simp [hc])⟩
      have hparams : paramsLength?
          ((Ty.descriptors params).toList ++ ')' :: (result.descriptor.toList ++ rest)).length
          ((Ty.descriptors params).toList ++ ')' :: (result.descriptor.toList ++ rest))
            = some ((Ty.descriptors params).toList.length + 1) :=
        paramsLength?_descriptors _ hdescribed.1 hblanks.1 (by
          have := length_le_descriptors params
          rw [List.length_append]
          omega)
      have hdrop :
          ((Ty.descriptors params).toList ++ ')' :: (result.descriptor.toList ++ rest)).drop
            ((Ty.descriptors params).toList.length + 1) = result.descriptor.toList ++ rest := by
        rw [List.drop_append]
        simp
      rw [List.cons_append, List.append_assoc, List.cons_append, descriptorLength?, hparams]
      dsimp only
      rw [hdrop, typeLength?_descriptor hdescribed.2.2 hblanks.2 (fun _ => rfl), Option.map_some,
        List.length_cons, List.length_append, List.length_cons]
      congr 1
      omega
  | _ =>
      have hhead := (Ty.head_descriptor_ne hdescribed.1 rest).1
      unfold descriptorLength?
      split
      · rename_i heq
        rw [heq] at hhead
        exact absurd rfl hhead
      · exact typeLength?_descriptor hdescribed.1 hblank (fun heq => absurd heq hdescribed.2) rest

/-! ### What a length depends on -/

/-- The length of a type is that of some characters in front, and nothing after them matters. -/
theorem typeLength?_front {voids : Bool} {cs : List Char} {n : Nat}
    (h : typeLength? voids cs = some n) :
    1 ≤ n ∧ n ≤ cs.length ∧ ∀ rest, typeLength? voids (cs.take n ++ rest) = some n := by
  fun_induction typeLength? voids cs generalizing n with
  | case1 | case3 | case5 | case7 | case9 => cases h
  | case2 =>
      cases h
      exact ⟨Nat.le_refl 1, by simp, fun _ => rfl⟩
  | case4 voids cs ih =>
      obtain ⟨m, hm, rfl⟩ := Option.map_eq_some_iff.mp h
      obtain ⟨-, hle, hfront⟩ := ih hm
      refine ⟨by omega, by simpa using hle, fun rest => ?_⟩
      rw [List.take_succ_cons, List.cons_append, typeLength?, hfront]
      rfl
  | case6 voids cs name hname =>
      rename_i hsemi
      cases h
      obtain ⟨tail, htail⟩ := List.head?_eq_some_iff.mp hsemi
      have hlt : name < cs.length := by
        have := congrArg List.length htail
        rw [List.length_drop, List.length_cons] at this
        omega
      have htake : cs.take (name + 1) = cs.take name ++ [';'] := by
        rw [List.take_add, htail]
        rfl
      have hin : ∀ c ∈ cs.take name, inClassName c = true := by
        have htakeWhile : cs.take name = cs.takeWhile inClassName :=
          (List.prefix_iff_eq_take.mp (List.takeWhile_prefix _)).symm
        rw [htakeWhile]
        exact fun c => List.mem_takeWhile_imp
      refine ⟨by omega, by rw [List.length_cons]; omega, fun rest => ?_⟩
      have hlength : (cs.take name).length = name := List.length_take_of_le (Nat.le_of_lt hlt)
      have hspan : spanLength inClassName (cs.take name ++ ';' :: rest) = name := by
        rw [spanLength_append hin rfl, hlength]
      rw [List.take_succ_cons, htake, List.cons_append, List.append_assoc, List.singleton_append,
        typeLength?]
      simp only [hspan, List.drop_left' hlength, hname, if_false, List.head?_cons, if_true]
  | case8 voids c tail hV hopen hL hletter =>
      cases h
      refine ⟨Nat.le_refl 1, by simp, fun rest => ?_⟩
      rw [List.take_succ_cons, List.take_zero, List.cons_append, List.nil_append, typeLength?,
        if_pos hletter] <;> assumption

theorem paramsLength?_front {fuel : Nat} {cs : List Char} {n : Nat}
    (h : paramsLength? fuel cs = some n) :
    1 ≤ n ∧ n ≤ cs.length ∧ ∀ (fuel' : Nat) (rest : List Char), n ≤ fuel' + 1 →
      paramsLength? fuel' (cs.take n ++ rest) = some n := by
  fun_induction paramsLength? fuel cs generalizing n with
  | case1 fuel tail =>
      cases h
      refine ⟨Nat.le_refl 1, by simp, fun fuel' rest _ => ?_⟩
      rw [List.take_succ_cons, List.cons_append, paramsLength?]
  | case2 | case3 => cases h
  | case4 fuel cs _ m htype ih =>
      obtain ⟨k, hk, rfl⟩ := Option.map_eq_some_iff.mp h
      obtain ⟨hm, hle, hfront⟩ := typeLength?_front htype
      obtain ⟨hk₁, hkle, hrest⟩ := ih hk
      rw [List.length_drop] at hkle
      refine ⟨by omega, by omega, fun fuel' rest hfuel => ?_⟩
      obtain ⟨fuel', rfl⟩ : ∃ f, fuel' = f + 1 := ⟨fuel' - 1, by omega⟩
      have hlength : (cs.take m).length = m := List.length_take_of_le hle
      have hfirst := hfront ((cs.drop m).take k ++ rest)
      rw [List.take_add, List.append_assoc, paramsLength?, hfirst]
      · dsimp only
        rw [List.drop_left' hlength, hrest fuel' rest (by omega)]
        rfl
      · intro tail heq
        rw [heq] at hfirst
        cases hfirst

/-- The length of a descriptor is that of some characters in front, and nothing after them
matters. -/
theorem descriptorLength?_front {cs : List Char} {n : Nat} (h : descriptorLength? cs = some n) :
    1 ≤ n ∧ n ≤ cs.length ∧ ∀ rest, descriptorLength? (cs.take n ++ rest) = some n := by
  unfold descriptorLength? at h
  split at h
  · rename_i cs
    split at h
    · cases h
    · rename_i m hparams
      obtain ⟨k, hk, rfl⟩ := Option.map_eq_some_iff.mp h
      obtain ⟨-, hm, hfront⟩ := paramsLength?_front hparams
      obtain ⟨-, hkle, hresult⟩ := typeLength?_front hk
      rw [List.length_drop] at hkle
      refine ⟨by omega, by rw [List.length_cons]; omega, fun rest => ?_⟩
      have hlength : (cs.take m).length = m := List.length_take_of_le hm
      have hsplit : ('(' :: cs).take (m + 1 + k) ++ rest
          = '(' :: (cs.take m ++ ((cs.drop m).take k ++ rest)) := by
        rw [Nat.add_right_comm, List.take_succ_cons, List.take_add, List.cons_append,
          List.append_assoc]
      rw [hsplit, descriptorLength?, hfront]
      · dsimp only
        rw [List.drop_left' hlength, hresult]
        rfl
      · rw [List.length_append, hlength]
        omega
  · rename_i hparen
    obtain ⟨hpos, hle, hfront⟩ := typeLength?_front h
    refine ⟨hpos, hle, fun rest => ?_⟩
    rw [descriptorLength?]
    · exact hfront rest
    · intro tail heq
      cases cs with
      | nil => cases h
      | cons c cs =>
          obtain ⟨n, rfl⟩ : ∃ m, n = m + 1 := ⟨n - 1, by omega⟩
          rw [List.take_succ_cons, List.cons_append] at heq
          exact hparen cs (by rw [(List.cons.inj heq).1])

end Lexeme

/-- Is the text read to its end as one descriptor? -/
def isDescText (desc : String) : Bool :=
  Lexeme.descriptorLength? desc.toList = some desc.toList.length

/-- Is the text read to its end as the type of a result? -/
def isResultText (desc : String) : Bool :=
  Lexeme.typeLength? true desc.toList = some desc.toList.length

namespace Lexeme

theorem descriptorLength?_append {desc : String} (h : isDescText desc = true) (rest : List Char) :
    descriptorLength? (desc.toList ++ rest) = some desc.toList.length := by
  have hfront := (descriptorLength?_front (of_decide_eq_true h)).2.2 rest
  rwa [List.take_length] at hfront

theorem typeLength?_append {desc : String} (h : isResultText desc = true) (rest : List Char) :
    typeLength? true (desc.toList ++ rest) = some desc.toList.length := by
  have hfront := (typeLength?_front (of_decide_eq_true h)).2.2 rest
  rwa [List.take_length] at hfront

theorem isDescText_take {cs : List Char} {n : Nat} (h : descriptorLength? cs = some n) :
    isDescText (String.ofList (cs.take n)) = true := by
  obtain ⟨-, hle, hfront⟩ := descriptorLength?_front h
  have hself := hfront []
  rw [List.append_nil] at hself
  rw [isDescText, String.toList_ofList, hself, List.length_take_of_le hle, decide_eq_true_eq]

theorem isResultText_take {cs : List Char} {n : Nat} (h : typeLength? true cs = some n) :
    isResultText (String.ofList (cs.take n)) = true := by
  obtain ⟨-, hle, hfront⟩ := typeLength?_front h
  have hself := hfront []
  rw [List.append_nil] at hself
  rw [isResultText, String.toList_ofList, hself, List.length_take_of_le hle, decide_eq_true_eq]

/-- The characters that a descriptor starts with. -/
theorem head_of_descriptorLength? {c : Char} {cs : List Char} {n : Nat}
    (h : descriptorLength? (c :: cs) = some n) : isNameStart c = true ∨ c = '[' ∨ c = '(' := by
  by_cases hparen : c = '('
  · exact Or.inr (Or.inr hparen)
  have htype : typeLength? false (c :: cs) = some n := by
    rwa [descriptorLength?] at h
    rintro _ heq
    exact hparen (List.cons.inj heq).1
  unfold typeLength? at htype
  split at htype
  · cases htype
  · cases htype
  · rename_i heq
    exact Or.inr (Or.inl (List.cons.inj heq).1)
  · rename_i heq
    rw [(List.cons.inj heq).1]
    exact Or.inl rfl
  · rename_i heq
    obtain ⟨rfl, -⟩ := List.cons.inj heq
    split at htype
    · rename_i hletter
      obtain ⟨p, hp⟩ := Option.isSome_iff_exists.mp hletter
      rw [← Prim.letter_of_ofLetter? hp]
      refine Or.inl ?_
      cases p <;> rfl
    · cases htype

end Lexeme

theorem exists_descText {desc : String} (h : isDescText desc = true) :
    ∃ c cs, desc.toList = c :: cs ∧ (isNameStart c = true ∨ c = '[' ∨ c = '(') := by
  have hlength := of_decide_eq_true h
  cases hdesc : desc.toList with
  | nil =>
      rw [hdesc] at hlength
      cases hlength
  | cons c cs =>
      rw [hdesc] at hlength
      exact ⟨c, cs, rfl, Lexeme.head_of_descriptorLength? hlength⟩

theorem Ty.IsWritten.isDescText {t : Ty} (h : t.IsWritten) : isDescText t.descriptor = true := by
  have := Lexeme.descriptorLength?_descriptor h []
  rw [List.append_nil] at this
  exact decide_eq_true this

theorem isResultText_of_isPlainResult {t : Ty} (h : t.isPlainResult = true) :
    isResultText t.descriptor = true := by
  have := Lexeme.typeLength?_result h []
  rw [List.append_nil] at this
  exact decide_eq_true this

end JvmListing
