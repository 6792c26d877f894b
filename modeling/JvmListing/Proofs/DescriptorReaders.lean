/-
# Readers of descriptors

Three readers take a type from a text: `Ty.ofDescriptor?` takes it from a whole text,
`Ty.readAt?` from the bytes at an offset, and `Scan.descriptor?` from the characters at a
cursor.  All of them read exactly what `Ty.descriptor` writes, of the types they are for.
What they are for differs in one place.  A whole text is searched for the `)` that ends the
parameters of a method, and a cursor finds it by reading one parameter after the other, so
a class whose name has a `)` in it can be a parameter only at a cursor.

  `Ty.WellFormed`                the types that a whole text can describe
  `Ty.descriptor_codec`          whole texts and offsets
  `Ty.IsScanned`                 the types that a cursor can pass
  `Scan.descriptor?_agrees`      a cursor passes what a whole text describes, and what it
                                 passes is described unless there is more than one `)`
-/
import JvmListing.Proofs.ReadAnnots

namespace JvmListing

namespace Ty

/-! ## Well-formed types -/

/-- Does a whole text describe the type?  Methods stand only at the top, `void` only as
their result, and a class name ends where its descriptor does. -/
inductive WellFormed : Ty → Prop
  | prim {p : Prim} : p ≠ .void → WellFormed (.prim p)
  | object {name : String} : name ≠ "" → ';' ∉ name.toList → WellFormed (.object name)
  | array {t : Ty} : WellFormed t → t.kind ≠ .method → WellFormed (.array t)
  | method {params : List Ty} {result : Ty} : (∀ t ∈ params, WellFormed t) →
      (∀ t ∈ params, t.kind ≠ .method ∧ ')' ∉ t.descriptor.toList) →
      (result ≠ .void → WellFormed result) → result.kind ≠ .method →
      WellFormed (.method params result)

/-- The types of values are the well-formed types other than methods. -/
theorem isField_iff : ∀ {t : Ty}, t.IsField ↔ t.WellFormed ∧ t.kind ≠ .method
  | .prim p => by
      constructor
      · intro h
        exact ⟨.prim fun hp => h.2 (congrArg Ty.prim hp), nofun⟩
      · rintro ⟨h, -⟩
        cases h with
        | prim hp => exact ⟨trivial, fun he => hp (Ty.prim.inj he)⟩
  | .object name => by
      constructor
      · intro h
        exact ⟨.object h.1.1 h.1.2, nofun⟩
      · rintro ⟨h, -⟩
        cases h with
        | object hne hsemi => exact ⟨⟨hne, hsemi⟩, nofun⟩
  | .array t => by
      constructor
      · intro h
        obtain ⟨hwf, hkind⟩ := isField_iff.mp h.1
        exact ⟨.array hwf hkind, nofun⟩
      · rintro ⟨h, -⟩
        cases h with
        | array hwf hkind => exact ⟨isField_iff.mpr ⟨hwf, hkind⟩, nofun⟩
  | .method params result => by
      constructor
      · intro h
        exact h.1.elim
      · rintro ⟨-, hkind⟩
        exact absurd rfl hkind

theorem readable_iff {t : Ty} : t.Readable ↔ t = .void ∨ t.WellFormed ∧ t.kind ≠ .method := by
  rw [← isField_iff]
  constructor
  · intro h
    by_cases hvoid : t = .void
    · exact Or.inl hvoid
    · exact Or.inr ⟨h, hvoid⟩
  · rintro (rfl | h)
    · exact trivial
    · exact h.1

theorem mem_descriptors {c : Char} : ∀ {ts : List Ty},
    c ∈ (descriptors ts).toList ↔ ∃ t ∈ ts, c ∈ t.descriptor.toList
  | [] => by simp [descriptors]
  | t :: ts => by
      rw [toList_descriptors_cons, List.mem_append, mem_descriptors, List.exists_mem_cons_iff]

theorem isDescribed_iff {t : Ty} : t.IsDescribed ↔ t.WellFormed := by
  cases t with
  | method params result =>
      constructor
      · rintro ⟨hparams, hparen, hresult⟩
        refine .method (fun t ht => (isField_iff.mp (hparams t ht)).1) (fun t ht => ⟨?_, ?_⟩)
          (fun hvoid => ?_) ?_
        · exact (isField_iff.mp (hparams t ht)).2
        · exact fun hmem => hparen (mem_descriptors.mpr ⟨t, ht, hmem⟩)
        · exact ((readable_iff.mp hresult).resolve_left hvoid).1
        · rcases readable_iff.mp hresult with rfl | h
          · exact nofun
          · exact h.2
      · intro h
        cases h with
        | method hwf hparams hresult hkind =>
            refine ⟨fun t ht => isField_iff.mpr ⟨hwf t ht, (hparams t ht).1⟩, ?_, ?_⟩
            · intro hmem
              obtain ⟨t, ht, hc⟩ := mem_descriptors.mp hmem
              exact (hparams t ht).2 hc
            · by_cases hvoid : result = .void
              · exact readable_iff.mpr (Or.inl hvoid)
              · exact readable_iff.mpr (Or.inr ⟨hresult hvoid, hkind⟩)
  | _ =>
      refine isField_iff.trans ⟨And.left, fun h => ⟨h, nofun⟩⟩

/-! ## Offsets -/

theorem byteLength_append (cs ds : List Char) :
    byteLength (cs ++ ds) = byteLength cs + byteLength ds := by
  induction cs with
  | nil => rw [List.nil_append, byteLength, Nat.zero_add]
  | cons c cs ih => rw [List.cons_append, byteLength, byteLength, ih, Nat.add_assoc]

theorem byteLength_eq (cs : List Char) : byteLength cs = (String.ofList cs).utf8ByteSize := by
  induction cs with
  | nil => rfl
  | cons c cs ih =>
      rw [byteLength, ih, ← List.singleton_append, String.ofList_append,
        String.utf8ByteSize_append, ← String.singleton_eq_ofList, String.utf8ByteSize_singleton]

theorem byteLength_toList (s : String) : byteLength s.toList = s.utf8ByteSize := by
  rw [byteLength_eq, String.ofList_toList]

/-- An offset is one that characters end at, exactly if there is something behind it. -/
theorem dropBytes?_eq_some_iff {rest : List Char} : ∀ {cs : List Char} {n : Nat},
    dropBytes? cs n = some rest ↔ ∃ before, cs = before ++ rest ∧ byteLength before = n := by
  intro cs
  induction cs with
  | nil =>
      intro n
      cases n with
      | zero =>
          constructor
          · intro h
            cases h
            exact ⟨[], rfl, rfl⟩
          · rintro ⟨before, hsplit, -⟩
            rw [dropBytes?, (List.nil_eq_append_iff.mp hsplit).2]
      | succ n =>
          constructor
          · intro h
            cases h
          · rintro ⟨before, hsplit, hlength⟩
            rw [(List.nil_eq_append_iff.mp hsplit).1] at hlength
            cases hlength
  | cons c cs ih =>
      intro n
      have hpos := c.utf8Size_pos
      cases n with
      | zero =>
          constructor
          · intro h
            cases h
            exact ⟨[], rfl, rfl⟩
          · rintro ⟨before, hsplit, hlength⟩
            cases before with
            | nil => rw [dropBytes?, hsplit, List.nil_append]
            | cons d before =>
                rw [byteLength] at hlength
                have := d.utf8Size_pos
                omega
      | succ n =>
          rw [dropBytes?]
          constructor
          · intro h
            split at h
            · rename_i hle
              obtain ⟨before, rfl, hlength⟩ := ih.mp h
              exact ⟨c :: before, rfl, by rw [byteLength, hlength]; omega⟩
            · cases h
          · rintro ⟨before, hsplit, hlength⟩
            cases before with
            | nil => cases hlength
            | cons d before =>
                obtain ⟨rfl, rfl⟩ := List.cons.inj hsplit
                rw [byteLength] at hlength
                rw [if_pos (by omega)]
                exact ih.mpr ⟨before, rfl, by omega⟩

/-- The reader at an offset finds a type exactly where its descriptor stands. -/
theorem readAt?_eq_some_iff {d : String} {p q : Nat} {t : Ty} :
    readAt? d p = some (t, q) ↔ t.Readable ∧ ∃ before after,
      d.toList = before ++ (t.descriptor.toList ++ after) ∧ byteLength before = p
        ∧ q = p + byteLength t.descriptor.toList := by
  constructor
  · intro h
    unfold readAt? at h
    split at h
    · cases h
    · rename_i cs hdrop
      obtain ⟨before, hsplit, hbefore⟩ := dropBytes?_eq_some_iff.mp hdrop
      obtain ⟨⟨t', rest⟩, hread, he⟩ := Option.map_eq_some_iff.mp h
      obtain ⟨rfl, rfl⟩ := Prod.mk.inj he
      obtain ⟨hreadable, rfl⟩ := descriptor_of_readOne? hread
      refine ⟨hreadable, before, rest, hsplit, hbefore, ?_⟩
      rw [byteLength_append, Nat.add_sub_cancel]
  · rintro ⟨hreadable, before, after, hsplit, hbefore, rfl⟩
    have hdrop : dropBytes? d.toList p = some (t.descriptor.toList ++ after) :=
      dropBytes?_eq_some_iff.mpr ⟨before, hsplit, hbefore⟩
    simp only [readAt?, hdrop, readOne?_descriptor hreadable after, Option.map_some,
      byteLength_append, Nat.add_sub_cancel]

/-- What stands behind some characters of a text, stands there in its bytes. -/
theorem extract_of_split {d s : String} {before after : List Char}
    (h : d.toList = before ++ (s.toList ++ after)) :
    byteLength before + byteLength s.toList ≤ d.utf8ByteSize
      ∧ d.toByteArray.extract (byteLength before) (byteLength before + byteLength s.toList)
        = s.toByteArray := by
  have hd : d = String.ofList before ++ (s ++ String.ofList after) := by
    rw [← String.toList_inj, h]
    simp
  rw [byteLength_eq, byteLength_toList]
  constructor
  · rw [hd, String.utf8ByteSize_append, String.utf8ByteSize_append]
    omega
  · rw [hd, String.toByteArray_append, String.toByteArray_append]
    have hskip := ByteArray.extract_append_size_add (a := (String.ofList before).toByteArray)
      (b := s.toByteArray ++ (String.ofList after).toByteArray) (i := 0) (j := s.utf8ByteSize)
    exact hskip.trans (ByteArray.extract_append_eq_left rfl)

/-- What stands in the bytes of a text, stands behind some of its characters: the bytes of
a text begin with a character, and no character begins inside of another. -/
theorem split_of_extract {d s : String} {p q : Nat} (hlt : p < q) (hle : q ≤ d.utf8ByteSize)
    (h : d.toByteArray.extract p q = s.toByteArray) :
    ∃ before after, d.toList = before ++ (s.toList ++ after) ∧ byteLength before = p
      ∧ q = p + byteLength s.toList := by
  have hvalid : (⟨p⟩ : String.Pos.Raw).IsValid d := by
    have hutf8 : (d.toByteArray.extract p q).IsValidUTF8 := h ▸ s.isValidUTF8
    rcases (String.Pos.Raw.isValidUTF8_extract_iff ⟨p⟩ ⟨q⟩ (Nat.le_of_lt hlt) hle).mp hutf8
      with heq | ⟨hp, -⟩
    · exact absurd (congrArg String.Pos.Raw.byteIdx heq) (Nat.ne_of_lt hlt)
    · exact hp
  obtain ⟨before, behind, hbefore, hd⟩ := hvalid.exists
  have hbytes : d.toByteArray = before.utf8Encode ++ behind.utf8Encode := by
    rw [← hd, String.toByteArray_ofList, List.utf8Encode_append]
  have hsize : before.utf8Encode.size = p := by
    rw [hbefore, ByteArray.size_extract, String.size_toByteArray]
    show min p d.utf8ByteSize - 0 = p
    omega
  have htotal : d.utf8ByteSize = before.utf8Encode.size + behind.utf8Encode.size := by
    rw [← String.size_toByteArray, hbytes, ByteArray.size_append]
  have hbehind : s.toList.utf8Encode ++ d.toByteArray.extract q d.utf8ByteSize
      = behind.utf8Encode := by
    calc s.toList.utf8Encode ++ d.toByteArray.extract q d.utf8ByteSize
        = d.toByteArray.extract p q ++ d.toByteArray.extract q d.utf8ByteSize := by
          rw [h, String.utf8Encode_toList]
      _ = d.toByteArray.extract p d.utf8ByteSize :=
          (ByteArray.extract_eq_extract_append_extract q (Nat.le_of_lt hlt) hle).symm
      _ = behind.utf8Encode := by
          rw [hbytes]
          exact ByteArray.extract_append_eq_right hsize.symm htotal
  obtain ⟨after, rfl⟩ := List.isPrefix_of_utf8Encode_append_eq_utf8Encode _ hbehind
  refine ⟨before, after, ?_, ?_, ?_⟩
  · rw [← hd, String.toList_ofList]
  · rw [byteLength_eq, ← String.size_toByteArray, String.toByteArray_ofList, hsize]
  · rw [byteLength_toList, ← String.size_toByteArray, ← h, ByteArray.size_extract,
      String.size_toByteArray]
    omega

/-! ## Writing and reading -/

/-- A whole text describes exactly the type that it is the descriptor of, if that is well
formed.  At an offset there is exactly the type whose descriptor has its bytes there, which
may also be `void` and is never a method. -/
theorem descriptor_codec (d : String) (t : Ty) (p q : Nat) :
    (ofDescriptor? d = some t ↔ t.WellFormed ∧ t.descriptor = d)
    ∧ (readAt? d p = some (t, q) ↔
        (t = .void ∨ t.WellFormed ∧ t.kind ≠ .method) ∧ p < q ∧ q ≤ d.utf8ByteSize
          ∧ d.toByteArray.extract p q = t.descriptor.toByteArray) := by
  constructor
  · rw [ofDescriptor?_eq_some_iff, isDescribed_iff, eq_comm]
  · rw [readAt?_eq_some_iff, readable_iff]
    refine and_congr_right fun _ => ⟨?_, ?_⟩
    · rintro ⟨before, after, hsplit, rfl, rfl⟩
      obtain ⟨hle, hbytes⟩ := extract_of_split hsplit
      refine ⟨?_, hle, hbytes⟩
      have hpos : byteLength t.descriptor.toList ≠ 0 := by
        rw [byteLength_toList]
        intro hzero
        exact descriptor_ne_nil t (by rw [String.utf8ByteSize_eq_zero_iff.mp hzero]; rfl)
      omega
    · rintro ⟨hlt, hle, hbytes⟩
      exact split_of_extract hlt hle hbytes

-- Offsets count bytes, and there is nothing inside of a character.
example : readAt? "é[I" 2 = some (.array .int, 4) ∧ readAt? "é[I" 1 = none := by decide

/-! ## Cursors -/

/-- Can a cursor pass the descriptor of the type?  The parameters of a method may have any
names that a class can have. -/
def IsScanned : Ty → Prop
  | .method params result => (∀ t ∈ params, t.IsField) ∧ result.Readable
  | t => t.IsField

/-- With one `)` at most, there is none but the one that ends the parameters. -/
theorem IsScanned.isDescribed {t : Ty} (h : t.IsScanned)
    (hcount : t.descriptor.toList.count ')' ≤ 1) : t.IsDescribed := by
  cases t with
  | method params result =>
      refine ⟨h.1, fun hmem => ?_, h.2⟩
      have hpos := List.count_pos_iff.mpr hmem
      rw [toList_descriptor_method, List.count_cons_of_ne (by decide), List.count_append,
        List.count_cons_self] at hcount
      omega
  | _ => exact h

end Ty

namespace Lexeme

/-- A type at the front of a text is one that can be read there. -/
theorem type_of_typeLength? {voids : Bool} {cs : List Char} {n : Nat}
    (h : typeLength? voids cs = some n) :
    ∃ t : Ty, t.Readable ∧ (t = .void → voids = true) ∧ cs.take n = t.descriptor.toList := by
  fun_induction typeLength? voids cs generalizing n with
  | case1 | case3 | case5 | case7 | case9 => cases h
  | case2 =>
      cases h
      exact ⟨.void, trivial, fun _ => rfl, rfl⟩
  | case4 voids cs ih =>
      obtain ⟨m, hm, rfl⟩ := Option.map_eq_some_iff.mp h
      obtain ⟨t, hreadable, hvoid, htake⟩ := ih hm
      refine ⟨.array t, ⟨hreadable, fun ht => ?_⟩, (fun ht => by cases ht), ?_⟩
      · cases hvoid ht
      · rw [List.take_succ_cons, htake, Ty.toList_descriptor_array]
  | case6 voids cs name hname =>
      rename_i hsemi
      cases h
      obtain ⟨tail, htail⟩ := List.head?_eq_some_iff.mp hsemi
      have hspan : cs.take name = cs.takeWhile inClassName :=
        (List.prefix_iff_eq_take.mp (List.takeWhile_prefix _)).symm
      refine ⟨.object (String.ofList (cs.take name)), ⟨?_, ?_⟩, (fun ht => by cases ht), ?_⟩
      · intro hempty
        have hnil := congrArg String.toList hempty
        rw [String.toList_ofList, hspan] at hnil
        exact hname (by rw [show name = (cs.takeWhile inClassName).length from rfl, hnil]; rfl)
      · rw [String.toList_ofList, hspan]
        intro hmem
        have := List.mem_takeWhile_imp hmem
        simp [inClassName] at this
      · rw [Ty.toList_descriptor_object, String.toList_ofList, List.take_succ_cons, List.take_add,
          htail]
        rfl
  | case8 voids c tail hV _ _ hletter =>
      cases h
      obtain ⟨p, hp⟩ := Option.isSome_iff_exists.mp hletter
      refine ⟨.prim p, trivial, fun hvoid => ?_, ?_⟩
      · cases hvoid
        exact absurd (Prim.letter_of_ofLetter? hp).symm hV
      · rw [Ty.toList_descriptor_prim, Prim.letter_of_ofLetter? hp]
        rfl

/-- What ends at a `)` that is reached from type to type, are types and the `)`. -/
theorem params_of_paramsLength? {fuel : Nat} {cs : List Char} {n : Nat}
    (h : paramsLength? fuel cs = some n) :
    ∃ ts : List Ty, (∀ t ∈ ts, t.IsField) ∧ cs.take n = (Ty.descriptors ts).toList ++ [')'] := by
  fun_induction paramsLength? fuel cs generalizing n with
  | case1 fuel tail =>
      cases h
      exact ⟨[], List.forall_mem_nil _, rfl⟩
  | case2 | case3 => cases h
  | case4 fuel cs _ m htype ih =>
      obtain ⟨k, hk, rfl⟩ := Option.map_eq_some_iff.mp h
      obtain ⟨t, hreadable, hvoid, htake⟩ := type_of_typeLength? htype
      obtain ⟨ts, hts, hrest⟩ := ih hk
      refine ⟨t :: ts, List.forall_mem_cons.mpr ⟨⟨hreadable, fun ht => ?_⟩, hts⟩, ?_⟩
      · cases hvoid ht
      · rw [List.take_add, htake, hrest, Ty.toList_descriptors_cons, List.append_assoc]

/-- A descriptor at the front of a text is that of a type. -/
theorem type_of_descriptorLength? {cs : List Char} {n : Nat} (h : descriptorLength? cs = some n) :
    ∃ t : Ty, t.IsScanned ∧ cs.take n = t.descriptor.toList := by
  unfold descriptorLength? at h
  split at h
  · split at h
    · cases h
    · rename_i cs m hparams
      obtain ⟨k, hk, rfl⟩ := Option.map_eq_some_iff.mp h
      obtain ⟨ts, hts, hfront⟩ := params_of_paramsLength? hparams
      obtain ⟨result, hresult, -, hafter⟩ := type_of_typeLength? hk
      refine ⟨.method ts result, ⟨hts, hresult⟩, ?_⟩
      rw [Nat.add_right_comm, List.take_succ_cons, List.take_add, hfront, hafter,
        Ty.toList_descriptor_method, List.append_assoc]
      rfl
  · obtain ⟨t, hreadable, hvoid, htake⟩ := type_of_typeLength? h
    have hfield : t.IsField := ⟨hreadable, fun ht => by cases hvoid ht⟩
    refine ⟨t, ?_, htake⟩
    cases t with
    | method params result => exact hreadable.elim
    | _ => exact hfield

end Lexeme

namespace Scan

/-- A cursor at a descriptor moves behind it, and stays where it is otherwise. -/
theorem descriptor?_eq (c : Cursor) :
    descriptor? c = .ok (match Lexeme.descriptorLength? c.rest with
      | some n => (some (String.ofList (c.rest.take n)), c.advance n)
      | none => (none, c)) := by
  rw [descriptor?_eq_piece?]
  show (match Lexeme.descriptorLength? c.rest with
    | some n => (do return some (← take n) : Scan (Option String))
    | none => return none) c = _
  cases Lexeme.descriptorLength? c.rest <;> rfl

/-- What a cursor has passed is the text of its length. -/
theorem descriptor?_some {c c' : Cursor} {d : String} (h : descriptor? c = .ok (some d, c')) :
    Lexeme.descriptorLength? c.rest = some d.length ∧ d.toList = c.rest.take d.length
      ∧ c' = c.advance d.length := by
  rw [descriptor?_eq] at h
  cases hlength : Lexeme.descriptorLength? c.rest with
  | none =>
      rw [hlength] at h
      cases h
  | some n =>
      rw [hlength] at h
      obtain ⟨hd, rfl⟩ := Prod.mk.inj (Except.ok.inj h)
      obtain rfl := Option.some.inj hd
      have hle := (Lexeme.descriptorLength?_front hlength).2.1
      rw [String.length_ofList, String.toList_ofList, List.length_take_of_le hle]
      exact ⟨rfl, rfl, rfl⟩

/-- The two readers of descriptors agree.  A cursor passes what a whole text describes, if
there is no blank in it, and nothing of what follows.  What it passes has no blank, and is
described as a whole text unless there is more than one `)`.  If it passes nothing it stays. -/
theorem descriptor?_agrees (c : Cursor) :
    (∀ (d : String) (rest : List Char), (∀ x ∈ d.toList, isBlank x = false) →
      (Ty.ofDescriptor? d).isSome = true → c.rest = d.toList ++ rest →
      descriptor? c = .ok (some d, c.advance d.length) ∧ (c.advance d.length).rest = rest)
    ∧ (∀ (d : String) (c' : Cursor), descriptor? c = .ok (some d, c') →
      c.rest = d.toList ++ c'.rest ∧ c' = c.advance d.length
        ∧ (∀ x ∈ d.toList, isBlank x = false)
        ∧ (d.toList.count ')' ≤ 1 → (Ty.ofDescriptor? d).isSome = true))
    ∧ (∀ c', descriptor? c = .ok (none, c') → c' = c)
    ∧ ∃ answer, descriptor? c = .ok answer := by
  refine ⟨?_, ?_, ?_, ⟨_, descriptor?_eq c⟩⟩
  · intro d rest hblank hsome hrest
    obtain ⟨t, ht⟩ := Option.isSome_iff_exists.mp hsome
    obtain ⟨hdescribed, rfl⟩ := Ty.ofDescriptor?_eq_some_iff.mp ht
    have hlength := Lexeme.descriptorLength?_descriptor ⟨hdescribed, hblank⟩ rest
    rw [String.length_toList] at hlength
    constructor
    · rw [descriptor?_eq, hrest, hlength]
      simp only [List.take_left' String.length_toList, String.ofList_toList]
    · rw [Cursor.rest_advance, hrest, List.drop_left' String.length_toList]
  · intro d c' h
    obtain ⟨hlength, hd, rfl⟩ := descriptor?_some h
    refine ⟨?_, rfl, ?_, ?_⟩
    · rw [Cursor.rest_advance, hd, List.take_append_drop]
    · rw [hd]
      exact Lexeme.unbroken_descriptorLength? hlength
    · intro hcount
      obtain ⟨t, hscanned, htake⟩ := Lexeme.type_of_descriptorLength? hlength
      have hdesc : d = t.descriptor := String.toList_inj.mp (hd.trans htake)
      subst hdesc
      have ht := Ty.ofDescriptor?_eq_some_iff.mpr ⟨hscanned.isDescribed hcount, rfl⟩
      rw [ht]
      rfl
  · intro c' h
    rw [descriptor?_eq] at h
    cases hlength : Lexeme.descriptorLength? c.rest with
    | none =>
        rw [hlength] at h
        exact (Prod.mk.inj (Except.ok.inj h)).2.symm
    | some n =>
        rw [hlength] at h
        cases h

/-- A method of arrays whose result has a `)` in its name, before a field and after it, and
a method that does not end. -/
theorem descriptor?_agrees_nestedArrays :
    (Ty.ofDescriptor? "([[JLé;)La)b;").isSome = true
    ∧ (∃ c', descriptor? (.start "([[JLé;)La)b;(I)V") = .ok (some "([[JLé;)La)b;", c')
      ∧ c'.rest = "(I)V".toList)
    ∧ (∃ d c', descriptor? (.start "([[JLé;)VV") = .ok (some d, c') ∧ d.toList.count ')' ≤ 1
      ∧ (Ty.ofDescriptor? d).isSome = true ∧ c'.rest = ['V'])
    ∧ ∀ c', descriptor? (.start "(La;") = .ok (none, c') → c' = .start "(La;" := by
  have hsome : (Ty.ofDescriptor? "([[JLé;)La)b;").isSome = true := by decide
  have hblank : ("([[JLé;)La)b;".toList.all fun x => !isBlank x) = true := by decide
  have hfield : descriptor? (.start "([[JLé;)VV") = .ok (some "([[JLé;)V", ⟨['V'], 9, 1, 10⟩) := by
    decide +kernel
  obtain ⟨hpass, hrest⟩ := (descriptor?_agrees (.start "([[JLé;)La)b;(I)V")).1
    "([[JLé;)La)b;" "(I)V".toList (by simpa using hblank) hsome (by decide)
  obtain ⟨-, -, -, hdescribed⟩ := (descriptor?_agrees (.start "([[JLé;)VV")).2.1 _ _ hfield
  exact ⟨hsome, ⟨_, hpass, hrest⟩, ⟨_, _, hfield, by decide, hdescribed (by decide), rfl⟩,
    (descriptor?_agrees (.start "(La;")).2.2.1⟩

-- A `)` in the class name of a parameter is where the readers part.
example :
    Lexeme.descriptorLength? "(La)b;)V".toList = some 8 ∧ Ty.ofDescriptor? "(La)b;)V" = none := by
  decide

end Scan

end JvmListing
