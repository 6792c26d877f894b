/-
# Descriptors are read as they are written

`readOne?` accepts exactly the descriptors of types without a method in them,
whose class names are not empty and hold no `;`, and leaves what follows.  All
other readers are described through it.
-/
import JvmListing.Ty.Descriptor
import Mathlib.Data.List.Basic
import Mathlib.Data.List.TakeWhile
import Mathlib.Tactic.Common

namespace JvmListing

theorem Prim.letter_of_ofLetter? {c : Char} {p : Prim} (h : Prim.ofLetter? c = some p) :
    p.letter = c := by
  unfold Prim.ofLetter? at h
  split at h
  all_goals
    cases h
    try rfl

namespace Ty

/-- Does the type have a descriptor that can be read at the front of a text? -/
def Readable : Ty → Prop
  | .prim _ => True
  | .array t => t.Readable ∧ t ≠ .void
  | .object name => name ≠ "" ∧ ';' ∉ name.toList
  | .method .. => False

/-- Is the type one that a value can have? -/
def IsField (t : Ty) : Prop := t.Readable ∧ t ≠ .void

theorem one_le_size {t : Ty} (h : t ≠ .void) : 1 ≤ t.size := by
  cases t with
  | prim p =>
      cases p with
      | void => exact absurd rfl h
      | _ => decide
  | _ => exact Nat.le_refl 1

/-! ## Runs of characters -/

theorem takeWhile_ne_append {c : Char} : ∀ {cs : List Char} (rest : List Char), c ∉ cs →
    (cs ++ c :: rest).takeWhile (· ≠ c) = cs ∧ (cs ++ c :: rest).dropWhile (· ≠ c) = c :: rest
  | [], rest, _ => by simp
  | d :: cs, rest, h => by
      rw [List.mem_cons, not_or] at h
      have hd : d ≠ c := fun e => h.1 e.symm
      obtain ⟨htake, hdrop⟩ := takeWhile_ne_append rest h.2
      constructor
      · rw [List.cons_append, List.takeWhile_cons_of_pos (by simpa using hd), htake]
      · rw [List.cons_append, List.dropWhile_cons_of_pos (by simpa using hd), hdrop]

theorem not_mem_takeWhile_ne (c : Char) (cs : List Char) : c ∉ cs.takeWhile (· ≠ c) := by
  intro h
  have := List.mem_takeWhile_imp h
  simp at this

/-- What is left after the characters before a character starts with it. -/
theorem dropWhile_ne_cons {c d : Char} {cs rest : List Char}
    (h : cs.dropWhile (· ≠ c) = d :: rest) : d = c := by
  have := List.head?_dropWhile_not (· ≠ c) cs
  rw [h] at this
  simpa using this

/-! ## One type -/

theorem toList_descriptor_prim (p : Prim) : (Ty.prim p).descriptor.toList = [p.letter] :=
  String.toList_singleton p.letter

theorem toList_descriptor_array (t : Ty) :
    (Ty.array t).descriptor.toList = '[' :: t.descriptor.toList := by
  show ("[" ++ t.descriptor).toList = _
  rw [String.toList_append]
  rfl

theorem toList_descriptor_object (name : String) :
    (Ty.object name).descriptor.toList = 'L' :: (name.toList ++ [';']) := by
  show ("L" ++ name ++ ";").toList = _
  rw [String.toList_append, String.toList_append]
  rfl

theorem toList_descriptor_method (params : List Ty) (result : Ty) :
    (Ty.method params result).descriptor.toList =
      '(' :: ((descriptors params).toList ++ ')' :: result.descriptor.toList) := by
  show ("(" ++ descriptors params ++ ")" ++ result.descriptor).toList = _
  rw [String.toList_append, String.toList_append, String.toList_append]
  simp

theorem readOne?_prim (p : Prim) (rest : List Char) :
    readOne? (p.letter :: rest) = some (.prim p, rest) := by
  cases p <;> rfl

theorem readOne?_object {name : String} (hne : name ≠ "") (hsemi : ';' ∉ name.toList)
    (rest : List Char) :
    readOne? ('L' :: (name.toList ++ ';' :: rest)) = some (.object name, rest) := by
  obtain ⟨htake, hdrop⟩ := takeWhile_ne_append rest hsemi
  rw [readOne?, htake, hdrop]
  cases hcs : name.toList with
  | nil => exact absurd (String.toList_eq_nil_iff.mp hcs) hne
  | cons c cs =>
      simp only [← hcs, String.ofList_toList]

theorem readOne?_descriptor : ∀ {t : Ty}, t.Readable → ∀ rest : List Char,
    readOne? (t.descriptor.toList ++ rest) = some (t, rest)
  | .prim p, _, rest => by
      rw [toList_descriptor_prim]
      exact readOne?_prim p rest
  | .array t, h, rest => by
      rw [toList_descriptor_array, List.cons_append, readOne?, readOne?_descriptor h.1 rest]
      simp [h.2]
  | .object name, h, rest => by
      rw [toList_descriptor_object, List.cons_append, List.append_assoc]
      exact readOne?_object h.1 h.2 rest

theorem descriptor_of_readOne? {cs : List Char} {t : Ty} {rest : List Char}
    (h : readOne? cs = some (t, rest)) : t.Readable ∧ cs = t.descriptor.toList ++ rest := by
  fun_induction readOne? cs generalizing t rest with
  | case1 => cases h
  | case2 cs c name d after hdrop htake =>
      cases h
      have hd : d = ';' := dropWhile_ne_cons hdrop
      subst hd
      have hsemi : ';' ∉ c :: name := htake ▸ not_mem_takeWhile_ne ';' cs
      refine ⟨⟨?_, ?_⟩, ?_⟩
      · intro he
        have := congrArg String.toList he
        simp at this
      · rw [String.toList_ofList]
        exact hsemi
      · rw [toList_descriptor_object, String.toList_ofList]
        conv_lhs =>
          rw [← List.takeWhile_append_dropWhile (p := fun x => decide (x ≠ ';')) (l := cs),
          htake, hdrop]
        simp
  | case3 => cases h
  | case4 cs after hread => cases h
  | case5 cs t' after hread hvoid ih =>
      cases h
      obtain ⟨hr, hcs⟩ := ih hread
      refine ⟨⟨hr, hvoid⟩, ?_⟩
      rw [toList_descriptor_array, hcs]
      rfl
  | case6 cs hread ih => cases h
  | case7 c cs _ _ =>
      obtain ⟨p, hp, he⟩ := Option.map_eq_some_iff.mp h
      cases he
      refine ⟨trivial, ?_⟩
      rw [toList_descriptor_prim, Prim.letter_of_ofLetter? hp]
      rfl

theorem descriptor_ne_nil : ∀ t : Ty, t.descriptor.toList ≠ []
  | .prim p => by simp [toList_descriptor_prim]
  | .array t => by simp [toList_descriptor_array]
  | .object name => by simp [toList_descriptor_object]
  | .method params result => by simp [toList_descriptor_method]

/-! ## Whole texts -/

theorem ofFieldDescriptor?_eq_some_iff {desc : String} {t : Ty} :
    ofFieldDescriptor? desc = some t ↔ t.IsField ∧ desc = t.descriptor := by
  unfold ofFieldDescriptor? IsField
  constructor
  · intro h
    split at h
    · rename_i t' hread
      split at h
      · cases h
      · rename_i hvoid
        cases h
        obtain ⟨hr, hd⟩ := descriptor_of_readOne? hread
        rw [List.append_nil] at hd
        exact ⟨⟨hr, hvoid⟩, String.toList_inj.mp hd⟩
    · cases h
  · rintro ⟨⟨hr, hvoid⟩, rfl⟩
    have hread := readOne?_descriptor hr []
    rw [List.append_nil] at hread
    rw [hread]
    simp [hvoid]

theorem toList_descriptors_cons (t : Ty) (ts : List Ty) :
    (descriptors (t :: ts)).toList = t.descriptor.toList ++ (descriptors ts).toList :=
  String.toList_append

theorem descriptors_of_readAll? {fuel : Nat} {cs : List Char} {ts : List Ty}
    (h : readAll? fuel cs = some ts) :
    (∀ t ∈ ts, t.IsField) ∧ cs = (descriptors ts).toList := by
  fun_induction readAll? fuel cs generalizing ts with
  | case1 =>
      cases h
      exact ⟨fun t ht => absurd ht List.not_mem_nil, rfl⟩
  | case2 => cases h
  | case3 => cases h
  | case4 fuel cs _ t rest hread hvoid ih =>
      obtain ⟨others, hothers, he⟩ := Option.map_eq_some_iff.mp h
      cases he
      obtain ⟨hfields, hrest⟩ := ih hothers
      obtain ⟨hr, hcs⟩ := descriptor_of_readOne? hread
      refine ⟨?_, ?_⟩
      · intro u hu
        rcases List.mem_cons.mp hu with rfl | hu
        · exact ⟨hr, hvoid⟩
        · exact hfields u hu
      · rw [hcs, hrest, toList_descriptors_cons]
  | case5 => cases h

theorem readAll?_descriptors : ∀ {ts : List Ty} {fuel : Nat}, (∀ t ∈ ts, t.IsField) →
    (descriptors ts).toList.length ≤ fuel → readAll? fuel (descriptors ts).toList = some ts
  | [], fuel, _, _ => by cases fuel <;> rfl
  | t :: ts, fuel, h, hfuel => by
      obtain ⟨hr, hvoid⟩ := h t List.mem_cons_self
      have hpos := List.length_pos_of_ne_nil (descriptor_ne_nil t)
      rw [toList_descriptors_cons, List.length_append] at hfuel
      obtain ⟨fuel, rfl⟩ : ∃ n, fuel = n + 1 := ⟨fuel - 1, by omega⟩
      have ih : readAll? fuel (descriptors ts).toList = some ts :=
        readAll?_descriptors (fun u hu => h u (List.mem_cons_of_mem _ hu)) (by omega)
      rw [toList_descriptors_cons, readAll?, readOne?_descriptor hr]
      · simp [hvoid, ih]
      · intro he
        exact descriptor_ne_nil t (List.append_eq_nil_iff.mp he).1

/-- Types one after another can be told apart from what follows a closing bracket. -/
theorem descriptors_append_inj : ∀ {ts us : List Ty} {x y : List Char},
    (∀ t ∈ ts, t.Readable) → (∀ t ∈ us, t.Readable) →
    (descriptors ts).toList ++ ')' :: x = (descriptors us).toList ++ ')' :: y → ts = us ∧ x = y
  | [], [], x, y, _, _, h => ⟨rfl, (List.cons.inj h).2⟩
  | [], u :: us, x, y, _, hus, h => by
      have hread :=
        readOne?_descriptor (hus u List.mem_cons_self) ((descriptors us).toList ++ ')' :: y)
      rw [← List.append_assoc, ← toList_descriptors_cons, ← h] at hread
      cases hread
  | t :: ts, [], x, y, hts, _, h => by
      have hread :=
        readOne?_descriptor (hts t List.mem_cons_self) ((descriptors ts).toList ++ ')' :: x)
      rw [← List.append_assoc, ← toList_descriptors_cons, h] at hread
      cases hread
  | t :: ts, u :: us, x, y, hts, hus, h => by
      obtain ⟨ht, hts'⟩ := List.forall_mem_cons.mp hts
      obtain ⟨hu, hus'⟩ := List.forall_mem_cons.mp hus
      rw [toList_descriptors_cons, toList_descriptors_cons, List.append_assoc,
        List.append_assoc] at h
      have hread := readOne?_descriptor ht ((descriptors ts).toList ++ ')' :: x)
      rw [h, readOne?_descriptor hu] at hread
      obtain ⟨rfl, hrest⟩ := Prod.mk.inj (Option.some.inj hread)
      obtain ⟨hrest, hxy⟩ := descriptors_append_inj hts' hus' hrest.symm
      exact ⟨congrArg _ hrest, hxy⟩

/-- The parameters of a method end at the first `)`. -/
theorem readMethod?_eq_some_iff {desc : String} {params : List Ty} {result : Ty} :
    readMethod? desc = some (params, result) ↔
      (∀ t ∈ params, t.IsField) ∧ ')' ∉ (descriptors params).toList ∧ result.Readable
        ∧ desc = (Ty.method params result).descriptor := by
  constructor
  · intro h
    unfold readMethod? at h
    split at h
    · rename_i cs hdesc
      dsimp only at h
      split at h
      · rename_i params' d after hall hdrop
        split at h
        · rename_i result' hread
          cases h
          obtain ⟨hfields, hinside⟩ := descriptors_of_readAll? hall
          obtain ⟨hr, hafter⟩ := descriptor_of_readOne? hread
          obtain rfl : d = ')' := dropWhile_ne_cons hdrop
          refine ⟨hfields, hinside ▸ not_mem_takeWhile_ne ')' cs, hr, ?_⟩
          rw [← String.toList_inj, hdesc, toList_descriptor_method, ← hinside,
            ← List.append_nil result.descriptor.toList, ← hafter, ← hdrop,
            List.takeWhile_append_dropWhile]
        · cases h
      · cases h
    · cases h
  · rintro ⟨hfields, hparen, hr, rfl⟩
    obtain ⟨htake, hdrop⟩ := takeWhile_ne_append result.descriptor.toList hparen
    have hread := readOne?_descriptor hr []
    rw [List.append_nil] at hread
    unfold readMethod?
    rw [toList_descriptor_method]
    simp only [htake, hdrop, readAll?_descriptors hfields (Nat.le_refl _), hread]

/-- Does a whole text describe the type? -/
def IsDescribed : Ty → Prop
  | .method params result =>
    (∀ t ∈ params, t.IsField) ∧ ')' ∉ (descriptors params).toList ∧ result.Readable
  | t => t.IsField

/-- Only the descriptor of a method starts with a bracket, and none ends a list of parameters. -/
theorem head_descriptor_ne {t : Ty} (h : t.Readable) (rest : List Char) :
    (t.descriptor.toList ++ rest).head? ≠ some '('
      ∧ (t.descriptor.toList ++ rest).head? ≠ some ')' := by
  cases t with
  | prim p =>
      rw [toList_descriptor_prim]
      cases p <;> exact ⟨by simp [Prim.letter], by simp [Prim.letter]⟩
  | array t => simp [toList_descriptor_array]
  | object name => simp [toList_descriptor_object]
  | method params result => cases h

theorem ofDescriptor?_eq_some_iff {desc : String} {t : Ty} :
    ofDescriptor? desc = some t ↔ t.IsDescribed ∧ desc = t.descriptor := by
  have hfield : ∀ {t : Ty}, t.IsField → t.descriptor.toList.head? ≠ some '(' := by
    intro t ht
    have := (head_descriptor_ne ht.1 []).1
    rwa [List.append_nil] at this
  unfold ofDescriptor?
  constructor
  · intro h
    split at h
    · obtain ⟨⟨params, result⟩, hread, rfl⟩ := Option.map_eq_some_iff.mp h
      obtain ⟨hparams, hparen, hresult, hdesc⟩ := readMethod?_eq_some_iff.mp hread
      exact ⟨⟨hparams, hparen, hresult⟩, hdesc⟩
    · obtain ⟨ht, hdesc⟩ := ofFieldDescriptor?_eq_some_iff.mp h
      refine ⟨?_, hdesc⟩
      cases t with
      | method params result => cases ht.1
      | _ => exact ht
  · rintro ⟨ht, rfl⟩
    cases t with
    | method params result =>
        have hread := readMethod?_eq_some_iff.mpr ⟨ht.1, ht.2.1, ht.2.2, rfl⟩
        rw [if_pos (by rw [toList_descriptor_method]; rfl), hread]
        rfl
    | _ =>
        rw [if_neg (hfield ht)]
        exact ofFieldDescriptor?_eq_some_iff.mpr ⟨ht, rfl⟩

end Ty

end JvmListing
