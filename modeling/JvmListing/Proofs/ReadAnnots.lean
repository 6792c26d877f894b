/-
# Annotations that are read

Whatever the text, an annotation that is read from it has parts that can stand where its
dialect writes them (`Annot.isSpelled`).  So the annotations that are not given back by
their own text are not given back by any.

Here it matters where a scan stands when it reads a part: a descriptor that the
keyword dialect reads as a value does not start with a bracket because a list was
tried there first, and a name that the directive dialect reads is not `end` because
the end of the list was.  `Scan.From S s P` says what a scan gives and leaves, if it
gives anything, from a text that satisfies `S`.
-/
import JvmListing.Proofs.AnnotText
import JvmListing.Proofs.ReadListings

namespace JvmListing

open Lexeme

/-! ## Lexemes -/

namespace Lexeme

/-- The characters in front are those that satisfy `p`, and the one after them does not. -/
theorem head_drop_spanLength (p : Char → Bool) (cs : List Char) :
    (cs.drop (spanLength p cs)).head?.any p = false := by
  induction cs with
  | nil => rfl
  | cons c cs ih =>
      by_cases hc : p c = true
      · rw [spanLength, List.takeWhile_cons_of_pos hc]
        exact ih
      · rw [spanLength, List.takeWhile_cons_of_neg hc]
        simpa using hc

theorem two_le_commentLength {cs : List Char} {n : Nat} (h : commentLength? cs = some n) :
    2 ≤ n := by
  unfold commentLength? at h
  split at h
  · obtain rfl := Option.some.inj h
    omega
  · obtain rfl := Option.some.inj h
    omega
  · cases h

/-- After the trivia there is none. -/
theorem noTrivia_drop_triviaLengthIn : ∀ (fuel : Nat) {cs : List Char}, cs.length ≤ fuel →
    NoTrivia (cs.drop (triviaLengthIn fuel cs))
  | 0, cs, h => by
      obtain rfl := List.length_eq_zero_iff.mp (Nat.le_zero.mp h)
      exact ⟨rfl, rfl⟩
  | fuel + 1, cs, h => by
      rw [triviaLengthIn]
      split
      · rename_i hnone
        exact ⟨head_drop_spanLength isBlank cs, hnone⟩
      · rename_i n hsome
        -- a comment has characters, so what is left of the fuel is still enough
        have hn := two_le_commentLength hsome
        have hshorter : (cs.drop (blanksLength cs + n)).length ≤ fuel := by
          rw [List.length_drop]
          omega
        have ih := noTrivia_drop_triviaLengthIn fuel hshorter
        rwa [List.drop_drop] at ih

theorem noTrivia_drop_triviaLength (cs : List Char) : NoTrivia (cs.drop (triviaLength cs)) :=
  noTrivia_drop_triviaLengthIn cs.length (Nat.le_refl _)

theorem triviaLength_eq_zero {cs : List Char} (h : NoTrivia cs) : triviaLength cs = 0 :=
  triviaLength_append (List.forall_mem_nil (isBlank · = true)) h

/-- Is there no blank among the first characters? -/
def Unbroken (n : Nat) (cs : List Char) : Prop := ∀ c ∈ cs.take n, isBlank c = false

theorem Unbroken.cons {c : Char} {cs : List Char} {n : Nat} (hc : isBlank c = false)
    (h : Unbroken n cs) : Unbroken (n + 1) (c :: cs) := by
  intro x hx
  rw [List.take_succ_cons] at hx
  rcases List.mem_cons.mp hx with rfl | hx
  · exact hc
  · exact h x hx

theorem Unbroken.add {cs : List Char} {n m : Nat} (h : Unbroken n cs)
    (h' : Unbroken m (cs.drop n)) : Unbroken (n + m) cs := by
  intro c hc
  rw [List.take_add] at hc
  exact (List.mem_append.mp hc).elim (h c) (h' c)

theorem unbroken_zero (cs : List Char) : Unbroken 0 cs := fun _ hc => nomatch hc

theorem isUnbroken_ofList {n : Nat} {cs : List Char} (h : Unbroken n cs) :
    isUnbroken (String.ofList (cs.take n)) = true := by
  rw [isUnbroken, String.toList_ofList, List.all_eq_true]
  intro c hc
  rw [h c hc]
  rfl

theorem unbroken_spanLength {p : Char → Bool} (hp : ∀ c, p c = true → isBlank c = false)
    (cs : List Char) : Unbroken (spanLength p cs) cs := by
  intro c hc
  rw [spanLength, ← List.prefix_iff_eq_take.mp (List.takeWhile_prefix p)] at hc
  exact hp c (List.mem_takeWhile_imp hc)

theorem Prim.isBlank_of_ofLetter? {c : Char} (h : (Prim.ofLetter? c).isSome = true) :
    isBlank c = false := by
  obtain ⟨p, hp⟩ := Option.isSome_iff_exists.mp h
  rw [← Prim.letter_of_ofLetter? hp]
  exact isBlank_of_isVisible (isVisible_of_isNameChar p.isNameChar_letter)

/-- There is no blank in a type. -/
theorem unbroken_typeLength? {voids : Bool} {cs : List Char} {n : Nat}
    (h : typeLength? voids cs = some n) : Unbroken n cs := by
  fun_induction typeLength? voids cs generalizing n with
  | case1 | case3 | case5 | case7 | case9 => cases h
  | case2 =>
      cases h
      exact (unbroken_zero _).cons rfl
  | case4 voids cs ih =>
      obtain ⟨m, hm, rfl⟩ := Option.map_eq_some_iff.mp h
      exact (ih hm).cons rfl
  | case6 _ cs name _ =>
      rename_i hsemi
      cases h
      have hspan : Unbroken name cs := by
        refine unbroken_spanLength (fun c hc => ?_) cs
        simpa using (Bool.and_eq_true_iff.mp hc).2
      have hlast : Unbroken 1 (cs.drop name) := by
        obtain ⟨tail, htail⟩ := List.head?_eq_some_iff.mp hsemi
        rw [htail]
        exact (unbroken_zero _).cons rfl
      exact (hspan.add hlast).cons rfl
  | case8 voids c tail _ _ _ hletter =>
      cases h
      exact (unbroken_zero _).cons (Prim.isBlank_of_ofLetter? hletter)

theorem unbroken_paramsLength? : ∀ {fuel : Nat} {cs : List Char} {n : Nat},
    paramsLength? fuel cs = some n → Unbroken n cs := by
  intro fuel cs
  fun_induction paramsLength? fuel cs with
  | case1 fuel tail =>
      intro n h
      cases h
      exact (unbroken_zero _).cons rfl
  | case2 | case3 =>
      intro n h
      cases h
  | case4 fuel cs _ m htype ih =>
      intro n h
      obtain ⟨k, hk, rfl⟩ := Option.map_eq_some_iff.mp h
      exact (unbroken_typeLength? htype).add (ih hk)

/-- There is no blank in a descriptor. -/
theorem unbroken_descriptorLength? {cs : List Char} {n : Nat} (h : descriptorLength? cs = some n) :
    Unbroken n cs := by
  unfold descriptorLength? at h
  split at h
  · split at h
    · cases h
    · rename_i cs m hparams
      obtain ⟨k, hk, rfl⟩ := Option.map_eq_some_iff.mp h
      have hrest := (unbroken_paramsLength? hparams).add (unbroken_typeLength? hk)
      have := hrest.cons (c := '(') rfl
      rwa [Nat.add_right_comm] at this
  · exact unbroken_typeLength? h

theorem isUnbroken_of_isDescText {desc : String} (h : isDescText desc = true) :
    isUnbroken desc = true := by
  have hunbroken := isUnbroken_ofList (unbroken_descriptorLength? (of_decide_eq_true h))
  rwa [List.take_length, String.ofList_toList] at hunbroken

/-- A text starts with a word, possibly without characters. -/
theorem word_append (stop : Char → Bool) (cs : List Char) :
    InWord stop (cs.take (wordLength stop cs)) ∧ EndsWord stop (cs.drop (wordLength stop cs)) := by
  constructor
  · intro c hc
    rw [wordLength, spanLength, ← List.prefix_iff_eq_take.mp (List.takeWhile_prefix _)] at hc
    simpa using List.mem_takeWhile_imp hc
  · have hhead := head_drop_spanLength (fun c => !isBlank c && !stop c) cs
    unfold EndsWord wordLength
    generalize (cs.drop (spanLength (fun c => !isBlank c && !stop c) cs)).head? = next at hhead ⊢
    cases next with
    | none => rfl
    | some c =>
        simp only [Option.any_some, Option.all_some] at hhead ⊢
        cases hblank : isBlank c <;> simp_all

/-- A word in front of a text without trivia opens no comment. -/
theorem isSignature_of_noTrivia {s : String} {rest : List Char} (h : NoTrivia (s.toList ++ rest))
    (hword : ∀ c ∈ s.toList, isBlank c = false) (hne : s ≠ "") : isSignature s = true := by
  have hnone : ∀ x, x = '/' ∨ x = '*' → ['/', x].isPrefixOf s.toList = false := by
    intro x hx
    rw [Bool.eq_false_iff]
    intro hopening
    obtain ⟨tail, htail⟩ := List.isPrefixOf_iff_prefix.mp hopening
    have hcomment := h.2
    rw [← htail] at hcomment
    rcases hx with rfl | rfl <;> cases hcomment
  simp only [isSignature, Bool.and_eq_true, Bool.not_eq_true', List.all_eq_true,
    decide_eq_true_eq]
  exact ⟨⟨⟨hne, hword⟩, hnone '/' (Or.inl rfl)⟩, hnone '*' (Or.inr rfl)⟩

end Lexeme

/-- The parts of a member reference are what stands before and after its last dot. -/
theorem splitMember_eq_ok {m : Located String} {owner name : String}
    (h : splitMember m = .ok (owner, name)) :
    owner ≠ "" ∧ name ≠ "" ∧ '.' ∉ name.toList ∧ m.value = owner ++ "." ++ name := by
  unfold splitMember at h
  dsimp only at h
  split at h
  · cases h
  · rename_i hne
    have hback := List.takeWhile_append_dropWhile (p := (· ≠ '.')) (l := m.value.toList.reverse)
    have hdot := Ty.not_mem_takeWhile_ne '.' m.value.toList.reverse
    have hfirst : ∀ c rest, m.value.toList.reverse.dropWhile (· ≠ '.') = c :: rest → c = '.' :=
      fun c rest => Ty.dropWhile_ne_cons
    generalize m.value.toList.reverse.takeWhile (· ≠ '.') = back at h hne hback hdot
    generalize m.value.toList.reverse.dropWhile (· ≠ '.') = front at h hne hback hfirst
    cases h
    rw [Bool.or_eq_true, not_or, List.isEmpty_iff, List.isEmpty_iff] at hne
    obtain ⟨hname, howner⟩ := hne
    cases front with
    | nil => exact absurd rfl howner
    | cons c front =>
        obtain rfl := hfirst c front rfl
        refine ⟨by simpa using howner, by simpa using hname, by simpa using hdot, ?_⟩
        rw [← String.toList_inj, toList_member, String.toList_ofList, String.toList_ofList,
          ← List.reverse_reverse m.value.toList, ← hback]
        simp

theorem isMember_of_splitMember {m : Located String} {owner name : String}
    (h : splitMember m = .ok (owner, name)) (hsignature : isSignature m.value = true)
    (hword : InWord memberStop m.value.toList) : IsMember owner name := by
  obtain ⟨howner, hname, hdot, hvalue⟩ := splitMember_eq_ok h
  rw [hvalue] at hsignature hword
  exact ⟨howner, hname, hdot, hsignature, hword⟩

/-! ## Meanings of spelled annotations -/

section Meanings

variable {d : Dialect} {visible : Bool}

/-- What the spelled argument means, if anything, can be written where it stands. -/
def RawAnnotArg.IsSpelled (d : Dialect) (visible : Bool) (raw : RawAnnotArg) : Prop :=
  ∀ arg, raw.toArg = .ok arg → arg.all (spelledTest d visible) = true

/-- What the spelled annotation means, if anything, can be written, wherever it stands. -/
def RawAnnot.IsSpelled (d : Dialect) (visible : Bool) (raw : RawAnnot) : Prop :=
  ∀ position a, (raw.at position).toAnnot = .ok a → a.all (spelledTest d visible) = true

theorem RawAnnotArg.isSpelled_const {raw : RawConst}
    (h : ∀ c, raw.toConst = .ok c → c.isArgument d = true) :
    (RawAnnotArg.const raw).IsSpelled d visible := by
  intro arg harg
  obtain ⟨c, hc, harg⟩ := except_bind_eq_ok.mp harg
  cases harg
  exact h c hc

theorem RawAnnotArg.isSpelled_enum {type name : String} (htype : isSignature type = true)
    (hname : isWordBefore ')' d name = true) :
    (RawAnnotArg.enum type name).IsSpelled d visible := by
  rintro arg ⟨⟩
  exact Bool.and_eq_true_iff.mpr ⟨htype, hname⟩

theorem RawAnnotArg.isSpelled_annot {raw : RawAnnot} (h : raw.IsSpelled d visible) :
    (RawAnnotArg.annot raw).IsSpelled d visible := by
  obtain ⟨visible, type, args, position⟩ := raw
  intro arg harg
  obtain ⟨a, ha, harg⟩ := except_bind_eq_ok.mp harg
  cases harg
  exact h position a ha

theorem RawAnnotArg.isSpelled_list {raws : List RawAnnotArg}
    (h : ∀ raw ∈ raws, raw.IsSpelled d visible) : (RawAnnotArg.list raws).IsSpelled d visible := by
  have hlist : ∀ args, toArgList raws = .ok args →
      ∀ arg ∈ args, arg.all (spelledTest d visible) = true := by
    induction raws with
    | nil =>
        rintro args ⟨⟩ arg hmem
        cases hmem
    | cons raw raws ih =>
        intro args hargs
        obtain ⟨first, hfirst, hargs⟩ := except_bind_eq_ok.mp hargs
        obtain ⟨rest, hrest, hargs⟩ := except_bind_eq_ok.mp hargs
        cases hargs
        obtain ⟨hraw, hraws⟩ := List.forall_mem_cons.mp h
        exact List.forall_mem_cons.mpr ⟨hraw first hfirst, ih hraws rest hrest⟩
  intro arg harg
  obtain ⟨args, hargs, harg⟩ := except_bind_eq_ok.mp harg
  cases harg
  exact AnnotArg.all_list_iff.mpr (hlist args hargs)

theorem Annot.mem_putArg {name : String} {arg : AnnotArg} {x : String × AnnotArg} :
    ∀ {args : List (String × AnnotArg)}, x ∈ putArg args name arg → x ∈ args ∨ x = (name, arg)
  | [], h => Or.inr (List.mem_singleton.mp h)
  | (n, a) :: args, h => by
      rw [putArg] at h
      split at h
      · rename_i hname
        subst hname
        exact (List.mem_cons.mp h).elim Or.inr fun h => Or.inl (List.mem_cons_of_mem _ h)
      · rcases List.mem_cons.mp h with rfl | h
        · exact Or.inl List.mem_cons_self
        · exact (mem_putArg h).imp_left (List.mem_cons_of_mem _)

/-- An argument takes the place of one with its name, so no name occurs twice. -/
theorem Annot.nodup_putArg (name : String) (arg : AnnotArg) :
    ∀ {args : List (String × AnnotArg)}, (args.map Prod.fst).Nodup →
      ((putArg args name arg).map Prod.fst).Nodup
  | [], _ => List.nodup_singleton name
  | (n, a) :: args, h => by
      obtain ⟨hn, hargs⟩ := List.nodup_cons.mp h
      rw [putArg]
      split
      · exact h
      · rename_i hne
        refine List.nodup_cons.mpr ⟨fun hmem => ?_, nodup_putArg name arg hargs⟩
        obtain ⟨x, hx, hfst⟩ := List.mem_map.mp hmem
        rcases mem_putArg hx with hx | rfl
        · exact hn (hfst ▸ List.mem_map_of_mem hx)
        · exact hne hfst.symm

/-- Can the argument stand under its name? -/
def IsSpelledArg (d : Dialect) (visible : Bool) (x : String × AnnotArg) : Prop :=
  isArgName d x.1 = true ∧ x.2.all (spelledTest d visible) = true

/-- The same of an argument as it was spelled, which may lack its name. -/
def IsSpelledRaw (d : Dialect) (visible : Bool) (raw : Option String × RawAnnotArg) : Prop :=
  (∀ name, raw.1 = some name → isArgName d name = true) ∧ raw.2.IsSpelled d visible

/-- The arguments that are known stay what they are, or give way to spelled ones. -/
theorem RawAnnot.isSpelled_toArgs (position : Position) :
    ∀ {raws : List (Option String × RawAnnotArg)} {known args : List (String × AnnotArg)},
      (∀ raw ∈ raws, IsSpelledRaw d visible raw) → (∀ x ∈ known, IsSpelledArg d visible x) →
        (known.map Prod.fst).Nodup → toArgs position known raws = .ok args →
          (∀ x ∈ args, IsSpelledArg d visible x) ∧ (args.map Prod.fst).Nodup
  | [], _, _, _, hknown, hnodup, hargs => by
      cases hargs
      exact ⟨hknown, hnodup⟩
  | (none, _) :: _, _, _, _, _, _, hargs => by cases hargs
  | (some name, raw) :: raws, known, args, h, hknown, hnodup, hargs => by
      obtain ⟨⟨hname, hraw⟩, hraws⟩ := List.forall_mem_cons.mp h
      obtain ⟨arg, harg, hargs⟩ := except_bind_eq_ok.mp hargs
      refine isSpelled_toArgs position hraws (fun x hx => ?_)
        (Annot.nodup_putArg name arg hnodup) hargs
      rcases Annot.mem_putArg hx with hx | rfl
      · exact hknown x hx
      · exact ⟨hname name rfl, hraw arg harg⟩

theorem RawAnnot.isSpelled_mk {raws : List (Option String × RawAnnotArg)} {type : String}
    (htype : isWordBefore '(' d type = true) (h : ∀ raw ∈ raws, IsSpelledRaw d visible raw)
    (position : Position) : (RawAnnot.mk visible type raws position).IsSpelled d visible := by
  intro position a ha
  obtain ⟨args, hargs, ha⟩ := except_bind_eq_ok.mp ha
  cases ha
  obtain ⟨hall, hnodup⟩ :=
    isSpelled_toArgs position h (List.forall_mem_nil _) List.nodup_nil hargs
  refine Annot.all_mk_iff.mpr ⟨spelledTest_annot_iff.mpr ⟨rfl, htype, ?_, hnodup⟩,
    fun x hx => (hall x hx).2⟩
  intro name hname
  obtain ⟨x, hx, rfl⟩ := List.mem_map.mp hname
  exact (hall x hx).1

end Meanings

/-! ## Scans from a place -/

namespace Scan

variable {α β : Type}

/-- From a text that satisfies `S`, all that the scan can give and leave satisfies `P`. -/
def From (S : List Char → Prop) (s : Scan α) (P : α → List Char → Prop) : Prop :=
  ∀ c a c', S c.rest → s c = .ok (a, c') → P a c'.rest

namespace From

variable {S S' : List Char → Prop} {s : Scan α} {P P' : α → List Char → Prop} {k : α → Scan β}
  {Q : β → List Char → Prop}

theorem bind (hs : From S s P) (hk : ∀ a, From (P a) (k a) Q) : From S (s >>= k) Q := by
  intro c b c' hS hrun
  have hrun : (s c >>= fun p => k p.1 p.2) = .ok (b, c') := hrun
  obtain ⟨⟨a, c₁⟩, hrun, hrest⟩ := except_bind_eq_ok.mp hrun
  exact hk a c₁ b c' (hs c a c₁ hS hrun) hrest

theorem pure {a : α} (h : ∀ cs, S cs → P a cs) : From S (Pure.pure a) P := by
  intro c a' c' hS hrun
  cases hrun
  exact h _ hS

theorem fail (fault : Fault) : From S (Scan.fail fault) P := by
  intro c a c' _ hrun
  cases hrun

theorem mono (h : From S s P) (hS : ∀ cs, S' cs → S cs) (hP : ∀ a cs, P a cs → P' a cs) :
    From S' s P' :=
  fun c a c' hs hrun => hP a _ (h c a c' (hS _ hs) hrun)

theorem ite_prop {p : Prop} [Decidable p] {s s' : Scan α} (h : p → From S s P)
    (h' : ¬ p → From S s' P) : From S (if p then s else s') P := by
  split
  · exact h ‹_›
  · exact h' ‹_›

theorem ite {p : Prop} [Decidable p] {s s' : Scan α} (h : From S s P) (h' : From S s' P) :
    From S (if p then s else s') P :=
  ite_prop (fun _ => h) fun _ => h'

/-- What is known of the text is known of what the scan gives, wherever it then goes on. -/
theorem knowing {R : α → Prop} (h : ∀ cs, S cs → s.Yields R) : From S s fun a _ => R a :=
  fun c a c' hS hrun => h c.rest hS c a c' hrun

theorem of_yields {R : α → Prop} (h : s.Yields R) : From S s fun a _ => R a :=
  knowing fun _ _ => h

/-- Where the steps after it need no place, they need what is known of a result only. -/
theorem bindYields {R : β → Prop} (hs : From S s P) (hk : ∀ a cs, P a cs → (k a).Yields R) :
    From S (s >>= k) fun b _ => R b :=
  hs.bind fun a => knowing (hk a)

theorem yields {R : α → Prop} (h : From (fun _ => True) s fun a _ => R a) : s.Yields R :=
  fun c a c' hrun => h c a c' trivial hrun

end From

variable {S : List Char → Prop}

theorem from_get : From S get fun mark cs => S cs ∧ mark.rest = cs := by
  intro c a c' hS hrun
  cases hrun
  exact ⟨hS, rfl⟩

theorem from_skipTrivia : From S skipTrivia fun _ cs => NoTrivia cs := by
  intro c a c' _ hrun
  cases hrun
  rw [Cursor.rest_advance]
  exact noTrivia_drop_triviaLength c.rest

/-- Where there is no trivia, skipping it changes nothing. -/
theorem from_skipTrivia_none : From (fun cs => NoTrivia cs ∧ S cs) skipTrivia
    fun _ cs => NoTrivia cs ∧ S cs := by
  intro c a c' hS hrun
  cases hrun
  rw [Cursor.rest_advance, triviaLength_eq_zero hS.1, List.drop_zero]
  exact hS

theorem from_eat (x : Char) : From S (eat x) fun found cs => found = false →
    S cs ∧ cs.head? ≠ some x := by
  intro c a c' hS hrun hfalse
  unfold eat at hrun
  split at hrun
  · cases hrun
    cases hfalse
  · rename_i hne
    cases hrun
    exact ⟨hS, hne⟩

theorem from_peekWord : From S peekWord fun _ cs => S cs := by
  intro c a c' hS hrun
  cases hrun
  exact hS

theorem from_atLiteral : From (fun cs => NoTrivia cs ∧ S cs) atLiteral
    fun _ cs => NoTrivia cs ∧ S cs := by
  refine from_skipTrivia_none.bind fun _ => from_get.bind fun mark => ?_
  split <;> exact .pure fun cs h => h.1

theorem from_atEnd : From S atEnd fun _ cs => S cs :=
  from_get.bind fun _ => .pure fun _ h => h.1

/-- A word that is read is the front of the text. -/
theorem from_upTo (stop : Char → Bool) : From S (upTo stop) fun w cs =>
    S (w.toList ++ cs) ∧ InWord stop w.toList ∧ EndsWord stop cs := by
  intro c a c' hS hrun
  cases hrun
  obtain ⟨hin, hends⟩ := word_append stop c.rest
  rw [Cursor.rest_advance, String.toList_ofList, List.take_append_drop]
  exact ⟨hS, hin, hends⟩

theorem from_requiredUpTo (stop : Char → Bool) (what : String) :
    From S (requiredUpTo stop what) fun w cs =>
      w ≠ "" ∧ S (w.toList ++ cs) ∧ InWord stop w.toList ∧ EndsWord stop cs := by
  refine (from_upTo stop).bind fun w => .ite_prop ?_ ?_
  · exact fun _ => .fail _
  · exact fun hne => .pure fun cs h => ⟨by simpa using hne, h⟩

/-- Where there is no trivia, a word that is read is one wherever it stands. -/
theorem from_wordTo (stop : Char → Bool) (what : String) :
    From NoTrivia (requiredUpTo stop what) fun w _ => isWordTo stop w = true := by
  refine (from_requiredUpTo stop what).mono (fun _ h => h) ?_
  rintro w cs ⟨hne, htrivia, hin, -⟩
  exact isWordTo_iff.mpr ⟨isSignature_of_noTrivia htrivia (fun c hc => (hin c hc).1) hne, hin⟩

theorem yields_requiredWord (what : String) :
    (requiredWord what).Yields (isSignature · = true) := by
  refine (from_skipTrivia.bind fun _ => ?_).yields
  exact (from_wordTo (fun _ => false) what).mono (fun _ h => h) fun _ _ h =>
    (isWordTo_iff.mp h).signature

theorem from_eatKeyword (keyword : String) : From S (eatKeyword keyword) fun found cs =>
    found = false → S cs ∧ sameFolded (keywordOf cs) keyword = false := by
  refine from_get.bind fun mark => (from_upTo _).bind fun found => ?_
  split
  · exact .pure fun _ _ hfalse => nomatch hfalse
  · rename_i hne
    rintro c b c' ⟨⟨hS, hmark⟩, hin, hends⟩ hrun -
    cases hrun
    rw [hmark, keywordOf, wordLength_append hin hends, List.take_left, String.ofList_toList]
    exact ⟨hS, Bool.eq_false_iff.mpr hne⟩

/-- A descriptor that is read is the front of the text, and it is known where it ends.  Where
there is none the scan stays. -/
theorem from_descriptor? : From S descriptor? fun found cs =>
    (∀ desc, found = some desc → S (desc.toList ++ cs) ∧ isDescText desc = true)
      ∧ (found = none → S cs ∧ descriptorLength? cs = none) := by
  rw [descriptor?_eq_piece?]
  refine from_get.bind fun mark => ?_
  split
  · rename_i n hn
    rintro c found c' ⟨hS, hmark⟩ hrun
    cases hrun
    rw [hmark] at hn
    refine ⟨?_, fun hnone => nomatch hnone⟩
    rintro desc ⟨⟩
    refine ⟨?_, isDescText_take hn⟩
    rwa [String.toList_ofList, Cursor.rest_advance, List.take_append_drop]
  · rename_i hn
    refine .pure ?_
    rintro cs ⟨hS, rfl⟩
    exact ⟨fun desc hdesc => (nomatch hdesc), fun _ => ⟨hS, hn⟩⟩

/-! ## Types and members -/

/-- A type that is read is the front of the text after the trivia. -/
theorem from_typeConstant {S' : List Char → Prop} (hskip : From S skipTrivia fun _ => S') :
    From S typeConstant fun desc _ =>
      (∃ rest, S' (desc.value.toList ++ rest)) ∧ isDescText desc.value = true := by
  refine hskip.bind fun _ => from_get.bind fun mark => ?_
  refine from_descriptor?.bindYields fun found cs hfound => ?_
  cases found with
  | none => exact .after fun _ => .failSince _ _
  | some desc =>
      obtain ⟨⟨hS, -⟩, hdesc⟩ := hfound.1 desc rfl
      exact .after fun _ => .pure ⟨⟨cs, hS⟩, hdesc⟩

theorem yields_memberDesc : memberDesc.Yields (isDescText · = true) := by
  refine .after fun _ => .after fun mark => ?_
  refine (From.bindYields (from_descriptor? (S := fun _ => True)) fun found cs hfound => ?_).yields
  cases found with
  | none => exact .after fun _ => .failSince _ _
  | some desc => exact .pure (hfound.1 desc rfl).2

theorem yields_member : member.Yields fun m =>
    isSignature m.value = true ∧ InWord memberStop m.value.toList := by
  refine (from_skipTrivia.bind fun _ => from_get.bind fun mark => ?_).yields
  refine (from_requiredUpTo _ _).bindYields fun text cs htext => .after fun _ => .pure ?_
  obtain ⟨hne, ⟨htrivia, -⟩, hin, -⟩ := htext
  exact ⟨isSignature_of_noTrivia htrivia (fun c hc => (hin c hc).1) hne, hin⟩

theorem yields_handleBody : handleBody.Yields fun h =>
    ∀ ref, h.toRef = .ok ref → ref.isSpelled = true := by
  refine .after fun _ => .after fun mark => .after fun tag => .after fun position => ?_
  refine .bind yields_member fun found hfound => .bind yields_memberDesc fun desc hdesc => ?_
  refine .pure fun ref href => ?_
  unfold RawHandle.toRef at href
  split at href
  · cases href
  · obtain ⟨⟨owner, name⟩, hsplit, href⟩ := except_bind_eq_ok.mp href
    cases href
    rw [HandleRef.isSpelled, Bool.and_eq_true, isMember_iff]
    exact ⟨isMember_of_splitMember hsplit hfound.1 hfound.2, hdesc⟩

/-! ## Lists of items -/

theorem yields_repeatUntil {item : Scan (Option α)} {P : α → Prop}
    (h : item.Yields fun found => ∀ a, found = some a → P a) :
    ∀ fuel, (repeatUntil item fuel).Yields fun items => ∀ a ∈ items, P a
  | 0 => .pure fun _ hmem => nomatch hmem
  | fuel + 1 => by
      refine .bind h fun found hfound => ?_
      cases found with
      | none => exact .pure fun _ hmem => nomatch hmem
      | some a =>
          refine .bind (yields_repeatUntil h fuel) fun items hitems => .pure ?_
          exact List.forall_mem_cons.mpr ⟨hfound a rfl, hitems⟩

/-- An item stands where there is no trivia. -/
theorem yields_delimited {item : Scan α} {P : α → Prop} (close : Char)
    (h : From NoTrivia item fun a _ => P a) :
    (delimited close item).Yields fun items => ∀ a ∈ items, P a := by
  refine .after fun c => yields_repeatUntil ?_ _
  refine (from_skipTrivia.bind fun _ => (from_eat close).bind fun closed => ?_).yields
  cases closed with
  | true => exact .of_yields (.pure fun a ha => nomatch ha)
  | false =>
      refine From.bindYields (h.mono (fun cs hcs => (hcs rfl).1) fun _ _ ha => ha) fun a _ ha => ?_
      exact .after fun _ => .after fun _ => .pure fun a' ha' => Option.some.inj ha' ▸ ha

/-- Where an item of a list can stand that `end` closes. -/
structure AtItem (cs : List Char) : Prop where
  ne_nil : cs ≠ []
  noTrivia : NoTrivia cs
  notEnd : sameFolded (keywordOf cs) "end" = false

theorem from_eatEnd : From S eatEnd fun ended cs => ended = false → AtItem cs := by
  refine from_skipTrivia.bind fun _ => from_get.bind fun mark =>
    .ite_prop (fun _ => ?_) fun hne => ?_
  · exact .bind (P := fun _ _ => False) (.fail _) fun _ _ _ _ hfalse => hfalse.elim
  · refine (from_eatKeyword "end").mono (fun _ h => h) fun found cs h hfalse => ?_
    obtain ⟨⟨htrivia, rfl⟩, hend⟩ := h hfalse
    exact ⟨by simpa using hne, htrivia, hend⟩

theorem yields_upToEnd {item : Scan α} {P : α → Prop} (h : From AtItem item fun a _ => P a) :
    (upToEnd item).Yields fun items => ∀ a ∈ items, P a := by
  refine .after fun c => yields_repeatUntil ?_ _
  refine (From.bind (from_eatEnd (S := fun _ => True)) fun ended => ?_).yields
  cases ended with
  | true => exact .of_yields (.pure fun a ha => nomatch ha)
  | false =>
      refine From.bindYields (h.mono (fun cs hcs => hcs rfl) fun _ _ ha => ha) fun a _ ha => ?_
      exact .pure fun a' ha' => Option.some.inj ha' ▸ ha

/-! ## Arguments -/

section Arguments

variable {d : Dialect} {visible : Bool}

theorem isSpelled_type {desc : Located String} {t : Ty} (hdesc : isDescText desc.value = true)
    (ht : Ty.ofDescriptor? desc.value = some t) : (Const.type t).isSpelled = true := by
  have hunbroken := isUnbroken_of_isDescText hdesc
  have heq := (Ty.ofDescriptor?_eq_some_iff.mp ht).2
  rw [heq] at ht hunbroken
  simp [Const.isSpelled, ht, hunbroken]

theorem isSpelled_typeArg {desc : Located String} (hdesc : isDescText desc.value = true)
    (harray : d = .directive ∨ desc.value.toList.head? ≠ some '[') :
    (RawAnnotArg.const (.type desc)).IsSpelled d visible := by
  refine RawAnnotArg.isSpelled_const fun c hc => ?_
  dsimp only [RawConst.toConst] at hc
  split at hc
  · rename_i t ht
    cases hc
    rw [Const.isArgument, isSpelled_type hdesc ht, Bool.true_and, Bool.or_eq_true,
      decide_eq_true_eq]
    refine harray.imp_right fun hhead => ?_
    rw [(Ty.ofDescriptor?_eq_some_iff.mp ht).2] at hhead
    cases t with
    | array t => exact absurd (congrArg List.head? (Ty.toList_descriptor_array t)) hhead
    | prim | object | method => rfl
  · cases hc

theorem isSpelled_literalArg (l : Located RawLiteral) :
    (RawAnnotArg.const (.literal l)).IsSpelled d visible := by
  refine RawAnnotArg.isSpelled_const fun c hc => ?_
  obtain ⟨value, -, hc⟩ := except_bind_eq_ok.mp hc
  cases hc
  rfl

theorem isSpelled_handleArg {h : RawHandle}
    (href : ∀ ref, h.toRef = .ok ref → ref.isSpelled = true) :
    (RawAnnotArg.const (.handle h)).IsSpelled d visible := by
  refine RawAnnotArg.isSpelled_const fun c hc => ?_
  obtain ⟨ref, hh, hc⟩ := except_bind_eq_ok.mp hc
  cases hc
  exact href ref hh

theorem yields_bracketedHandle : bracketedHandle.Yields fun h =>
    ∀ ref, h.toRef = .ok ref → ref.isSpelled = true := by
  refine .after fun _ => .after fun _ => .bind yields_handleBody fun h hh => ?_
  exact .after fun _ => .after fun _ => .pure hh

/-! ### The keyword dialect -/

theorem from_argName? : From NoTrivia argName? fun found _ =>
    ∀ name, found = some name → isArgName .keyword name = true := by
  refine from_get.bind fun mark => (from_upTo argNameStop).bind fun name => ?_
  refine From.bind (P := fun _ _ => name ≠ "" → isArgName .keyword name = true) ?_ fun _ => ?_
  · rintro c a c' ⟨⟨htrivia, -⟩, hin, -⟩ - hne
    exact isWordTo_iff.mpr ⟨isSignature_of_noTrivia htrivia (fun c hc => (hin c hc).1) hne, hin⟩
  · have hback :
        From (fun _ => True) (do set mark; return none : Scan (Option String)) fun found _ =>
          ∀ name, found = some name → isArgName .keyword name = true :=
      .of_yields (.after fun _ => .pure fun _ hnone => nomatch hnone)
    refine .ite_prop (fun hne => ?_) fun _ => hback.mono (fun _ _ => trivial) fun _ _ h => h
    rintro c found c' hname hrun
    have hfound : From (fun _ => True) (do
        if ← eat '=' then return some name
        set mark
        return none : Scan (Option String)) fun found _ =>
          ∀ name, found = some name → isArgName .keyword name = true := by
      refine .of_yields (.after fun closed => .ite (.pure ?_) (hback.yields))
      rintro _ ⟨⟩
      exact hname (by simpa using hne)
    exact hfound c found c' trivial hrun

theorem from_keywordAnnot {arg : Scan RawAnnotArg} (h : arg.Yields (·.IsSpelled .keyword visible)) :
    From NoTrivia (keywordAnnot visible arg) fun raw _ => raw.IsSpelled .keyword visible := by
  refine from_get.bind fun mark => ?_
  refine ((from_wordTo _ _).mono (fun _ h => h.1) fun _ _ h => h).bindYields fun type _ htype => ?_
  refine .after fun _ => .bind (P := fun args => ∀ raw ∈ args, IsSpelledRaw .keyword visible raw)
    (yields_delimited ')' ?_) fun args hargs => .after fun _ => .pure ?_
  · refine from_atEnd.bind fun atEnd => .ite (.bind (P := fun _ _ => False) ?_ ?_) ?_
    · exact fun c a c' _ hrun => nomatch hrun
    · exact fun _ _ _ _ hfalse => hfalse.elim
    · exact from_argName?.bindYields fun name _ hname => .bind h fun raw hraw => .pure ⟨hname, hraw⟩
  · exact RawAnnot.isSpelled_mk (d := .keyword) htype hargs _

theorem yields_keywordList {arg : Scan RawAnnotArg}
    (h : arg.Yields (·.IsSpelled .keyword visible)) :
    (keywordList arg).Yields (·.IsSpelled .keyword visible) := by
  refine .bind (P := fun args => ∀ raw ∈ args, raw.IsSpelled .keyword visible)
    (yields_delimited ']' (.of_yields ?_)) ?_
  · exact .after fun atEnd => .ite (.after fun _ => h) h
  · exact fun args hargs => .pure (RawAnnotArg.isSpelled_list hargs)

theorem yields_keywordEnum : keywordEnum.Yields (·.IsSpelled .keyword visible) := by
  refine .after fun _ => .after fun _ => .bind (yields_requiredWord _) fun type htype => ?_
  refine (from_skipTrivia.bind fun _ => (from_wordTo _ _).bindYields fun name _ hname => ?_).yields
  exact .after fun _ => .pure (RawAnnotArg.isSpelled_enum htype hname)

/-- A value stands where there is no bracket, so it is no array type. -/
theorem from_keywordValue {arg : Scan RawAnnotArg} (h : arg.Yields (·.IsSpelled .keyword visible)) :
    From (fun cs => NoTrivia cs ∧ cs.head? ≠ some '[') (keywordValue visible arg)
      fun raw _ => raw.IsSpelled .keyword visible := by
  refine from_atLiteral.bind fun literal => .ite ?_ ?_
  · exact .of_yields (.after fun l => .pure (isSpelled_literalArg l))
  refine from_peekWord.bind fun head => .ite ?_ (.ite ?_ (.ite ?_ ?_))
  · exact .of_yields (.bind yields_bracketedHandle fun h hh => .pure (isSpelled_handleArg hh))
  · exact .of_yields yields_keywordEnum
  · refine .of_yields (.after fun _ => .after fun _ => ?_)
    refine (from_skipTrivia.bind fun _ => ?_).yields
    refine (from_keywordAnnot h).bindYields fun nested _ hnested => ?_
    exact .after fun _ => .after fun _ => .pure (RawAnnotArg.isSpelled_annot hnested)
  · -- no test before this one has moved on, so the type stands where there was no bracket
    refine (from_typeConstant from_skipTrivia_none).bindYields fun desc _ hdesc => .pure ?_
    obtain ⟨⟨rest, -, hhead⟩, hdesc⟩ := hdesc
    refine isSpelled_typeArg hdesc (Or.inr fun h => hhead ?_)
    rw [List.head?_append, h]
    rfl

theorem yields_keywordAnnotArg :
    ∀ depth, (keywordAnnotArg visible depth).Yields (·.IsSpelled .keyword visible)
  | 0 => .fail _
  | depth + 1 => by
      have ih := yields_keywordAnnotArg depth
      rw [keywordAnnotArg_succ]
      refine (from_skipTrivia.bind fun _ => (from_eat '[').bind fun found => ?_).yields
      cases found with
      | true => exact .of_yields (yields_keywordList ih)
      | false => exact (from_keywordValue ih).mono (fun cs hcs => hcs rfl) fun _ _ h => h

/-! ### The directive dialect -/

/-- A name that is read where an argument can stand is not the end of the list. -/
theorem from_argWord : From AtItem word fun name _ => isArgName .directive name = true := by
  refine (from_upTo _).mono (fun _ h => h) ?_
  rintro name cs ⟨hitem, hin, hends⟩
  have hkeyword : keywordOf (name.toList ++ cs) = keywordOf name.toList := by
    cases cs with
    | nil => rw [List.append_nil]
    | cons c cs =>
        have hblank : isBlank c = true := by simpa [EndsWord] using hends
        exact keywordOf_append _ hblank
  have hne : name ≠ "" := by
    rintro rfl
    have hblank := hitem.noTrivia.blank
    cases cs with
    | nil => exact hitem.ne_nil rfl
    | cons c cs =>
        have hc : isBlank c = false := hblank
        simp [EndsWord, hc] at hends
  have hsignature := isSignature_of_noTrivia hitem.noTrivia (fun c hc => (hin c hc).1) hne
  have hend := hitem.notEnd
  rw [hkeyword] at hend
  simp [isArgName, hsignature, hend]

theorem yields_directiveAnnot {arg : Scan RawAnnotArg}
    (h : arg.Yields (·.IsSpelled .directive visible)) :
    (directiveAnnot visible arg).Yields (·.IsSpelled .directive visible) := by
  refine .after fun mark => .bind (yields_requiredWord _) fun type htype => ?_
  refine .bind (P := fun args => ∀ raw ∈ args, IsSpelledRaw .directive visible raw)
    (yields_upToEnd ?_) ?_
  · refine from_argWord.bindYields fun name _ hname => .bind h fun raw hraw => .pure ⟨?_, hraw⟩
    rintro _ ⟨⟩
    exact hname
  · exact fun args hargs => .after fun _ =>
      .pure (RawAnnot.isSpelled_mk (d := .directive) htype hargs _)

theorem yields_directiveValue {arg : Scan RawAnnotArg}
    (h : arg.Yields (·.IsSpelled .directive visible)) (mark : Cursor) (head : String) :
    (directiveValue visible arg mark head).Yields (·.IsSpelled .directive visible) := by
  unfold directiveValue
  split
  · refine ((from_typeConstant from_skipTrivia).bindYields fun desc _ hdesc => ?_).yields
    exact .pure (isSpelled_typeArg hdesc.2 (Or.inl rfl))
  · exact .bind yields_handleBody fun h hh => .pure (isSpelled_handleArg hh)
  · exact .bind (yields_requiredWord _) fun type htype => .bind (yields_requiredWord _)
      fun name hname => .pure (RawAnnotArg.isSpelled_enum htype hname)
  · exact .bind (yields_directiveAnnot h) fun nested hnested =>
      .pure (RawAnnotArg.isSpelled_annot hnested)
  · refine .bind (yields_upToEnd (.of_yields h)) fun args hargs => ?_
    exact .pure (RawAnnotArg.isSpelled_list hargs)
  · exact .failSince _ _

theorem yields_directiveAnnotArg :
    ∀ depth, (directiveAnnotArg visible depth).Yields (·.IsSpelled .directive visible)
  | 0 => .fail _
  | depth + 1 => by
      have ih := yields_directiveAnnotArg depth
      rw [directiveAnnotArg_succ]
      refine .after fun literal => .ite ?_ ?_
      · exact .after fun l => .pure (isSpelled_literalArg l)
      · exact .after fun mark => .after fun head => yields_directiveValue ih mark head

theorem yields_annot (d : Dialect) (visible : Bool) :
    (annot d visible).Yields (·.IsSpelled d visible) := by
  refine .after fun c => ?_
  cases d with
  | keyword =>
      exact (from_skipTrivia.bind fun _ => from_keywordAnnot (yields_keywordAnnotArg _)).yields
  | directive => exact yields_directiveAnnot (yields_directiveAnnotArg _)

end Arguments

end Scan

/-! ## Readable annotations -/

/-- An annotation has the visibility that its parts are tested for. -/
theorem Annot.isSpelled_of_all {d : Dialect} {visible : Bool} {a : Annot}
    (h : a.all (spelledTest d visible) = true) : a.isSpelled d = true := by
  obtain ⟨v, type, args, position⟩ := a
  obtain rfl : v = visible := (spelledTest_annot_iff.mp (all_mk_iff.mp h).1).1
  exact h

theorem Const.isReadable_of_isArgument {d : Dialect} {c : Const HandleRef}
    (h : c.isArgument d = true) : c.isReadable d = true := by
  cases c with
  | literal l => rfl
  | type t =>
      simp only [isArgument, isSpelled, Bool.and_eq_true] at h
      rw [isReadable, h.1.2, h.2]
      rfl
  | handle handle =>
      have h : (isMember handle.owner handle.name && isDescText handle.desc) = true := h
      obtain ⟨hmember, hdesc⟩ := Bool.and_eq_true_iff.mp h
      rw [isReadable, hmember, isUnbroken_of_isDescText hdesc]
      rfl

theorem sameFolded_of_isArgName {name : String} (h : isArgName .directive name = true) :
    sameFolded name "end" = false := by
  simp only [isArgName, Bool.and_eq_true, Bool.not_eq_true'] at h
  obtain ⟨hsignature, hend⟩ := h
  rw [Bool.eq_false_iff]
  intro hfolded
  -- such a name has no bracket in it, so all of it is compared with the word
  have hparen : InWord (· = '(') name.toList := by
    intro c hc
    refine ⟨((isSignature_iff.mp hsignature).2.1 c hc).1, decide_eq_false ?_⟩
    rintro rfl
    rw [sameFolded, beq_iff_eq] at hfolded
    have hmem := hfolded ▸ List.mem_map_of_mem (f := Char.toLower) hc
    exact absurd hmem (by decide)
  rw [Scan.keywordOf_self hparen, hfolded] at hend
  cases hend

/-- What can be written can be told apart from what else could be. -/
theorem Annot.isReadable_of_isSpelled {d : Dialect} {a : Annot} (h : a.isSpelled d = true) :
    a.isReadable d = true := by
  have hsteps : ∀ visible, AnnotSteps
      (fun a => a.all (spelledTest d visible) = true → a.all (readableTest d) = true)
      (fun arg => arg.all (spelledTest d visible) = true → arg.all (readableTest d) = true) := by
    intro visible
    constructor
    case node =>
      intro v type args position ih hspelled
      obtain ⟨hannot, hargs⟩ := all_mk_iff.mp hspelled
      obtain ⟨-, -, hnames, -⟩ := spelledTest_annot_iff.mp hannot
      refine all_mk_iff.mpr ⟨?_, fun x hx => ih x hx (hargs x hx)⟩
      cases d with
      | keyword => rfl
      | directive =>
          have hends : ∀ name ∈ args.map Prod.fst, sameFolded name "end" = false :=
            fun name hname => sameFolded_of_isArgName (hnames name hname)
          simpa [readableTest] using hends
    case const => exact fun c => Const.isReadable_of_isArgument
    case enum => exact fun type name _ => rfl
    case annot => exact fun a ih => ih
    case list =>
      intro args ih hspelled
      exact AnnotArg.all_list_iff.mpr fun arg harg =>
        ih arg harg (AnnotArg.all_list_iff.mp hspelled arg harg)
  exact (hsteps a.visible).holds a h

end JvmListing
