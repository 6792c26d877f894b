/-
# Loose text

Three kinds of entries are text and nothing else: comments, embedded expressions, and
words that were not recognised.  An expression and unmatched words are words with blanks
between them (`WordsOf`), and the search for a closing word goes through them one by one.

* `upToWord?_append`: words that are not the closing word are passed.
* `exists_words_of_upToWord?`: what stands before a closing word is such words.
* `commentLength?_append`: a comment that a line break ends is ended by it whatever follows.
-/
import JvmListing.Proofs.ReadAnnots

namespace JvmListing

open Lexeme

/-! ## Words -/

/-- Is it a word between blanks? -/
structure StandsAlone (w : String) : Prop where
  ne_empty : w ≠ ""
  inWord : InWord (fun _ => false) w.toList

theorem StandsAlone.of_isSignature {w : String} (h : isSignature w = true) : StandsAlone w :=
  ⟨(isSignature_iff.mp h).1, (isSignature_iff.mp h).2.1⟩

theorem StandsAlone.length_pos {w : String} (h : StandsAlone w) : 0 < w.toList.length :=
  List.length_pos_of_ne_nil fun hnil => h.ne_empty (String.toList_eq_nil_iff.mp hnil)

theorem StandsAlone.exists_cons {w : String} (h : StandsAlone w) :
    ∃ c cs, w.toList = c :: cs ∧ isBlank c = false := by
  obtain ⟨c, cs, hw⟩ := List.exists_cons_of_length_pos h.length_pos
  exact ⟨c, cs, hw, (h.inWord c (hw ▸ List.mem_cons_self)).1⟩

def AllBlank (cs : List Char) : Prop := ∀ c ∈ cs, isBlank c = true

theorem AllBlank.append {cs ds : List Char} (h : AllBlank cs) (h' : AllBlank ds) :
    AllBlank (cs ++ ds) := by
  intro c hc
  rcases List.mem_append.mp hc with hc | hc
  · exact h c hc
  · exact h' c hc

theorem AllBlank.atBlank {blanks : List Char} (h : AllBlank blanks) (hne : blanks ≠ [])
    (rest : List Char) : AtBlank (blanks ++ rest) := by
  obtain ⟨c, cs, rfl⟩ := List.exists_cons_of_ne_nil hne
  exact h c List.mem_cons_self

/-- Words with blanks between them, each of which satisfies `P`. -/
inductive WordsOf (P : String → Prop) : List Char → Prop
  | word {w : String} (h : P w) : WordsOf P w.toList
  | more {w : String} {blanks rest : List Char} (h : P w) (hne : blanks ≠ [])
      (hblanks : AllBlank blanks) (hrest : WordsOf P rest) :
      WordsOf P (w.toList ++ (blanks ++ rest))

namespace WordsOf

variable {P Q : String → Prop} {text : List Char}

theorem imp (h : WordsOf P text) (hPQ : ∀ w, P w → Q w) : WordsOf Q text := by
  induction h with
  | word h => exact .word (hPQ _ h)
  | more h hne hblanks _ ih => exact .more (hPQ _ h) hne hblanks ih

theorem append {xs ys blanks : List Char} (hx : WordsOf P xs) (hne : blanks ≠ [])
    (hblanks : AllBlank blanks) (hy : WordsOf P ys) : WordsOf P (xs ++ (blanks ++ ys)) := by
  induction hx with
  | word h => exact .more h hne hblanks hy
  | more h hne' hblanks' _ ih =>
      rw [List.append_assoc, List.append_assoc]
      exact .more h hne' hblanks' ih

/-- The text starts with one of the words. -/
theorem exists_append (h : WordsOf P text) :
    ∃ w tail, text = w.toList ++ tail ∧ (tail = [] ∨ AtBlank tail) ∧ P w := by
  cases h with
  | word h => exact ⟨_, [], (List.append_nil _).symm, Or.inl rfl, h⟩
  | more h hne hblanks _ => exact ⟨_, _, rfl, Or.inr (hblanks.atBlank hne _), h⟩

theorem exists_cons (h : WordsOf P text) (hP : ∀ w, P w → StandsAlone w) :
    ∃ c cs, text = c :: cs ∧ isBlank c = false := by
  obtain ⟨w, tail, rfl, -, hw⟩ := h.exists_append
  obtain ⟨c, cs, hcs, hc⟩ := (hP w hw).exists_cons
  exact ⟨c, cs ++ tail, by rw [hcs]; rfl, hc⟩

theorem exists_concat (h : WordsOf P text) (hP : ∀ w, P w → StandsAlone w) :
    ∃ cs c, text = cs ++ [c] ∧ isBlank c = false := by
  induction h with
  | @word w h =>
      obtain ⟨c, cs, hw, -⟩ := (hP w h).exists_cons
      have hne : w.toList ≠ [] := by simp [hw]
      refine ⟨_, _, (List.dropLast_concat_getLast hne).symm, ?_⟩
      exact ((hP w h).inWord _ (List.getLast_mem hne)).1
  | @more w blanks rest _ _ _ _ ih =>
      obtain ⟨cs, c, rfl, hc⟩ := ih
      exact ⟨w.toList ++ (blanks ++ cs), c, by simp, hc⟩

end WordsOf

/-- Blanks at both ends of words are trimmed. -/
theorem trimBlanks_append {before text after : List Char} (hbefore : AllBlank before)
    (hafter : AllBlank after)
    (htext : text = [] ∨ WordsOf StandsAlone text) :
    trimBlanks (before ++ (text ++ after)) = text := by
  have hdrop : ∀ {blanks : List Char}, AllBlank blanks → blanks.dropWhile isBlank = [] :=
    fun h => List.dropWhile_eq_nil_iff.mpr h
  have hreverse : AllBlank after.reverse := fun c hc => hafter c (List.mem_reverse.mp hc)
  rw [trimBlanks, List.dropWhile_append_of_pos hbefore]
  rcases htext with rfl | htext
  · rw [List.nil_append, hdrop hafter]
    rfl
  · obtain ⟨c, cs, hcons, hc⟩ := htext.exists_cons fun _ h => h
    obtain ⟨ds, x, hconcat, hx⟩ := htext.exists_concat fun _ h => h
    have hfirst : (text ++ after).dropWhile isBlank = text ++ after := by
      rw [hcons]
      exact List.dropWhile_cons_of_neg (by simp [hc])
    have hlast : text.reverse.dropWhile isBlank = text.reverse := by
      rw [hconcat, List.reverse_append]
      exact List.dropWhile_cons_of_neg (by simp [hx])
    rw [hfirst, List.reverse_append, List.dropWhile_append_of_pos hreverse, hlast,
      List.reverse_reverse]

/-! ## Closing words -/

section Closing

variable {closing : String}

/-- A word of a text in which a closing word is looked for. -/
structure Passes (closing w : String) : Prop where
  alone : StandsAlone w
  folded : sameFolded w closing = false

theorem upToWord?_blanks {blanks : List Char} (h : AllBlank blanks) (fuel : Nat) :
    upToWord? closing fuel blanks = none := by
  cases fuel with
  | zero => rfl
  | succ fuel =>
      have hlength : blanksLength blanks = blanks.length := by
        have hnone : ([] : List Char).head?.any isBlank = false := rfl
        have := blanksLength_append h hnone
        rwa [List.append_nil] at this
      rw [upToWord?, hlength, List.drop_length]
      rfl

/-- The search at a word: either it is the closing word or the search goes on after it. -/
theorem upToWord?_word {w : String} (hw : StandsAlone w) {blanks rest : List Char}
    (hblanks : AllBlank blanks) (hrest : EndsWord (fun _ => false) rest) (fuel : Nat) :
    upToWord? closing (fuel + 1) (blanks ++ (w.toList ++ rest))
      = if sameFolded w closing then some (blanks.length, blanks.length + w.toList.length)
        else (upToWord? closing fuel rest).map fun (before, through) =>
          (blanks.length + w.toList.length + before,
            blanks.length + w.toList.length + through) := by
  obtain ⟨c, cs, hcs, hc⟩ := hw.exists_cons
  have hblank : (w.toList ++ rest).head?.any isBlank = false := by simp [hcs, hc]
  have hempty : (w.toList ++ rest).isEmpty = false := by simp [hcs]
  simp only [upToWord?, blanksLength_append hblanks hblank, List.drop_left, hempty,
    wordLength_append hw.inWord hrest, List.take_left, String.ofList_toList, Bool.false_eq_true,
    if_false]

/-- Words that are not the closing word are passed. -/
theorem upToWord?_append {text rest : List Char} (h : WordsOf (Passes closing) text)
    (hrest : AtBlank rest) :
    ∀ {blanks : List Char} {fuel : Nat}, AllBlank blanks → text.length < fuel →
    ∃ more, 0 < more ∧ upToWord? closing fuel (blanks ++ (text ++ rest))
      = (upToWord? closing more rest).map fun (before, through) =>
        (blanks.length + text.length + before, blanks.length + text.length + through) := by
  induction h with
  | @word w h =>
      intro blanks fuel hblanks hfuel
      obtain ⟨fuel, rfl⟩ : ∃ n, fuel = n + 1 := Nat.exists_eq_succ_of_ne_zero (by omega)
      have hpos := h.alone.length_pos
      refine ⟨fuel, by omega, ?_⟩
      rw [upToWord?_word h.alone hblanks (hrest.endsWord _), h.folded]
      rfl
  | @more w gap text h hne hgap _ ih =>
      intro blanks fuel hblanks hfuel
      obtain ⟨fuel, rfl⟩ : ∃ n, fuel = n + 1 := Nat.exists_eq_succ_of_ne_zero (by omega)
      have hpos := h.alone.length_pos
      simp only [List.length_append] at hfuel
      have hless : text.length < fuel := by omega
      obtain ⟨more, hmore, heq⟩ := ih hgap hless
      refine ⟨more, hmore, ?_⟩
      rw [List.append_assoc, List.append_assoc,
        upToWord?_word h.alone hblanks ((hgap.atBlank hne _).endsWord _), h.folded, heq]
      simp only [Bool.false_eq_true, if_false, Option.map_map, List.length_append]
      congr 1
      funext r
      simp only [Function.comp_apply, Prod.mk.injEq]
      omega

/-- Where no closing word is found, no word is one. -/
theorem WordsOf.passes_of_upToWord? {P : String → Prop} {text : List Char} (h : WordsOf P text)
    (hP : ∀ w, P w → StandsAlone w) : ∀ {blanks : List Char} {fuel : Nat}, AllBlank blanks →
    text.length < fuel → upToWord? closing fuel (blanks ++ text) = none →
    WordsOf (fun w => P w ∧ sameFolded w closing = false) text := by
  have hfolded : ∀ {w : String} {a : Nat × Nat} {b : Option (Nat × Nat)},
      (if sameFolded w closing = true then some a else b) = none →
        sameFolded w closing = false ∧ b = none := by
    intro w a b heq
    split at heq
    · cases heq
    · rename_i hne
      exact ⟨Bool.eq_false_iff.mpr hne, heq⟩
  induction h with
  | @word w h =>
      intro blanks fuel hblanks hfuel hnone
      obtain ⟨fuel, rfl⟩ : ∃ n, fuel = n + 1 := Nat.exists_eq_succ_of_ne_zero (by omega)
      have hend : EndsWord (fun _ => false) [] := rfl
      rw [← List.append_nil w.toList, upToWord?_word (hP w h) hblanks hend] at hnone
      exact .word ⟨h, (hfolded hnone).1⟩
  | @more w gap text h hne hgap _ ih =>
      intro blanks fuel hblanks hfuel hnone
      obtain ⟨fuel, rfl⟩ : ∃ n, fuel = n + 1 := Nat.exists_eq_succ_of_ne_zero (by omega)
      have hpos := (hP w h).length_pos
      simp only [List.length_append] at hfuel
      rw [upToWord?_word (hP w h) hblanks ((hgap.atBlank hne _).endsWord _)] at hnone
      obtain ⟨hw, hnone⟩ := hfolded hnone
      exact .more ⟨h, hw⟩ hne hgap (ih hgap (by omega) (Option.map_eq_none_iff.mp hnone))

theorem allBlank_take (cs : List Char) : AllBlank (cs.take (blanksLength cs)) := by
  intro c hc
  rw [blanksLength, spanLength, ← List.prefix_iff_eq_take.mp (List.takeWhile_prefix _)] at hc
  exact List.mem_takeWhile_imp hc

/-- A text is blank, or it starts with a word after blanks. -/
theorem allBlank_or_exists_word (cs : List Char) : AllBlank cs ∨ ∃ blanks w rest,
    cs = blanks ++ (w.toList ++ rest) ∧ AllBlank blanks ∧ StandsAlone w
      ∧ EndsWord (fun _ => false) rest := by
  have hblanks := allBlank_take cs
  have hcs := List.take_append_drop (blanksLength cs) cs
  have hhead : (cs.drop (blanksLength cs)).head?.any isBlank = false :=
    head_drop_spanLength isBlank cs
  generalize cs.drop (blanksLength cs) = rest at hcs hhead
  cases rest with
  | nil =>
      left
      rw [← hcs, List.append_nil]
      exact hblanks
  | cons c rest =>
      right
      have hc : isBlank c = false := hhead
      obtain ⟨hin, hends⟩ := word_append (fun _ => false) (c :: rest)
      refine ⟨_, String.ofList ((c :: rest).take (wordLength (fun _ => false) (c :: rest))), _, ?_,
        hblanks, ⟨?_, ?_⟩, hends⟩
      · rw [String.toList_ofList, List.take_append_drop, hcs]
      · obtain ⟨tail, htail⟩ :=
          Scan.take_wordLength_cons (fun _ => false) rest (c := c) (by simp [hc])
        rw [htail]
        exact fun hempty => by simpa using congrArg String.toList hempty
      · rw [String.toList_ofList]
        exact hin

/-- What stands before a closing word is words that are not, with blanks around them. -/
theorem exists_words_of_upToWord? : ∀ {fuel : Nat} {cs : List Char} {before through : Nat},
    upToWord? closing fuel cs = some (before, through) → ∃ left text right,
      cs.take before = left ++ (text ++ right) ∧ AllBlank left ∧ AllBlank right
        ∧ (text = [] ∨ WordsOf (Passes closing) text)
  | fuel + 1, cs, before, through, h => by
      rcases allBlank_or_exists_word cs with hcs | ⟨blanks, w, rest, rfl, hblanks, hw, hrest⟩
      · rw [upToWord?_blanks hcs] at h
        cases h
      · rw [upToWord?_word hw hblanks hrest] at h
        split at h
        · obtain ⟨rfl, -⟩ := Prod.mk.inj (Option.some.inj h)
          refine ⟨blanks, [], [], ?_, hblanks, List.forall_mem_nil _, Or.inl rfl⟩
          rw [List.take_left]
          simp
        · rename_i hfolded
          obtain ⟨⟨before', through'⟩, hfound, heq⟩ := Option.map_eq_some_iff.mp h
          obtain ⟨rfl, -⟩ := Prod.mk.inj heq
          have hpasses : Passes closing w := ⟨hw, Bool.eq_false_iff.mpr hfolded⟩
          obtain ⟨left, text, right, hbefore, hleft, hright, htext⟩ :=
            exists_words_of_upToWord? hfound
          have htake :
              (blanks ++ (w.toList ++ rest)).take (blanks.length + w.toList.length + before')
                = blanks ++ (w.toList ++ (left ++ (text ++ right))) := by
            rw [Nat.add_assoc, List.take_length_add_append, List.take_length_add_append, hbefore]
          rcases htext with rfl | htext
          · refine ⟨blanks, w.toList, left ++ right, by simpa using htake, hblanks,
              hleft.append hright, Or.inr (.word hpasses)⟩
          · refine ⟨blanks, w.toList ++ (left ++ text), right, by simpa using htake,
              hblanks, hright, Or.inr (.more hpasses ?_ hleft htext)⟩
            -- without blanks in front the next word would belong to this one
            rintro rfl
            obtain ⟨c, cs, rfl, hc⟩ := htext.exists_cons fun _ h => h.alone
            have hhead : rest.head? = some c := by
              rw [← List.take_append_drop before' rest, hbefore]
              rfl
            rw [EndsWord, hhead] at hrest
            simp [hc] at hrest

end Closing

/-! ## Comments -/

theorem blockLength_append : ∀ {cs : List Char} (rest : List Char),
    blockLength (cs ++ ['\n']) = cs.length → blockLength (cs ++ '\n' :: rest) = cs.length
  | [], rest, h => nomatch h
  | c :: cs, rest, h => by
      by_cases hclose : ∃ tail, c = '*' ∧ cs = '/' :: tail
      · obtain ⟨tail, rfl, rfl⟩ := hclose
        exact h
      · -- the line break after the text does not complete the end of the comment
        have hstep : ∀ more : List Char,
            blockLength (c :: (cs ++ '\n' :: more)) = blockLength (cs ++ '\n' :: more) + 1 := by
          intro more
          rw [blockLength]
          intro tail hc htail
          refine hclose ?_
          cases cs with
          | nil => cases htail
          | cons x cs =>
              obtain ⟨rfl, -⟩ := List.cons.inj htail
              exact ⟨cs, hc, rfl⟩
        rw [List.cons_append, hstep, List.length_cons, Nat.add_right_cancel_iff] at h ⊢
        exact blockLength_append rest h

/-- A comment that the line break after it ends is ended by it, whatever follows. -/
theorem commentLength?_append {cs : List Char}
    (h : commentLength? (cs ++ ['\n']) = some cs.length) (rest : List Char) :
    commentLength? (cs ++ '\n' :: rest) = some cs.length := by
  have hopening : ∀ {x : Char} {tail : List Char}, x ≠ '\n' → cs ++ ['\n'] = '/' :: x :: tail →
      ∃ body, cs = '/' :: x :: body ∧ tail = body ++ ['\n'] := by
    intro x tail hx heq
    rcases cs with _ | ⟨a, _ | ⟨b, body⟩⟩
    · simp at heq
    · simp [hx.symm] at heq
    · simp only [List.cons_append, List.cons.injEq] at heq
      exact ⟨body, by rw [heq.1, heq.2.1], heq.2.2.symm⟩
  unfold commentLength? at h
  split at h
  · rename_i heq
    obtain ⟨body, rfl, rfl⟩ := hopening (by decide) heq
    have hspan : ∀ more : List Char, spanLength (· ≠ '\n') (body ++ '\n' :: more)
        = spanLength (· ≠ '\n') (body ++ ['\n']) := by
      intro more
      simp [spanLength, List.takeWhile_append]
    rw [← h, ← hspan rest]
    rfl
  · rename_i heq
    obtain ⟨body, rfl, rfl⟩ := hopening (by decide) heq
    have hlength : 2 + blockLength (body ++ ['\n']) = body.length + 2 := Option.some.inj h
    have hline : blockLength (body ++ ['\n']) = body.length := by omega
    have hblock := blockLength_append rest hline
    show some (2 + blockLength (body ++ '\n' :: rest)) = _
    rw [hblock, List.length_cons, List.length_cons, Nat.add_comm]
  · cases h

/-! ## Statements -/

/-- A word that starts no construct of the dialect, `end` apart. -/
structure IsStray (d : Dialect) (w : String) : Prop where
  signature : isSignature w = true
  head : Head.ofWord? d w = none
  label : declaredLabel? w = none
  mnemonic : Opcode.ofMnemonic? w = none

theorem IsStray.alone {d : Dialect} {w : String} (h : IsStray d w) : StandsAlone w :=
  .of_isSignature h.signature

/-- Can the parts of the entry stand where the dialect writes them? -/
def Statement.Spelled (d : Dialect) : Statement → Prop
  | .operation o => o.isSpelled d = true
  | .label name => name ≠ "" ∧ isSignature (name ++ ":") = true
  | .tryCatch start stop handler caught => isSignature start = true ∧ isSignature stop = true
      ∧ isSignature handler = true ∧ isCaught d caught = true
  | .throws type => isSignature type = true
  | .signature s => isSignature s = true
  | .value _ => True
  | .annot a => a.isSpelled d = true
  | .comment _ => True
  | .unmatched text => WordsOf (IsStray d) text.toList
  | .expression code => code = "" ∨ WordsOf (Passes (Scan.expressionEnd d)) code.toList

end JvmListing
