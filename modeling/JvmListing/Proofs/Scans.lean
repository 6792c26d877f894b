/-
# Scans of written text

`Scan.Reads s before P after` says what a scan does to a text: at every cursor
that has `before` in front of it, the scan `s` succeeds, what it gives satisfies
`P`, and `after` is left.  Positions do not occur in it, so a fact about a piece
of text holds wherever the piece stands.  There is one rule for sequences of scans
and one lemma for each scan that the others are made of.  `Scan.Fails s before` says
that the scan breaks off.
-/
import JvmListing.Proofs.Lexemes

namespace JvmListing

open Lexeme

namespace Scan

variable {α β : Type}

def Reads (s : Scan α) (before : List Char) (P : α → Prop) (after : List Char) : Prop :=
  ∀ c : Cursor, c.rest = before → ∃ a c', s c = .ok (a, c') ∧ P a ∧ c'.rest = after

namespace Reads

variable {s : Scan α} {before middle after : List Char} {P Q : α → Prop}

theorem pure {a : α} (h : P a) (before : List Char) :
    (Pure.pure a : Scan α).Reads before P before :=
  fun c hc => ⟨a, c, rfl, h, hc⟩

theorem pure_eq (a : α) (before : List Char) :
    (Pure.pure a : Scan α).Reads before (· = a) before :=
  fun c hc => ⟨a, c, rfl, rfl, hc⟩

theorem bind {k : α → Scan β} {R : β → Prop} (hs : s.Reads before P middle)
    (hk : ∀ a, P a → (k a).Reads middle R after) : (s >>= k).Reads before R after := by
  intro c hc
  obtain ⟨a, c₁, hrun, ha, hc₁⟩ := hs c hc
  obtain ⟨b, c₂, hrun', hb, hc₂⟩ := hk a ha c₁ hc₁
  refine ⟨b, c₂, ?_, hb, hc₂⟩
  show (s c >>= fun p => k p.1 p.2) = _
  rw [hrun]
  exact hrun'

theorem mono (hs : s.Reads before P after) (h : ∀ a, P a → Q a) : s.Reads before Q after := by
  intro c hc
  obtain ⟨a, c', hrun, ha, hc'⟩ := hs c hc
  exact ⟨a, c', hrun, h a ha, hc'⟩

/-- What a scan leaves to the rest of a sequence. -/
theorem run (β : Type)
    (hs : s.Reads before P after) {c : Cursor} (hc : c.rest = before) :
    ∃ a c', P a ∧ c'.rest = after ∧ ∀ k : α → Scan β, (s >>= k) c = k a c' := by
  obtain ⟨a, c', hrun, ha, hc'⟩ := hs c hc
  refine ⟨a, c', ha, hc', fun k => ?_⟩
  show (s c >>= fun r => k r.1 r.2) = _
  rw [hrun]
  rfl

end Reads

/-- The scan fails at every cursor that has `before` in front of it. -/
def Fails (s : Scan α) (before : List Char) : Prop :=
  ∀ c : Cursor, c.rest = before → ∃ e, s c = .error e

theorem Fails.bind {s : Scan α} {before : List Char} (hs : s.Fails before) (k : α → Scan β) :
    (s >>= k).Fails before := by
  intro c hc
  obtain ⟨e, hrun⟩ := hs c hc
  refine ⟨e, ?_⟩
  show (s c >>= fun p => k p.1 p.2) = _
  rw [hrun]
  rfl

theorem Reads.bind_fails {s : Scan α} {before middle : List Char} {P : α → Prop} {k : α → Scan β}
    (hs : s.Reads before P middle) (hk : ∀ a, P a → (k a).Fails middle) :
    (s >>= k).Fails before := by
  intro c hc
  obtain ⟨a, c', hrun, ha, hc'⟩ := hs c hc
  obtain ⟨e, hfail⟩ := hk a ha c' hc'
  refine ⟨e, ?_⟩
  show (s c >>= fun p => k p.1 p.2) = _
  rw [hrun]
  exact hfail

/-! ## Cursors -/

theorem reads_get (cs : List Char) : (get : Scan Cursor).Reads cs (·.rest = cs) cs :=
  fun c hc => ⟨c, c, rfl, hc, hc⟩

theorem reads_set (mark : Cursor) (cs : List Char) :
    (set mark : Scan PUnit).Reads cs (fun _ => True) mark.rest :=
  fun _ _ => ⟨⟨⟩, mark, rfl, trivial, rfl⟩

theorem reads_since (mark : Cursor) (cs : List Char) :
    (since mark).Reads cs (fun _ => True) cs :=
  fun c hc => ⟨_, c, rfl, trivial, hc⟩

/-- The end of a part: what it gives, with the range from a mark to here. -/
theorem reads_placed {f : Position → α} {P : α → Prop} (mark : Cursor)
    (h : ∀ position, P (f position)) (cs : List Char) :
    (since mark >>= fun position => Pure.pure (f position)).Reads cs P cs :=
  (reads_since mark cs).bind fun position _ => Reads.pure (h position) cs

theorem reads_take (cs rest : List Char) :
    (take cs.length).Reads (cs ++ rest) (· = String.ofList cs) rest := by
  intro c hc
  refine ⟨_, _, rfl, ?_, ?_⟩
  · rw [hc, List.take_left]
  · rw [Cursor.rest_advance, hc, List.drop_left]

theorem reads_atEnd (cs : List Char) : atEnd.Reads cs (· = cs.isEmpty) cs :=
  fun c hc => ⟨_, c, rfl, by rw [hc], hc⟩

theorem reads_peek? (cs : List Char) : peek?.Reads cs (· = cs.head?) cs :=
  fun c hc => ⟨_, c, rfl, by rw [hc], hc⟩

theorem reads_eat (x : Char) (rest : List Char) : (eat x).Reads (x :: rest) (· = true) rest := by
  intro c hc
  refine ⟨true, c.advance 1, ?_, rfl, ?_⟩
  · rw [eat, hc]
    simp
  · rw [Cursor.rest_advance, hc]
    rfl

theorem reads_eat_none {x : Char} {cs : List Char} (h : cs.head? ≠ some x) :
    (eat x).Reads cs (· = false) cs := by
  intro c hc
  refine ⟨false, c, ?_, rfl, hc⟩
  rw [eat, hc, if_neg h]

theorem reads_expect (x : Char) (rest : List Char) :
    (expect x).Reads (x :: rest) (fun _ => True) rest := by
  unfold expect
  refine (reads_eat x rest).bind ?_
  rintro _ rfl
  exact Reads.pure trivial rest

/-! ## Blanks -/

/-- Is there nothing but blanks in front of `after`? -/
def BlanksTo (before after : List Char) : Prop :=
  ∃ blanks, (∀ c ∈ blanks, isBlank c = true) ∧ before = blanks ++ after

theorem BlanksTo.refl (cs : List Char) : BlanksTo cs cs := ⟨[], by simp, rfl⟩

theorem BlanksTo.space (cs : List Char) : BlanksTo (' ' :: cs) cs :=
  ⟨[' '], List.forall_mem_singleton.mpr rfl, rfl⟩

theorem BlanksTo.newline (cs : List Char) : BlanksTo ('\n' :: cs) cs :=
  ⟨['\n'], List.forall_mem_singleton.mpr rfl, rfl⟩

theorem BlanksTo.trans {before middle after : List Char} (h : BlanksTo before middle)
    (h' : BlanksTo middle after) : BlanksTo before after := by
  obtain ⟨blanks, hblanks, rfl⟩ := h
  obtain ⟨more, hmore, rfl⟩ := h'
  refine ⟨blanks ++ more, fun c hc => ?_, (List.append_assoc ..).symm⟩
  exact (List.mem_append.mp hc).elim (hblanks c) (hmore c)

theorem BlanksTo.length_le {before after : List Char} (h : BlanksTo before after) :
    after.length ≤ before.length := by
  obtain ⟨blanks, -, rfl⟩ := h
  rw [List.length_append]
  omega

theorem reads_skipBlanks {before cs : List Char} (h : BlanksTo before cs)
    (hcs : cs.head?.any isBlank = false) : skipBlanks.Reads before (fun _ => True) cs := by
  obtain ⟨blanks, hblanks, rfl⟩ := h
  intro c hc
  refine ⟨(), _, rfl, trivial, ?_⟩
  rw [Cursor.rest_advance, hc, blanksLength_append hblanks hcs, List.drop_left]

theorem reads_skipTrivia {before cs : List Char} (h : BlanksTo before cs) (hcs : NoTrivia cs) :
    skipTrivia.Reads before (fun _ => True) cs := by
  obtain ⟨blanks, hblanks, rfl⟩ := h
  intro c hc
  refine ⟨(), _, rfl, trivial, ?_⟩
  rw [Cursor.rest_advance, hc, triviaLength_append hblanks hcs, List.drop_left]

/-! ## Words -/

theorem reads_upTo {stop : Char → Bool} {w : String} {rest : List Char}
    (hw : InWord stop w.toList) (hrest : EndsWord stop rest) :
    (upTo stop).Reads (w.toList ++ rest) (· = w) rest := by
  unfold upTo
  refine (reads_get _).bind ?_
  intro c hc
  rw [hc, wordLength_append hw hrest]
  exact (reads_take _ _).mono fun a ha => by rw [ha, String.ofList_toList]

theorem reads_word {w : String} {rest : List Char} (hw : InWord (fun _ => false) w.toList)
    (hrest : EndsWord (fun _ => false) rest) : word.Reads (w.toList ++ rest) (· = w) rest :=
  reads_upTo hw hrest

theorem reads_peekWord {w : String} {rest : List Char} (hw : InWord (fun _ => false) w.toList)
    (hrest : EndsWord (fun _ => false) rest) :
    peekWord.Reads (w.toList ++ rest) (· = w) (w.toList ++ rest) := by
  unfold peekWord
  refine (reads_get _).bind fun c hc => Reads.pure ?_ _
  rw [hc, wordLength_append hw hrest, List.take_left, String.ofList_toList]

theorem reads_requiredUpTo {stop : Char → Bool} {w what : String} {rest : List Char} (hne : w ≠ "")
    (hw : InWord stop w.toList) (hrest : EndsWord stop rest) :
    (requiredUpTo stop what).Reads (w.toList ++ rest) (· = w) rest := by
  unfold requiredUpTo
  refine (reads_upTo hw hrest).bind ?_
  intro found hfound
  have hempty : w.isEmpty = false := by
    rw [Bool.eq_false_iff]
    exact fun h => hne (String.isEmpty_iff.mp h)
  rw [hfound, hempty]
  exact Reads.pure_eq w rest

theorem reads_requiredWord {w what : String} {before rest : List Char}
    (hgap : BlanksTo before (w.toList ++ rest)) (hstart : NoTrivia (w.toList ++ rest))
    (hne : w ≠ "")
    (hw : InWord (fun _ => false) w.toList) (hrest : EndsWord (fun _ => false) rest) :
    (requiredWord what).Reads before (· = w) rest := by
  unfold requiredWord
  exact (reads_skipTrivia hgap hstart).bind fun _ _ => reads_requiredUpTo hne hw hrest

/-! ## Keywords -/

theorem reads_eatKeyword {w keyword : String} {rest : List Char}
    (hfold : sameFolded w keyword = true)
    (hw : InWord (· = '(') w.toList) (hrest : EndsWord (· = '(') rest) :
    (eatKeyword keyword).Reads (w.toList ++ rest) (· = true) rest := by
  unfold eatKeyword
  refine (reads_get _).bind fun mark hmark => (reads_upTo hw hrest).bind ?_
  intro found hfound
  rw [hfound, hfold]
  exact Reads.pure_eq true rest

/-- The first word of a text, up to a bracket. -/
def keywordOf (cs : List Char) : String := String.ofList (cs.take (wordLength (· = '(') cs))

theorem reads_eatKeyword_none {keyword : String} {cs : List Char}
    (hfold : sameFolded (keywordOf cs) keyword = false) :
    (eatKeyword keyword).Reads cs (· = false) cs := by
  unfold eatKeyword
  refine (reads_get _).bind ?_
  intro mark hmark
  have hupTo :
      (upTo (· = '(')).Reads cs (· = keywordOf cs) (cs.drop (wordLength (· = '(') cs)) := by
    unfold upTo
    refine (reads_get _).bind ?_
    intro c hc c' hc'
    refine ⟨_, _, rfl, ?_, ?_⟩
    · rw [hc, hc', keywordOf]
    · rw [Cursor.rest_advance, hc, hc']
  refine hupTo.bind ?_
  intro found hfound
  rw [hfound, hfold]
  refine (reads_set mark _).bind fun _ _ => ?_
  rw [hmark]
  exact Reads.pure_eq false cs

theorem reads_expectKeyword {w keyword what : String} {rest : List Char}
    (hfold : sameFolded w keyword = true) (hw : InWord (· = '(') w.toList)
    (hrest : EndsWord (· = '(') rest) :
    (expectKeyword keyword what).Reads (w.toList ++ rest) (fun _ => True) rest := by
  unfold expectKeyword
  refine (reads_eatKeyword hfold hw hrest).bind ?_
  intro found hfound
  rw [hfound]
  exact Reads.pure trivial rest

/-- A keyword that is spelled as it is expected. -/
theorem reads_expectKeyword_self {keyword what : String} {rest : List Char}
    (hw : InWord (· = '(') keyword.toList) (hrest : EndsWord (· = '(') rest) :
    (expectKeyword keyword what).Reads (keyword.toList ++ rest) (fun _ => True) rest :=
  reads_expectKeyword (sameFolded_self keyword) hw hrest

theorem sameFolded_cons {c k : Char} {cs ks : List Char} (h : c.toLower ≠ k.toLower) :
    sameFolded (String.ofList (c :: cs)) (String.ofList (k :: ks)) = false := by
  simp [sameFolded, String.toList_ofList, h]

/-! ## Descriptors and quoted literals -/

theorem reads_piece? {length? : List Char → Option Nat} {text : String} {rest : List Char}
    (h : length? (text.toList ++ rest) = some text.toList.length) :
    (piece? length?).Reads (text.toList ++ rest) (· = some text) rest := by
  unfold piece?
  refine (reads_get _).bind ?_
  intro c hc
  rw [hc, h]
  refine (reads_take _ _).bind fun found hfound => Reads.pure ?_ _
  rw [hfound, String.ofList_toList]

theorem reads_descriptor? {desc : String} (h : isDescText desc = true) (rest : List Char) :
    descriptor?.Reads (desc.toList ++ rest) (· = some desc) rest := by
  rw [descriptor?_eq_piece?]
  exact reads_piece? (descriptorLength?_append h rest)

theorem reads_descriptor?_none {cs : List Char} (h : descriptorLength? cs = none) :
    descriptor?.Reads cs (· = none) cs := by
  rw [descriptor?_eq_piece?, piece?]
  refine (reads_get _).bind ?_
  intro c hc
  rw [hc, h]
  exact Reads.pure_eq none cs

theorem reads_resultType? {desc : String} (h : isResultText desc = true) (rest : List Char) :
    resultType?.Reads (desc.toList ++ rest) (· = some desc) rest := by
  rw [resultType?_eq_piece?]
  exact reads_piece? (typeLength?_append h rest)

theorem reads_stringLiteral (s : String) (rest : List Char) :
    stringLiteral.Reads ((quote s).toList ++ rest) (· = s) rest := by
  intro c hc
  refine ⟨s, c.advance (quote s).toList.length, ?_, rfl, ?_⟩
  · rw [stringLiteral, quoted, hc, readString_quote]
  · rw [Cursor.rest_advance, hc, List.drop_left]

/-! ## Repetition -/

/-- Items one after another.  `turn vs` holds of the texts that have the items `vs` to come: an
item takes the text from one turn to the next, and in the last one there is none. -/
theorem reads_repeatUntil {item : Scan (Option α)} {R : α → β → Prop}
    {turn : List β → List Char → Prop} {after : List Char}
    (hitem : ∀ v vs before, turn (v :: vs) before → ∃ middle, turn vs middle
      ∧ item.Reads before (fun a => ∃ x, a = some x ∧ R x v) middle)
    (hend : ∀ before, turn [] before → item.Reads before (· = none) after) :
    ∀ (vs : List β) (fuel : Nat) (before : List Char), turn vs before → vs.length < fuel →
      (repeatUntil item fuel).Reads before (List.Forall₂ R · vs) after
  | [], fuel + 1, before, hturn, _ => by
      rw [repeatUntil]
      refine (hend before hturn).bind ?_
      intro a ha
      subst ha
      refine Reads.pure ?_ after
      exact List.Forall₂.nil
  | v :: vs, fuel + 1, before, hturn, h => by
      rw [repeatUntil]
      obtain ⟨middle, hmiddle, hread⟩ := hitem v vs before hturn
      refine hread.bind ?_
      intro a ha
      obtain ⟨x, rfl, hx⟩ := ha
      refine (reads_repeatUntil hitem hend vs fuel middle hmiddle
        (Nat.lt_of_succ_lt_succ h)).bind ?_
      intro xs hxs
      refine Reads.pure ?_ after
      exact List.Forall₂.cons hx hxs

theorem reads_collect {item : Scan (Option α)} {R : α → β → Prop}
    (turn : List β → List Char → Prop) {after : List Char}
    (hitem : ∀ v vs before, turn (v :: vs) before → ∃ middle, turn vs middle
      ∧ item.Reads before (fun a => ∃ x, a = some x ∧ R x v) middle)
    (hend : ∀ before, turn [] before → item.Reads before (· = none) after) {vs : List β}
    {before : List Char} (hturn : turn vs before) (hlength : vs.length ≤ before.length) :
    (collect item).Reads before (List.Forall₂ R · vs) after := by
  unfold collect
  refine (reads_get _).bind ?_
  intro c hc
  rw [hc]
  exact reads_repeatUntil hitem hend vs _ before hturn (Nat.lt_succ_of_le hlength)

/-- Items with a comma and a space between them. -/
def listed (text : β → List Char) (tail : List Char) : List β → List Char
  | [] => tail
  | [v] => text v ++ tail
  | v :: w :: vs => text v ++ ',' :: ' ' :: listed text tail (w :: vs)

theorem listed_append (text : β → List Char) (tail rest : List Char) : ∀ vs : List β,
    listed text tail vs ++ rest = listed text (tail ++ rest) vs
  | [] => rfl
  | [v] => List.append_assoc ..
  | v :: w :: vs => by
      rw [listed, listed, List.append_assoc, ← listed_append text tail rest (w :: vs)]
      rfl

theorem length_le_listed (text : β → List Char) {tail : List Char} (htail : tail ≠ []) :
    ∀ vs : List β, vs.length ≤ (listed text tail vs).length
  | [] => Nat.zero_le _
  | [v] => by
      have := List.length_pos_of_ne_nil htail
      rw [listed, List.length_append, List.length_singleton]
      omega
  | v :: w :: vs => by
      have := length_le_listed text htail (w :: vs)
      simp only [listed, List.length_append, List.length_cons] at this ⊢
      omega

/-- Does the text begin with a character that opens no trivia and is not `close`? -/
def Opens (close : Char) (cs : List Char) : Prop :=
  ∃ c rest, cs = c :: rest ∧ isBlank c = false ∧ c ≠ '/' ∧ c ≠ close

theorem Opens.append {close : Char} {cs : List Char} (h : Opens close cs) (rest : List Char) :
    Opens close (cs ++ rest) := by
  obtain ⟨c, cs, rfl, hc⟩ := h
  exact ⟨c, cs ++ rest, rfl, hc⟩

theorem Opens.noTrivia {close : Char} {cs : List Char} (h : Opens close cs) (rest : List Char) :
    NoTrivia (cs ++ rest) := by
  obtain ⟨c, cs, rfl, hblank, hslash, -⟩ := h
  exact noTrivia_cons hblank hslash _

theorem Opens.head_ne {close : Char} {cs : List Char} (h : Opens close cs) (rest : List Char) :
    (cs ++ rest).head? ≠ some close := by
  obtain ⟨c, cs, rfl, -, -, hne⟩ := h
  exact fun heq => hne (Option.some.inj heq)

/-- Does an item of a list begin with the text?  It opens no trivia and is not `close`, whichever of
the two characters ends the item. -/
def BeginsItem (close : Char) (cs : List Char) : Prop :=
  ∀ after, after.head? = some ',' ∨ after.head? = some close →
    NoTrivia (cs ++ after) ∧ (cs ++ after).head? ≠ some close

theorem Opens.beginsItem {close : Char} {cs : List Char} (h : Opens close cs) :
    BeginsItem close cs :=
  fun after _ => ⟨h.noTrivia after, h.head_ne after⟩

theorem reads_delimited {close : Char} {item : Scan α} {R : α → β → Prop} {text : β → List Char}
    {vs : List β} (hclose : isBlank close = false ∧ close ≠ '/' ∧ close ≠ ',')
    (hbegins : ∀ v ∈ vs, BeginsItem close (text v))
    (hitem : ∀ v ∈ vs, ∀ after, after.head? = some ',' ∨ after.head? = some close →
      item.Reads (text v ++ after) (R · v) after) (rest : List Char) :
    (delimited close item).Reads (listed text (close :: rest) vs) (List.Forall₂ R · vs) rest := by
  obtain ⟨hblank, hslash, hcomma⟩ := hclose
  have hnone : NoTrivia (close :: rest) := noTrivia_cons hblank hslash rest
  have hhead : (close :: rest).head? ≠ some ',' := fun heq => hcomma (Option.some.inj heq)
  unfold delimited
  refine reads_collect
    (fun us before => (∀ v ∈ us, v ∈ vs) ∧ BlanksTo before (listed text (close :: rest) us)) ?_ ?_
    ⟨fun _ h => h, BlanksTo.refl _⟩ (length_le_listed text (List.cons_ne_nil _ _) vs)
  · rintro v us before ⟨hmem, hgap⟩
    have hv := hmem v List.mem_cons_self
    have hus : ∀ u ∈ us, u ∈ vs := fun u hu => hmem u (List.mem_cons_of_mem v hu)
    cases us with
    | nil =>
        obtain ⟨hstart, hopen⟩ := hbegins v hv (close :: rest) (Or.inr rfl)
        refine ⟨close :: rest, ⟨hus, BlanksTo.refl _⟩, ?_⟩
        refine (reads_skipTrivia hgap hstart).bind fun _ _ => ?_
        refine (reads_eat_none hopen).bind ?_
        intro found hfound
        subst hfound
        refine (hitem v hv _ (Or.inr rfl)).bind ?_
        intro x hx
        refine (reads_skipTrivia (BlanksTo.refl _) hnone).bind fun _ _ => ?_
        refine (reads_eat_none hhead).bind fun _ _ => ?_
        refine Reads.pure ?_ _
        exact ⟨x, rfl, hx⟩
    | cons u us =>
        obtain ⟨hstart, hopen⟩ := hbegins v hv
          (',' :: ' ' :: listed text (close :: rest) (u :: us)) (Or.inl rfl)
        refine ⟨' ' :: listed text (close :: rest) (u :: us), ⟨hus, BlanksTo.space _⟩, ?_⟩
        refine (reads_skipTrivia hgap hstart).bind fun _ _ => ?_
        refine (reads_eat_none hopen).bind ?_
        intro found hfound
        subst hfound
        refine (hitem v hv _ (Or.inl rfl)).bind ?_
        intro x hx
        refine (reads_skipTrivia (BlanksTo.refl _) (noTrivia_cons rfl (by decide) _)).bind
          fun _ _ => ?_
        refine (reads_eat ',' _).bind fun _ _ => ?_
        refine Reads.pure ?_ _
        exact ⟨x, rfl, hx⟩
  · rintro before ⟨-, hgap⟩
    refine (reads_skipTrivia hgap hnone).bind fun _ _ => ?_
    refine (reads_eat close rest).bind ?_
    intro found hfound
    subst hfound
    exact Reads.pure_eq none rest

end Scan

end JvmListing
