/-
# Cursors and positions

A cursor stands on a text if it has the rest of the text in front of it and counts its
lines and columns (`Cursor.On`).  Every position that a scan makes is the range between
two such cursors, so it is enough to know that scans lead from cursors on the text to
cursors on the text and never back behind the place where they began.

`Scan.Tracks source lo s P` says this of the scan `s`: begun at a place not before `lo`,
it ends at one not before `lo`, where `P` holds of what it gave and of the offset
reached, or it fails at an exact position.  In a sequence the bound may be raised to the
offset reached (`Tracks.bind`), so that later positions come after earlier ones, unless
the rest may set the cursor back (`Tracks.bindBack`).  Where it matters which characters
follow, the same is said of one run (`Scan.Ends`).
-/
import JvmListing.Reading.Meaning
import JvmListing.Proofs.DescriptorScans
import Mathlib.Data.List.Basic

namespace JvmListing

open Lexeme

/-! ## Exact positions -/

/-- The line of an offset: one more than the newlines before it. -/
def lineAt (source : List Char) (offset : Nat) : Nat := 1 + (source.take offset).count '\n'

/-- The column of an offset: one more than the characters since the last newline. -/
def columnAt (source : List Char) (offset : Nat) : Nat :=
  1 + ((source.take offset).reverse.takeWhile (· ≠ '\n')).length

/-- Is the position a range of the text, with the line and column of its start? -/
structure Position.IsExact (source : List Char) (p : Position) : Prop where
  ordered : p.start ≤ p.stop
  within : p.stop ≤ source.length
  line : p.line = lineAt source p.start
  column : p.column = columnAt source p.start

/-- Is the position an exact one of some characters from `lo` on and before `hi`? -/
structure Position.Spans (source : List Char) (lo hi : Nat) (p : Position) : Prop where
  isExact : p.IsExact source
  after : lo ≤ p.start
  nonempty : p.start < p.stop
  before : p.stop ≤ hi

theorem Position.Spans.widen {source : List Char} {lo lo' hi hi' : Nat} {p : Position}
    (h : p.Spans source lo hi) (hlo : lo' ≤ lo) (hhi : hi ≤ hi') : p.Spans source lo' hi' :=
  ⟨h.isExact, Nat.le_trans hlo h.after, h.nonempty, Nat.le_trans h.before hhi⟩

namespace Cursor

/-- Does the cursor stand on the text? -/
structure On (source : List Char) (c : Cursor) : Prop where
  within : c.offset ≤ source.length
  rest : c.rest = source.drop c.offset
  line : c.line = lineAt source c.offset
  column : c.column = columnAt source c.offset

variable {source : List Char} {c mark : Cursor}

theorem on_start (text : String) : (start text).On text.toList :=
  ⟨Nat.zero_le _, rfl, rfl, rfl⟩

theorem On.step (h : c.On source) : c.step.On source := by
  unfold Cursor.step
  cases hrest : c.rest with
  | nil => exact h
  | cons x rest =>
      have hdrop : source.drop c.offset = x :: rest := h.rest.symm.trans hrest
      have hlt : c.offset < source.length := by
        have := congrArg List.length hdrop
        rw [List.length_drop, List.length_cons] at this
        omega
      have htake : source.take (c.offset + 1) = source.take c.offset ++ [x] := by
        have hx : source[c.offset]? = some x := by
          rw [← List.head?_drop, hdrop]
          rfl
        rw [List.take_add_one, hx]
        rfl
      have hrest' : rest = source.drop (c.offset + 1) := by
        rw [← List.tail_drop, hdrop]
        rfl
      have hline := h.line
      have hcolumn := h.column
      dsimp only
      by_cases hx : x = '\n'
      · subst hx
        rw [if_pos rfl]
        refine ⟨hlt, hrest', ?_, ?_⟩
        · simp [lineAt, htake, hline, Nat.add_assoc]
        · simp [columnAt, htake]
      · rw [if_neg hx]
        refine ⟨hlt, hrest', ?_, ?_⟩
        · simp [lineAt, htake, hline, hx]
        · simp [columnAt, htake, hcolumn, hx, Nat.add_assoc]

theorem On.advance (n : Nat) : ∀ {c : Cursor}, c.On source → (c.advance n).On source := by
  induction n with
  | zero =>
      intro c h
      exact h
  | succ n ih =>
      intro c h
      exact ih h.step

theorem offset_le_advance (n : Nat) (c : Cursor) : c.offset ≤ (c.advance n).offset := by
  rw [offset_advance]
  omega

/-- A place of the text is known by its offset. -/
theorem On.eq_of_offset (hmark : mark.On source) (hc : c.On source) (h : mark.offset = c.offset) :
    mark = c := by
  cases mark
  cases c
  obtain ⟨_, hrest, hline, hcolumn⟩ := hmark
  obtain ⟨_, hrest', hline', hcolumn'⟩ := hc
  simp_all

/-- Where a cursor stands in a source that is known up to it. -/
theorem On.offset_eq {before rest : List Char} (h : c.On source) (hsource : source = before ++ rest)
    (hrest : c.rest = rest) : c.offset = before.length := by
  have hlength := congrArg List.length h.rest
  have hwithin := h.within
  rw [List.length_drop, hrest] at hlength
  rw [hsource, List.length_append] at hlength hwithin
  omega

theorem offset_advance_word {w rest : List Char} (hrest : c.rest = w ++ rest) :
    (c.advance w.length).offset = c.offset + w.length := by
  rw [offset_advance, hrest, List.length_append, Nat.min_eq_left (Nat.le_add_right _ _)]

theorem On.span (hmark : mark.On source) (hc : c.On source) (h : mark.offset ≤ c.offset) :
    (mark.span c).IsExact source :=
  ⟨h, hc.within, hmark.line, hmark.column⟩

end Cursor

/-! ## Scans that keep to the text -/

namespace Scan

variable {α β : Type} {source : List Char} {lo : Nat}

/-- Is the run at an end not before `lo`, where `P` holds of what it gave and the offset reached,
or else at a fault with an exact position? -/
inductive Ends (source : List Char) (lo : Nat) (P : α → Nat → Prop) :
    Except ReadError (α × Cursor) → Prop
  | ok {a : α} {c : Cursor} : c.On source → lo ≤ c.offset → P a c.offset →
      Ends source lo P (.ok (a, c))
  | error {e : ReadError} : e.position.IsExact source → Ends source lo P (.error e)

/-- Does every run from a place of the text not before `lo` end so? -/
structure Tracks (source : List Char) (lo : Nat) (s : Scan α) (P : α → Nat → Prop) : Prop where
  ends : ∀ c : Cursor, c.On source → lo ≤ c.offset → Ends source lo P (s c)

section Rules

variable {s : Scan α} {k : α → Scan β} {P Q : α → Nat → Prop} {R : β → Nat → Prop} {c : Cursor}

theorem Ends.imp {lo₁ : Nat} {r : Except ReadError (α × Cursor)} (hr : Ends source lo P r)
    (hlo : lo₁ ≤ lo) (h : ∀ a n, lo ≤ n → P a n → Q a n) : Ends source lo₁ Q r := by
  cases hr with
  | error he => exact .error he
  | ok hc hlo' hP => exact .ok hc (Nat.le_trans hlo hlo') (h _ _ hlo' hP)

/-- The next scan begins where the run ended. -/
theorem Ends.bind {lo₁ : Nat} (hs : Ends source lo₁ Q (s c))
    (hk : ∀ a c₁, c₁.On source → lo₁ ≤ c₁.offset → Q a c₁.offset → Ends source lo R (k a c₁)) :
    Ends source lo R ((s >>= k) c) := by
  show Ends source lo R (s c >>= fun r => k r.1 r.2)
  cases hr : s c with
  | error e =>
      rw [hr] at hs
      cases hs with
      | error he => exact .error he
  | ok r =>
      rw [hr] at hs
      cases hs with
      | ok hc₁ hlo₁ hQ => exact hk _ _ hc₁ hlo₁ hQ

theorem Tracks.mono (hs : Tracks source lo s P) (h : ∀ a n, lo ≤ n → P a n → Q a n) :
    Tracks source lo s Q :=
  ⟨fun c hc hlo => (hs.ends c hc hlo).imp (Nat.le_refl lo) h⟩

theorem Tracks.pure {a : α} (h : ∀ n, lo ≤ n → P a n) :
    Tracks source lo (Pure.pure a : Scan α) P :=
  ⟨fun c hc hlo => .ok hc hlo (h c.offset hlo)⟩

/-- Nothing that follows goes back behind the offset reached. -/
theorem Tracks.bind (hs : Tracks source lo s Q)
    (hk : ∀ a n, lo ≤ n → Q a n → Tracks source n (k a) R) : Tracks source lo (s >>= k) R := by
  constructor
  intro c hc hlo
  refine (hs.ends c hc hlo).bind fun a c₁ hc₁ hlo₁ hQ => ?_
  have hrest := (hk a c₁.offset hlo₁ hQ).ends c₁ hc₁ (Nat.le_refl _)
  exact hrest.imp hlo₁ fun _ _ _ hR => hR

/-- What is made of what a scan gave, where the offset does not matter. -/
theorem Tracks.returning {P' : α → Prop} {R' : β → Prop} {f : α → β}
    (hs : Tracks source lo s fun a _ => P' a) (hf : ∀ a, P' a → R' (f a)) :
    Tracks source lo (do return f (← s) : Scan β) fun b _ => R' b :=
  hs.bind fun a _ _ ha => .pure fun _ _ => hf a ha

/-- What follows may go back, but not behind the beginning. -/
theorem Tracks.bindBack (hs : Tracks source lo s Q)
    (hk : ∀ a n, lo ≤ n → Q a n → Tracks source lo (k a) R) : Tracks source lo (s >>= k) R := by
  constructor
  intro c hc hlo
  refine (hs.ends c hc hlo).bind fun a c₁ hc₁ hlo₁ hQ => ?_
  exact (hk a c₁.offset hlo₁ hQ).ends c₁ hc₁ hlo₁

/-- A mark is the place where the rest begins. -/
theorem Tracks.mark {k : Cursor → Scan β} (hk : ∀ mark : Cursor, mark.On source →
    lo ≤ mark.offset → Tracks source mark.offset (k mark) R) : Tracks source lo (get >>= k) R := by
  constructor
  intro c hc hlo
  exact ((hk c hc hlo).ends c hc (Nat.le_refl _)).imp hlo fun _ _ _ hR => hR

theorem Tracks.fail (fault : Fault) : Tracks source lo (Scan.fail fault : Scan α) P :=
  ⟨fun _ hc _ => .error (hc.span hc (Nat.le_refl _))⟩

theorem Tracks.failSince {mark : Cursor} (hmark : mark.On source) (h : mark.offset ≤ lo)
    (fault : Fault) : Tracks source lo (Scan.failSince mark fault : Scan α) P :=
  ⟨fun _ hc hlo => .error (hmark.span hc (Nat.le_trans h hlo))⟩

theorem Tracks.set {mark : Cursor} (hmark : mark.On source) (h : lo ≤ mark.offset) :
    Tracks source lo (MonadState.set mark : Scan PUnit) fun _ n => n = mark.offset :=
  ⟨fun _ _ _ => .ok hmark h rfl⟩

theorem Tracks.fail_bind {k : α → Scan β} (fault : Fault) :
    Tracks source lo (Scan.fail fault >>= k) R :=
  (Tracks.fail (P := fun _ _ => False) fault).bind fun _ _ _ h => h.elim

theorem Tracks.failSince_bind {mark : Cursor} (hmark : mark.On source) (h : mark.offset ≤ lo)
    (fault : Fault) : Tracks source lo (Scan.failSince mark fault >>= k) R :=
  (Tracks.failSince (P := fun _ _ => False) hmark h fault).bind fun _ _ _ h => h.elim

/-- The range since a mark ends at the offset reached. -/
theorem Tracks.since {mark : Cursor} (hmark : mark.On source) (h : mark.offset ≤ lo) :
    Tracks source lo (Scan.since mark) fun p n =>
      p.IsExact source ∧ p.start = mark.offset ∧ p.stop = n :=
  ⟨fun _ hc hlo => .ok hc hlo ⟨hmark.span hc (Nat.le_trans h hlo), rfl, rfl⟩⟩

end Rules

/-! ### Scans that only move on -/

/-- Does the scan keep to the text, wherever it begins? -/
def Advances (source : List Char) (s : Scan α) : Prop :=
  ∀ lo, Tracks source lo s fun _ _ => True

section Advances

variable {s : Scan α} {k : α → Scan β} {R : β → Nat → Prop}

theorem Advances.pure (a : α) : Advances source (Pure.pure a : Scan α) :=
  fun _ => .pure fun _ _ => trivial

theorem Advances.fail (fault : Fault) : Advances source (Scan.fail fault : Scan α) :=
  fun _ => .fail fault

theorem Advances.bind (hs : Advances source s) (hk : ∀ a, Advances source (k a)) :
    Advances source (s >>= k) :=
  fun lo => (hs lo).bind fun a n _ _ => hk a n

theorem Advances.mark {k : Cursor → Scan β} (hk : ∀ mark, Advances source (k mark)) :
    Advances source (get >>= k) :=
  fun _ => .mark fun mark _ _ => hk mark mark.offset

theorem Advances.andThen (hs : Advances source s)
    (hk : ∀ a n, lo ≤ n → Tracks source n (k a) R) : Tracks source lo (s >>= k) R :=
  (hs lo).bind fun a n hn _ => hk a n hn

theorem Tracks.advances {P : Nat → α → Nat → Prop} (h : ∀ lo, Tracks source lo s (P lo)) :
    Advances source s :=
  fun lo => (h lo).mono fun _ _ _ _ => trivial

/-- A scan that moves by some number of characters keeps to the text. -/
theorem advances_of_moves (h : ∀ c, ∃ a n, s c = .ok (a, c.advance n)) : Advances source s := by
  intro lo
  constructor
  intro c hc hlo
  obtain ⟨a, n, hs⟩ := h c
  rw [hs]
  exact .ok (hc.advance n) (Nat.le_trans hlo (c.offset_le_advance n)) trivial

end Advances

/-! ## Words and characters -/

theorem advances_take (n : Nat) : Advances source (take n) :=
  advances_of_moves fun _ => ⟨_, n, rfl⟩

theorem advances_atEnd : Advances source atEnd := advances_of_moves fun _ => ⟨_, 0, rfl⟩

theorem advances_peek? : Advances source peek? := advances_of_moves fun _ => ⟨_, 0, rfl⟩

theorem advances_peekWord : Advances source peekWord := advances_of_moves fun _ => ⟨_, 0, rfl⟩

theorem advances_skipBlanks : Advances source skipBlanks := advances_of_moves fun _ => ⟨_, _, rfl⟩

theorem advances_skipTrivia : Advances source skipTrivia := advances_of_moves fun _ => ⟨_, _, rfl⟩

theorem advances_eat (x : Char) : Advances source (eat x) := by
  apply advances_of_moves
  intro c
  by_cases h : c.rest.head? = some x
  · exact ⟨true, 1, if_pos h⟩
  · exact ⟨false, 0, if_neg h⟩

theorem advances_expect (x : Char) : Advances source (expect x) := by
  unfold expect
  refine (advances_eat x).bind fun found => ?_
  split
  · exact .fail _
  · exact .pure _

theorem spanLength_le (p : Char → Bool) (cs : List Char) : spanLength p cs ≤ cs.length :=
  (List.takeWhile_prefix p).length_le

theorem tracks_upTo (stop : Char → Bool) :
    Tracks source lo (upTo stop) fun found n => lo + found.toList.length ≤ n := by
  constructor
  intro c hc hlo
  have hle : wordLength stop c.rest ≤ c.rest.length := spanLength_le _ _
  refine .ok (hc.advance _) (Nat.le_trans hlo (c.offset_le_advance _)) ?_
  show lo + (String.ofList (c.rest.take _)).toList.length ≤ (c.advance _).offset
  rw [Cursor.offset_advance, String.toList_ofList, List.length_take]
  omega

theorem advances_upTo (stop : Char → Bool) : Advances source (upTo stop) :=
  Tracks.advances fun _ => tracks_upTo stop

theorem advances_word : Advances source word := advances_upTo _

theorem length_pos_of_not_isEmpty {s : String} (h : ¬ s.isEmpty = true) : 0 < s.toList.length := by
  rw [List.length_pos_iff]
  intro hs
  apply h
  rw [String.isEmpty_iff]
  exact String.toList_inj.mp hs

theorem tracks_requiredUpTo (stop : Char → Bool) (what : String) :
    Tracks source lo (requiredUpTo stop what) fun _ n => lo < n := by
  unfold requiredUpTo
  refine (tracks_upTo stop).bind fun found n _ hlen => ?_
  split
  · exact .fail _
  · rename_i hfound
    have := length_pos_of_not_isEmpty hfound
    exact .pure fun m hm => by omega

theorem tracks_requiredWord (what : String) :
    Tracks source lo (requiredWord what) fun _ n => lo < n := by
  unfold requiredWord
  refine advances_skipTrivia.andThen fun _ n hn => ?_
  exact (tracks_requiredUpTo (fun _ => false) what).mono fun _ _ _ h => by omega

theorem advances_requiredWord (what : String) : Advances source (requiredWord what) :=
  Tracks.advances fun _ => tracks_requiredWord what

theorem advances_eatKeyword (keyword : String) : Advances source (eatKeyword keyword) := by
  unfold eatKeyword
  intro lo
  refine .mark fun mark hmark hlo => ?_
  refine (advances_upTo _ _).bindBack fun found _ _ _ => ?_
  split
  · exact .pure fun _ _ => trivial
  · refine (Tracks.set hmark (Nat.le_refl _)).bindBack fun _ _ _ _ => ?_
    exact .pure fun _ _ => trivial

theorem advances_expectKeyword (keyword what : String) :
    Advances source (expectKeyword keyword what) := by
  unfold expectKeyword
  refine (advances_eatKeyword keyword).bind fun found => ?_
  split
  · exact .fail _
  · exact .pure _

theorem advances_piece? (length? : List Char → Option Nat) : Advances source (piece? length?) := by
  refine .mark fun mark => ?_
  split
  · exact (advances_take _).bind fun _ => .pure _
  · exact .pure _

theorem advances_descriptor? : Advances source descriptor? :=
  descriptor?_eq_piece? ▸ advances_piece? _

theorem advances_resultType? : Advances source resultType? :=
  resultType?_eq_piece? ▸ advances_piece? _

theorem advances_textUpToWord (closing : String) : Advances source (textUpToWord closing) := by
  unfold textUpToWord
  intro lo
  refine .mark fun mark hmark _ => ?_
  split
  · exact (advances_take _).bind (fun _ => .pure _) _
  · refine (advances_take _).andThen fun _ n hn => ?_
    exact .failSince hmark hn _

/-! ## Repetition -/

section Repetition

variable {item : Scan (Option α)} {R : α → Nat → Prop}

/-- What the items have in common goes over to the offset reached by them all. -/
theorem tracks_repeatUntil (hmono : ∀ a m n, m ≤ n → R a m → R a n)
    (hitem : ∀ n, lo ≤ n → Tracks source n item fun found n => ∀ a ∈ found, R a n) (fuel : Nat) :
    ∀ n, lo ≤ n → Tracks source n (repeatUntil item fuel) fun found n => ∀ a ∈ found, R a n := by
  induction fuel with
  | zero =>
      intro n hn
      exact .pure fun _ _ a ha => nomatch ha
  | succ fuel ih =>
      intro n hn
      refine (hitem n hn).bind fun found m hm hfound => ?_
      cases found with
      | none => exact .pure fun _ _ a ha => nomatch ha
      | some a =>
          refine (ih m (Nat.le_trans hn hm)).bind fun rest k hk hrest => ?_
          refine .pure fun j hj b hb => ?_
          rcases List.mem_cons.mp hb with rfl | hb
          · exact hmono _ m j (Nat.le_trans hk hj) (hfound _ rfl)
          · exact hmono _ k j hj (hrest b hb)

theorem tracks_collect (hmono : ∀ a m n, m ≤ n → R a m → R a n)
    (hitem : ∀ n, lo ≤ n → Tracks source n item fun found n => ∀ a ∈ found, R a n) :
    Tracks source lo (collect item) fun found n => ∀ a ∈ found, R a n := by
  refine .mark fun mark _ hlo => ?_
  exact tracks_repeatUntil hmono hitem _ mark.offset hlo

theorem tracks_delimited {item : Scan α} (hmono : ∀ a m n, m ≤ n → R a m → R a n)
    (hitem : ∀ n, lo ≤ n → Tracks source n item R) (close : Char) :
    Tracks source lo (delimited close item) fun found n => ∀ a ∈ found, R a n := by
  refine tracks_collect hmono fun n hn => ?_
  refine advances_skipTrivia.andThen fun _ n₁ hn₁ => ?_
  refine (advances_eat close).andThen fun closed n₂ hn₂ => ?_
  split
  · exact .pure fun _ _ a ha => nomatch ha
  · refine (hitem n₂ (by omega)).bind fun a n₃ _ ha => ?_
    refine advances_skipTrivia.andThen fun _ n₄ hn₄ => ?_
    refine (advances_eat ',').andThen fun _ n₅ hn₅ => ?_
    refine .pure fun n₆ hn₆ b hb => ?_
    cases hb
    exact hmono _ n₃ n₆ (by omega) ha

end Repetition

/-! ## Parts of constructs -/

/-- A range since a mark is not empty once something was passed. -/
theorem tracks_since_spans {mark : Cursor} (hmark : mark.On source) (hlo : lo ≤ mark.offset)
    {n : Nat} (hn : mark.offset < n) :
    Tracks source n (since mark) fun p n => p.Spans source lo n := by
  refine (Tracks.since hmark (Nat.le_of_lt hn)).mono fun p m hm hp => ?_
  obtain ⟨hexact, hstart, hstop⟩ := hp
  exact ⟨hexact, by omega, by omega, by omega⟩

/-- A quoted literal takes a character, since it has its quotes. -/
theorem tracks_quoted {read : List Char → Except (Fault × Nat) (α × Nat)}
    (hread : ∀ cs a n, read cs = .ok (a, n) → cs ≠ [] ∧ 0 < n) :
    Tracks source lo (quoted read) fun _ n => lo < n := by
  constructor
  intro c hc hlo
  unfold quoted
  cases h : read c.rest with
  | error e =>
      obtain ⟨fault, n⟩ := e
      exact .error (hc.span (hc.advance n) (c.offset_le_advance n))
  | ok r =>
      obtain ⟨a, n⟩ := r
      obtain ⟨hrest, hpos⟩ := hread _ a n h
      have hlen := List.length_pos_iff.mpr hrest
      have hoff := Cursor.offset_advance n c
      exact .ok (hc.advance n) (by omega) (by omega)

theorem readString_pos (cs : List Char) (text : String) (n : Nat)
    (h : readString cs = .ok (text, n)) : cs ≠ [] ∧ 0 < n := by
  unfold readString at h
  split at h
  · split at h
    · cases h
      exact ⟨List.cons_ne_nil _ _, Nat.succ_pos _⟩
    · cases h
  · cases h

theorem readChar_pos (cs : List Char) (x : Char) (n : Nat) (h : readChar cs = .ok (x, n)) :
    cs ≠ [] ∧ 0 < n := by
  unfold readChar at h
  split at h
  · split at h
    · cases h
    · split at h
      · cases h
        exact ⟨List.cons_ne_nil _ _, Nat.succ_pos _⟩
      · cases h
  · cases h

theorem length_pos_of_looksNumeric {token : String} (h : looksNumeric token = true) :
    0 < token.toList.length := by
  rw [List.length_pos_iff]
  intro htoken
  rw [looksNumeric, htoken] at h
  exact absurd h (by decide)

/-- What was read since a mark, with its range. -/
theorem tracks_located {mark : Cursor} (hmark : mark.On source) (hlo : lo ≤ mark.offset) {n : Nat}
    (hn : mark.offset < n) (a : α) :
    Tracks source n (do return ⟨a, ← since mark⟩ : Scan (Located α)) fun l n =>
      l.position.Spans source lo n := by
  refine (tracks_since_spans hmark hlo hn).bind fun p m hm hp => ?_
  exact .pure fun k hk => hp.widen (Nat.le_refl _) hk

theorem tracks_literal : Tracks source lo literal fun l n => l.position.Spans source lo n := by
  unfold literal
  refine advances_skipTrivia.andThen fun _ m hm => ?_
  refine .mark fun mark hmark hlo => ?_
  have hlo : lo ≤ mark.offset := Nat.le_trans hm hlo
  split
  · refine (tracks_quoted readString_pos).bind fun text n _ hn => ?_
    exact tracks_located hmark hlo hn _
  · refine (tracks_quoted readChar_pos).bind fun x n _ hn => ?_
    exact tracks_located hmark hlo hn _
  · refine (tracks_upTo listStop).bind fun token n hn hlen => ?_
    split
    · rename_i htoken
      have := length_pos_of_looksNumeric htoken
      exact tracks_located hmark hlo (by omega) _
    · exact .failSince hmark hn _

theorem advances_atLiteral : Advances source atLiteral := by
  unfold atLiteral
  refine advances_skipTrivia.bind fun _ => .mark fun mark => ?_
  split <;> exact .pure _

theorem advances_labelRef : Advances source labelRef :=
  advances_skipTrivia.bind fun _ => Tracks.advances fun _ => tracks_requiredUpTo _ _

theorem tracks_typeConstant :
    Tracks source lo typeConstant fun desc _ => desc.position.IsExact source := by
  unfold typeConstant
  refine advances_skipTrivia.andThen fun _ m hm => ?_
  refine .mark fun mark hmark hlo => ?_
  refine advances_descriptor?.andThen fun found n hn => ?_
  split
  · refine (Tracks.since hmark hn).bind fun p k hk hp => ?_
    exact .pure fun _ _ => hp.1
  · refine (advances_upTo _).andThen fun _ k hk => ?_
    exact .failSince hmark (by omega) _

theorem tracks_member : Tracks source lo member fun m _ => m.position.IsExact source := by
  unfold member
  refine advances_skipTrivia.andThen fun _ m hm => ?_
  refine .mark fun mark hmark hlo => ?_
  refine (tracks_requiredUpTo _ _).bind fun text n hn _ => ?_
  refine (Tracks.since hmark hn).bind fun p k hk hp => ?_
  exact .pure fun _ _ => hp.1

theorem advances_memberDesc : Advances source memberDesc := by
  unfold memberDesc
  intro lo
  refine advances_skipTrivia.andThen fun _ m hm => ?_
  refine .mark fun mark hmark hlo => ?_
  refine advances_descriptor?.andThen fun found n hn => ?_
  split
  · exact .pure fun _ _ => trivial
  · refine (advances_upTo _).andThen fun _ k hk => ?_
    exact .failSince hmark (by omega) _

theorem tracks_handleBody : Tracks source lo handleBody fun h _ =>
    h.tag.position.IsExact source ∧ h.member.position.IsExact source := by
  unfold handleBody
  refine advances_skipTrivia.andThen fun _ m hm => ?_
  refine .mark fun mark hmark hlo => ?_
  refine (tracks_requiredUpTo _ _).bind fun tag n hn _ => ?_
  refine (Tracks.since hmark hn).bind fun position _ _ hposition => ?_
  refine tracks_member.bind fun found _ _ hfound => ?_
  refine advances_memberDesc.andThen fun desc _ _ => ?_
  exact .pure fun _ _ => ⟨hposition.1, hfound⟩

/-! ## Headers -/

theorem tracks_modifier? : Tracks source lo modifier? fun found _ =>
    ∀ m ∈ found, m.position.IsExact source := by
  unfold modifier?
  refine .mark fun mark hmark hlo => ?_
  refine (advances_upTo _ mark.offset).bindBack fun found n hn _ => ?_
  refine (Tracks.since hmark (Nat.le_refl _)).bindBack fun position _ _ hposition => ?_
  refine (advances_peek? mark.offset).bindBack fun next _ _ _ => ?_
  split
  · refine (advances_skipBlanks mark.offset).bindBack fun _ _ _ _ => ?_
    refine .pure fun _ _ m hm => ?_
    cases hm
    exact hposition.1
  · refine (Tracks.set hmark (Nat.le_refl _)).bindBack fun _ _ _ _ => ?_
    exact .pure fun _ _ m hm => nomatch hm

theorem tracks_modifiers : Tracks source lo modifiers fun found _ =>
    ∀ m ∈ found, m.position.IsExact source :=
  tracks_collect (fun _ _ _ _ h => h) fun _ _ => tracks_modifier?

/-- The name of a parameter and its range, which began at a mark. -/
theorem tracks_paramName {mark : Cursor} (hmark : mark.On source) (hlo : lo ≤ mark.offset)
    (stop : Char → Bool) (desc : String) {n : Nat} (hn : mark.offset ≤ n) :
    Tracks source n (do
      skipBlanks
      let name ← upTo stop
      if name.isEmpty then failSince mark (.missing "parameter name")
      let position ← since mark
      skipBlanks
      let _ ← eat ','
      return some ⟨desc, name, position⟩ : Scan (Option RawParam)) fun found n =>
        ∀ p ∈ found, p.position.Spans source lo n := by
  refine advances_skipBlanks.andThen fun _ n₁ h₁ => ?_
  refine (tracks_upTo stop).bind fun name n₂ h₂ hlen => ?_
  dsimp only
  split
  · exact .failSince_bind hmark (by omega) _
  · rename_i hname
    have := length_pos_of_not_isEmpty hname
    refine (tracks_since_spans hmark hlo (by omega)).bind fun position n₃ h₃ hposition => ?_
    refine advances_skipBlanks.andThen fun _ n₄ h₄ => ?_
    refine (advances_eat ',').andThen fun _ n₅ h₅ => ?_
    refine .pure fun n₆ h₆ p hp => ?_
    cases hp
    exact hposition.widen (Nat.le_refl _) (by omega)

theorem tracks_param? : Tracks source lo param? fun found n =>
    ∀ p ∈ found, p.position.Spans source lo n := by
  unfold param?
  refine advances_skipBlanks.andThen fun _ n₁ h₁ => ?_
  refine (advances_eat ')').andThen fun closed n₂ h₂ => ?_
  split
  · exact .pure fun _ _ p hp => nomatch hp
  refine advances_atEnd.andThen fun ended n₃ h₃ => ?_
  split
  · exact .fail_bind _
  refine .mark fun mark hmark hlo => ?_
  have hlo : lo ≤ mark.offset := by omega
  refine advances_descriptor?.andThen fun found n₄ h₄ => ?_
  cases found with
  | some desc => exact tracks_paramName hmark hlo _ desc h₄
  | none =>
      refine (advances_upTo _).andThen fun desc n₅ h₅ => ?_
      exact tracks_paramName hmark hlo _ desc (by omega)

theorem tracks_methodSignature : Tracks source lo methodSignature fun r n =>
    ∀ p ∈ r.1, p.position.Spans source lo n := by
  unfold methodSignature
  refine (advances_expect '(').andThen fun _ n hn => ?_
  have hparams : Tracks source n (collect param?) fun found n =>
      ∀ p ∈ found, p.position.Spans source lo n :=
    tracks_collect (fun _ _ _ h hp => hp.widen (Nat.le_refl _) h) fun m hm =>
      tracks_param?.mono fun _ _ _ h p hp => (h p hp).widen (by omega) (Nat.le_refl _)
  refine hparams.bind fun params k hk hparams => ?_
  refine advances_resultType?.andThen fun result j hj => ?_
  exact .pure fun i hi p hp => (hparams p hp).widen (Nat.le_refl _) (by omega)

end Scan

end JvmListing
