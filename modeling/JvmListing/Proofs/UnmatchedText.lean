/-
# Unmatched text

Words that start no construct are kept as entries, those in a row as one.  Reading takes
a text to pieces, one for every construct, comment or word (`Scan.Pieces`), which stand
in the text with nothing but blanks between them (`Tiles`).  Which words are one entry is
decided by a flag of the draft, clause by clause.  Here it is said of the pieces:

* an entry begins and ends with a word, and no construct is inside of it;
* every word is in an entry;
* between two entries there is a construct.

So the entries are the runs of words that are as long as can be (`Coalesced`), but for the
`end` of a body, which is no entry and leaves the flag as it is.  An `end` is inside of an
entry exactly if there are words before and after it with no construct between them.
-/
import JvmListing.Proofs.ReadSpelled
import JvmListing.Proofs.SourcePositions

namespace JvmListing

open Lexeme

variable {d : Dialect} {source : List Char}

/-! ## Pieces of a text -/

/-- Is the clause more than a word without a meaning or the `end` of a body? -/
def Clause.isConstruct : Clause → Bool
  | .unmatched _ | .bodyEnd => false
  | _ => true

/-- Is the clause a word without a meaning? -/
def Clause.isWord : Clause → Bool
  | .unmatched _ => true
  | _ => false

/-- The cursor behind the blanks. -/
def Cursor.pastBlanks (c : Cursor) : Cursor := c.advance (blanksLength c.rest)

namespace Scan

/-- The clauses that the text from a cursor on is read as, each with the range that was read. -/
inductive Pieces (d : Dialect) : Progress → Cursor → List (Located Clause) → Prop
  | done {p : Progress} {c : Cursor} (hend : c.pastBlanks.rest = [])
      (hclosed : p.openMethod = none) : Pieces d p c []
  | comment {p : Progress} {c : Cursor} {n : Nat} {pieces : List (Located Clause)}
      (hn : commentLength? c.pastBlanks.rest = some n)
      (hrest : Pieces d p (c.pastBlanks.advance n) pieces) :
      Pieces d p c
        (⟨.comment
          ⟨String.ofList (c.pastBlanks.rest.take n), c.pastBlanks.span (c.pastBlanks.advance n)⟩,
          c.pastBlanks.span (c.pastBlanks.advance n)⟩ :: pieces)
  | clause {p next : Progress} {c c' : Cursor} {clause : Clause} {pieces : List (Located Clause)}
      (hcomment : commentLength? c.pastBlanks.rest = none) (hne : c.pastBlanks.rest ≠ [])
      (hclause : clauseAt d p c.pastBlanks = .ok ((clause, next), c'))
      (hrest : Pieces d next c' pieces) :
      Pieces d p c (⟨clause, c.pastBlanks.span c'⟩ :: pieces)

end Scan

/-- Do the pieces stand in the source from an offset on, one after the other and with nothing but
blanks between them?  A word is what stands at its place. -/
structure Tiles (source : List Char) (lo : Nat) (pieces : List (Located Clause)) : Prop where
  spans : ∀ piece ∈ pieces, piece.position.Spans source lo source.length
  ordered : pieces.Pairwise fun a b => a.position.stop ≤ b.position.start
  covers : ∀ i x, lo ≤ i → source[i]? = some x → isBlank x = false →
    ∃ piece ∈ pieces, piece.position.start ≤ i ∧ i < piece.position.stop
  words : ∀ piece ∈ pieces, ∀ word, piece.value = .unmatched word →
    word.position = piece.position ∧ word.value = Draft.slice source piece.position
      ∧ ∀ x ∈ word.value.toList, isBlank x = false

section Cursors

variable {c : Cursor}

theorem Cursor.On.pastBlanks (hc : c.On source) : c.pastBlanks.On source := hc.advance _

theorem Cursor.offset_le_pastBlanks (c : Cursor) : c.offset ≤ c.pastBlanks.offset :=
  c.offset_le_advance _

/-- What is passed in front of a word is blank. -/
theorem Cursor.On.isBlank_of_lt_pastBlanks (hc : c.On source) {i : Nat} {x : Char}
    (hlo : c.offset ≤ i) (hi : i < c.pastBlanks.offset) (hx : source[i]? = some x) :
    isBlank x = true := by
  have hle : i - c.offset < blanksLength c.rest := by
    rw [Cursor.pastBlanks, Cursor.offset_advance] at hi
    omega
  refine allBlank_take c.rest x (List.mem_of_getElem? (i := i - c.offset) ?_)
  rw [List.getElem?_take_of_lt hle, hc.rest, List.getElem?_drop, Nat.add_sub_cancel' hlo]
  exact hx

theorem Scan.noTrivia_pastBlanks (hcomment : commentLength? c.pastBlanks.rest = none) :
    NoTrivia c.pastBlanks.rest := by
  refine ⟨?_, hcomment⟩
  rw [Cursor.pastBlanks, Cursor.rest_advance]
  exact head_drop_spanLength isBlank c.rest

end Cursors

namespace Tiles

variable {lo : Nat} {piece : Located Clause} {pieces : List (Located Clause)} {c : Cursor}

theorem nil (hc : c.On source) (hend : c.pastBlanks.rest = []) : Tiles source c.offset [] where
  spans _ h := nomatch h
  ordered := .nil
  covers := by
    intro i x hlo hx hword
    have hlength := hc.pastBlanks.rest
    rw [hend, eq_comm, List.drop_eq_nil_iff] at hlength
    have hi := (List.getElem?_eq_some_iff.mp hx).1
    rw [hc.isBlank_of_lt_pastBlanks hlo (Nat.lt_of_lt_of_le hi hlength) hx] at hword
    cases hword
  words _ h := nomatch h

/-- A piece behind the blanks at a cursor, and those after it. -/
theorem cons (hc : c.On source) {c' : Cursor} (hc' : c'.On source)
    (hlt : c.pastBlanks.offset < c'.offset) {clause : Clause}
    (hword : ∀ word, clause = .unmatched word → word.position = c.pastBlanks.span c'
      ∧ word.value = Draft.slice source (c.pastBlanks.span c')
      ∧ ∀ x ∈ word.value.toList, isBlank x = false)
    (h : Tiles source c'.offset pieces) :
    Tiles source c.offset (⟨clause, c.pastBlanks.span c'⟩ :: pieces) where
  spans := by
    have hexact := hc.pastBlanks.span hc' (Nat.le_of_lt hlt)
    refine List.forall_mem_cons.mpr ⟨⟨hexact, c.offset_le_pastBlanks, hlt, hc'.within⟩, ?_⟩
    intro piece hpiece
    have hle := Nat.le_trans c.offset_le_pastBlanks (Nat.le_of_lt hlt)
    exact (h.spans piece hpiece).widen hle (Nat.le_refl _)
  ordered := List.pairwise_cons.mpr ⟨fun piece hpiece => (h.spans piece hpiece).after, h.ordered⟩
  covers := by
    intro i x hlo hx hblank
    by_cases hbefore : i < c.pastBlanks.offset
    · rw [hc.isBlank_of_lt_pastBlanks hlo hbefore hx] at hblank
      cases hblank
    by_cases hhere : i < c'.offset
    · exact ⟨_, List.mem_cons_self, Nat.not_lt.mp hbefore, hhere⟩
    · obtain ⟨piece, hpiece, hi⟩ := h.covers i x (Nat.not_lt.mp hhere) hx hblank
      exact ⟨piece, List.mem_cons_of_mem _ hpiece, hi⟩
  words := List.forall_mem_cons.mpr ⟨hword, h.words⟩

theorem tail (h : Tiles source lo (piece :: pieces)) : Tiles source piece.position.stop pieces where
  spans q hq :=
    have hspan := h.spans q (List.mem_cons_of_mem _ hq)
    ⟨hspan.isExact, (List.pairwise_cons.mp h.ordered).1 q hq, hspan.nonempty, hspan.before⟩
  ordered := (List.pairwise_cons.mp h.ordered).2
  covers := by
    intro i x hi hx hword
    have hspan := h.spans piece List.mem_cons_self
    have hlo := Nat.le_trans hspan.after (Nat.le_of_lt hspan.nonempty)
    obtain ⟨q, hq, hcovered⟩ := h.covers i x (Nat.le_trans hlo hi) hx hword
    rcases List.mem_cons.mp hq with rfl | hq
    · exact absurd hcovered.2 (Nat.not_lt.mpr hi)
    · exact ⟨q, hq, hcovered⟩
  words q hq := h.words q (List.mem_cons_of_mem _ hq)

end Tiles

namespace Scan

variable {p : Progress} {c c' : Cursor}

theorem laid_of_clauseAt {r : Clause × Progress} (hp : p.On source) (hc : c.On source)
    (hword : c.AtWord) (h : clauseAt d p c = .ok (r, c')) : r.1.Laid source c.offset c'.offset := by
  have hends : Ends source c.offset (fun r n => r.1.Laid source c.offset n ∧ r.2.On source)
      (clauseAt d p c) := ends_clause d hp hc hword
  rw [h] at hends
  cases hends with
  | ok _ _ hr => exact hr.1

/-- A word that is kept is read whole, and nothing else. -/
theorem word_of_clauseAt {next : Progress} {word : Located String} (hc : c.On source)
    (htrivia : NoTrivia c.rest) (hne : c.rest ≠ [])
    (h : clauseAt d p c = .ok ((.unmatched word, next), c')) :
    word.position = c.span c' ∧ word.value = Draft.slice source (c.span c')
      ∧ ∀ x ∈ word.value.toList, isBlank x = false := by
  have hread := clauseRead_clauseAt hc htrivia hne h
  cases hread with
  | spelled hspelled => exact hspelled.elim
  | stray hstray =>
      refine ⟨rfl, (hc.slice_span _).symm, ?_⟩
      exact fun x hx => ((isSignature_iff.mp hstray.signature).2.1 x hx).1

/-- Clauses that are read come from pieces, if there is a step for every character. -/
theorem exists_pieces {fuel : Nat} : ∀ {p : Progress} {c c' : Cursor} {clauses : List Clause},
    p.On source → c.On source → source.length < c.offset + fuel →
    clausesIn d fuel p c = .ok (clauses, c') →
    ∃ pieces, Pieces d p c pieces ∧ pieces.map (·.value) = clauses := by
  induction fuel with
  | zero =>
      intro p c c' clauses _ hc hfuel _
      exact absurd hc.within (Nat.not_le.mpr hfuel)
  | succ fuel ih =>
      intro p c c' clauses hp hc hfuel hrun
      have hon := hc.pastBlanks
      have hle := c.offset_le_pastBlanks
      cases hcomment : commentLength? c.pastBlanks.rest with
      | some n =>
          rw [clausesIn_comment d fuel p rfl hcomment] at hrun
          obtain ⟨⟨more, _⟩, hmore, hrun⟩ := except_bind_eq_ok.mp hrun
          cases hrun
          have hlt := (comment_spans hon hcomment).lt
          obtain ⟨pieces, hpieces, hvalues⟩ := ih hp (hon.advance n) (by omega) hmore
          exact ⟨_, .comment hcomment hpieces, congrArg _ hvalues⟩
      | none =>
          by_cases hne : c.pastBlanks.rest = []
          · rw [clausesIn_end d fuel p hne] at hrun
            split at hrun
            · cases hrun
            · rename_i hclosed
              cases hrun
              exact ⟨[], .done hne hclosed, rfl⟩
          · rw [clausesIn_clause d fuel p rfl hcomment hne] at hrun
            obtain ⟨⟨⟨clause, next⟩, c₁⟩, hclause, hrun⟩ := except_bind_eq_ok.mp hrun
            obtain ⟨⟨more, _⟩, hmore, hrun⟩ := except_bind_eq_ok.mp hrun
            cases hrun
            have hword := atWord_of_noTrivia (noTrivia_pastBlanks hcomment) hne
            obtain ⟨hon₁, hnext⟩ := on_of_clauseAt hp hon hword hclause
            have hlt := (laid_of_clauseAt hp hon hword hclause).lt
            obtain ⟨pieces, hpieces, hvalues⟩ := ih hnext hon₁ (by omega) hmore
            exact ⟨_, .clause hcomment hne hclause hpieces, congrArg _ hvalues⟩

/-- Pieces stand in the text they are read from, each as its clause says. -/
theorem Pieces.tiles {pieces : List (Located Clause)} (h : Pieces d p c pieces) (hp : p.On source)
    (hc : c.On source) : Tiles source c.offset pieces
      ∧ ∀ piece ∈ pieces, piece.value.Laid source piece.position.start piece.position.stop := by
  induction h with
  | done hend _ => exact ⟨.nil hc hend, List.forall_mem_nil _⟩
  | @comment p c n pieces hn _ ih =>
      have hon := hc.pastBlanks
      have hspan := comment_spans hon hn
      obtain ⟨htiles, hlaid⟩ := ih hp (hon.advance n)
      refine ⟨htiles.cons hc (hon.advance n) hspan.lt nofun, List.forall_mem_cons.mpr ⟨?_, hlaid⟩⟩
      exact ⟨hspan, (hon.slice_span n).symm⟩
  | @clause p next c c' clause pieces hcomment hne hclause _ ih =>
      have hon := hc.pastBlanks
      have htrivia := noTrivia_pastBlanks hcomment
      have hword := atWord_of_noTrivia htrivia hne
      obtain ⟨hon', hnext⟩ := on_of_clauseAt hp hon hword hclause
      have hown := laid_of_clauseAt hp hon hword hclause
      obtain ⟨htiles, hlaid⟩ := ih hnext hon'
      refine ⟨htiles.cons hc hon' hown.lt ?_, List.forall_mem_cons.mpr ⟨hown, hlaid⟩⟩
      rintro word rfl
      exact word_of_clauseAt hon htrivia hne hclause

end Scan

/-! ## Entries of unmatched text -/

/-- The entries of a body that are unmatched text. -/
def Code.unmatched (code : Code) : Code := code.filter (·.value.unmatched?.isSome)

/-- Do the ranges have a character in common? -/
def Position.Meets (a b : Position) : Prop := a.start < b.stop ∧ b.start < a.stop

/-- Are the unmatched entries of a body the longest runs of words among the pieces, if a run goes
on up to a clause that `stops` it? -/
structure Coalesced (stops : Clause → Bool) (pieces : List (Located Clause))
    (code : Code) : Prop where
  /-- An entry begins and ends with a word. -/
  edges : ∀ e ∈ code.unmatched, ∃ first ∈ pieces, ∃ last ∈ pieces, first.value.isWord = true
    ∧ last.value.isWord = true ∧ first.position.start = e.position.start
    ∧ last.position.stop = e.position.stop
  /-- Nothing that stops a run is inside of an entry. -/
  pure : ∀ e ∈ code.unmatched, ∀ piece ∈ pieces, piece.position.Meets e.position →
    stops piece.value = false
  /-- Every word is inside of an entry. -/
  kept : ∀ piece ∈ pieces, piece.value.isWord = true → ∃ e ∈ code.unmatched,
    e.position.start ≤ piece.position.start ∧ piece.position.stop ≤ e.position.stop
  /-- Something stops a run between two entries. -/
  apart : code.unmatched.Pairwise fun e e' => ∃ piece ∈ pieces, stops piece.value = true
    ∧ e.position.stop ≤ piece.position.start ∧ piece.position.stop ≤ e'.position.start

/-- Do constructs stop the runs of a draft?  The next word joins the last entry exactly if no
construct has come since that. -/
structure Draft.Coalesced (seen : List (Located Clause)) (draft : Draft) : Prop where
  runs : JvmListing.Coalesced Clause.isConstruct seen draft.code
  growing : draft.joining = true → ∃ (init : Code) (text : String) (position : Position),
    draft.code = init ++ [⟨.unmatched text, position⟩]
      ∧ ∀ piece ∈ seen, position.stop ≤ piece.position.start → piece.value.isConstruct = false
  closed : draft.joining = false → ∀ e ∈ draft.code.unmatched, ∃ piece ∈ seen,
    piece.value.isConstruct = true ∧ e.position.stop ≤ piece.position.start

theorem Clause.isWord_of_isConstruct {clause : Clause} (h : clause.isConstruct = true) :
    clause.isWord = false := by
  cases clause with
  | unmatched => cases h
  | _ => rfl

theorem Clause.isConstruct_of_isWord {clause : Clause} (h : clause.isWord = true) :
    clause.isConstruct = false := by
  cases clause with
  | unmatched => rfl
  | _ => cases h

theorem Draft.push_unmatched_eq (draft : Draft) {s : Statement} (hs : s.unmatched? = none)
    (position : Position) : (draft.push s position).code.unmatched = draft.code.unmatched := by
  show List.filter _ (_ ++ _) = _
  rw [List.filter_append, List.filter_cons_of_neg (by simp [hs]), List.filter_nil, List.append_nil]
  rfl

theorem Draft.define_code {draft draft' : Draft} {x : Definition}
    (h : draft.define x = .ok draft') :
    draft'.code = draft.code ∧ draft'.joining = draft.joining := by
  unfold Draft.define at h
  split at h
  · cases h
  · cases h
    exact ⟨rfl, rfl⟩

/-- A construct adds no unmatched text. -/
theorem Draft.addRecognized_unmatched {draft draft' : Draft} {clause : Clause}
    (h : draft.addRecognized clause = .ok draft') :
    draft'.code.unmatched = draft.code.unmatched ∧ draft'.joining = draft.joining := by
  cases clause with
  | bodyEnd | unmatched =>
      cases h
      exact ⟨rfl, rfl⟩
  | label | tryCatch | expression | comment =>
      cases h
      exact ⟨draft.push_unmatched_eq rfl _, rfl⟩
  | line | instruction =>
      obtain ⟨op, -, h⟩ := except_bind_eq_ok.mp h
      cases h
      exact ⟨draft.push_unmatched_eq rfl _, rfl⟩
  | signature | throws =>
      rw [Draft.addRecognized] at h
      split at h
      · cases h
        exact ⟨rfl, rfl⟩
      · cases h
        exact ⟨draft.push_unmatched_eq rfl _, rfl⟩
  | value | annot =>
      obtain ⟨v, -, h⟩ := except_bind_eq_ok.mp h
      split at h
      · cases h
        exact ⟨rfl, rfl⟩
      · cases h
        exact ⟨draft.push_unmatched_eq rfl _, rfl⟩
  | deprecated =>
      rw [Draft.addRecognized] at h
      split at h
      all_goals
        cases h
        exact ⟨rfl, rfl⟩
  | method modifiers name params result position =>
      cases result with
      | none => cases h
      | some result =>
          obtain ⟨access, -, h⟩ := except_bind_eq_ok.mp h
          obtain ⟨hcode, hjoining⟩ := define_code h
          exact ⟨congrArg Code.unmatched hcode, hjoining⟩
  | field modifiers name desc value position =>
      obtain ⟨access, -, h⟩ := except_bind_eq_ok.mp h
      cases value with
      | none =>
          obtain ⟨hcode, hjoining⟩ := define_code h
          exact ⟨congrArg Code.unmatched hcode, hjoining⟩
      | some l =>
          obtain ⟨own, -, h⟩ := except_bind_eq_ok.mp h
          obtain ⟨hcode, hjoining⟩ := define_code h
          exact ⟨congrArg Code.unmatched hcode, hjoining⟩

theorem Code.unmatched_concat (code : Code) (text : String) (position : Position) :
    Code.unmatched (code ++ [⟨.unmatched text, position⟩]) =
      code.unmatched ++ [⟨.unmatched text, position⟩] := by
  unfold Code.unmatched
  rw [List.filter_append]
  rfl

theorem Code.mem_of_mem_unmatched {code : Code} {e : Entry} (h : e ∈ code.unmatched) : e ∈ code :=
  (List.mem_filter.mp h).1

section Steps

variable {seen : List (Located Clause)} {piece : Located Clause} {code code' : Code}
  {draft draft' : Draft} {lo hi : Nat}

/-- A piece after all entries that is no word. -/
theorem Coalesced.grow (h : Coalesced Clause.isConstruct seen code)
    (hcode : code'.unmatched = code.unmatched) (hword : piece.value.isWord = false)
    (hafter : ∀ e ∈ code.unmatched, e.position.stop ≤ piece.position.start) :
    Coalesced Clause.isConstruct (seen ++ [piece]) code' := by
  constructor
  · intro e he
    rw [hcode] at he
    obtain ⟨first, hfirst, last, hlast, hedges⟩ := h.edges e he
    exact ⟨first, List.mem_append_left _ hfirst, last, List.mem_append_left _ hlast, hedges⟩
  · intro e he q hq hmeets
    rw [hcode] at he
    rcases List.mem_append.mp hq with hq | hq
    · exact h.pure e he q hq hmeets
    · cases List.mem_singleton.mp hq
      exact absurd hmeets.1 (Nat.not_lt.mpr (hafter e he))
  · intro q hq hqword
    rw [hcode]
    rcases List.mem_append.mp hq with hq | hq
    · exact h.kept q hq hqword
    · cases List.mem_singleton.mp hq
      rw [hword] at hqword
      cases hqword
  · rw [hcode]
    refine h.apart.imp ?_
    rintro e e' ⟨q, hq, hbetween⟩
    exact ⟨q, List.mem_append_left _ hq, hbetween⟩

/-- A last entry up to the end of a word, in place of those that it covers. -/
theorem Coalesced.concat {init : Code} {text : String} {position : Position}
    (h : Coalesced Clause.isConstruct seen code) (hinit : init.unmatched.Sublist code.unmatched)
    (hcovers : ∀ e ∈ code.unmatched, e ∈ init.unmatched
      ∨ (position.start ≤ e.position.start ∧ e.position.stop ≤ position.stop))
    (hword : piece.value.isWord = true) (hstart : position.start ≤ piece.position.start)
    (hstop : position.stop = piece.position.stop)
    (hfirst : ∃ first ∈ seen ++ [piece], first.value.isWord = true
      ∧ first.position.start = position.start)
    (hpure : ∀ q ∈ seen, q.position.Meets position → q.value.isConstruct = false)
    (hapart : ∀ e ∈ init.unmatched, ∃ q ∈ seen, q.value.isConstruct = true
      ∧ e.position.stop ≤ q.position.start ∧ q.position.stop ≤ position.start) :
    Coalesced Clause.isConstruct (seen ++ [piece]) (init ++ [⟨.unmatched text, position⟩]) := by
  have hself : piece ∈ seen ++ [piece] := List.mem_append_right _ List.mem_cons_self
  constructor <;> rw [Code.unmatched_concat]
  · intro e he
    rcases List.mem_append.mp he with he | he
    · obtain ⟨first, hfirst, last, hlast, hedges⟩ := h.edges e (hinit.mem he)
      exact ⟨first, List.mem_append_left _ hfirst, last, List.mem_append_left _ hlast, hedges⟩
    · cases List.mem_singleton.mp he
      obtain ⟨first, hmem, hfirstWord, hbegins⟩ := hfirst
      exact ⟨first, hmem, piece, hself, hfirstWord, hword, hbegins, hstop.symm⟩
  · intro e he q hq hmeets
    rcases List.mem_append.mp hq with hq | hq
    · rcases List.mem_append.mp he with he | he
      · exact h.pure e (hinit.mem he) q hq hmeets
      · cases List.mem_singleton.mp he
        exact hpure q hq hmeets
    · cases List.mem_singleton.mp hq
      exact Clause.isConstruct_of_isWord hword
  · intro q hq hqword
    rcases List.mem_append.mp hq with hq | hq
    · obtain ⟨e, he, hinside⟩ := h.kept q hq hqword
      rcases hcovers e he with he | hwider
      · exact ⟨e, List.mem_append_left _ he, hinside⟩
      · exact ⟨_, List.mem_append_right _ List.mem_cons_self, Nat.le_trans hwider.1 hinside.1,
          Nat.le_trans hinside.2 hwider.2⟩
    · cases List.mem_singleton.mp hq
      exact ⟨_, List.mem_append_right _ List.mem_cons_self, hstart, Nat.le_of_eq hstop.symm⟩
  · refine List.pairwise_append.mpr ⟨?_, List.pairwise_singleton _ _, ?_⟩
    · refine (h.apart.sublist hinit).imp ?_
      rintro e e' ⟨q, hq, hbetween⟩
      exact ⟨q, List.mem_append_left _ hq, hbetween⟩
    · intro e he e' he'
      cases List.mem_singleton.mp he'
      obtain ⟨q, hq, hbetween⟩ := hapart e he
      exact ⟨q, List.mem_append_left _ hq, hbetween⟩

namespace Draft.Coalesced

theorem empty : Draft.Coalesced [] {} where
  runs := ⟨fun _ h => absurd h List.not_mem_nil, fun _ h => absurd h List.not_mem_nil,
    fun _ h => absurd h List.not_mem_nil, List.Pairwise.nil⟩
  growing h := nomatch h
  closed _ _ h := absurd h List.not_mem_nil

theorem construct (h : Draft.Coalesced seen draft) (hdraft : draft.Laid source lo)
    (hpiece : piece.position.Spans source lo hi) (hconstruct : piece.value.isConstruct = true)
    (hadd : { draft with joining := false }.addRecognized piece.value = .ok draft') :
    Draft.Coalesced (seen ++ [piece]) draft' := by
  obtain ⟨hcode, hjoining⟩ := addRecognized_unmatched hadd
  have hafter : ∀ e ∈ draft.code.unmatched, e.position.stop ≤ piece.position.start := by
    intro e he
    exact Nat.le_trans (hdraft.spans e (Code.mem_of_mem_unmatched he)).before hpiece.after
  constructor
  · exact h.runs.grow hcode (Clause.isWord_of_isConstruct hconstruct) hafter
  · intro hjoins
    rw [hjoining] at hjoins
    cases hjoins
  · intro _ e he
    rw [hcode] at he
    exact ⟨piece, List.mem_append_right _ List.mem_cons_self, hconstruct, hafter e he⟩

theorem bodyEnd (h : Draft.Coalesced seen draft) (hdraft : draft.Laid source lo)
    (hpiece : piece.position.Spans source lo hi) (hend : piece.value = .bodyEnd) :
    Draft.Coalesced (seen ++ [piece]) draft := by
  constructor
  · refine h.runs.grow rfl (by rw [hend]; rfl) ?_
    intro e he
    exact Nat.le_trans (hdraft.spans e (Code.mem_of_mem_unmatched he)).before hpiece.after
  · intro hjoins
    obtain ⟨init, text, position, hcode, hsince⟩ := h.growing hjoins
    refine ⟨init, text, position, hcode, ?_⟩
    intro q hq hafter
    rcases List.mem_append.mp hq with hq | hq
    · exact hsince q hq hafter
    · cases List.mem_singleton.mp hq
      rw [hend]
      rfl
  · intro hjoins e he
    obtain ⟨q, hq, hafter⟩ := h.closed hjoins e he
    exact ⟨q, List.mem_append_left _ hq, hafter⟩

/-- After a word nothing has come yet. -/
theorem since_word (hseen : ∀ q ∈ seen, q.position.Spans source 0 lo)
    (hpiece : piece.position.Spans source lo hi) (hword : piece.value.isWord = true) :
    ∀ q ∈ seen ++ [piece], piece.position.stop ≤ q.position.start →
      q.value.isConstruct = false := by
  intro q hq hafter
  rcases List.mem_append.mp hq with hq | hq
  · have hbefore := Nat.lt_of_lt_of_le (hseen q hq).nonempty (hseen q hq).before
    have hlate := Nat.le_trans (Nat.le_of_lt hpiece.nonempty) hafter
    exact absurd (Nat.le_trans hpiece.after hlate) (Nat.not_le.mpr hbefore)
  · cases List.mem_singleton.mp hq
    exact Clause.isConstruct_of_isWord hword

/-- A word after a construct begins an entry. -/
theorem firstWord (h : Draft.Coalesced seen draft)
    (hseen : ∀ q ∈ seen, q.position.Spans source 0 lo)
    (hpiece : piece.position.Spans source lo hi) (hword : piece.value.isWord = true)
    (hjoins : draft.joining = false) (text : String) :
    Draft.Coalesced (seen ++ [piece]) (draft.addUnmatched source ⟨text, piece.position⟩) := by
  have hself : piece ∈ seen ++ [piece] := List.mem_append_right _ List.mem_cons_self
  have hdraft' : draft.addUnmatched source ⟨text, piece.position⟩ =
      { draft.push (.unmatched text) piece.position with joining := true } := by
    rw [addUnmatched, hjoins]
  rw [hdraft']
  constructor
  · refine h.runs.concat (List.Sublist.refl _) (fun e he => Or.inl he) hword (Nat.le_refl _) rfl
      ⟨piece, hself, hword, rfl⟩ ?_ ?_
    · intro q hq hmeets
      have hbefore := Nat.le_trans (hseen q hq).before hpiece.after
      exact absurd hmeets.2 (Nat.not_lt.mpr hbefore)
    · intro e he
      obtain ⟨q, hq, hconstruct, hqafter⟩ := h.closed hjoins e he
      exact ⟨q, hq, hconstruct, hqafter, Nat.le_trans (hseen q hq).before hpiece.after⟩
  · intro _
    exact ⟨draft.code, text, piece.position, rfl, since_word hseen hpiece hword⟩
  · nofun

/-- Any other word makes the last entry longer. -/
theorem nextWord (h : Draft.Coalesced seen draft) (hdraft : draft.Laid source lo)
    (hseen : ∀ q ∈ seen, q.position.Spans source 0 lo) (hpiece : piece.position.Spans source lo hi)
    (hword : piece.value.isWord = true) (hjoins : draft.joining = true) (text : String) :
    Draft.Coalesced (seen ++ [piece]) (draft.addUnmatched source ⟨text, piece.position⟩) := by
  obtain ⟨init, old, before, hcode, hsince⟩ := h.growing hjoins
  have hdraft' : draft.addUnmatched source ⟨text, piece.position⟩ =
      { draft with code := init ++ [⟨.unmatched (slice source (before.merge piece.position)),
        before.merge piece.position⟩] } := by
    rw [addUnmatched, hjoins, hcode, List.getLast?_concat, List.dropLast_concat]
  have hbefore : before.Spans source 0 lo := hdraft.spans ⟨.unmatched old, before⟩
    (by rw [hcode]; exact List.mem_append_right _ List.mem_cons_self)
  have hgap : before.stop ≤ piece.position.start := Nat.le_trans hbefore.before hpiece.after
  have hgrows : before.stop ≤ piece.position.stop :=
    Nat.le_trans hgap (Nat.le_of_lt hpiece.nonempty)
  have hbegins : before.start ≤ piece.position.start :=
    Nat.le_trans (Nat.le_of_lt hbefore.nonempty) hgap
  have hstart : (before.merge piece.position).start = before.start := Nat.min_eq_left hbegins
  have hstop : (before.merge piece.position).stop = piece.position.stop := Nat.max_eq_right hgrows
  have hold : draft.code.unmatched = init.unmatched ++ [⟨.unmatched old, before⟩] := by
    rw [hcode, Code.unmatched_concat]
  have holdMem : (⟨.unmatched old, before⟩ : Entry) ∈ draft.code.unmatched := by
    rw [hold]
    exact List.mem_append_right _ List.mem_cons_self
  rw [hdraft']
  constructor
  · refine h.runs.concat (by rw [hold]; exact List.sublist_append_left _ _) ?_ hword
      (by rw [hstart]; exact hbegins) hstop ?_ ?_ ?_
    · intro e he
      rw [hold] at he
      rcases List.mem_append.mp he with he | he
      · exact Or.inl he
      · cases List.mem_singleton.mp he
        rw [hstart, hstop]
        exact Or.inr ⟨Nat.le_refl _, hgrows⟩
    · obtain ⟨first, hfirst, -, -, hfirstWord, -, hedge, -⟩ := h.runs.edges _ holdMem
      rw [hstart]
      exact ⟨first, List.mem_append_left _ hfirst, hfirstWord, hedge⟩
    · -- what meets the longer entry met the shorter one, or came after it
      intro q hq hmeets
      by_cases hlate : before.stop ≤ q.position.start
      · exact hsince q hq hlate
      · refine h.runs.pure _ holdMem q hq ⟨Nat.not_le.mp hlate, ?_⟩
        rw [← hstart]
        exact hmeets.2
    · have hapart := h.runs.apart
      rw [hold] at hapart
      intro e he
      rw [hstart]
      exact (List.pairwise_append.mp hapart).2.2 e he _ List.mem_cons_self
  · intro _
    refine ⟨init, _, _, rfl, ?_⟩
    rw [hstop]
    exact since_word hseen hpiece hword
  · intro hnot
    rw [show draft.joining = false from hnot] at hjoins
    cases hjoins

theorem word (h : Draft.Coalesced seen draft) (hdraft : draft.Laid source lo)
    (hseen : ∀ q ∈ seen, q.position.Spans source 0 lo) (hpiece : piece.position.Spans source lo hi)
    (hword : piece.value.isWord = true) (text : String) :
    Draft.Coalesced (seen ++ [piece]) (draft.addUnmatched source ⟨text, piece.position⟩) := by
  cases hjoins : draft.joining with
  | false => exact h.firstWord hseen hpiece hword hjoins text
  | true => exact h.nextWord hdraft hseen hpiece hword hjoins text

end Draft.Coalesced

end Steps

/-- The pieces of a text are added in turn. -/
theorem Draft.Coalesced.run {pieces : List (Located Clause)} : ∀ {lo : Nat}
    {seen : List (Located Clause)} {draft result : Draft}, Tiles source lo pieces →
    (∀ piece ∈ pieces, piece.value.Laid source piece.position.start piece.position.stop) →
    draft.Laid source lo → (∀ q ∈ seen, q.position.Spans source 0 lo) →
    Draft.Coalesced seen draft →
    (pieces.map (·.value)).foldlM (Draft.add source) draft = .ok result →
    result.Laid source source.length ∧ Draft.Coalesced (seen ++ pieces) result := by
  induction pieces with
  | nil =>
      intro lo seen draft result _ _ hdraft _ h hrun
      cases hrun
      rw [List.append_nil]
      exact ⟨hdraft.bounded, h⟩
  | cons piece pieces ih =>
      intro lo seen draft result htiles hlaid hdraft hseen h hrun
      obtain ⟨hown, hlaid⟩ := List.forall_mem_cons.mp hlaid
      rw [List.map_cons, List.foldlM_cons] at hrun
      obtain ⟨draft', hadd, hrun⟩ := except_bind_eq_ok.mp hrun
      have hspan := htiles.spans piece List.mem_cons_self
      have hle := Nat.le_trans hspan.after (Nat.le_of_lt hspan.nonempty)
      have hpiece : piece.position.Spans source lo piece.position.stop :=
        ⟨hspan.isExact, hspan.after, hspan.nonempty, Nat.le_refl _⟩
      have hdraft' : draft'.Laid source piece.position.stop := by
        have hadds := Draft.adds_clause hdraft hle (hown.widen hspan.after (Nat.le_refl _))
        rw [hadd] at hadds
        cases hadds with
        | ok hlaid => exact hlaid
      have hseen' : ∀ q ∈ seen ++ [piece], q.position.Spans source 0 piece.position.stop := by
        refine List.forall_mem_append.mpr ⟨fun q hq => (hseen q hq).widen (Nat.le_refl _) hle, ?_⟩
        exact List.forall_mem_singleton.mpr (hpiece.widen (Nat.zero_le _) (Nat.le_refl _))
      have hstep : Draft.Coalesced (seen ++ [piece]) draft' := by
        cases hv : piece.value with
        | unmatched word =>
            obtain ⟨hposition, -, -⟩ := htiles.words piece List.mem_cons_self word hv
            rw [hv] at hadd
            cases hadd
            obtain ⟨text, position⟩ := word
            cases hposition
            exact h.word hdraft hseen hpiece (by rw [hv]; rfl) text
        | bodyEnd =>
            rw [hv] at hadd
            cases hadd
            exact h.bodyEnd hdraft hpiece hv
        | _ =>
            have hconstruct : piece.value.isConstruct = true := by rw [hv]; rfl
            refine h.construct hdraft hpiece hconstruct ?_
            rw [hv] at hadd ⊢
            exact hadd
      rw [List.append_cons]
      exact ih htiles.tail hlaid hdraft' hseen' hstep hrun

/-! ## The `end` of a body -/

/-- Of two members one is before the other. -/
theorem rel_or_rel_of_pairwise {α : Type} {R : α → α → Prop} {l : List α} (h : l.Pairwise R)
    {a b : α} (ha : a ∈ l) (hb : b ∈ l) (hne : a ≠ b) : R a b ∨ R b a := by
  have hsymm : Std.Symm fun a b => R a b ∨ R b a := ⟨fun _ _ => Or.symm⟩
  exact (h.imp Or.inl : l.Pairwise fun a b => R a b ∨ R b a).forall ha hb hne

/-- Do words come before and after a piece with no construct between them? -/
def BetweenWords (pieces : List (Located Clause)) (piece : Located Clause) : Prop :=
  ∃ a ∈ pieces, ∃ b ∈ pieces, a.value.isWord = true ∧ b.value.isWord = true
    ∧ a.position.stop ≤ piece.position.start ∧ piece.position.stop ≤ b.position.start
    ∧ ∀ q ∈ pieces, a.position.stop ≤ q.position.start → q.position.stop ≤ b.position.start →
      q.value.isConstruct = false

/-- Words with no construct between them are in one entry. -/
theorem Coalesced.entry_eq {pieces : List (Located Clause)} {code : Code}
    (htiles : Tiles source 0 pieces) (h : Coalesced Clause.isConstruct pieces code)
    {a b : Located Clause} (ha : a ∈ pieces) (hb : b ∈ pieces)
    (hbefore : a.position.stop ≤ b.position.start)
    (hnone : ∀ q ∈ pieces, a.position.stop ≤ q.position.start → q.position.stop ≤ b.position.start →
      q.value.isConstruct = false)
    {e e' : Entry} (he : e ∈ code.unmatched) (he' : e' ∈ code.unmatched)
    (hea : e.position.start ≤ a.position.start ∧ a.position.stop ≤ e.position.stop)
    (heb : e'.position.start ≤ b.position.start ∧ b.position.stop ≤ e'.position.stop) : e = e' := by
  have := (htiles.spans a ha).nonempty
  have := (htiles.spans b hb).nonempty
  by_contra hdiffer
  rcases rel_or_rel_of_pairwise h.apart he he' hdiffer with hbetween | hbetween
  · -- a construct between the two entries would stand between the words
    obtain ⟨q, hq, hconstruct, hqafter, hqbefore⟩ := hbetween
    rw [hnone q hq (by omega) (by omega)] at hconstruct
    cases hconstruct
  · obtain ⟨q, hq, -, hqafter, hqbefore⟩ := hbetween
    have := (htiles.spans q hq).nonempty
    omega

/-- An `end` is inside of an entry exactly if it is between words. -/
theorem Coalesced.end_inside_iff {pieces : List (Located Clause)} {code : Code}
    (htiles : Tiles source 0 pieces) (h : Coalesced Clause.isConstruct pieces code)
    {close : Located Clause} (hmem : close ∈ pieces) (hend : close.value = .bodyEnd) :
    (∃ e ∈ code.unmatched, close.position.Meets e.position) ↔ BetweenWords pieces close := by
  have hnoWord : close.value.isWord = false := by rw [hend]; rfl
  have hne : ∀ {a : Located Clause}, a.value.isWord = true → close ≠ a := by
    rintro a ha rfl
    rw [hnoWord] at ha
    cases ha
  constructor
  · rintro ⟨e, he, hmeets⟩
    obtain ⟨a, ha, b, hb, haword, hbword, hstart, hstop⟩ := h.edges e he
    have haspan := htiles.spans a ha
    have hbspan := htiles.spans b hb
    have hafter : a.position.stop ≤ close.position.start := by
      rcases rel_or_rel_of_pairwise htiles.ordered hmem ha (hne haword) with hbefore | hafter
      · exact absurd hmeets.2 (Nat.not_lt.mpr (hstart ▸ hbefore))
      · exact hafter
    have hbefore : close.position.stop ≤ b.position.start := by
      rcases rel_or_rel_of_pairwise htiles.ordered hmem hb (hne hbword) with hbefore | hafter
      · exact hbefore
      · exact absurd hmeets.1 (Nat.not_lt.mpr (hstop ▸ hafter))
    refine ⟨a, ha, b, hb, haword, hbword, hafter, hbefore, ?_⟩
    intro q hq hqafter hqbefore
    have hqspan := htiles.spans q hq
    refine h.pure e he q hq ⟨?_, ?_⟩
    · rw [← hstop]
      have := hqspan.nonempty
      have := hbspan.nonempty
      omega
    · rw [← hstart]
      have := hqspan.nonempty
      have := haspan.nonempty
      omega
  · rintro ⟨a, ha, b, hb, haword, hbword, hafter, hbefore, hnone⟩
    obtain ⟨e, he, hea⟩ := h.kept a ha haword
    obtain ⟨e', he', heb⟩ := h.kept b hb hbword
    have := (htiles.spans a ha).nonempty
    have := (htiles.spans b hb).nonempty
    have := (htiles.spans close hmem).nonempty
    obtain rfl := h.entry_eq htiles ha hb (by omega) hnone he he' hea heb
    exact ⟨e, he, by omega, by omega⟩

theorem Clause.eq_bodyEnd {clause : Clause} (hword : clause.isWord = false)
    (hconstruct : clause.isConstruct = false) : clause = .bodyEnd := by
  cases clause with
  | bodyEnd => rfl
  | unmatched => cases hword
  | _ => cases hconstruct

/-- If a run goes on up to anything that is no word, it is the `end` of a body that can make the
difference. -/
theorem Coalesced.words_iff {pieces : List (Located Clause)} {code : Code}
    (htiles : Tiles source 0 pieces) (h : Coalesced Clause.isConstruct pieces code) :
    Coalesced (!·.isWord) pieces code ↔
      ∀ close ∈ pieces, close.value = .bodyEnd → ¬BetweenWords pieces close := by
  constructor
  · intro hwords close hmem hend hbetween
    obtain ⟨e, he, hmeets⟩ := (h.end_inside_iff htiles hmem hend).mpr hbetween
    have hpure := hwords.pure e he close hmem hmeets
    rw [hend] at hpure
    cases hpure
  · intro hends
    refine ⟨h.edges, ?_, h.kept, h.apart.imp ?_⟩
    · intro e he piece hmem hmeets
      by_contra hstops
      have hend := Clause.eq_bodyEnd (by simpa using hstops) (h.pure e he piece hmem hmeets)
      exact hends piece hmem hend ((h.end_inside_iff htiles hmem hend).mp ⟨e, he, hmeets⟩)
    · rintro e e' ⟨piece, hmem, hconstruct, hbetween⟩
      exact ⟨piece, hmem, by rw [Clause.isWord_of_isConstruct hconstruct]; rfl, hbetween⟩

namespace Scan

theorem ne_bodyEnd_of_wordClause (found : String) : (wordClause d found).Yields (· ≠ .bodyEnd) := by
  refine .after fun mark => .after fun _ => ?_
  split
  · exact .after fun _ => .pure nofun
  · exact .after fun _ => .after fun _ => .pure nofun
  · exact .after fun _ => .pure nofun

/-- Bodies have no `end` in the keyword dialect. -/
theorem ne_bodyEnd_of_keywordClause (p : Progress) : (keywordClause p).Yields (·.1 ≠ .bodyEnd) := by
  refine .after fun found => ?_
  split
  · refine .bind (spelled_construct .keyword _) fun clause hspelled => .pure ?_
    rintro rfl
    exact hspelled
  · refine .ite (.bind (P := Defining) (.pure defining_none) ?_)
      (.bind yields_keywordDefinition? ?_)
    all_goals
      intro definition hdefinition
      cases definition with
      | some clause =>
          refine .pure ?_
          rintro rfl
          cases hdefinition _ rfl
      | none => exact .bind (ne_bodyEnd_of_wordClause _) fun _ hclause => .pure hclause

theorem Pieces.ne_bodyEnd {p : Progress} {c : Cursor} {pieces : List (Located Clause)}
    (h : Pieces .keyword p c pieces) : ∀ piece ∈ pieces, piece.value ≠ .bodyEnd := by
  induction h with
  | done => exact List.forall_mem_nil _
  | comment _ _ ih => exact List.forall_mem_cons.mpr ⟨nofun, ih⟩
  | clause _ _ hclause _ ih =>
      exact List.forall_mem_cons.mpr ⟨ne_bodyEnd_of_keywordClause _ _ _ _ hclause, ih⟩

end Scan

/-! ## Listings -/

/-- Whatever the text, the unmatched entries of the listing that is read from it are the longest
runs of words that no construct stops: each is the text from a word to a word, with no construct
inside of it, and between two of them there is a construct.  The `end` of a body is no construct
here: it stops a run as well, and the entries are words and blanks alone, exactly if it is not
between words.  The keyword dialect has no `end`. -/
theorem Listing.read_coalesced (d : Dialect) (text : String) (l : Listing)
    (h : Listing.read d text = .ok l) :
    ∃ pieces, Scan.Pieces d {} (Cursor.start text) pieces
      ∧ (∃ c, Scan.clauses d (Cursor.start text) = .ok (pieces.map (·.value), c))
      ∧ Tiles text.toList 0 pieces
      ∧ (∀ e ∈ l.body, ∀ t, e.value = .unmatched t → t = Draft.slice text.toList e.position)
      ∧ Coalesced Clause.isConstruct pieces l.body
      ∧ (Coalesced (!·.isWord) pieces l.body ↔
        ∀ close ∈ pieces, close.value = .bodyEnd → ¬BetweenWords pieces close)
      ∧ (d = .keyword → Coalesced (!·.isWord) pieces l.body) := by
  obtain ⟨⟨clauses, c⟩, hclauses, hlisting⟩ := except_bind_eq_ok.mp h
  have hnone : Scan.Progress.On text.toList {} := fun p hp => absurd hp (Option.not_mem_none p)
  obtain ⟨pieces, hpieces, rfl⟩ :=
    Scan.exists_pieces hnone (Cursor.on_start text) (by simp [Cursor.start]) hclauses
  obtain ⟨htiles, hlaid⟩ := hpieces.tiles hnone (Cursor.on_start text)
  obtain ⟨draft, hdraft, hlisting⟩ := except_bind_eq_ok.mp hlisting
  obtain ⟨hplaced, hruns⟩ :=
    Draft.Coalesced.run htiles hlaid Draft.Laid.empty (List.forall_mem_nil _)
    Draft.Coalesced.empty hdraft
  rw [List.nil_append] at hruns
  have hbody : l.body = draft.code := by
    split at hlisting
    · cases hlisting
      rfl
    · cases hlisting
  have hwords := hruns.runs.words_iff htiles
  rw [hbody]
  refine ⟨pieces, hpieces, ⟨c, hclauses⟩, htiles, ?_, hruns.runs, hwords, ?_⟩
  · intro e he t ht
    exact hplaced.copied e he t (by rw [ht]; rfl)
  · rintro rfl
    exact hwords.mpr fun close hmem hend => absurd hend (hpieces.ne_bodyEnd close hmem)

/-- A body that ends between two words without a meaning. -/
def endBetweenWords : String := "method m ()V\nnop foo\nend bar"

theorem Listing.read_coalesced_endBetweenWords :
    ∃ l pieces, Listing.read .directive endBetweenWords = .ok l
      ∧ l.body.unmatchedTexts = ["foo\nend bar"]
      ∧ Tiles endBetweenWords.toList 0 pieces ∧ Coalesced Clause.isConstruct pieces l.body
      ∧ ¬Coalesced (!·.isWord) pieces l.body := by
  have hread : (Listing.read .directive endBetweenWords).toOption.map (·.body.unmatchedTexts) =
      some ["foo\nend bar"] := by
    decide +kernel
  have hkinds : (Scan.clauses .directive (Cursor.start endBetweenWords)).toOption.map
      (·.1.map fun clause => (clause.isConstruct, clause.isWord)) =
        some [(true, false), (true, false), (false, true), (false, false), (false, true)] := by
    decide +kernel
  obtain ⟨l, hl, htexts⟩ := Option.map_eq_some_iff.mp hread
  have hl := toOption_eq_some.mp hl
  obtain ⟨pieces, -, ⟨c, hclauses⟩, htiles, -, hruns, hiff, -⟩ :=
    Listing.read_coalesced .directive endBetweenWords l hl
  refine ⟨l, pieces, hl, htexts, htiles, hruns, ?_⟩
  rw [hiff]
  intro hnone
  rw [hclauses] at hkinds
  have hkinds := Option.some.inj hkinds
  dsimp only at hkinds
  rw [List.map_map] at hkinds
  obtain ⟨p₁, rest₁, rfl, h₁, hkinds⟩ := List.map_eq_cons_iff.mp hkinds
  obtain ⟨p₂, rest₂, rfl, h₂, hkinds⟩ := List.map_eq_cons_iff.mp hkinds
  obtain ⟨p₃, rest₃, rfl, h₃, hkinds⟩ := List.map_eq_cons_iff.mp hkinds
  obtain ⟨p₄, rest₄, rfl, h₄, hkinds⟩ := List.map_eq_cons_iff.mp hkinds
  obtain ⟨p₅, rest₅, rfl, h₅, hkinds⟩ := List.map_eq_cons_iff.mp hkinds
  cases List.map_eq_nil_iff.mp hkinds
  simp only [Function.comp_apply, Prod.mk.injEq] at h₁ h₂ h₃ h₄ h₅
  have hordered := htiles.ordered
  have hspans := htiles.spans
  simp only [List.pairwise_cons, List.forall_mem_cons] at hordered hspans
  obtain ⟨⟨-, h₁₃, -⟩, ⟨h₂₃, -⟩, ⟨h₃₄, -⟩, ⟨h₄₅, -⟩, -⟩ := hordered
  refine hnone p₄ (by simp) (Clause.eq_bodyEnd h₄.2 h₄.1) ?_
  refine ⟨p₃, by simp, p₅, by simp, h₃.2, h₅.2, h₃₄, h₄₅, ?_⟩
  have hsize := hspans.2.2.1.nonempty
  have hsize₁ := hspans.1.nonempty
  have hsize₂ := hspans.2.1.nonempty
  simp only [List.forall_mem_cons]
  refine ⟨?_, ?_, fun _ _ => h₃.1, fun _ _ => h₄.1, fun _ _ => h₅.1, List.forall_mem_nil _⟩
  all_goals
    intro hafter
    omega

end JvmListing
