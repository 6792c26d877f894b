/-
# Positions in a source

Whatever the text, the positions that reading gives are exact.  If a listing is read, its
entries stand in the text in their order, one after the other, and none of them touches
the header of the definition, which has the parameters of a method inside; comments and
unmatched texts are the characters of the text at their place.  If none is read, the
fault is at a place of the text.

The draft of a listing takes up the clauses in turn (`Draft.Laid`).  The one entry that it
changes later, an unmatched text that a further word joins, is the last one and came after
the header; without it the draft ends where that entry begins.
-/
import JvmListing.Proofs.ClausePositions

namespace JvmListing

variable {α : Type} {source : List Char} {lo hi : Nat}

/-! ## Drafts -/

/-- The text of a statement that is kept as it stands in the source. -/
def Statement.copied? : Statement → Option String
  | .comment text | .unmatched text => some text
  | _ => none

/-- Are the parameters of the definition, if it is a method, inside of its header? -/
def Definition.ParamsInside (source : List Char) (definition : Definition) : Prop :=
  ∀ m, definition = .method m →
    ∀ p ∈ m.params, p.position.Spans source m.position.start m.position.stop

/-- Is everything in the draft before an offset, in order and apart from the header? -/
structure Draft.Laid (source : List Char) (hi : Nat) (d : Draft) : Prop where
  spans : ∀ e ∈ d.code, e.position.Spans source 0 hi
  ordered : d.code.Pairwise fun a b => a.position.stop ≤ b.position.start
  copied : ∀ e ∈ d.code, ∀ text ∈ e.value.copied?, text = slice source e.position
  header : ∀ x ∈ d.definition, x.position.Spans source 0 hi ∧ x.ParamsInside source
  apart : ∀ x ∈ d.definition, ∀ e ∈ d.code,
    e.position.stop ≤ x.position.start ∨ x.position.stop ≤ e.position.start
  /-- An entry that can still grow came after the header. -/
  joined : d.joining = true → ∀ x ∈ d.definition, ∀ e ∈ d.code.getLast?,
    x.position.stop ≤ e.position.start

namespace Draft.Laid

variable {d : Draft}

theorem empty : ({} : Draft).Laid source 0 where
  spans _ h := nomatch h
  ordered := .nil
  copied _ h := nomatch h
  header _ h := nomatch h
  apart _ h := nomatch h
  joined h := nomatch h

theorem widen (h : d.Laid source lo) (hhi : lo ≤ hi) : d.Laid source hi where
  spans e he := (h.spans e he).widen (Nat.le_refl _) hhi
  ordered := h.ordered
  copied := h.copied
  header x hx := ⟨(h.header x hx).1.widen (Nat.le_refl _) hhi, (h.header x hx).2⟩
  apart := h.apart
  joined := h.joined

/-- A range of the text ends with it. -/
theorem bounded (h : d.Laid source hi) : d.Laid source source.length where
  spans e he := ⟨(h.spans e he).isExact, Nat.zero_le _, (h.spans e he).nonempty,
    (h.spans e he).isExact.within⟩
  ordered := h.ordered
  copied := h.copied
  header x hx :=
    have hspan := (h.header x hx).1
    ⟨⟨hspan.isExact, Nat.zero_le _, hspan.nonempty, hspan.isExact.within⟩, (h.header x hx).2⟩
  apart := h.apart
  joined := h.joined

theorem separate (h : d.Laid source hi) : { d with joining := false }.Laid source hi where
  spans := h.spans
  ordered := h.ordered
  copied := h.copied
  header := h.header
  apart := h.apart
  joined hjoining := nomatch hjoining

/-- An entry that stands after all the others. -/
theorem push (h : d.Laid source lo) {statement : Statement} {p : Position}
    (hp : p.Spans source lo hi) (hcopied : ∀ text ∈ statement.copied?, text = slice source p)
    (joining : Bool) : { d.push statement p with joining := joining }.Laid source hi := by
  have hlo : lo ≤ hi := by
    have := hp.after
    have := hp.nonempty
    have := hp.before
    omega
  have hwide := h.widen hlo
  have hmem : ∀ e ∈ d.code ++ [⟨statement, p⟩], e ∈ d.code ∨ e = ⟨statement, p⟩ := by
    intro e he
    simpa using he
  constructor
  · intro e he
    rcases hmem e he with he | rfl
    · exact hwide.spans e he
    · exact hp.widen (Nat.zero_le _) (Nat.le_refl _)
  · refine List.pairwise_append.mpr ⟨h.ordered, List.pairwise_singleton _ _, ?_⟩
    intro e he e' he'
    rw [List.mem_singleton.mp he']
    exact Nat.le_trans (h.spans e he).before hp.after
  · intro e he
    rcases hmem e he with he | rfl
    · exact h.copied e he
    · exact hcopied
  · exact hwide.header
  · intro x hx e he
    rcases hmem e he with he | rfl
    · exact h.apart x hx e he
    · exact .inr (Nat.le_trans (h.header x hx).1.before hp.after)
  · intro _ x hx e he
    have he : (d.code ++ [(⟨statement, p⟩ : Entry)]).getLast? = some e := he
    rw [List.getLast?_concat] at he
    rw [← Option.some.inj he]
    exact Nat.le_trans (h.header x hx).1.before hp.after

/-- The first definition stands after all the entries so far. -/
theorem defined (h : d.Laid source lo) (hjoining : d.joining = false)
    {definition : Definition} (hspan : definition.position.Spans source lo hi)
    (hparams : definition.ParamsInside source) (attributes : Attributes) :
    { d with definition := some definition, attributes }.Laid source hi := by
  have hlo : lo ≤ hi := by
    have := hspan.after
    have := hspan.nonempty
    have := hspan.before
    omega
  constructor
  · exact (h.widen hlo).spans
  · exact h.ordered
  · exact h.copied
  · intro x hx
    cases hx
    exact ⟨hspan.widen (Nat.zero_le _) (Nat.le_refl _), hparams⟩
  · intro x hx e he
    cases hx
    exact .inl (Nat.le_trans (h.spans e he).before hspan.after)
  · intro hj
    rw [show d.joining = true from hj] at hjoining
    cases hjoining

/-- Without the entry that can still grow, the draft ends where that entry begins. -/
theorem reopened (h : d.Laid source lo) (hjoining : d.joining = true) {init : Code} {last : Entry}
    (hcode : d.code = init ++ [last]) :
    { d with code := init, joining := false }.Laid source last.position.start := by
  have hold : ∀ e ∈ init, e ∈ d.code := by
    intro e he
    rw [hcode]
    exact List.mem_append_left _ he
  have hordered := h.ordered
  rw [hcode] at hordered
  obtain ⟨hinit, -, hcross⟩ := List.pairwise_append.mp hordered
  have hlast : d.code.getLast? = some last := by
    rw [hcode, List.getLast?_concat]
  constructor
  · intro e he
    have hspan := h.spans e (hold e he)
    exact ⟨hspan.isExact, hspan.after, hspan.nonempty, hcross e he last List.mem_cons_self⟩
  · exact hinit
  · exact fun e he => h.copied e (hold e he)
  · intro x hx
    obtain ⟨hspan, hparams⟩ := h.header x hx
    exact ⟨⟨hspan.isExact, hspan.after, hspan.nonempty, h.joined hjoining x hx last hlast⟩, hparams⟩
  · exact fun x hx e he => h.apart x hx e (hold e he)
  · exact fun hj => nomatch hj

/-- A later range joins an earlier one at its end. -/
theorem merge_spans {before p : Position} (hbefore : before.Spans source 0 lo)
    (hp : p.Spans source lo hi) : (before.merge p).Spans source before.start hi := by
  obtain ⟨hexact, -, hne, hstop⟩ := hbefore
  obtain ⟨hpexact, hafter, hpne, hphi⟩ := hp
  have hmerge : before.merge p = ⟨before.line, before.column, before.start, p.stop⟩ := by
    unfold Position.merge
    rw [if_pos (by omega), Nat.min_eq_left (by omega), Nat.max_eq_right (by omega)]
  rw [hmerge]
  have hle : before.start < p.stop := by omega
  exact ⟨⟨Nat.le_of_lt hle, hpexact.within, hexact.line, hexact.column⟩, Nat.le_refl _, hle, hphi⟩

theorem addUnmatched (h : d.Laid source lo) {word : Located String}
    (hspan : word.position.Spans source lo hi)
    (hword : word.value = slice source word.position) :
    (d.addUnmatched source word).Laid source hi := by
  unfold Draft.addUnmatched
  split
  · rename_i text before hjoining hlast
    obtain ⟨init, hcode⟩ := List.getLast?_eq_some_iff.mp hlast
    have hbefore : before.Spans source 0 lo := h.spans _ (List.mem_of_getLast? hlast)
    have hself : ∀ t ∈ (Statement.unmatched (slice source (before.merge word.position))).copied?,
        t = slice source (before.merge word.position) := by
      intro t ht
      cases ht
      rfl
    have hgrown := (h.reopened hjoining hcode).push (merge_spans hbefore hspan) hself true
    have hdraft : { d with
        code := d.code.dropLast ++
          [⟨.unmatched (slice source (before.merge word.position)), before.merge word.position⟩] } =
        { ({ d with code := init, joining := false } : Draft).push
          (.unmatched (slice source (before.merge word.position))) (before.merge word.position) with
          joining := true } := by
      simp only [Draft.push, hcode, hjoining, List.dropLast_concat]
    rw [← hdraft] at hgrown
    exact hgrown
  · refine h.push hspan (fun t ht => ?_) true
    cases ht
    exact hword

end Draft.Laid

/-- Is the outcome a draft with everything before an offset, or a fault at an exact position? -/
inductive Draft.Adds (source : List Char) (hi : Nat) : ReadResult Draft → Prop
  | ok {d : Draft} : d.Laid source hi → Adds source hi (.ok d)
  | error {e : ReadError} : e.position.IsExact source → Adds source hi (.error e)

namespace Draft

variable {d : Draft}

theorem Adds.bind {r : ReadResult α} {k : α → ReadResult Draft} (hr : FaultsOn source r)
    (hk : ∀ a, r = .ok a → Adds source hi (k a)) : Adds source hi (r >>= k) := by
  cases r with
  | error e => exact .error (hr e rfl)
  | ok a => exact hk a rfl

/-- An entry of a kind that is not copied from the source. -/
theorem Laid.entry (h : d.Laid source lo) {statement : Statement} {p : Position}
    (hp : p.Spans source lo hi) (hkind : statement.copied? = none) :
    (d.push statement p).Laid source hi :=
  h.push hp (fun t ht => by rw [hkind] at ht; cases ht) d.joining

/-- Attributes and pending values have no place of their own among the entries. -/
theorem Laid.withAttributes (h : d.Laid source hi) (attributes : Attributes)
    (pending : Option (Located Literal)) : { d with attributes, pending }.Laid source hi where
  spans := h.spans
  ordered := h.ordered
  copied := h.copied
  header := h.header
  apart := h.apart
  joined := h.joined

theorem adds_define (h : d.Laid source lo) (hjoining : d.joining = false) {definition : Definition}
    (hspan : definition.position.Spans source lo hi) (hparams : definition.ParamsInside source) :
    Adds source hi (d.define definition) := by
  unfold Draft.define
  split
  · exact .error hspan.isExact
  · exact .ok (h.defined hjoining hspan hparams {})

theorem adds_method (h : d.Laid source lo) (hjoining : d.joining = false)
    {modifiers : List (Located String)} {name : String} {params : List RawParam}
    {result : Option String} {position : Position}
    (hclause : (Clause.method modifiers name params result position).Laid source lo hi) :
    Adds source hi (d.addMethod modifiers name params result position) := by
  obtain ⟨hmodifiers, hspan, hparams⟩ := hclause
  unfold Draft.addMethod
  cases result with
  | none => exact .error hspan.isExact
  | some result =>
      refine .bind (faultsOn_accessOf .method hmodifiers) fun access _ => ?_
      refine adds_define h hjoining hspan ?_
      intro m hm p hp
      cases hm
      obtain ⟨raw, hraw, rfl⟩ := List.mem_map.mp hp
      exact hparams raw hraw

theorem adds_field (h : d.Laid source lo) (hjoining : d.joining = false)
    {modifiers : List (Located String)} {name desc : String} {value : Option (Located RawLiteral)}
    {position : Position}
    (hclause : (Clause.field modifiers name desc value position).Laid source lo hi) :
    Adds source hi (d.addField modifiers name desc value position) := by
  obtain ⟨hmodifiers, hspan, hvalue⟩ := hclause
  have hnoParams : ∀ f : FieldDef, (Definition.field f).ParamsInside source :=
    fun _ _ hm => nomatch hm
  unfold Draft.addField
  refine .bind (faultsOn_accessOf .field hmodifiers) fun access _ => ?_
  cases value with
  | none => exact adds_define h hjoining hspan (hnoParams _)
  | some l =>
      refine .bind (faultsOn_locatedLiteralOf (hvalue l rfl)) fun own _ => ?_
      exact adds_define h hjoining hspan (hnoParams _)

theorem position_locatedLiteralOf {l : Located RawLiteral} {v : Located Literal}
    (h : locatedLiteralOf l = .ok v) : v.position = l.position := by
  obtain ⟨_, -, h⟩ := except_bind_eq_ok.mp h
  cases h
  rfl

theorem position_toAnnot {raw : RawAnnot} {p : Position} {a : Annot}
    (h : (raw.at p).toAnnot = .ok a) : a.position = p := by
  cases raw with
  | mk visible type args position =>
      rw [RawAnnot.at, RawAnnot.toAnnot] at h
      obtain ⟨_, -, h⟩ := except_bind_eq_ok.mp h
      cases h
      rfl

/-- Deprecation is no part of the header. -/
theorem Laid.deprecated (h : d.Laid source hi) {x : Definition} (hx : d.definition = some x) :
    { d with definition := some x.markDeprecated }.Laid source hi := by
  have hposition : x.markDeprecated.position = x.position := by cases x <;> rfl
  have hheader := h.header x hx
  constructor
  · exact h.spans
  · exact h.ordered
  · exact h.copied
  · intro y hy
    cases hy
    rw [hposition]
    refine ⟨hheader.1, fun m hm p hp => ?_⟩
    cases x with
    | «class» | field => cases hm
    | method m' =>
        cases hm
        exact hheader.2 m' rfl p hp
  · intro y hy
    cases hy
    rw [hposition]
    exact h.apart x hx
  · intro hj y hy
    cases hy
    rw [hposition]
    exact h.joined hj x hx

theorem adds_recognized (h : d.Laid source lo) (hlo : lo ≤ hi) (hjoining : d.joining = false)
    {clause : Clause} (hclause : clause.Laid source lo hi) :
    Adds source hi (d.addRecognized clause) := by
  cases clause with
  | signature value =>
      unfold addRecognized
      dsimp only
      split
      · exact .ok ((h.widen hlo).withAttributes _ d.pending)
      · exact .ok (h.entry hclause rfl)
  | throws type =>
      unfold addRecognized
      dsimp only
      split
      · exact .ok ((h.widen hlo).withAttributes _ d.pending)
      · exact .ok (h.entry hclause rfl)
  | value l =>
      have hspan : l.position.Spans source lo hi := hclause
      unfold addRecognized
      refine .bind (faultsOn_locatedLiteralOf hspan.isExact) fun v hv => ?_
      split
      · exact .ok ((h.widen hlo).withAttributes d.attributes _)
      · rw [← position_locatedLiteralOf hv] at hspan
        exact .ok (h.entry hspan rfl)
  | deprecated =>
      unfold addRecognized
      dsimp only
      split
      · exact .ok ((h.widen hlo).withAttributes _ d.pending)
      · rename_i x hx
        exact .ok ((h.widen hlo).deprecated hx)
  | annot a =>
      obtain ⟨raw, p, rfl, hspan, hfaults⟩ := hclause
      unfold addRecognized
      refine .bind hfaults fun a ha => ?_
      split
      · exact .ok ((h.widen hlo).withAttributes _ d.pending)
      · rw [← position_toAnnot ha] at hspan
        exact .ok (h.entry hspan rfl)
  | method modifiers name params result position => exact adds_method h hjoining hclause
  | field modifiers name desc value position => exact adds_field h hjoining hclause
  | bodyEnd => exact .ok (h.widen hlo)
  | label name => exact .ok (h.entry hclause rfl)
  | tryCatch start stop handler caught position => exact .ok (h.entry hclause rfl)
  | line label number position =>
      unfold addRecognized
      refine .bind (faultsOn_lineMarker label hclause.2) fun op _ => ?_
      exact .ok (h.entry hclause.1 rfl)
  | expression code => exact .ok (h.entry hclause rfl)
  | instruction op parts position =>
      unfold addRecognized
      refine .bind hclause.2 fun op _ => ?_
      exact .ok (h.entry hclause.1 rfl)
  | comment text =>
      refine .ok (h.push hclause.1 (fun t ht => ?_) d.joining)
      cases ht
      exact hclause.2
  | unmatched word => exact .ok (h.widen hlo)

theorem adds_clause (h : d.Laid source lo) (hlo : lo ≤ hi) {clause : Clause}
    (hclause : clause.Laid source lo hi) : Adds source hi (d.add source clause) := by
  unfold add
  split
  · exact .ok (h.addUnmatched hclause.1 hclause.2)
  · exact .ok (h.widen hlo)
  · exact adds_recognized h.separate hlo rfl hclause

/-- The clauses of a text, which stand one after the other, are added in turn. -/
theorem adds_clauses : ∀ {clauses : List Clause} {lo : Nat} {d : Draft}, d.Laid source lo →
    ClausesLaid source lo clauses →
    Adds source source.length (clauses.foldlM (Draft.add source) d) := by
  intro clauses
  induction clauses with
  | nil =>
      intro lo d h _
      exact .ok h.bounded
  | cons clause clauses ih =>
      intro lo d h hclauses
      obtain ⟨hi, hlo, hclause, hrest⟩ := hclauses
      rw [List.foldlM_cons]
      cases hadd : d.add source clause with
      | error e =>
          have hadds := adds_clause h hlo hclause
          rw [hadd] at hadds
          cases hadds with
          | error he => exact .error he
      | ok d' =>
          have hadds := adds_clause h hlo hclause
          rw [hadd] at hadds
          cases hadds with
          | ok hd' => exact ih hd' hrest

end Draft

/-! ## Listings -/

/-- Does everything in the listing stand where it says, in order and apart? -/
structure Listing.Placed (source : List Char) (l : Listing) : Prop where
  /-- Entries are at exact positions, and none is empty. -/
  spans : ∀ e ∈ l.body, e.position.Spans source 0 source.length
  /-- An entry ends before the next one starts. -/
  ordered : l.body.Pairwise fun a b => a.position.stop ≤ b.position.start
  /-- Comments and unmatched texts are what stands at their place. -/
  copied : ∀ e ∈ l.body, ∀ text ∈ e.value.copied?, text = Draft.slice source e.position
  header : l.definition.position.Spans source 0 source.length
  /-- The header overlaps no entry. -/
  apart : ∀ e ∈ l.body, e.position.stop ≤ l.definition.position.start ∨
    l.definition.position.stop ≤ e.position.start
  /-- The parameters of a method are inside of its header. -/
  params : l.definition.ParamsInside source

theorem Listing.placed_of_laid {draft : Draft} (h : draft.Laid source source.length)
    {x : Definition} (hx : draft.definition = some x) :
    Listing.Placed source ⟨x, some draft.code⟩ where
  spans := h.spans
  ordered := h.ordered
  copied := h.copied
  header := (h.header x hx).1
  apart := h.apart x hx
  params := (h.header x hx).2

/-- A text without a definition is at fault as a whole. -/
theorem isExact_whole (source : List Char) :
    (⟨1, 1, 0, source.length⟩ : Position).IsExact source :=
  ⟨Nat.zero_le _, Nat.le_refl _, rfl, rfl⟩

theorem Listing.placed_ofClauses {clauses : List Clause} (h : ClausesLaid source 0 clauses) :
    match Listing.ofClauses source clauses with
    | .ok l => l.Placed source
    | .error e => e.position.IsExact source := by
  have hadds := Draft.adds_clauses Draft.Laid.empty h
  unfold Listing.ofClauses
  cases hfold : clauses.foldlM (Draft.add source) {} with
  | error e =>
      rw [hfold] at hadds
      cases hadds with
      | error he => exact he
  | ok draft =>
      rw [hfold] at hadds
      cases hadds with
      | ok hdraft =>
          simp only [bind, Except.bind]
          cases hx : draft.definition with
          | none => exact isExact_whole source
          | some x => exact Listing.placed_of_laid hdraft hx

/-- Whatever the text, what is read of it is placed, and a fault is at an exact position. -/
theorem Listing.read_positions (d : Dialect) (text : String) :
    match Listing.read d text with
    | .ok l => l.Placed text.toList
    | .error e => e.position.IsExact text.toList := by
  have hclauses := (Scan.tracks_clauses d).ends _ (Cursor.on_start text) (Nat.zero_le _)
  unfold Listing.read
  cases hrun : Scan.clauses d (Cursor.start text) with
  | error e =>
      rw [hrun] at hclauses
      cases hclauses with
      | error he => exact he
  | ok r =>
      rw [hrun] at hclauses
      cases hclauses with
      | ok _ _ hlaid => exact Listing.placed_ofClauses hlaid

end JvmListing
