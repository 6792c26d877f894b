/-
# The form of what is read

Whatever the text, a listing that is read from it has the right form: every
operation has the operands that its opcode takes, and the flags of a method are
those of modifiers for methods.

`Scan.Yields s P` says that all a scan can give satisfies `P`.  It is kept by
sequences, so one look at the last line of a scan is enough.
-/
import JvmListing.Reading.Meaning
import JvmListing.Proofs.Access
import JvmListing.Proofs.SlotTable

namespace JvmListing

/-! ## Operands -/

/-- The form of operands as they were spelled. -/
def Operands.shape : Operands → OperandShape
  | .none => .none
  | .int _ => .int
  | .newArray _ => .newArray
  | .var _ => .var
  | .type _ => .type
  | .field .. => .field
  | .method .. => .method
  | .invokeDynamic .. => .invokeDynamic
  | .ldc _ => .ldc
  | .jump _ => .jump
  | .iinc .. => .iinc
  | .multiArray .. => .multiArray
  | .tableSwitch .. => .tableSwitch
  | .lookupSwitch .. => .lookupSwitch

namespace Operation

/-- The form of the operands of an operation, which a line marker does not have. -/
def shape? : Operation → Option OperandShape
  | .plain _ => some .none
  | .int .. => some .int
  | .newArray _ => some .newArray
  | .var .. => some .var
  | .type .. => some .type
  | .field .. => some .field
  | .method .. => some .method
  | .invokeDynamic .. => some .invokeDynamic
  | .ldc _ => some .ldc
  | .jump .. => some .jump
  | .iinc .. => some .iinc
  | .multiArray .. => some .multiArray
  | .lookupSwitch .. => some .lookupSwitch
  | .tableSwitch .. => some .tableSwitch
  | .line .. => none

/-- Are the operands of the form that the opcode takes? -/
def Fits (op : Operation) : Prop := op.opcode?.map Opcode.shape = op.shape?

end Operation

/-- Operands of the form that an opcode takes make an operation with them. -/
theorem fits_toOperation {op : Opcode} {position : Position} {operands : Operands}
    {written : Operation} (hshape : operands.shape = op.shape)
    (h : operands.toOperation op position = .ok written) : written.Fits := by
  have hfits : op.shape = operands.shape := hshape.symm
  cases operands with
  | none | var | type | jump =>
      cases h
      exact congrArg some hfits
  | int | field | method =>
      obtain ⟨_, -, h⟩ := except_bind_eq_ok.mp h
      cases h
      exact congrArg some hfits
  | newArray | ldc | iinc | lookupSwitch =>
      obtain ⟨_, -, h⟩ := except_bind_eq_ok.mp h
      cases h
      rfl
  | invokeDynamic =>
      obtain ⟨_, -, h⟩ := except_bind_eq_ok.mp h
      obtain ⟨_, -, h⟩ := except_bind_eq_ok.mp h
      cases h
      rfl
  | multiArray =>
      obtain ⟨_, -, h⟩ := except_bind_eq_ok.mp h
      dsimp only at h
      split at h
      · cases h
        rfl
      · cases h
  | tableSwitch =>
      obtain ⟨_, -, h⟩ := except_bind_eq_ok.mp h
      obtain ⟨_, -, h⟩ := except_bind_eq_ok.mp h
      split at h
      · cases h
        rfl
      · cases h

theorem fits_lineMarker {label : String} {number : Located RawLiteral} {written : Operation}
    (h : lineMarker label number = .ok written) : written.Fits := by
  obtain ⟨_, -, h⟩ := except_bind_eq_ok.mp h
  dsimp only at h
  split at h
  · cases h
    rfl
  · cases h

/-! ## Scans -/

namespace Scan

variable {α β : Type}

/-- Does all that the scan can give satisfy `P`? -/
def Yields (s : Scan α) (P : α → Prop) : Prop :=
  ∀ c a c', s c = .ok (a, c') → P a

namespace Yields

variable {s : Scan α} {k : α → Scan β} {P : α → Prop} {Q : β → Prop}

theorem pure {a : α} (h : P a) : (Pure.pure a : Scan α).Yields P := by
  intro c a' c' hrun
  cases hrun
  exact h

theorem bind (hs : s.Yields P) (hk : ∀ a, P a → (k a).Yields Q) : (s >>= k).Yields Q := by
  intro c b c' hrun
  have hrun : (s c >>= fun p => k p.1 p.2) = .ok (b, c') := hrun
  obtain ⟨⟨a, c₁⟩, hrun, hrest⟩ := except_bind_eq_ok.mp hrun
  exact hk a (hs c a c₁ hrun) c₁ b c' hrest

/-- What a scan gives depends on its last step only, if nothing is known of the others. -/
theorem after (hk : ∀ a, (k a).Yields Q) : (s >>= k).Yields Q :=
  bind (P := fun _ => True) (fun _ _ _ _ => trivial) fun a _ => hk a

theorem fail (fault : Fault) : (Scan.fail fault : Scan α).Yields P := by
  intro c a c' h
  cases h

theorem failSince (mark : Cursor) (fault : Fault) :
    (Scan.failSince mark fault : Scan α).Yields P := by
  intro c a c' h
  cases h

theorem ite {p : Prop} [Decidable p] {s s' : Scan α} (h : s.Yields P) (h' : s'.Yields P) :
    (if p then s else s').Yields P := by
  split
  · exact h
  · exact h'

end Yields

theorem yields_tableSwitch (d : Dialect) : (tableSwitch d).Yields (·.shape = .tableSwitch) := by
  cases d with
  | keyword =>
      refine .after fun _ => .after fun _ => .after fun _ => .after fun _ => .after fun _ => ?_
      exact .after fun _ => .after fun _ => .after fun _ => .after fun _ =>
        .after fun _ => .pure rfl
  | directive =>
      exact .after fun _ => .after fun _ => .after fun _ => .after fun _ => .pure rfl

theorem yields_lookupSwitch (d : Dialect) : (lookupSwitch d).Yields (·.shape = .lookupSwitch) := by
  cases d with
  | keyword => exact .after fun _ => .after fun _ => .after fun _ => .pure rfl
  | directive => exact .after fun _ => .after fun _ => .pure rfl

/-- The operands that are read for an opcode are those it takes. -/
theorem yields_operands (d : Dialect) (op : Opcode) :
    (operands d op).Yields (·.shape = op.shape) := by
  unfold operands
  cases op.shape with
  | none => exact .pure rfl
  | newArray => exact .after fun _ => .after fun _ => .after fun _ => .after fun _ => .pure rfl
  | int | var | type | jump | ldc => exact .after fun _ => .pure rfl
  | field | iinc | multiArray => exact .after fun _ => .after fun _ => .pure rfl
  | method | invokeDynamic => exact .after fun _ => .after fun _ => .after fun _ => .pure rfl
  | tableSwitch => exact yields_tableSwitch d
  | lookupSwitch => exact yields_lookupSwitch d

end Scan

/-! ## Clauses -/

/-- Does an instruction have the operands that its opcode takes? -/
def Clause.Fits : Clause → Prop
  | .instruction op operands _ => operands.shape = op.shape
  | _ => True

namespace Scan

theorem yields_tryCatch (d : Dialect) (mark : Cursor) {P : Clause → Prop}
    (h : ∀ start stop handler caught position, P (.tryCatch start stop handler caught position)) :
    (tryCatch d mark).Yields P := by
  cases d with
  | keyword =>
      refine .after fun _ => .after fun _ => .after fun _ => .after fun _ => .after fun _ => ?_
      exact .after fun _ => .after fun _ => .after fun _ => .after fun _ => .after fun _ =>
        .pure (h _ _ _ _ _)
  | directive =>
      exact .after fun _ => .after fun _ => .after fun _ => .after fun _ => .after fun _ =>
        .pure (h _ _ _ _ _)

theorem fits_construct (d : Dialect) (head : Head) : (construct d head).Yields Clause.Fits := by
  refine .after fun mark => .after fun _ => ?_
  cases head with
  | value => exact .after fun _ => .pure trivial
  | deprecated => exact .pure trivial
  | signature | throws | annot | expression => exact .after fun _ => .after fun _ => .pure trivial
  | line => exact .after fun _ => .after fun _ => .after fun _ => .pure trivial
  | tryCatch => exact yields_tryCatch d mark fun _ _ _ _ _ => trivial

theorem fits_wordClause (d : Dialect) (found : String) :
    (wordClause d found).Yields Clause.Fits := by
  refine .after fun mark => .after fun _ => ?_
  split
  · exact .after fun _ => .pure trivial
  · exact .bind (yields_operands d _) fun _ h => .after fun _ => .pure h
  · exact .after fun _ => .pure trivial

/-! ### Definitions -/

/-- Is the clause a definition, if there is one? -/
def Defining (found : Option Clause) : Prop := ∀ clause ∈ found, clause.isDefinition = true

theorem defining_none : Defining none := fun clause h => absurd h (Option.not_mem_none clause)

theorem defining_some {clause : Clause} (h : clause.isDefinition = true) :
    Defining (some clause) := by
  rintro _ ⟨⟩
  exact h

theorem yields_keywordDefinition? : keywordDefinition?.Yields Defining := by
  have hnone : ∀ mark : Cursor, (do set mark; return none : Scan (Option Clause)).Yields Defining :=
    fun mark => .after fun _ => .pure defining_none
  refine .after fun mark => .after fun found => .after fun name => .ite (hnone mark) ?_
  refine .after fun next => .ite ?_ ?_
  · exact .after fun signature => .after fun position => .pure (defining_some rfl)
  · refine .after fun _ => .after fun desc => ?_
    split
    · exact .after fun next => .ite (.after fun position => .pure (defining_some rfl)) (hnone mark)
    · exact hnone mark

theorem yields_directiveMethod (mark : Cursor) :
    (directiveMethod mark).Yields (·.isDefinition = true) := by
  refine .after fun _ => .after fun _ => .after fun name => ?_
  -- a name that is missing and a bracket that is missing break the header off
  refine .ite (.after fun _ => ?_) ?_
  all_goals
    refine .after fun _ => .after fun _ => .ite (.after fun _ => ?_) ?_
    all_goals exact .after fun _ => .after fun _ => .pure rfl

theorem yields_directiveField (mark : Cursor) :
    (directiveField mark).Yields (·.isDefinition = true) := by
  refine .after fun _ => .after fun _ => .after fun _ => .after fun _ => .after fun desc => ?_
  split
  · exact .after fun _ => .fail _
  · refine .ite (.after fun _ => .after fun _ => ?_) ?_
    all_goals
      refine .after fun _ => .after fun _ => .ite ?_ ?_
      · exact .after fun _ => .after fun _ => .pure rfl
      · exact .after fun _ => .after fun _ => .pure rfl

/-! ### Whole texts -/

/-- What has to be shown of single clauses for all clauses of a text to satisfy `P`. -/
structure ClauseSteps (d : Dialect) (P : Clause → Prop) : Prop where
  construct : ∀ head, (construct d head).Yields P
  word : ∀ found, (wordClause d found).Yields P
  definition : ∀ clause : Clause, clause.isDefinition = true → P clause
  bodyEnd : P .bodyEnd
  comment : ∀ text, P (.comment text)

variable {d : Dialect} {P : Clause → Prop}

theorem ClauseSteps.keywordClause (h : ClauseSteps .keyword P) (progress : Progress) :
    (keywordClause progress).Yields fun found => P found.1 := by
  refine .after fun found => ?_
  split
  · exact .bind (h.construct _) fun _ hclause => .pure hclause
  · refine .ite (.bind (P := Defining) (.pure defining_none) ?_)
      (.bind yields_keywordDefinition? ?_)
    all_goals
      intro definition hdefinition
      cases definition with
      | some clause => exact .pure (h.definition clause (hdefinition clause rfl))
      | none => exact .bind (h.word _) fun _ hclause => .pure hclause

theorem ClauseSteps.directiveClause (h : ClauseSteps .directive P) (progress : Progress) :
    (directiveClause progress).Yields fun found => P found.1 := by
  refine .after fun mark => .after fun found => .ite ?_ (.ite ?_ (.ite ?_ ?_))
  · exact .after fun _ => .bind (yields_directiveMethod mark) fun clause hclause =>
      .after fun _ => .pure (h.definition clause hclause)
  · exact .after fun _ => .bind (yields_directiveField mark) fun clause hclause =>
      .pure (h.definition clause hclause)
  · exact .after fun _ => .pure h.bodyEnd
  · split
    · exact .bind (h.construct _) fun _ hclause => .pure hclause
    · exact .bind (h.word _) fun _ hclause => .pure hclause

theorem ClauseSteps.clausesIn (h : ClauseSteps d P) : ∀ (fuel : Nat) (progress : Progress),
    (clausesIn d fuel progress).Yields fun clauses => ∀ clause ∈ clauses, P clause
  | 0, _ => .pure fun _ hmem => absurd hmem List.not_mem_nil
  | fuel + 1, progress => by
      have hcons : ∀ clause : Clause, P clause → ∀ next : Progress,
          (do return clause :: (← Scan.clausesIn d fuel next) : Scan (List Clause)).Yields
            fun clauses => ∀ clause ∈ clauses, P clause := by
        intro clause hclause next
        refine .bind (h.clausesIn fuel next) fun clauses hclauses => .pure ?_
        exact List.forall_mem_cons.mpr ⟨hclause, hclauses⟩
      refine .after fun _ => .after fun mark => .after fun comment => ?_
      split
      · exact .after fun position => hcons (.comment _) (h.comment _) progress
      · refine .after fun atEnd => .ite ?_ ?_
        · split
          · intro c clauses c' hrun
            cases hrun
          · exact .pure fun _ hmem => absurd hmem List.not_mem_nil
        · cases d with
          | keyword =>
              exact .bind (h.keywordClause progress) fun found hclause => hcons _ hclause found.2
          | directive =>
              exact .bind (h.directiveClause progress) fun found hclause => hcons _ hclause found.2

/-- Every instruction in a text has the operands that its opcode takes. -/
theorem fits_steps (d : Dialect) : ClauseSteps d Clause.Fits where
  construct := fits_construct d
  word := fits_wordClause d
  definition clause h := by
    cases clause with
    | instruction => cases h
    | _ => trivial
  bodyEnd := trivial
  comment _ := trivial

end Scan

/-! ## Listings -/

/-- Is what was put together so far of the right form? -/
structure Draft.Formed (d : Draft) : Prop where
  access : ∀ m, d.definition = some (.method m) →
    ∃ modifiers, accessOf .method modifiers = .ok m.access
  fits : ∀ e ∈ d.code, ∀ op, e.value = .operation op → op.Fits

namespace Draft.Formed

variable {d d' : Draft}

theorem push (h : d.Formed) {statement : Statement} (position : Position)
    (hfits : ∀ op, statement = .operation op → op.Fits) : (d.push statement position).Formed where
  access := h.access
  fits := by
    intro e he
    rcases List.mem_append.mp he with he | he
    · exact h.fits e he
    · cases List.mem_singleton.mp he
      exact hfits

theorem pushOther (h : d.Formed) {statement : Statement} (position : Position)
    (hop : statement.operation? = none) : (d.push statement position).Formed := by
  refine h.push position fun op he => ?_
  rw [he] at hop
  cases hop

theorem define (h : d.Formed) {definition : Definition}
    (haccess : ∀ m, definition = .method m → ∃ modifiers, accessOf .method modifiers = .ok m.access)
    (hrun : d.define definition = .ok d') : d'.Formed := by
  unfold Draft.define at hrun
  split at hrun
  · cases hrun
  · cases hrun
    exact ⟨fun m hm => haccess m (Option.some.inj hm), h.fits⟩

theorem markDeprecated (h : d.Formed) {definition : Definition}
    (hdefinition : d.definition = some definition) :
    ({ d with definition := some definition.markDeprecated } : Draft).Formed where
  access := by
    intro m hm
    cases definition with
    | method m' =>
        cases hm
        exact h.access m' hdefinition
    | _ => cases hm
  fits := h.fits

theorem addUnmatched (h : d.Formed) (source : List Char) (word : Located String) :
    (d.addUnmatched source word).Formed := by
  unfold Draft.addUnmatched
  split
  · refine ⟨h.access, fun e he => ?_⟩
    rcases List.mem_append.mp he with he | he
    · exact h.fits e ((List.dropLast_sublist _).mem he)
    · cases List.mem_singleton.mp he
      exact fun op hop => absurd hop (by simp)
  · obtain ⟨haccess, hfits⟩ : (d.push (.unmatched word.value) word.position).Formed :=
      h.pushOther _ rfl
    exact ⟨haccess, hfits⟩

theorem addMethod (h : d.Formed) {modifiers : List (Located String)} {name : String}
    {params : List RawParam} {result : Option String} {position : Position}
    (hrun : d.addMethod modifiers name params result position = .ok d') : d'.Formed := by
  unfold Draft.addMethod at hrun
  split at hrun
  · cases hrun
  · obtain ⟨access, haccess, hrun⟩ := except_bind_eq_ok.mp hrun
    refine h.define (fun m hm => ?_) hrun
    cases hm
    exact ⟨modifiers, haccess⟩

theorem addField (h : d.Formed) {modifiers : List (Located String)} {name desc : String}
    {value : Option (Located RawLiteral)} {position : Position}
    (hrun : d.addField modifiers name desc value position = .ok d') : d'.Formed := by
  obtain ⟨access, -, hrun⟩ := except_bind_eq_ok.mp hrun
  split at hrun
  · obtain ⟨own, -, hrun⟩ := except_bind_eq_ok.mp hrun
    exact h.define (fun m hm => by cases hm) hrun
  · exact h.define (fun m hm => by cases hm) hrun

theorem addRecognized (h : d.Formed) {clause : Clause} (hclause : clause.Fits)
    (hrun : d.addRecognized clause = .ok d') : d'.Formed := by
  cases clause with
  | signature | throws =>
      simp only [Draft.addRecognized] at hrun
      split at hrun
      · cases hrun
        exact ⟨h.access, h.fits⟩
      · cases hrun
        exact h.pushOther _ rfl
  | value | annot =>
      obtain ⟨value, -, hrun⟩ := except_bind_eq_ok.mp hrun
      split at hrun
      · cases hrun
        exact ⟨h.access, h.fits⟩
      · cases hrun
        exact h.pushOther _ rfl
  | deprecated =>
      simp only [Draft.addRecognized] at hrun
      split at hrun
      · cases hrun
        exact ⟨h.access, h.fits⟩
      · rename_i definition hdefinition
        cases hrun
        exact h.markDeprecated hdefinition
  | method => exact h.addMethod hrun
  | field => exact h.addField hrun
  | label | tryCatch | expression | comment =>
      cases hrun
      exact h.pushOther _ rfl
  | line label number position =>
      obtain ⟨op, hop, hrun⟩ := except_bind_eq_ok.mp hrun
      cases hrun
      refine h.push _ fun op' he => ?_
      cases he
      exact fits_lineMarker hop
  | instruction op operands position =>
      obtain ⟨written, hwritten, hrun⟩ := except_bind_eq_ok.mp hrun
      cases hrun
      refine h.push _ fun op' he => ?_
      cases he
      exact fits_toOperation hclause hwritten
  | bodyEnd | unmatched =>
      cases hrun
      exact h

theorem add (h : d.Formed) (source : List Char) {clause : Clause} (hclause : clause.Fits)
    (hrun : d.add source clause = .ok d') : d'.Formed := by
  unfold Draft.add at hrun
  split at hrun
  · cases hrun
    exact h.addUnmatched source _
  · cases hrun
    exact h
  · have hsame : ({ d with joining := false } : Draft).Formed := ⟨h.access, h.fits⟩
    exact hsame.addRecognized hclause hrun

theorem run (source : List Char) : ∀ {clauses : List Clause} {d d' : Draft}, d.Formed →
    (∀ clause ∈ clauses, clause.Fits) → clauses.foldlM (Draft.add source) d = .ok d' → d'.Formed
  | [], _, _, h, _, hrun => by
      cases hrun
      exact h
  | clause :: clauses, _, _, h, hfits, hrun => by
      obtain ⟨d₁, hstep, hrun⟩ := except_bind_eq_ok.mp hrun
      obtain ⟨hclause, hfits⟩ := List.forall_mem_cons.mp hfits
      exact run source (h.add source hclause hstep) hfits hrun

end Draft.Formed

/-- A listing that was read has operations with the operands that their opcodes take,
and a method with flags of modifiers. -/
theorem Listing.formed_of_read {dialect : Dialect} {text : String} {l : Listing}
    (h : Listing.read dialect text = .ok l) :
    (∀ m, l.method? = some m → ∃ modifiers, accessOf .method modifiers = .ok m.access)
      ∧ ∀ e ∈ l.body, ∀ op, e.value = .operation op → op.Fits := by
  obtain ⟨⟨clauses, c⟩, hclauses, h⟩ := except_bind_eq_ok.mp h
  obtain ⟨draft, hdraft, h⟩ := except_bind_eq_ok.mp h
  have hfits := (Scan.fits_steps dialect).clausesIn _ _ _ _ _ hclauses
  have hempty : Draft.Formed {} :=
    ⟨fun m hm => (by cases hm), fun e he => absurd he List.not_mem_nil⟩
  have hformed := hempty.run text.toList hfits hdraft
  split at h
  · rename_i definition hdefinition
    cases h
    refine ⟨fun m hm => hformed.access m ?_, hformed.fits⟩
    unfold Listing.method? at hm
    split at hm
    · rename_i d hd
      cases hm
      rw [hdefinition]
      exact congrArg some hd
    · cases hm
  · cases h

/-- The flags that are read can all be written. -/
theorem mask_accessOf {target : FlagTarget} : ∀ {modifiers : List (Located String)}
    {access : Access}, accessOf target modifiers = .ok access → access &&& target.mask = access
  | [], _, h => by
      cases h
      exact UInt32.zero_and
  | m :: rest, access, h => by
      rw [accessOf] at h
      split at h
      · cases h
      · rename_i flag hflag
        obtain ⟨others, hothers, h⟩ := except_bind_eq_ok.mp h
        cases h
        have hmask : ∀ p ∈ target.modifiers, p.2 &&& target.mask = p.2 := by
          cases target <;> decide
        obtain ⟨p, hp, rfl⟩ := Option.map_eq_some_iff.mp hflag
        rw [and_of_or, hmask p (List.mem_of_find?_eq_some hp), mask_accessOf hothers]

end JvmListing
