/-
# Sessions answer as if nothing were kept

A session does not read a text or assemble a member again where that would give
the same.  Whatever it is asked, and in whatever order, its answers are those of
reading and assembling anew: a history of calls alone says what the text, the
options and the listing are, and `Session.Follows` says that the session has them.
Every call keeps this.

The flag of the output is weaker than it looks.  Asking for a member of the other
kind drops the output and leaves the flag as it was, so the flag may say that the
output is current where there is none.
-/
import JvmListing.Session
import JvmListing.Proofs.Lowering
import Mathlib.Data.List.Basic
import Mathlib.Data.List.Induction
import Mathlib.Tactic.Common

namespace JvmListing

/-! ## Calls -/

/-- What a session can be asked to do. -/
inductive SessionCall where
  | setText (text : String)
  | setSelfType (type : String)
  | update
  | generateMethod
  | generateField
  deriving DecidableEq

namespace SessionCall

def text? : SessionCall → Option String
  | .setText text => some text
  | _ => none

def selfType? : SessionCall → Option String
  | .setSelfType type => some type
  | _ => none

def isGenerate : SessionCall → Bool
  | .generateMethod | .generateField => true
  | _ => false

end SessionCall

namespace Session

/-- The session before any call. -/
def fresh (d : Dialect) (options : AssemblyOptions) : Session :=
  { dialect := d, options := options }

/-- The session after a call. -/
def perform (helpers : Helpers) (s : Session) : SessionCall → Session
  | .setText text => (s.setText text).1
  | .setSelfType type => s.setSelfType type
  | .update => s.update.1
  | .generateMethod => (s.generateMethod helpers).1
  | .generateField => s.generateField.1

/-- The session after calls, in order. -/
def run (helpers : Helpers) (s : Session) (calls : List SessionCall) : Session :=
  calls.foldl (perform helpers) s

theorem run_concat (helpers : Helpers) (s : Session) (calls : List SessionCall) (c : SessionCall) :
    s.run helpers (calls ++ [c]) = (s.run helpers calls).perform helpers c :=
  List.foldl_concat ..

end Session

/-! ## Histories -/

/-- The calls so far, the first one first. -/
abbrev SessionHistory := List SessionCall

namespace SessionHistory

/-- The text that was set last. -/
def text (past : SessionHistory) : String := (past.filterMap SessionCall.text?).getLast?.getD ""

/-- The options with the class that was set last. -/
def options (initial : AssemblyOptions) (past : SessionHistory) : AssemblyOptions :=
  { initial with selfType := (past.filterMap SessionCall.selfType?).getLast?.getD initial.selfType }

/-- Was there an update, and no change of the text since? -/
def Settled (past : SessionHistory) : Prop :=
  ∃ before since : SessionHistory, past = before ++ .update :: since
    ∧ ∀ text, .setText text ∈ since → text = before.text

/-- The listing that the call with an index reads, if it is an update and the text
at that time can be read. -/
def readAt? (d : Dialect) (past : SessionHistory) (i : Nat) : Option Listing :=
  match past[i]? with
  | some .update => (Listing.read d (text (past.take i))).toOption
  | _ => none

/-- The listing of the last update that could read its text. -/
def listing? (d : Dialect) (past : SessionHistory) : Option Listing :=
  ((List.range past.length).filterMap (past.readAt? d)).getLast?

/-- The last call for a member. -/
def lastGenerate? (past : SessionHistory) : Option SessionCall :=
  (past.filter SessionCall.isGenerate).getLast?

theorem getLast?_filterMap_concat {α β : Type} (f : α → Option β) (l : List α) (a : α) :
    ((l ++ [a]).filterMap f).getLast? = (f a).or (l.filterMap f).getLast? := by
  rw [List.filterMap_append, List.getLast?_append]
  cases h : f a <;> simp [h]

variable (past : SessionHistory) (c : SessionCall)

theorem text_concat : text (past ++ [c]) = c.text?.getD past.text := by
  unfold text
  rw [getLast?_filterMap_concat]
  cases c.text? <;> rfl

theorem options_concat (initial : AssemblyOptions) :
    options initial (past ++ [c]) =
      { past.options initial with
        selfType := c.selfType?.getD (past.options initial).selfType } := by
  unfold options
  rw [getLast?_filterMap_concat]
  cases c.selfType? <;> rfl

theorem lastGenerate?_concat :
    lastGenerate? (past ++ [c]) = if c.isGenerate then some c else past.lastGenerate? := by
  unfold lastGenerate?
  rw [List.filter_append, List.getLast?_append]
  cases h : c.isGenerate <;> simp [h]

theorem readAt?_concat (d : Dialect) {i : Nat} (h : i < past.length) :
    readAt? d (past ++ [c]) i = past.readAt? d i := by
  unfold readAt?
  rw [List.getElem?_append_left h, List.take_append_of_le_length (Nat.le_of_lt h)]

theorem listing?_concat (d : Dialect) :
    listing? d (past ++ [c]) =
      if c = .update then (Listing.read d past.text).toOption.or (past.listing? d)
      else past.listing? d := by
  have hold : (List.range past.length).filterMap (readAt? d (past ++ [c])) =
      (List.range past.length).filterMap (past.readAt? d) :=
    List.filterMap_congr fun i hi => past.readAt?_concat c d (List.mem_range.mp hi)
  have hnew : readAt? d (past ++ [c]) past.length =
      if c = .update then (Listing.read d past.text).toOption else none := by
    unfold readAt?
    rw [List.getElem?_concat_length, List.take_left]
    cases c <;> rfl
  unfold listing?
  rw [List.length_append, List.length_singleton, List.range_succ, getLast?_filterMap_concat, hold,
    hnew]
  split <;> rfl

/-- Texts that are set since are no change where they are the text before. -/
theorem text_of_unchanged {before since : SessionHistory}
    (h : ∀ text, .setText text ∈ since → text = before.text) :
    text (before ++ .update :: since) = before.text := by
  unfold text
  rw [List.filterMap_append, List.getLast?_append]
  cases hlast : (List.filterMap SessionCall.text? (.update :: since)).getLast? with
  | none => rfl
  | some last =>
      obtain ⟨c, hc, hlast⟩ := List.mem_filterMap.mp (List.mem_of_getLast? hlast)
      cases c with
      | setText t =>
          cases hlast
          exact h _ ((List.mem_cons.mp hc).resolve_left nofun)
      | _ => cases hlast

/-- An update settles, and a text that is set afterwards must be the same. -/
theorem settled_concat : Settled (past ++ [c]) ↔
    c = .update ∨ past.Settled ∧ ∀ text, c = .setText text → text = past.text := by
  constructor
  · rintro ⟨before, since, hpast, hsame⟩
    rcases List.eq_nil_or_concat since with rfl | ⟨since, last, rfl⟩
    · exact Or.inl (List.append_singleton_inj.mp hpast).2
    · rw [List.concat_eq_append] at hpast hsame
      rw [← List.cons_append, ← List.append_assoc] at hpast
      obtain ⟨rfl, rfl⟩ := List.append_singleton_inj.mp hpast
      have hbefore : ∀ text, .setText text ∈ since → text = before.text :=
        fun t ht => hsame t (List.mem_append_left _ ht)
      refine Or.inr ⟨⟨before, since, rfl, hbefore⟩, ?_⟩
      rintro t rfl
      rw [text_of_unchanged hbefore]
      exact hsame t (List.mem_append_right _ List.mem_cons_self)
  · rintro (rfl | ⟨⟨before, since, rfl, hsame⟩, hlast⟩)
    · exact ⟨past, [], rfl, fun _ ht => absurd ht List.not_mem_nil⟩
    · refine ⟨before, since ++ [c], by simp, ?_⟩
      intro t ht
      rcases List.mem_append.mp ht with ht | ht
      · exact hsame t ht
      · rw [hlast t (List.mem_singleton.mp ht).symm, text_of_unchanged hsame]

end SessionHistory

namespace Session

/-! ## Calls for a member -/

/-- A call for a member: `kept` is the last one of its kind, `build` makes one of a
listing, and `keep` stores it. -/
def generate {α : Type} (s : Session) (kept : Option α) (build : Listing → AssemblyResult α)
    (keep : α → Session → Session) : Session × AssemblyResult α :=
  match s.outputOutdated, kept with
  | false, some a => (s, .ok a)
  | _, _ =>
    match s.listing with
    | none => (s.withoutResults, .error ⟨.notGenerated, {}⟩)
    | some l =>
      match build l with
      | .error e => (s.withoutResults, .error e)
      | .ok a => (keep a s.withoutResults, .ok a)

def keepMethod (a : AssembledMethod) (s : Session) : Session :=
  { s with lastMethod := some a, outputOutdated := false }

def keepField (f : FieldNode) (s : Session) : Session :=
  { s with lastField := some f, outputOutdated := false }

/-- A listing of something else cannot be assembled as a method. -/
theorem assembleMethod_of_not_method (options : AssemblyOptions) (helpers : Helpers) {l : Listing}
    (h : l.method? = none) :
    assembleMethod options helpers l = .error ⟨.notMethod, l.definition.position⟩ := by
  have hm : assemblyMethod l = .error ⟨.notMethod, l.definition.position⟩ := by
    rw [assemblyMethod, h]
  rw [assembleMethod, loweringContext, hm]
  rfl

/-- The test of the kind of the listing makes no difference: assembling it would give the
same fault. -/
theorem generateMethod_eq (s : Session) (helpers : Helpers) :
    s.generateMethod helpers =
      s.generate s.lastMethod (assembleMethod s.options helpers) keepMethod := by
  unfold generateMethod generate
  rcases s.listing with _ | l
  · cases s.outputOutdated <;> cases s.lastMethod <;> rfl
  · cases hl : l.method? with
    | none =>
        have h := assembleMethod_of_not_method s.options helpers hl
        cases s.outputOutdated <;> cases s.lastMethod <;> simp [h]
    | some m =>
        cases s.outputOutdated <;> cases s.lastMethod <;>
          cases h : assembleMethod s.options helpers l <;> simp [h, hl, keepMethod]

theorem generateField_eq (s : Session) :
    s.generateField = s.generate s.lastField assembleField keepField := by
  unfold generateField generate
  rcases s.listing with _ | l
  · cases s.outputOutdated <;> cases s.lastField <;> rfl
  · cases s.outputOutdated <;> cases s.lastField <;>
      cases h : assembleField l <;> simp [h, keepField]

/-- Such a call gives what is kept, or builds and keeps what comes of it. -/
theorem generate_cases {α : Type} (s : Session) (kept : Option α)
    (build : Listing → AssemblyResult α) (keep : α → Session → Session) :
    (∃ a, s.outputOutdated = false ∧ kept = some a ∧ s.generate kept build keep = (s, .ok a))
    ∨ (s.listing = none
        ∧ s.generate kept build keep = (s.withoutResults, .error ⟨.notGenerated, {}⟩))
    ∨ (∃ l e, s.listing = some l ∧ build l = .error e
        ∧ s.generate kept build keep = (s.withoutResults, .error e))
    ∨ ∃ l a, s.listing = some l ∧ build l = .ok a
        ∧ s.generate kept build keep = (keep a s.withoutResults, .ok a) := by
  unfold generate
  split
  · rename_i a hflag
    exact Or.inl ⟨a, hflag, rfl, rfl⟩
  · right
    cases hl : s.listing with
    | none => exact Or.inl ⟨rfl, rfl⟩
    | some l =>
        right
        cases hb : build l with
        | error e => exact Or.inl ⟨l, e, rfl, hb, by simp [hb]⟩
        | ok a => exact Or.inr ⟨l, a, rfl, hb, by simp [hb]⟩

/-! ## What calls keep -/

/-- Can a listing be assembled as one of the two kinds of members? -/
def Assembles (options : AssemblyOptions) (helpers : Helpers) (l : Listing) : Prop :=
  (∃ a, assembleMethod options helpers l = .ok a) ∨ ∃ f, assembleField l = .ok f

/-- Does the session keep what a call for a member comes to, and nothing else? -/
def Keeps (helpers : Helpers) (s : Session) (l : Listing) : SessionCall → Prop
  | .generateMethod =>
    s.lastField = none ∧ s.lastMethod = (assembleMethod s.options helpers l).toOption
  | .generateField => s.lastMethod = none ∧ s.lastField = (assembleField l).toOption
  | _ => False

/-- Is the session what a history says? -/
structure Follows (d : Dialect) (initial : AssemblyOptions) (helpers : Helpers)
    (past : SessionHistory) (s : Session) : Prop where
  dialect : s.dialect = d
  options : s.options = past.options initial
  text : s.text = past.text
  clean_iff : s.dirty = false ↔ past.Settled
  listing : s.listing = past.listing? d
  /-- Reading a text again that was looked at would give the listing that is there. -/
  reread : s.dirty = false → ∀ l, Listing.read d s.text = .ok l → s.listing = some l
  current : s.listingOutdated = false → ∃ l, s.listing = some l ∧ Listing.read d s.text = .ok l
  output : s.outputOutdated = false → ∃ l c, s.listing = some l ∧ Assembles s.options helpers l
    ∧ past.lastGenerate? = some c ∧ s.Keeps helpers l c

variable {d : Dialect} {initial : AssemblyOptions} {helpers : Helpers}
  {past : SessionHistory} {s : Session}

theorem follows_fresh : Follows d initial helpers [] (fresh d initial) where
  dialect := rfl
  options := rfl
  text := rfl
  clean_iff := by
    constructor
    · nofun
    · rintro ⟨before, since, hpast, -⟩
      exact absurd hpast.symm (by simp)
  listing := rfl
  reread := nofun
  current := nofun
  output := nofun

theorem Follows.setText (h : s.Follows d initial helpers past) (text : String) :
    (s.setText text).1.Follows d initial helpers (past ++ [.setText text]) := by
  have hoptions := past.options_concat (.setText text) initial
  have htext := past.text_concat (.setText text)
  have hsettled := past.settled_concat (.setText text)
  have hlisting := past.listing?_concat (.setText text) d
  have hlast := past.lastGenerate?_concat (.setText text)
  unfold Session.setText
  split
  · rename_i hsame
    refine ⟨h.dialect, h.options.trans hoptions.symm, hsame.symm.trans htext.symm, ?_,
      h.listing.trans hlisting.symm, h.reread, h.current, ?_⟩
    · rw [h.clean_iff, hsettled]
      constructor
      · intro hs
        refine Or.inr ⟨hs, ?_⟩
        rintro t ht
        cases ht
        exact hsame.trans h.text
      · rintro (hc | ⟨hs, -⟩)
        · cases hc
        · exact hs
    · rw [hlast]
      exact h.output
  · rename_i hchanged
    refine ⟨h.dialect, h.options.trans hoptions.symm, htext.symm, ?_,
      h.listing.trans hlisting.symm, nofun, nofun, ?_⟩
    · rw [hsettled]
      constructor
      · nofun
      · rintro (hc | ⟨-, hsame⟩)
        · cases hc
        · exact absurd ((hsame text rfl).trans h.text.symm) hchanged
    · rw [hlast]
      intro hflag
      obtain ⟨l, c, hl, hassembles, hc, hkeeps⟩ := h.output hflag
      refine ⟨l, c, hl, hassembles, hc, ?_⟩
      cases c <;> exact hkeeps

/-- A call that has nothing to do with the text keeps all that comes from the text. -/
theorem Follows.other {c : SessionCall} {s' : Session} (h : s.Follows d initial helpers past)
    (hupdate : c ≠ .update) (hset : c.text? = none)
    (hsame : s' = { s with
      options := s'.options, lastMethod := s'.lastMethod, lastField := s'.lastField,
      outputOutdated := s'.outputOutdated })
    (hoptions : s'.options = SessionHistory.options initial (past ++ [c]))
    (houtput : s'.outputOutdated = false → ∃ l c', s.listing = some l
      ∧ Assembles s'.options helpers l ∧ SessionHistory.lastGenerate? (past ++ [c]) = some c'
      ∧ s'.Keeps helpers l c') :
    s'.Follows d initial helpers (past ++ [c]) := by
  have htext := past.text_concat c
  have hsettled := past.settled_concat c
  have hlisting := past.listing?_concat c d
  rw [hset] at htext
  rw [if_neg hupdate] at hlisting
  have hclean : SessionHistory.Settled (past ++ [c]) ↔ past.Settled := by
    rw [hsettled, or_iff_right hupdate, and_iff_left]
    rintro t rfl
    cases hset
  rw [hsame] at hoptions houtput ⊢
  exact ⟨h.dialect, hoptions, h.text.trans htext.symm, h.clean_iff.trans hclean.symm,
    h.listing.trans hlisting.symm, h.reread, h.current, houtput⟩

theorem Follows.setSelfType (h : s.Follows d initial helpers past) (type : String) :
    (s.setSelfType type).Follows d initial helpers (past ++ [.setSelfType type]) := by
  refine h.other nofun rfl rfl ?_ nofun
  rw [SessionHistory.options_concat, ← h.options]
  rfl

theorem Follows.update (h : s.Follows d initial helpers past) :
    s.update.1.Follows d initial helpers (past ++ [.update]) := by
  have hoptions := past.options_concat .update initial
  have htext := past.text_concat .update
  have hsettled : SessionHistory.Settled (past ++ [.update]) :=
    (past.settled_concat .update).mpr (Or.inl rfl)
  have hlisting := past.listing?_concat .update d
  have hlast := past.lastGenerate?_concat .update
  rw [if_pos rfl, ← h.text, ← h.listing] at hlisting
  unfold Session.update
  split
  · rename_i hclean
    have hclean : s.dirty = false := by simpa using hclean
    refine ⟨h.dialect, h.options.trans hoptions.symm, h.text.trans htext.symm,
      iff_of_true hclean hsettled, ?_, h.reread, h.current, ?_⟩
    · rw [hlisting]
      cases hread : Listing.read d s.text with
      | error e => rfl
      | ok l => exact h.reread hclean l hread
    · rw [hlast]
      exact h.output
  · rw [h.dialect]
    cases hread : Listing.read d s.text with
    | error e =>
        rw [hread] at hlisting
        refine ⟨rfl, h.options.trans hoptions.symm, h.text.trans htext.symm,
          iff_of_true rfl hsettled, hlisting.symm, ?_, h.current, ?_⟩
        · intro _ l hl
          exact absurd (hread.symm.trans hl) nofun
        · intro hflag
          rw [hlast]
          obtain ⟨l, c, hl, hassembles, hc, hkeeps⟩ := h.output hflag
          refine ⟨l, c, hl, hassembles, hc, ?_⟩
          cases c <;> exact hkeeps
    | ok l =>
        rw [hread] at hlisting
        refine ⟨rfl, h.options.trans hoptions.symm, h.text.trans htext.symm,
          iff_of_true rfl hsettled, hlisting.symm, ?_, fun _ => ⟨l, rfl, hread⟩, nofun⟩
        intro _ l' hl'
        exact congrArg some (Except.ok.inj (hread.symm.trans hl'))

theorem Follows.update_reply (h : s.Follows d initial helpers past) :
    s.update.2 =
      if s.dirty then (Listing.read d s.text).map fun _ => true else .ok false := by
  unfold Session.update
  rw [h.dialect]
  cases s.dirty with
  | false => rfl
  | true => cases Listing.read d s.text <;> rfl

/-- A call for a member answers as building it anew would, if what is kept is what
building gives. -/
theorem Follows.generate {α : Type} {c : SessionCall} {kept : Option α}
    {build : Listing → AssemblyResult α} {keep : α → Session → Session}
    (h : s.Follows d initial helpers past) (hc : c.isGenerate = true)
    (hkept : ∀ l c' a, s.Keeps helpers l c' → kept = some a → c' = c ∧ build l = .ok a)
    (hassembles : ∀ l a, build l = .ok a → Assembles s.options helpers l)
    (hfailed : ∀ l e, build l = .error e → s.withoutResults.Keeps helpers l c)
    (hbuilt : ∀ l a, build l = .ok a → (keep a s.withoutResults).Keeps helpers l c)
    (hsame : ∀ a, keep a s.withoutResults = { s with
      lastMethod := (keep a s.withoutResults).lastMethod
      lastField := (keep a s.withoutResults).lastField
      outputOutdated := false }) :
    (s.generate kept build keep).1.Follows d initial helpers (past ++ [c])
      ∧ (s.generate kept build keep).2 =
          match s.listing with
          | none => .error ⟨.notGenerated, {}⟩
          | some l => build l := by
  have hupdate : c ≠ .update := by
    rintro rfl
    cases hc
  have hset : c.text? = none := by
    cases c with
    | setText => cases hc
    | _ => rfl
  have hoptions : s.options = SessionHistory.options initial (past ++ [c]) := by
    rw [SessionHistory.options_concat, ← h.options]
    cases c with
    | setSelfType => cases hc
    | _ => rfl
  have hlast : SessionHistory.lastGenerate? (past ++ [c]) = some c := by
    rw [SessionHistory.lastGenerate?_concat, if_pos hc]
  rcases s.generate_cases kept build keep with
    ⟨a, hflag, ha, hr⟩ | ⟨hl, hr⟩ | ⟨l, e, hl, hb, hr⟩ | ⟨l, a, hl, hb, hr⟩
  · obtain ⟨l, c', hl, hany, -, hkeeps⟩ := h.output hflag
    obtain ⟨rfl, hb⟩ := hkept l c' a hkeeps ha
    rw [hr, hl]
    exact ⟨h.other hupdate hset rfl hoptions fun _ => ⟨l, c', hl, hany, hlast, hkeeps⟩, hb.symm⟩
  · rw [hr, hl]
    refine ⟨h.other hupdate hset rfl hoptions fun hflag => ?_, rfl⟩
    obtain ⟨l, -, hl', -⟩ := h.output hflag
    exact absurd (hl.symm.trans hl') nofun
  · rw [hr, hl]
    refine ⟨h.other hupdate hset rfl hoptions fun hflag => ?_, hb.symm⟩
    obtain ⟨l', -, hl', hany, -⟩ := h.output hflag
    cases hl.symm.trans hl'
    exact ⟨l, c, hl, hany, hlast, hfailed l e hb⟩
  · rw [hr, hl]
    have hoptions' : (keep a s.withoutResults).options = s.options := by rw [hsame]
    refine ⟨h.other hupdate hset ?_ (hoptions'.trans hoptions) fun _ => ?_, hb.symm⟩
    · conv_lhs => rw [hsame]
      rw [hoptions', show (keep a s.withoutResults).outputOutdated = false by rw [hsame]]
    · exact ⟨l, c, hl, hoptions' ▸ hassembles l a hb, hlast, hbuilt l a hb⟩

theorem Follows.generateMethod (h : s.Follows d initial helpers past) :
    (s.generateMethod helpers).1.Follows d initial helpers (past ++ [.generateMethod])
      ∧ (s.generateMethod helpers).2 =
          match s.listing with
          | none => .error ⟨.notGenerated, {}⟩
          | some l => assembleMethod s.options helpers l := by
  rw [generateMethod_eq]
  refine h.generate rfl ?_ (fun _ a ha => Or.inl ⟨a, ha⟩)
    (fun _ _ he => ⟨rfl, (congrArg Except.toOption he).symm⟩)
    (fun _ _ ha => ⟨rfl, (congrArg Except.toOption ha).symm⟩) (fun _ => rfl)
  intro l c a hkeeps ha
  cases c with
  | generateMethod => exact ⟨rfl, toOption_eq_some.mp (hkeeps.2.symm.trans ha)⟩
  | generateField => exact absurd (ha.symm.trans hkeeps.1) nofun
  | _ => exact hkeeps.elim

theorem Follows.generateField (h : s.Follows d initial helpers past) :
    s.generateField.1.Follows d initial helpers (past ++ [.generateField])
      ∧ s.generateField.2 =
          match s.listing with
          | none => .error ⟨.notGenerated, {}⟩
          | some l => assembleField l := by
  rw [generateField_eq]
  refine h.generate rfl ?_ (fun _ f hf => Or.inr ⟨f, hf⟩)
    (fun _ _ he => ⟨rfl, (congrArg Except.toOption he).symm⟩)
    (fun _ _ hf => ⟨rfl, (congrArg Except.toOption hf).symm⟩) (fun _ => rfl)
  intro l c f hkeeps hf
  cases c with
  | generateMethod => exact absurd (hf.symm.trans hkeeps.1) nofun
  | generateField => exact ⟨rfl, toOption_eq_some.mp (hkeeps.2.symm.trans hf)⟩
  | _ => exact hkeeps.elim

/-! ## Runs -/

theorem Follows.perform (h : s.Follows d initial helpers past) :
    ∀ c, (s.perform helpers c).Follows d initial helpers (past ++ [c])
  | .setText text => h.setText text
  | .setSelfType type => h.setSelfType type
  | .update => h.update
  | .generateMethod => h.generateMethod.1
  | .generateField => h.generateField.1

/-- Every session is what its history says. -/
theorem follows_run (d : Dialect) (initial : AssemblyOptions) (helpers : Helpers)
    (calls : SessionHistory) :
    ((fresh d initial).run helpers calls).Follows d initial helpers calls := by
  induction calls using List.reverseRecOn with
  | nil => exact follows_fresh
  | append_singleton calls c ih =>
      rw [run_concat]
      exact ih.perform c

/-- Does an update after these calls read a listing? -/
def ReadsAfter (d : Dialect) (initial : AssemblyOptions) (helpers : Helpers)
    (calls : SessionHistory) :
    Prop :=
  ((fresh d initial).run helpers calls).update.2 = .ok true

theorem readsAfter_iff : ReadsAfter d initial helpers past ↔
    ¬past.Settled ∧ ∃ l, Listing.read d past.text = .ok l := by
  have h := follows_run d initial helpers past
  rw [ReadsAfter, h.update_reply, ← h.clean_iff, h.text]
  cases ((fresh d initial).run helpers past).dirty with
  | false => simp
  | true => cases Listing.read d past.text <;> simp [Except.map]

/-- The listing of a history is that of the last update that read one. -/
theorem listing?_eq_last (d : Dialect) (initial : AssemblyOptions) (helpers : Helpers)
    (calls : SessionHistory) :
    match calls.listing? d with
    | none => ∀ before since, calls = before ++ .update :: since →
        ¬ReadsAfter d initial helpers before
    | some l => ∃ before since : SessionHistory, calls = before ++ .update :: since
        ∧ ReadsAfter d initial helpers before ∧ Listing.read d before.text = .ok l
        ∧ ∀ mid rest, since = mid ++ .update :: rest →
            ¬ReadsAfter d initial helpers (before ++ .update :: mid) := by
  induction calls using List.reverseRecOn with
  | nil =>
      intro before since h
      exact absurd h.symm (by simp)
  | append_singleton calls c ih =>
      by_cases hread : c = .update ∧ ReadsAfter d initial helpers calls
      · obtain ⟨rfl, hread⟩ := hread
        obtain ⟨-, l, hl⟩ := readsAfter_iff.mp hread
        have hlisting : SessionHistory.listing? d (calls ++ [.update]) = some l := by
          rw [SessionHistory.listing?_concat, if_pos rfl, hl]
          rfl
        rw [hlisting]
        refine ⟨calls, [], rfl, hread, hl, ?_⟩
        intro mid rest h
        exact absurd h.symm (by simp)
      · have hlisting : SessionHistory.listing? d (calls ++ [c])
            = SessionHistory.listing? d calls := by
          rw [SessionHistory.listing?_concat]
          split
          · rename_i hc
            cases hl : Listing.read d (SessionHistory.text calls) with
            | error e => rfl
            | ok l =>
                have hfollows := follows_run d initial helpers calls
                have hsettled : SessionHistory.Settled calls := by
                  by_contra hnot
                  exact hread ⟨hc, readsAfter_iff.mpr ⟨hnot, l, hl⟩⟩
                rw [← hfollows.listing,
                  hfollows.reread (hfollows.clean_iff.mpr hsettled) l (hfollows.text ▸ hl)]
                rfl
          · rfl
        -- an update that reads a listing is among the calls before the last
        have hsplit : ∀ before since : SessionHistory, calls ++ [c] = before ++ .update :: since →
            ReadsAfter d initial helpers before →
            ∃ since', since = since' ++ [c] ∧ calls = before ++ .update :: since' := by
          intro before since h hr
          rcases List.eq_nil_or_concat since with rfl | ⟨since, last, rfl⟩
          · obtain ⟨rfl, rfl⟩ := List.append_singleton_inj.mp h
            exact absurd ⟨rfl, hr⟩ hread
          · rw [List.concat_eq_append, ← List.cons_append, ← List.append_assoc] at h
            obtain ⟨rfl, rfl⟩ := List.append_singleton_inj.mp h
            exact ⟨since, List.concat_eq_append, rfl⟩
        rw [hlisting]
        cases hlast : SessionHistory.listing? d calls with
        | none =>
            rw [hlast] at ih
            intro before since h hr
            obtain ⟨since', -, hcalls⟩ := hsplit before since h hr
            exact ih before since' hcalls hr
        | some l =>
            rw [hlast] at ih
            obtain ⟨before, since, rfl, hr, hl, hnone⟩ := ih
            refine ⟨before, since ++ [c], by simp, hr, hl, ?_⟩
            intro mid rest h hr'
            obtain ⟨rest', rfl, hcalls⟩ :=
              hsplit (before ++ .update :: mid) rest (by simp [h]) hr'
            refine hnone mid rest' ?_ hr'
            simpa using hcalls

/-- After any calls, the next one answers as reading and assembling anew would. -/
theorem run_answers_anew (d : Dialect) (initial : AssemblyOptions) (helpers : Helpers)
    (calls : SessionHistory) :
    let s := (fresh d initial).run helpers calls
    -- an update has nothing to do exactly if the text was looked at as it is
    (s.update.2 = .ok false ↔ calls.Settled)
    ∧ (¬calls.Settled → s.update.2 = (Listing.read d calls.text).map fun _ => true)
    -- a listing that is not outdated is that of the text
    ∧ s.text = calls.text
    ∧ (s.listingOutdated = false →
        ∃ l, s.listing = some l ∧ Listing.read d calls.text = .ok l)
    -- a member is made of the listing that was read last, with the options as they are
    ∧ s.options = calls.options initial
    ∧ (match calls.listing? d with
        | none =>
          (∀ before since, calls = before ++ .update :: since →
            ¬ReadsAfter d initial helpers before)
          ∧ (s.generateMethod helpers).2 = .error ⟨.notGenerated, {}⟩
          ∧ s.generateField.2 = .error ⟨.notGenerated, {}⟩
        | some l =>
          (∃ before since : SessionHistory, calls = before ++ .update :: since
            ∧ ReadsAfter d initial helpers before ∧ Listing.read d before.text = .ok l
            ∧ ∀ mid rest, since = mid ++ .update :: rest →
                ¬ReadsAfter d initial helpers (before ++ .update :: mid))
          ∧ (s.generateMethod helpers).2 = assembleMethod (calls.options initial) helpers l
          ∧ s.generateField.2 = assembleField l) := by
  intro s
  have h : s.Follows d initial helpers calls := follows_run d initial helpers calls
  refine ⟨?_, ?_, h.text, ?_, h.options, ?_⟩
  · rw [h.update_reply, ← h.clean_iff]
    cases s.dirty with
    | false => simp
    | true => cases Listing.read d s.text <;> simp [Except.map]
  · intro hdirty
    have hdirty : s.dirty = true := by simpa [← h.clean_iff] using hdirty
    rw [h.update_reply, hdirty, h.text]
    rfl
  · rw [← h.text]
    exact h.current
  · have hlast := listing?_eq_last d initial helpers calls
    have hmethod := h.generateMethod.2
    have hfield := h.generateField.2
    rw [h.listing, h.options] at hmethod
    rw [h.listing] at hfield
    cases hl : calls.listing? d with
    | none =>
        rw [hl] at hlast hmethod hfield
        exact ⟨hlast, hmethod, hfield⟩
    | some l =>
        rw [hl] at hlast hmethod hfield
        exact ⟨hlast, hmethod, hfield⟩

/-! ## The flag of the output -/

theorem field?_of_method? {l : Listing} {m : MethodDef} (h : l.method? = some m) :
    l.field? = none := by
  unfold Listing.method? at h
  unfold Listing.field?
  split at h
  · rename_i hd
    rw [hd]
  · cases h

theorem method?_of_assembleMethod {options : AssemblyOptions} {l : Listing} {a : AssembledMethod}
    (h : assembleMethod options helpers l = .ok a) : ∃ m, l.method? = some m := by
  obtain ⟨ctx, _, ha⟩ := assembled_of_ok h
  exact ⟨ctx.method, method?_of_assembly ha.method⟩

theorem field?_of_assembleField {l : Listing} {f : FieldNode} (h : assembleField l = .ok f) :
    ∃ def', l.field? = some def' := by
  unfold assembleField at h
  split at h
  · cases h
  · rename_i d hd
    exact ⟨d, hd⟩

/-- A listing that can be assembled is assembled as what it defines. -/
theorem Assembles.kinds {options : AssemblyOptions} {l : Listing}
    (h : Assembles options helpers l) :
    ((assembleMethod options helpers l).toOption = none ↔ l.field?.isSome)
      ∧ ((assembleField l).toOption = none ↔ l.method?.isSome) := by
  rcases h with ⟨a, ha⟩ | ⟨f, hf⟩
  · obtain ⟨m, hm⟩ := method?_of_assembleMethod ha
    have hfield := field?_of_method? hm
    have hnone : assembleField l = .error ⟨.notField, l.definition.position⟩ := by
      simp only [assembleField, hfield]
    simp [ha, hm, hfield, hnone, Except.toOption]
  · obtain ⟨f', hf'⟩ := field?_of_assembleField hf
    have hmethod : l.method? = none := by
      cases hm : l.method? with
      | none => rfl
      | some m => cases hf'.symm.trans (field?_of_method? hm)
    cases ha : assembleMethod options helpers l with
    | error e => simp [hf, hf', hmethod, Except.toOption]
    | ok a =>
        obtain ⟨m, hm⟩ := method?_of_assembleMethod ha
        cases hmethod.symm.trans hm

/-- An output that is not outdated is that of the listing.  It is there unless the
last call for a member asked for one of the other kind. -/
theorem output_of_flag (d : Dialect) (initial : AssemblyOptions) (helpers : Helpers)
    (calls : SessionHistory)
    (hflag : ((fresh d initial).run helpers calls).outputOutdated = false) :
    let s := (fresh d initial).run helpers calls
    ∃ l, s.listing = some l
      ∧ (∀ a, s.lastMethod = some a →
          s.lastField = none ∧ assembleMethod s.options helpers l = .ok a)
      ∧ (∀ f, s.lastField = some f → s.lastMethod = none ∧ assembleField l = .ok f)
      ∧ (s.lastMethod = none ∧ s.lastField = none ↔
          l.method?.isSome ∧ calls.lastGenerate? = some .generateField
            ∨ l.field?.isSome ∧ calls.lastGenerate? = some .generateMethod) := by
  intro s
  have h : s.Follows d initial helpers calls := follows_run d initial helpers calls
  obtain ⟨l, c, hl, hassembles, hlast, hkeeps⟩ := h.output hflag
  obtain ⟨hmethod, hfield⟩ := hassembles.kinds
  refine ⟨l, hl, ?_⟩
  rw [← hmethod, ← hfield, hlast]
  cases c with
  | generateMethod =>
      obtain ⟨hnone, hkept⟩ := hkeeps
      refine ⟨fun a ha => ⟨hnone, toOption_eq_some.mp (hkept.symm.trans ha)⟩, ?_, ?_⟩
      · exact fun f hf => absurd (hf.symm.trans hnone) nofun
      · simp [hnone, hkept]
  | generateField =>
      obtain ⟨hnone, hkept⟩ := hkeeps
      refine ⟨?_, fun f hf => ⟨hnone, toOption_eq_some.mp (hkept.symm.trans hf)⟩, ?_⟩
      · exact fun a ha => absurd (ha.symm.trans hnone) nofun
      · simp [hnone, hkept]
  | _ => exact hkeeps.elim

/-- A method that is assembled and then asked for as a field. -/
def fieldOfMethod : SessionHistory :=
  [.setText "static m()V\nRETURN", .update, .generateMethod, .generateField]

theorem output_of_flag_fieldOfMethod :
    let s := (fresh .keyword {}).run {} fieldOfMethod
    s.outputOutdated = false ∧ s.lastMethod = none ∧ s.lastField = none := by
  have hflag : ((fresh .keyword {}).run {} fieldOfMethod).outputOutdated = false := by
    decide +kernel
  have hmethod :
      ((fresh .keyword {}).run {} fieldOfMethod).listing.any (·.method?.isSome) = true := by
    decide +kernel
  obtain ⟨l, hl, -, -, hnone⟩ := output_of_flag .keyword {} {} fieldOfMethod hflag
  rw [hl] at hmethod
  exact ⟨hflag, hnone.mpr (Or.inl ⟨hmethod, rfl⟩)⟩

end Session

end JvmListing
