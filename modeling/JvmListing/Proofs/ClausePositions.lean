/-
# Positions of clauses

The clauses of a text follow one another in it: each stands between two offsets, the next
one from the later offset on (`ClausesLaid`).  A clause is spelled, not yet given a
meaning, so it also has to be known that the faults its meaning may have are at exact
positions (`FaultsOn`).  Both are kept from scan to scan, up to whole texts.

A definition that is given up sets the cursor back to its mark.  There the word is read
again as something else, and its clause stands where the definition would have begun.
-/
import JvmListing.Proofs.ReadAnnots
import JvmListing.Proofs.Tracking

namespace JvmListing

open Lexeme

variable {α β : Type} {source : List Char} {lo hi : Nat}

/-! ## Faults of meanings -/

/-- Are the faults of the result at exact positions? -/
def FaultsOn (source : List Char) (r : ReadResult α) : Prop :=
  ∀ e, r = .error e → e.position.IsExact source

theorem faultsOn_ok (a : α) : FaultsOn source (.ok a) := fun _ h => nomatch h

theorem faultsOn_error {e : ReadError} (h : e.position.IsExact source) :
    FaultsOn source (.error e : ReadResult α) := by
  intro e' he
  cases he
  exact h

theorem FaultsOn.bind {r : ReadResult α} {k : α → ReadResult β} (hr : FaultsOn source r)
    (hk : ∀ a, r = .ok a → FaultsOn source (k a)) : FaultsOn source (r >>= k) := by
  cases r with
  | error e => exact faultsOn_error (hr e rfl)
  | ok a => exact hk a rfl

theorem FaultsOn.mapM {f : α → ReadResult β} : ∀ {as : List α},
    (∀ a ∈ as, FaultsOn source (f a)) → FaultsOn source (as.mapM f) := by
  intro as
  induction as with
  | nil =>
      intro _
      exact faultsOn_ok _
  | cons a as ih =>
      intro h
      rw [List.mapM_cons]
      refine (h a List.mem_cons_self).bind fun _ _ => ?_
      refine (ih fun b hb => h b (List.mem_cons_of_mem a hb)).bind fun _ _ => ?_
      exact faultsOn_ok _

section Literals

variable {l : Located RawLiteral}

theorem faultsOn_numberOf (h : l.position.IsExact source) : FaultsOn source (numberOf l) := by
  unfold numberOf
  split
  · split
    · exact faultsOn_ok _
    · exact faultsOn_error h
  · exact faultsOn_ok _
  · exact faultsOn_error h

theorem faultsOn_intOf (h : l.position.IsExact source) : FaultsOn source (intOf l) := by
  unfold intOf
  refine (faultsOn_numberOf h).bind fun n _ => ?_
  split
  · exact faultsOn_ok _
  · exact faultsOn_error h
  · exact faultsOn_error h

theorem faultsOn_literalOf (h : l.position.IsExact source) : FaultsOn source (literalOf l) := by
  unfold literalOf
  split
  · exact faultsOn_ok _
  · exact (faultsOn_numberOf h).bind fun _ _ => faultsOn_ok _

theorem faultsOn_locatedLiteralOf (h : l.position.IsExact source) :
    FaultsOn source (locatedLiteralOf l) :=
  (faultsOn_literalOf h).bind fun _ _ => faultsOn_ok _

theorem faultsOn_lineMarker (label : String) (h : l.position.IsExact source) :
    FaultsOn source (lineMarker label l) := by
  unfold lineMarker
  refine (faultsOn_intOf h).bind fun n _ => ?_
  dsimp only
  split
  · exact faultsOn_ok _
  · exact faultsOn_error h

end Literals

theorem faultsOn_splitMember {m : Located String} (h : m.position.IsExact source) :
    FaultsOn source (splitMember m) := by
  unfold splitMember
  dsimp only
  split
  · exact faultsOn_error h
  · exact faultsOn_ok _

theorem faultsOn_toRef {h : RawHandle} (htag : h.tag.position.IsExact source)
    (hmember : h.member.position.IsExact source) : FaultsOn source h.toRef := by
  unfold RawHandle.toRef
  split
  · exact faultsOn_error htag
  · exact (faultsOn_splitMember hmember).bind fun _ _ => faultsOn_ok _

theorem faultsOn_type {desc : Located String} (h : desc.position.IsExact source) :
    FaultsOn source (RawConst.type desc).toConst := by
  unfold RawConst.toConst
  dsimp only
  split
  · exact faultsOn_ok _
  · exact faultsOn_error h

theorem faultsOn_arrayElement {word : Located String} (h : word.position.IsExact source) :
    FaultsOn source (arrayElement word) := by
  unfold arrayElement
  dsimp only
  split
  · exact faultsOn_ok _
  · exact faultsOn_error h

theorem faultsOn_accessOf (target : FlagTarget) : ∀ {modifiers : List (Located String)},
    (∀ m ∈ modifiers, m.position.IsExact source) → FaultsOn source (accessOf target modifiers) := by
  intro modifiers
  induction modifiers with
  | nil =>
      intro _
      exact faultsOn_ok _
  | cons m modifiers ih =>
      intro h
      unfold accessOf
      split
      · exact faultsOn_error (h m List.mem_cons_self)
      · refine (ih fun m' hm => h m' (List.mem_cons_of_mem m hm)).bind fun _ _ => ?_
        exact faultsOn_ok _

/-! ### Annotations -/

/-- Do the arguments give faults at exact positions only, whatever annotation they stand in? -/
def ArgsFaultOn (source : List Char) (args : List (Option String × RawAnnotArg)) : Prop :=
  ∀ x ∈ args, FaultsOn source x.2.toArg

theorem faultsOn_toArgs {position : Position} (hposition : position.IsExact source) :
    ∀ {args : List (Option String × RawAnnotArg)} {known : List (String × AnnotArg)},
      ArgsFaultOn source args → FaultsOn source (RawAnnot.toArgs position known args) := by
  intro args
  induction args with
  | nil =>
      intro known _
      rw [RawAnnot.toArgs]
      exact faultsOn_ok _
  | cons x args ih =>
      intro known h
      obtain ⟨name, arg⟩ := x
      cases name with
      | none =>
          rw [RawAnnot.toArgs]
          exact faultsOn_error hposition
      | some name =>
          rw [RawAnnot.toArgs]
          refine (h _ List.mem_cons_self).bind fun _ _ => ?_
          exact ih fun y hy => h y (List.mem_cons_of_mem _ hy)

/-- Wherever in the text the annotation is said to stand, are its faults at exact positions? -/
def RawAnnot.FaultsAnywhere (source : List Char) (a : RawAnnot) : Prop :=
  ∀ p : Position, p.IsExact source → FaultsOn source (a.at p).toAnnot

theorem faultsAnywhere_mk {visible : Bool} {type : String} {position : Position}
    {args : List (Option String × RawAnnotArg)} (h : ArgsFaultOn source args) :
    (RawAnnot.mk visible type args position).FaultsAnywhere source := by
  intro p hp
  rw [RawAnnot.at, RawAnnot.toAnnot]
  exact (faultsOn_toArgs hp h).bind fun _ _ => faultsOn_ok _

theorem faultsOn_toArgList : ∀ {args : List RawAnnotArg}, (∀ a ∈ args, FaultsOn source a.toArg) →
    FaultsOn source (RawAnnotArg.toArgList args) := by
  intro args
  induction args with
  | nil =>
      intro _
      rw [RawAnnotArg.toArgList]
      exact faultsOn_ok _
  | cons a args ih =>
      intro h
      rw [RawAnnotArg.toArgList]
      refine (h a List.mem_cons_self).bind fun _ _ => ?_
      refine (ih fun b hb => h b (List.mem_cons_of_mem a hb)).bind fun _ _ => ?_
      exact faultsOn_ok _

theorem faultsOn_const {c : RawConst} (h : FaultsOn source c.toConst) :
    FaultsOn source (RawAnnotArg.const c).toArg := by
  rw [RawAnnotArg.toArg]
  exact h.bind fun _ _ => faultsOn_ok _

theorem faultsOn_list {args : List RawAnnotArg} (h : ∀ a ∈ args, FaultsOn source a.toArg) :
    FaultsOn source (RawAnnotArg.list args).toArg := by
  rw [RawAnnotArg.toArg]
  exact (faultsOn_toArgList h).bind fun _ _ => faultsOn_ok _

theorem faultsOn_enum (type name : String) :
    FaultsOn source (RawAnnotArg.enum type name).toArg := by
  rw [RawAnnotArg.toArg]
  exact faultsOn_ok _

theorem faultsOn_annot {a : RawAnnot} (h : FaultsOn source a.toAnnot) :
    FaultsOn source (RawAnnotArg.annot a).toArg := by
  rw [RawAnnotArg.toArg]
  exact h.bind fun _ _ => faultsOn_ok _

/-! ## Constants and annotations -/

namespace Scan

theorem advances_eatEnd : Advances source eatEnd := by
  unfold eatEnd
  refine advances_skipTrivia.bind fun _ => advances_atEnd.bind fun ended => ?_
  dsimp only
  split
  · exact fun _ => .fail_bind _
  · exact advances_eatKeyword _

theorem tracks_upToEnd {item : Scan α} {R : α → Nat → Prop}
    (hmono : ∀ a m n, m ≤ n → R a m → R a n) (hitem : ∀ n, lo ≤ n → Tracks source n item R) :
    Tracks source lo (upToEnd item) fun found n => ∀ a ∈ found, R a n := by
  refine tracks_collect hmono fun n hn => ?_
  refine advances_eatEnd.andThen fun ended n₁ h₁ => ?_
  split
  · exact .pure fun _ _ a ha => nomatch ha
  · refine (hitem n₁ (by omega)).bind fun a n₂ _ ha => ?_
    refine .pure fun n₃ h₃ b hb => ?_
    cases hb
    exact hmono _ n₂ n₃ h₃ ha

theorem tracks_bracketedHandle : Tracks source lo bracketedHandle fun h _ =>
    FaultsOn source h.toRef := by
  unfold bracketedHandle
  refine (advances_expectKeyword _ _).andThen fun _ _ _ => ?_
  refine (advances_expect _).andThen fun _ _ _ => ?_
  refine tracks_handleBody.bind fun h _ _ hh => ?_
  refine advances_skipTrivia.andThen fun _ _ _ => ?_
  refine (advances_expect _).andThen fun _ _ _ => ?_
  exact .pure fun _ _ => faultsOn_toRef hh.1 hh.2

section Consts

theorem tracks_constLiteral :
    Tracks source lo literal fun l _ => FaultsOn source (RawConst.literal l).toConst :=
  tracks_literal.mono fun _ _ _ hl => (faultsOn_literalOf hl.isExact).bind fun _ _ => faultsOn_ok _

theorem tracks_constType :
    Tracks source lo typeConstant fun desc _ => FaultsOn source (RawConst.type desc).toConst :=
  tracks_typeConstant.mono fun _ _ _ hdesc => faultsOn_type hdesc

theorem faultsOn_handle {h : RawHandle} (hh : FaultsOn source h.toRef) :
    FaultsOn source (RawConst.handle h).toConst :=
  hh.bind fun _ _ => faultsOn_ok _

theorem tracks_handleRef : Tracks source lo handleBody fun h _ => FaultsOn source h.toRef :=
  tracks_handleBody.mono fun _ _ _ hh => faultsOn_toRef hh.1 hh.2

theorem tracks_keywordConst :
    Tracks source lo keywordConst fun c _ => FaultsOn source c.toConst := by
  unfold keywordConst
  refine advances_atLiteral.andThen fun found _ _ => ?_
  split
  · exact tracks_constLiteral.returning fun _ h => h
  refine advances_peekWord.andThen fun head _ _ => ?_
  split
  · exact tracks_bracketedHandle.returning fun _ h => faultsOn_handle h
  · exact tracks_constType.returning fun _ h => h

theorem tracks_directiveConst :
    Tracks source lo directiveConst fun c _ => FaultsOn source c.toConst := by
  unfold directiveConst
  refine advances_atLiteral.andThen fun found _ _ => ?_
  split
  · exact tracks_constLiteral.returning fun _ h => h
  refine .mark fun mark hmark _ => ?_
  refine advances_word.andThen fun head n hn => ?_
  split
  · exact tracks_constType.returning fun _ h => h
  · exact tracks_handleRef.returning fun _ h => faultsOn_handle h
  · exact .failSince hmark hn _

theorem tracks_constant (d : Dialect) :
    Tracks source lo (constant d) fun c _ => FaultsOn source c.toConst := by
  cases d with
  | keyword => exact tracks_keywordConst
  | directive => exact tracks_directiveConst

end Consts

theorem advances_argName? : Advances source argName? := by
  unfold argName?
  intro lo
  refine .mark fun mark hmark _ => ?_
  refine (advances_upTo _ mark.offset).bindBack fun name _ _ _ => ?_
  refine (advances_skipBlanks mark.offset).bindBack fun _ _ _ _ => ?_
  have hback : Tracks source mark.offset (do set mark; return none : Scan (Option String))
      fun _ _ => True :=
    (Tracks.set hmark (Nat.le_refl _)).bindBack fun _ _ _ _ => .pure fun _ _ => trivial
  dsimp only
  split
  · refine (advances_eat '=' mark.offset).bindBack fun found _ _ _ => ?_
    split
    · exact .pure fun _ _ => trivial
    · exact hback
  · exact hback

/-- Does the scan of an argument give faults at exact positions, wherever it begins? -/
def ArgTracks (source : List Char) (arg : Scan RawAnnotArg) : Prop :=
  ∀ lo, Tracks source lo arg fun a _ => FaultsOn source a.toArg

section Annots

variable {arg : Scan RawAnnotArg} {visible : Bool}

/-- An annotation that began at a mark, from its arguments. -/
theorem tracks_annotSince {mark : Cursor} (hmark : mark.On source) {n : Nat}
    (hn : mark.offset ≤ n) {type : String} {args : List (Option String × RawAnnotArg)}
    (hargs : ArgsFaultOn source args) :
    Tracks source n (do return .mk visible type args (← since mark) : Scan RawAnnot) fun a _ =>
      a.FaultsAnywhere source ∧ FaultsOn source a.toAnnot := by
  refine (Tracks.since hmark hn).bind fun p _ _ hp => .pure fun _ _ => ?_
  have hmk : (RawAnnot.mk visible type args p).FaultsAnywhere source := faultsAnywhere_mk hargs
  exact ⟨hmk, hmk p hp.1⟩

theorem tracks_keywordAnnot (harg : ArgTracks source arg) :
    Tracks source lo (keywordAnnot visible arg) fun a _ =>
      a.FaultsAnywhere source ∧ FaultsOn source a.toAnnot := by
  unfold keywordAnnot
  refine .mark fun mark hmark _ => ?_
  refine (tracks_requiredUpTo _ _).bind fun type n₁ h₁ _ => ?_
  refine (advances_expect _).andThen fun _ n₂ h₂ => ?_
  have hitem : ∀ n, mark.offset ≤ n → Tracks source n (do
      if ← atEnd then failSince mark .unterminatedAnnot
      let name ← argName?
      return (name, ← arg) : Scan (Option String × RawAnnotArg)) fun x _ =>
        FaultsOn source x.2.toArg := by
    intro n hn
    refine advances_atEnd.andThen fun ended n₁ h₁ => ?_
    dsimp only
    split
    · exact .failSince_bind hmark (by omega) _
    · refine advances_argName?.andThen fun name n₂ _ => ?_
      exact (harg n₂).bind fun a _ _ ha => .pure fun _ _ => ha
  refine (tracks_delimited (fun _ _ _ _ h => h) (fun n hn => hitem n (by omega)) ')').bind
    fun args n₃ h₃ hargs => ?_
  exact tracks_annotSince hmark (by omega) hargs

theorem tracks_directiveAnnot (harg : ArgTracks source arg) :
    Tracks source lo (directiveAnnot visible arg) fun a _ =>
      a.FaultsAnywhere source ∧ FaultsOn source a.toAnnot := by
  unfold directiveAnnot
  refine .mark fun mark hmark _ => ?_
  refine (tracks_requiredWord _).bind fun type n₁ h₁ _ => ?_
  have hitem : ∀ n, n₁ ≤ n → Tracks source n (do
      let name ← word
      return (some name, ← arg) : Scan (Option String × RawAnnotArg)) fun x _ =>
        FaultsOn source x.2.toArg := by
    intro n _
    refine advances_word.andThen fun name m _ => ?_
    exact (harg m).bind fun a _ _ ha => .pure fun _ _ => ha
  refine (tracks_upToEnd (fun _ _ _ _ h => h) hitem).bind fun args n₂ h₂ hargs => ?_
  exact tracks_annotSince hmark (by omega) hargs

theorem tracks_keywordEnum : Tracks source lo keywordEnum fun a _ => FaultsOn source a.toArg := by
  unfold keywordEnum
  refine (advances_eatKeyword _).andThen fun _ _ _ => ?_
  refine (advances_expect _).andThen fun _ _ _ => ?_
  refine (advances_requiredWord _).andThen fun type _ _ => ?_
  refine advances_skipTrivia.andThen fun _ _ _ => ?_
  refine (tracks_requiredUpTo _ _).bind fun name _ _ _ => ?_
  refine (advances_expect _).andThen fun _ _ _ => ?_
  exact .pure fun _ _ => faultsOn_enum type name

theorem argTracks_keywordAnnotArg (depth : Nat) :
    ArgTracks source (keywordAnnotArg visible depth) := by
  induction depth with
  | zero =>
      intro lo
      exact .fail _
  | succ depth ih =>
      intro lo
      unfold keywordAnnotArg
      refine advances_skipTrivia.andThen fun _ _ _ => ?_
      refine (advances_eat _).andThen fun listed n _ => ?_
      split
      · have hitem : ∀ m, n ≤ m → Tracks source m (do
            if ← atEnd then fail .unterminatedAnnotList
            keywordAnnotArg visible depth) fun a _ => FaultsOn source a.toArg := by
          intro m _
          refine advances_atEnd.andThen fun ended k _ => ?_
          dsimp only
          split
          · exact .fail_bind _
          · exact ih k
        refine (tracks_delimited (fun _ _ _ _ h => h) hitem ']').bind fun args _ _ hargs => ?_
        exact .pure fun _ _ => faultsOn_list hargs
      refine advances_atLiteral.andThen fun found _ _ => ?_
      split
      · exact tracks_constLiteral.returning fun _ h => faultsOn_const h
      refine advances_peekWord.andThen fun head _ _ => ?_
      split
      · exact tracks_bracketedHandle.returning fun _ h => faultsOn_const (faultsOn_handle h)
      split
      · exact tracks_keywordEnum
      split
      · refine (advances_eatKeyword _).andThen fun _ _ _ => ?_
        refine (advances_expect _).andThen fun _ _ _ => ?_
        refine advances_skipTrivia.andThen fun _ _ _ => ?_
        refine (tracks_keywordAnnot ih).bind fun nested _ _ hnested => ?_
        refine advances_skipTrivia.andThen fun _ _ _ => ?_
        refine (advances_expect _).andThen fun _ _ _ => ?_
        exact .pure fun _ _ => faultsOn_annot hnested.2
      · exact tracks_constType.returning fun _ h => faultsOn_const h

theorem argTracks_directiveAnnotArg (depth : Nat) :
    ArgTracks source (directiveAnnotArg visible depth) := by
  induction depth with
  | zero =>
      intro lo
      exact .fail _
  | succ depth ih =>
      intro lo
      unfold directiveAnnotArg
      refine advances_atLiteral.andThen fun found _ _ => ?_
      split
      · exact tracks_constLiteral.returning fun _ h => faultsOn_const h
      refine .mark fun mark hmark _ => ?_
      refine advances_word.andThen fun head n hn => ?_
      split
      · exact tracks_constType.returning fun _ h => faultsOn_const h
      · exact tracks_handleRef.returning fun _ h => faultsOn_const (faultsOn_handle h)
      · refine (advances_requiredWord _).andThen fun type _ _ => ?_
        refine (advances_requiredWord _).andThen fun name _ _ => ?_
        exact .pure fun _ _ => faultsOn_enum type name
      · refine (tracks_directiveAnnot ih).bind fun nested _ _ hnested => ?_
        exact .pure fun _ _ => faultsOn_annot hnested.2
      · refine (tracks_upToEnd (fun _ _ _ _ h => h) fun m _ => ih m).bind fun args _ _ hargs => ?_
        exact .pure fun _ _ => faultsOn_list hargs
      · exact .failSince hmark hn _

theorem tracks_annot (d : Dialect) :
    Tracks source lo (annot d visible) fun a _ => a.FaultsAnywhere source := by
  unfold annot
  refine .mark fun _ _ _ => ?_
  cases d with
  | keyword =>
      refine advances_skipTrivia.andThen fun _ _ _ => ?_
      exact (tracks_keywordAnnot (argTracks_keywordAnnotArg _)).mono fun _ _ _ h => h.1
  | directive =>
      exact (tracks_directiveAnnot (argTracks_directiveAnnotArg _)).mono fun _ _ _ h => h.1

end Annots

/-! ## Operands -/

theorem advances_interfaceOwner (op : Opcode) : Advances source (interfaceOwner op) := by
  unfold interfaceOwner
  intro lo
  refine .mark fun mark hmark _ => ?_
  refine (advances_skipBlanks mark.offset).bindBack fun _ _ _ _ => ?_
  refine (advances_eatKeyword _ mark.offset).bindBack fun found _ _ _ => ?_
  split
  · exact .pure fun _ _ => trivial
  · refine (Tracks.set hmark (Nat.le_refl _)).bindBack fun _ _ _ _ => ?_
    exact .pure fun _ _ => trivial

theorem advances_openGroup (keyword : String) : Advances source (openGroup keyword) :=
  advances_skipTrivia.bind fun _ => (advances_expectKeyword _ _).bind fun _ => advances_expect _

theorem tracks_bootstrap (d : Dialect) : Tracks source lo (bootstrap d) fun r _ =>
    FaultsOn source r.1.toRef ∧ ∀ c ∈ r.2, FaultsOn source c.toConst := by
  cases d with
  | keyword =>
      unfold bootstrap
      refine advances_skipTrivia.andThen fun _ _ _ => ?_
      refine tracks_bracketedHandle.bind fun h _ _ hh => ?_
      refine advances_skipTrivia.andThen fun _ _ _ => ?_
      refine (advances_expectKeyword _ _).andThen fun _ _ _ => ?_
      refine (advances_expect _).andThen fun _ _ _ => ?_
      refine (tracks_delimited (fun _ _ _ _ h => h) (fun _ _ => tracks_keywordConst) ')').bind
        fun args _ _ hargs => ?_
      exact .pure fun _ _ => ⟨hh, hargs⟩
  | directive =>
      unfold bootstrap
      refine advances_skipTrivia.andThen fun _ _ _ => ?_
      refine (advances_expectKeyword _ _).andThen fun _ _ _ => ?_
      refine tracks_handleRef.bind fun h _ _ hh => ?_
      refine advances_skipTrivia.andThen fun _ _ _ => ?_
      refine (advances_expectKeyword _ _).andThen fun _ _ _ => ?_
      refine (tracks_upToEnd (fun _ _ _ _ h => h) fun _ _ => tracks_directiveConst).bind
        fun args _ _ hargs => ?_
      exact .pure fun _ _ => ⟨hh, hargs⟩

theorem advances_defaultGroup : Advances source defaultGroup := by
  unfold defaultGroup
  refine (advances_openGroup _).bind fun _ => advances_labelRef.bind fun _ => ?_
  exact advances_skipTrivia.bind fun _ => (advances_expect _).bind fun _ => .pure _

/-- Are the faults of the operation at exact positions, if the instruction is at one? -/
def OperandsFaultOn (source : List Char) (parts : Operands) : Prop :=
  ∀ (op : Opcode) (p : Position), p.IsExact source → FaultsOn source (parts.toOperation op p)

theorem faultsOn_tableSwitch {min max : Located RawLiteral} (hmin : min.position.IsExact source)
    (hmax : max.position.IsExact source) (labels : List String) (default : String) :
    OperandsFaultOn source (.tableSwitch min max labels default) := by
  intro op p hp
  unfold Operands.toOperation
  refine (faultsOn_intOf hmin).bind fun lowest _ => (faultsOn_intOf hmax).bind fun highest _ => ?_
  split
  · exact faultsOn_ok _
  · exact faultsOn_error hp

theorem faultsOn_lookupSwitch {cases : List (Located RawLiteral × String)}
    (h : ∀ x ∈ cases, x.1.position.IsExact source) (default : String) :
    OperandsFaultOn source (.lookupSwitch cases default) := by
  intro op p _
  unfold Operands.toOperation
  refine (FaultsOn.mapM fun x hx => ?_).bind fun _ _ => faultsOn_ok _
  exact (faultsOn_intOf (h x hx)).bind fun _ _ => faultsOn_ok _

theorem tracks_tableSwitch (d : Dialect) :
    Tracks source lo (tableSwitch d) fun parts _ => OperandsFaultOn source parts := by
  cases d with
  | keyword =>
      unfold tableSwitch
      refine (advances_openGroup _).andThen fun _ _ _ => ?_
      refine tracks_literal.bind fun min _ _ hmin => ?_
      refine advances_skipTrivia.andThen fun _ _ _ => (advances_expect _).andThen fun _ _ _ => ?_
      refine tracks_literal.bind fun max _ _ hmax => ?_
      refine advances_skipTrivia.andThen fun _ _ _ => (advances_expect _).andThen fun _ _ _ => ?_
      refine (advances_openGroup _).andThen fun _ n _ => ?_
      have hlabels : Tracks source n (delimited ')' labelRef) fun _ _ => True :=
        (tracks_delimited (R := fun _ _ => True) (fun _ _ _ _ h => h)
          (fun m _ => advances_labelRef m) ')').mono fun _ _ _ _ => trivial
      refine hlabels.bind fun labels _ _ _ => advances_defaultGroup.andThen fun default _ _ => ?_
      exact .pure fun _ _ => faultsOn_tableSwitch hmin.isExact hmax.isExact labels default
  | directive =>
      unfold tableSwitch
      refine tracks_literal.bind fun min _ _ hmin => ?_
      refine tracks_literal.bind fun max n _ hmax => ?_
      have htarget : Advances source tableTarget? :=
        (advances_requiredWord _).bind fun label => .pure _
      have hlabels : Tracks source n (collect tableTarget?) fun _ _ => True :=
        (tracks_collect (R := fun _ _ => True) (fun _ _ _ _ h => h)
          fun m _ => (htarget m).mono fun _ _ _ _ _ _ => trivial).mono fun _ _ _ _ => trivial
      refine hlabels.bind fun labels _ _ _ => ?_
      refine (advances_requiredWord _).andThen fun default _ _ => ?_
      exact .pure fun _ _ => faultsOn_tableSwitch hmin.isExact hmax.isExact labels default

theorem tracks_keywordCase :
    Tracks source lo keywordCase fun x _ => x.1.position.IsExact source := by
  unfold keywordCase
  refine tracks_literal.bind fun key _ _ hkey => ?_
  refine advances_skipTrivia.andThen fun _ _ _ => (advances_expect _).andThen fun _ _ _ => ?_
  exact advances_labelRef.andThen fun _ _ _ => .pure fun _ _ => hkey.isExact

theorem tracks_directiveCase? :
    Tracks source lo directiveCase? fun found _ => ∀ x ∈ found, x.1.position.IsExact source := by
  unfold directiveCase?
  refine (advances_requiredWord _).andThen fun head _ _ => ?_
  split
  · exact .pure fun _ _ x hx => nomatch hx
  dsimp only
  split
  · exact .fail_bind _
  refine tracks_literal.bind fun key _ _ hkey => ?_
  refine (advances_requiredWord _).andThen fun label _ _ => .pure fun _ _ x hx => ?_
  cases hx
  exact hkey.isExact

theorem tracks_lookupSwitch (d : Dialect) :
    Tracks source lo (lookupSwitch d) fun parts _ => OperandsFaultOn source parts := by
  cases d with
  | keyword =>
      unfold lookupSwitch
      refine (advances_openGroup _).andThen fun _ _ _ => ?_
      refine (tracks_delimited (fun _ _ _ _ h => h) (fun _ _ => tracks_keywordCase) ')').bind
        fun cases _ _ hcases => ?_
      refine advances_defaultGroup.andThen fun default _ _ => ?_
      exact .pure fun _ _ => faultsOn_lookupSwitch hcases default
  | directive =>
      unfold lookupSwitch
      refine (tracks_collect (fun _ _ _ _ h => h) fun _ _ => tracks_directiveCase?).bind
        fun cases _ _ hcases => ?_
      refine (advances_requiredWord _).andThen fun default _ _ => ?_
      exact .pure fun _ _ => faultsOn_lookupSwitch hcases default

theorem faultsOn_ofConstant {c : RawConst} (h : FaultsOn source c.toConst) :
    OperandsFaultOn source (.ldc c) :=
  fun _ _ _ => h.bind fun _ _ => faultsOn_ok _

theorem tracks_operands (d : Dialect) (op : Opcode) :
    Tracks source lo (operands d op) fun parts _ => OperandsFaultOn source parts := by
  unfold operands
  split
  · exact .pure fun _ _ _ _ _ => faultsOn_ok _
  · refine tracks_literal.bind fun l _ _ hl => .pure fun _ _ _ _ _ => ?_
    exact (faultsOn_intOf hl.isExact).bind fun _ _ => faultsOn_ok _
  · refine advances_skipTrivia.andThen fun _ _ _ => .mark fun mark hmark _ => ?_
    refine (tracks_requiredWord _).bind fun type n hn _ => ?_
    refine (Tracks.since hmark hn).bind fun p _ _ hp => .pure fun _ _ _ _ _ => ?_
    exact (faultsOn_arrayElement hp.1).bind fun _ _ => faultsOn_ok _
  · exact (advances_requiredWord _).andThen fun _ _ _ => .pure fun _ _ _ _ _ => faultsOn_ok _
  · exact (advances_requiredWord _).andThen fun _ _ _ => .pure fun _ _ _ _ _ => faultsOn_ok _
  · refine tracks_member.bind fun m _ _ hm => ?_
    refine advances_memberDesc.andThen fun desc _ _ => .pure fun _ _ _ _ _ => ?_
    exact (faultsOn_splitMember hm).bind fun _ _ => faultsOn_ok _
  · refine tracks_member.bind fun m _ _ hm => ?_
    refine advances_memberDesc.andThen fun desc _ _ => ?_
    refine (advances_interfaceOwner op).andThen fun itf _ _ => .pure fun _ _ _ _ _ => ?_
    exact (faultsOn_splitMember hm).bind fun _ _ => faultsOn_ok _
  · refine (advances_requiredWord _).andThen fun name _ _ => ?_
    refine advances_memberDesc.andThen fun desc _ _ => ?_
    refine (tracks_bootstrap d).bind fun r _ _ hr => .pure fun _ _ _ _ _ => ?_
    exact hr.1.bind fun _ _ => (FaultsOn.mapM hr.2).bind fun _ _ => faultsOn_ok _
  · exact (advances_requiredWord _).andThen fun _ _ _ => .pure fun _ _ _ _ _ => faultsOn_ok _
  · exact (tracks_constant d).returning fun _ hc => faultsOn_ofConstant hc
  · refine (advances_requiredWord _).andThen fun name _ _ => ?_
    refine tracks_literal.bind fun l _ _ hl => .pure fun _ _ _ _ _ => ?_
    exact (faultsOn_intOf hl.isExact).bind fun _ _ => faultsOn_ok _
  · refine (advances_requiredWord _).andThen fun desc _ _ => ?_
    refine tracks_literal.bind fun l _ _ hl => .pure fun _ _ op p hp => ?_
    refine (faultsOn_intOf hl.isExact).bind fun count _ => ?_
    dsimp only
    split
    · exact faultsOn_ok _
    · exact faultsOn_error hp
  · exact tracks_tableSwitch d
  · exact tracks_lookupSwitch d

end Scan

/-! ## Clauses -/

/-- Does the clause say where it stands between two offsets?  A comment and an unmatched word are
the characters there, and what is left to be given a meaning has faults at exact positions. -/
def Clause.Laid (source : List Char) (lo hi : Nat) : Clause → Prop
  | .signature text | .throws text | .label text | .expression text =>
    text.position.Spans source lo hi
  | .value l => l.position.Spans source lo hi
  | .deprecated | .bodyEnd => lo < hi
  | .annot a => ∃ (raw : RawAnnot) (p : Position),
    a = raw.at p ∧ p.Spans source lo hi ∧ FaultsOn source a.toAnnot
  | .method modifiers _ params _ position =>
    (∀ m ∈ modifiers, m.position.IsExact source) ∧ position.Spans source lo hi ∧
      ∀ p ∈ params, p.position.Spans source position.start position.stop
  | .field modifiers _ _ constant position =>
    (∀ m ∈ modifiers, m.position.IsExact source) ∧ position.Spans source lo hi ∧
      ∀ l ∈ constant, l.position.IsExact source
  | .tryCatch _ _ _ _ position => position.Spans source lo hi
  | .line _ number position => position.Spans source lo hi ∧ number.position.IsExact source
  | .instruction op parts position =>
    position.Spans source lo hi ∧ FaultsOn source (parts.toOperation op position)
  | .comment text | .unmatched text =>
    text.position.Spans source lo hi ∧ text.value = Draft.slice source text.position

theorem Clause.Laid.widen {lo' hi' : Nat} {clause : Clause} (h : clause.Laid source lo hi)
    (hlo : lo' ≤ lo) (hhi : hi ≤ hi') : clause.Laid source lo' hi' := by
  cases clause with
  | deprecated | bodyEnd => exact Nat.lt_of_le_of_lt hlo (Nat.lt_of_lt_of_le h hhi)
  | signature | throws | label | expression | value | tryCatch =>
      exact Position.Spans.widen h hlo hhi
  | annot a =>
      obtain ⟨raw, p, ha, hp, hfaults⟩ := h
      exact ⟨raw, p, ha, hp.widen hlo hhi, hfaults⟩
  | method | field => exact ⟨h.1, h.2.1.widen hlo hhi, h.2.2⟩
  | line | instruction | comment | unmatched => exact ⟨h.1.widen hlo hhi, h.2⟩

theorem Position.Spans.lt {p : Position} (h : p.Spans source lo hi) : lo < hi :=
  Nat.lt_of_le_of_lt h.after (Nat.lt_of_lt_of_le h.nonempty h.before)

/-- Every clause takes a character. -/
theorem Clause.Laid.lt {clause : Clause} (h : clause.Laid source lo hi) : lo < hi := by
  cases clause with
  | deprecated | bodyEnd => exact h
  | signature | throws | label | expression | value | tryCatch => exact Position.Spans.lt h
  | annot a =>
      obtain ⟨raw, p, -, hp, -⟩ := h
      exact hp.lt
  | method | field => exact h.2.1.lt
  | line | instruction | comment | unmatched => exact h.1.lt

/-- Does a word begin at the cursor? -/
def Cursor.AtWord (c : Cursor) : Prop := ∃ x rest, c.rest = x :: rest ∧ isBlank x = false

/-- The word at the cursor. -/
def Cursor.headWord (c : Cursor) : String :=
  String.ofList (c.rest.take (wordLength (fun _ => false) c.rest))

theorem Cursor.AtWord.wordLength_pos {c : Cursor} (h : c.AtWord) :
    0 < wordLength (fun _ => false) c.rest := by
  obtain ⟨x, rest, hrest, hx⟩ := h
  simp [hrest, wordLength, spanLength, hx]

/-- The cursor after the word. -/
theorem Cursor.AtWord.offset_lt {c : Cursor} (h : c.AtWord) :
    c.offset < (c.advance (wordLength (fun _ => false) c.rest)).offset := by
  have hpos := h.wordLength_pos
  have hle : wordLength (fun _ => false) c.rest ≤ c.rest.length := Scan.spanLength_le _ _
  rw [Cursor.offset_advance]
  omega

theorem Draft.slice_eq {before text after : List Char} {p : Position}
    (hsource : source = before ++ (text ++ after)) (hstart : p.start = before.length)
    (hstop : p.stop = (before ++ text).length) : slice source p = String.ofList text := by
  have hsize : (before ++ text).length - before.length = text.length := by
    rw [List.length_append]
    omega
  rw [slice, hstart, hstop, hsize, hsource, List.drop_left, List.take_left]

/-- The characters between a cursor and a later one. -/
theorem Cursor.On.slice_span {c : Cursor} (h : c.On source) (n : Nat) :
    Draft.slice source (c.span (c.advance n)) = String.ofList (c.rest.take n) := by
  unfold Draft.slice Cursor.span
  rw [← h.rest, Cursor.offset_advance, Nat.add_sub_cancel_left]
  by_cases hn : n ≤ c.rest.length
  · rw [Nat.min_eq_left hn]
  · rw [Nat.min_eq_right (by omega), List.take_length, List.take_of_length_le (by omega)]

namespace Scan

variable {c : Cursor}

/-- A first step whose outcome is known. -/
theorem Ends.run {s : Scan α} {k : α → Scan β} {R : β → Nat → Prop} {a : α} {c' : Cursor}
    (hs : s c = .ok (a, c')) (h : Ends source lo R (k a c')) :
    Ends source lo R ((s >>= k) c) := by
  show Ends source lo R (s c >>= fun r => k r.1 r.2)
  rw [hs]
  exact h

/-- What comes after the word at a cursor begins later than the cursor. -/
theorem ends_afterWord {k : Scan β} {R : β → Nat → Prop} (hc : c.On source)
    (hword : c.AtWord) (hk : ∀ n, c.offset < n → Tracks source n k R) :
    Ends source c.offset R ((do let _ ← word; k) c) := by
  have hlt := hword.offset_lt
  have hrest := (hk _ hlt).ends _ (hc.advance _) (Nat.le_refl _)
  exact hrest.imp (Nat.le_of_lt hlt) fun _ _ _ h => h

/-- What is made of the range since a mark, after something was passed. -/
theorem tracks_madeSince {mark : Cursor} (hmark : mark.On source) {n : Nat} (hn : mark.offset < n)
    {make : Position → β} {R : β → Nat → Prop}
    (hmake : ∀ p k, p.start = mark.offset → n ≤ p.stop → p.Spans source mark.offset k →
      R (make p) k) : Tracks source n (do return make (← since mark) : Scan β) R := by
  refine (Tracks.since hmark (Nat.le_of_lt hn)).bind fun p m hm hp => ?_
  obtain ⟨hexact, hstart, hstop⟩ := hp
  refine .pure fun k hk => hmake p k hstart (by omega) ?_
  exact ⟨hexact, by omega, by omega, by omega⟩

/-- A clause of the range since its mark and of something known before. -/
theorem tracks_clauseSince {mark : Cursor} (hmark : mark.On source) {n : Nat}
    (hn : mark.offset < n) {make : Position → Clause}
    (hmake : ∀ p k, p.Spans source mark.offset k → (make p).Laid source mark.offset k) :
    Tracks source n (do return make (← since mark) : Scan Clause) fun clause n =>
      clause.Laid source mark.offset n :=
  tracks_madeSince hmark hn fun p k _ _ hp => hmake p k hp

theorem tracks_tryCatch (d : Dialect) {mark : Cursor} (hmark : mark.On source) {n : Nat}
    (hn : mark.offset < n) : Tracks source n (tryCatch d mark) fun clause n =>
      clause.Laid source mark.offset n := by
  unfold tryCatch
  cases d with
  | keyword =>
      refine (advances_requiredWord _).andThen fun start n₁ h₁ => ?_
      refine (advances_requiredWord _).andThen fun stop n₂ h₂ => ?_
      refine advances_skipTrivia.andThen fun _ n₃ h₃ => ?_
      refine (advances_expectKeyword _ _).andThen fun _ n₄ h₄ => ?_
      refine (advances_expect _).andThen fun _ n₅ h₅ => ?_
      refine advances_skipTrivia.andThen fun _ n₆ h₆ => ?_
      refine (advances_upTo _).andThen fun caught n₇ h₇ => ?_
      refine (advances_expect _).andThen fun _ n₈ h₈ => ?_
      refine (advances_requiredWord _).andThen fun handler n₉ h₉ => ?_
      exact tracks_clauseSince hmark (by omega) fun _ _ hp => hp
  | directive =>
      refine (advances_requiredWord _).andThen fun caught n₁ h₁ => ?_
      refine (advances_requiredWord _).andThen fun start n₂ h₂ => ?_
      refine (advances_requiredWord _).andThen fun stop n₃ h₃ => ?_
      refine (advances_requiredWord _).andThen fun handler n₄ h₄ => ?_
      exact tracks_clauseSince hmark (by omega) fun _ _ hp => hp

theorem ends_construct (d : Dialect) (head : Head) (hc : c.On source) (hword : c.AtWord) :
    Ends source c.offset (fun clause n => clause.Laid source c.offset n) (construct d head c) := by
  unfold construct
  refine Ends.run rfl (ends_afterWord hc hword fun n hn => ?_)
  cases head with
  | signature =>
      refine (advances_requiredWord _).andThen fun value m hm => ?_
      exact tracks_clauseSince hc (by omega) fun _ _ hp => hp
  | throws =>
      refine (advances_requiredWord _).andThen fun type m hm => ?_
      exact tracks_clauseSince hc (by omega) fun _ _ hp => hp
  | value =>
      refine tracks_literal.bind fun l m _ hl => .pure fun k hk => ?_
      exact hl.widen (Nat.le_of_lt hn) hk
  | deprecated => exact .pure fun _ hk => Nat.lt_of_lt_of_le hn hk
  | annot visible =>
      refine (tracks_annot d).bind fun a m hm ha => ?_
      exact tracks_clauseSince hc (by omega) fun p _ hp => ⟨a, p, rfl, hp, ha p hp.isExact⟩
  | tryCatch => exact tracks_tryCatch d hc hn
  | line =>
      refine (advances_requiredWord _).andThen fun label m hm => ?_
      refine tracks_literal.bind fun number k hk hnumber => ?_
      exact tracks_clauseSince hc (by omega) fun _ _ hp => ⟨hp, hnumber.isExact⟩
  | expression =>
      refine (advances_textUpToWord _).andThen fun code m hm => ?_
      exact tracks_clauseSince hc (by omega) fun _ _ hp => hp

theorem ends_wordClause (d : Dialect) (hc : c.On source) (hword : c.AtWord) :
    Ends source c.offset (fun clause n => clause.Laid source c.offset n)
      (wordClause d c.headWord c) := by
  unfold wordClause
  split
  · refine Ends.run rfl (ends_afterWord hc hword fun n hn => ?_)
    exact tracks_clauseSince hc hn fun _ _ hp => hp
  · refine Ends.run rfl (ends_afterWord hc hword fun n hn => ?_)
    refine (tracks_operands d _).bind fun parts m hm hparts => ?_
    exact tracks_clauseSince hc (by omega) fun p _ hp => ⟨hp, hparts _ p hp.isExact⟩
  · -- The word is the text of the clause, so the run is followed to its end.
    have hlt := hword.offset_lt
    have hspan := hc.span (hc.advance (wordLength (fun _ => false) c.rest)) (Nat.le_of_lt hlt)
    refine .ok (hc.advance _) (Nat.le_of_lt hlt) ⟨⟨hspan, Nat.le_refl _, hlt, Nat.le_refl _⟩, ?_⟩
    exact (hc.slice_span _).symm

/-! ### Definitions -/

/-- Giving up a definition leads back to its mark. -/
theorem ends_giveUp {mark : Cursor} (hmark : mark.On source) :
    Ends source mark.offset (fun (found : Option Clause) n =>
      (found = none → n = mark.offset) ∧ ∀ clause ∈ found, clause.Laid source mark.offset n)
      ((do set mark; return none : Scan (Option Clause)) c) :=
  .ok hmark (Nat.le_refl _) ⟨fun _ => rfl, fun _ h => nomatch h⟩

theorem ends_keywordDefinition? (hc : c.On source) :
    Ends source c.offset (fun found n =>
      (found = none → n = c.offset) ∧ ∀ clause ∈ found, clause.Laid source c.offset n)
      (keywordDefinition? c) := by
  unfold keywordDefinition?
  refine Ends.run rfl ?_
  refine (tracks_modifiers.ends c hc (Nat.le_refl _)).bind fun found c₁ hc₁ h₁ hfound => ?_
  refine ((tracks_upTo _).ends c₁ hc₁ (Nat.le_refl _)).bind fun name c₂ hc₂ h₂ hlen => ?_
  by_cases hname : name.isEmpty || (declaredLabel? name).isSome
  · rw [if_pos hname]
    exact ends_giveUp hc
  rw [if_neg hname]
  have hpos : 0 < name.toList.length := by
    apply length_pos_of_not_isEmpty
    intro hempty
    simp [hempty] at hname
  refine (advances_peek? c₂.offset |>.ends c₂ hc₂ (Nat.le_refl _)).bind
    fun next c₃ hc₃ h₃ _ => ?_
  by_cases hnext : next = some '('
  · rw [if_pos hnext]
    have hpassed : c.offset < c₃.offset := by omega
    have hmethod : Tracks source c₃.offset (do
        let signature ← methodSignature
        return some (.method found name signature.1 signature.2 (← since c)) : Scan (Option Clause))
        fun found n =>
          (found = none → n = c.offset) ∧ ∀ clause ∈ found, clause.Laid source c.offset n := by
      refine tracks_methodSignature.bind fun r m hm hparams => ?_
      refine tracks_madeSince hc (by omega) fun p k hstart hstop hp => ?_
      refine ⟨fun hnone => absurd hnone (Option.some_ne_none _), fun clause hclause => ?_⟩
      cases hclause
      exact ⟨hfound, hp, fun q hq => (hparams q hq).widen (by omega) hstop⟩
    exact (hmethod.ends c₃ hc₃ (Nat.le_refl _)).imp (by omega) fun _ _ _ h => h
  rw [if_neg hnext]
  refine ((advances_skipBlanks c₃.offset).ends c₃ hc₃ (Nat.le_refl _)).bind
    fun _ c₄ hc₄ h₄ _ => ?_
  refine ((advances_descriptor? c₄.offset).ends c₄ hc₄ (Nat.le_refl _)).bind
    fun desc? c₅ hc₅ h₅ _ => ?_
  cases desc? with
  | none => exact ends_giveUp hc
  | some desc =>
      refine ((advances_peek? c₅.offset).ends c₅ hc₅ (Nat.le_refl _)).bind
        fun after c₆ hc₆ h₆ _ => ?_
      by_cases hfield : isFieldDesc desc && (after.map isBlank).getD true
      · rw [if_pos hfield]
        have hmade : Tracks source c₆.offset (do
            return some (.field found name desc none (← since c)) : Scan (Option Clause))
            fun found n =>
              (found = none → n = c.offset) ∧ ∀ clause ∈ found, clause.Laid source c.offset n := by
          refine tracks_madeSince hc (by omega) fun p k _ _ hp => ?_
          refine ⟨fun hnone => absurd hnone (Option.some_ne_none _), fun clause hclause => ?_⟩
          cases hclause
          exact ⟨hfound, hp, fun _ h => absurd h.symm (Option.some_ne_none _)⟩
        exact (hmade.ends c₆ hc₆ (Nat.le_refl _)).imp (by omega) fun _ _ _ h => h
      · rw [if_neg hfield]
        exact ends_giveUp hc

theorem tracks_directiveMethod {mark : Cursor} (hmark : mark.On source) {n : Nat}
    (hn : mark.offset < n) : Tracks source n (directiveMethod mark) fun clause n =>
      clause.Laid source mark.offset n := by
  unfold directiveMethod
  refine advances_skipTrivia.andThen fun _ n₁ h₁ => ?_
  refine tracks_modifiers.bind fun found n₂ h₂ hfound => ?_
  refine (advances_upTo _).andThen fun name n₃ h₃ => ?_
  dsimp only
  split
  · exact .failSince_bind hmark (by omega) _
  refine advances_skipBlanks.andThen fun _ n₄ h₄ => ?_
  refine advances_peek?.andThen fun next n₅ h₅ => ?_
  split
  · exact .fail_bind _
  refine tracks_methodSignature.bind fun r n₆ h₆ hparams => ?_
  refine tracks_madeSince hmark (by omega) fun p k hstart hstop hp => ?_
  exact ⟨hfound, hp, fun q hq => (hparams q hq).widen (by omega) hstop⟩

/-- A field that has begun at a mark, up to the place where its constant may stand. -/
theorem tracks_directiveField {mark : Cursor} (hmark : mark.On source) {n : Nat}
    (hn : mark.offset < n) : Tracks source n (directiveField mark) fun clause n =>
      clause.Laid source mark.offset n := by
  unfold directiveField
  refine advances_skipTrivia.andThen fun _ n₁ h₁ => ?_
  refine tracks_modifiers.bind fun found n₂ h₂ hfound => ?_
  refine (advances_requiredWord _).andThen fun name n₃ h₃ => ?_
  refine advances_skipTrivia.andThen fun _ n₄ h₄ => ?_
  refine advances_descriptor?.andThen fun desc? n₅ h₅ => ?_
  cases desc? with
  | none => exact advances_peekWord.andThen fun _ _ _ => .fail _
  | some desc =>
      dsimp only
      split
      · exact advances_peekWord.andThen fun _ _ _ => .fail_bind _
      refine .mark fun afterDesc hafter h₆ => ?_
      -- Without a constant the cursor goes back behind the trivia, but not before the descriptor.
      refine (advances_atLiteral afterDesc.offset).bindBack fun valued _ _ _ => ?_
      split
      · refine tracks_literal.bind fun value n₇ h₇ hvalue => ?_
        refine tracks_clauseSince hmark (by omega) fun p k hp => ⟨hfound, hp, fun l hl => ?_⟩
        cases hl
        exact hvalue.isExact
      · refine (Tracks.set hafter (Nat.le_refl _)).bindBack fun _ _ _ _ => ?_
        exact tracks_clauseSince hmark (by omega) fun p k hp => ⟨hfound, hp, nofun⟩

/-! ### Whole texts -/

/-- Is the method header that still waits for its `end` at an exact position? -/
def Progress.On (source : List Char) (progress : Progress) : Prop :=
  ∀ p ∈ progress.openMethod, p.IsExact source

theorem peekWord_eq (c : Cursor) : peekWord c = .ok (c.headWord, c) := rfl

theorem ends_keywordClause {progress : Progress} (hprogress : progress.On source)
    (hc : c.On source) (hword : c.AtWord) :
    Ends source c.offset (fun r n => r.1.Laid source c.offset n ∧ r.2.On source)
      (keywordClause progress c) := by
  unfold keywordClause
  refine Ends.run (peekWord_eq c) ?_
  have hword' : Ends source c.offset (fun r n => r.1.Laid source c.offset n ∧ r.2.On source)
      ((do return (← wordClause .keyword c.headWord, progress) : Scan (Clause × Progress)) c) :=
    (ends_wordClause .keyword hc hword).bind fun clause c₁ hc₁ h₁ hclause =>
      .ok hc₁ h₁ ⟨hclause, hprogress⟩
  cases Head.ofWord? .keyword c.headWord with
  | some head =>
      exact (ends_construct .keyword head hc hword).bind fun clause c₁ hc₁ h₁ hclause =>
        .ok hc₁ h₁ ⟨hclause, hprogress⟩
  | none =>
      cases hdefined : progress.defined with
      | true => simpa [hdefined] using hword'
      | false =>
          refine (ends_keywordDefinition? hc).bind fun found c₁ hc₁ h₁ hfound => ?_
          cases found with
          | some clause => exact .ok hc₁ h₁ ⟨hfound.2 clause rfl, hprogress⟩
          | none =>
              rw [hc₁.eq_of_offset hc (hfound.1 rfl)]
              exact hword'

theorem ends_directiveClause {progress : Progress} (hprogress : progress.On source)
    (hc : c.On source) (hword : c.AtWord) :
    Ends source c.offset (fun r n => r.1.Laid source c.offset n ∧ r.2.On source)
      (directiveClause progress c) := by
  unfold directiveClause
  refine Ends.run rfl (Ends.run (peekWord_eq c) ?_)
  by_cases hmethod : (lowerCase c.headWord = "method" && !progress.defined) = true
  · rw [if_pos hmethod]
    refine ends_afterWord hc hword fun n hn => ?_
    refine (tracks_directiveMethod hc hn).bind fun clause m hm hclause => ?_
    refine (Tracks.since hc (by omega)).bind fun p k hk hp => .pure fun j hj => ?_
    refine ⟨hclause.widen (Nat.le_refl _) (by omega), fun q hq => ?_⟩
    cases hq
    exact hp.1
  rw [if_neg hmethod]
  by_cases hfield : (lowerCase c.headWord = "field" && !progress.defined) = true
  · rw [if_pos hfield]
    refine ends_afterWord hc hword fun n hn => ?_
    refine (tracks_directiveField hc hn).bind fun clause m hm hclause => .pure fun j hj => ?_
    exact ⟨hclause.widen (Nat.le_refl _) hj, hprogress⟩
  rw [if_neg hfield]
  by_cases hend : (lowerCase c.headWord = "end" && progress.openMethod.isSome) = true
  · rw [if_pos hend]
    refine ends_afterWord hc hword fun n hn => .pure fun _ hk => ?_
    exact ⟨Nat.lt_of_lt_of_le hn hk, nofun⟩
  rw [if_neg hend]
  cases Head.ofWord? .directive c.headWord with
  | some head =>
      exact (ends_construct .directive head hc hword).bind fun clause c₁ hc₁ h₁ hclause =>
        .ok hc₁ h₁ ⟨hclause, hprogress⟩
  | none =>
      exact (ends_wordClause .directive hc hword).bind fun clause c₁ hc₁ h₁ hclause =>
        .ok hc₁ h₁ ⟨hclause, hprogress⟩

end Scan

/-- Do the clauses stand one after the other from an offset on? -/
def ClausesLaid (source : List Char) : Nat → List Clause → Prop
  | _, [] => True
  | lo, clause :: clauses => ∃ hi, lo ≤ hi ∧ clause.Laid source lo hi
    ∧ ClausesLaid source hi clauses

namespace Scan

variable {c : Cursor}

theorem comment_spans {n : Nat} (hc : c.On source) (hn : commentLength? c.rest = some n) :
    (c.span (c.advance n)).Spans source c.offset (c.advance n).offset := by
  have htwo := two_le_commentLength hn
  have hlen : 0 < c.rest.length := by
    rw [List.length_pos_iff]
    rintro hnil
    rw [hnil] at hn
    cases hn
  have hoff := Cursor.offset_advance n c
  have hspan := hc.span (hc.advance n) (c.offset_le_advance n)
  exact ⟨hspan, Nat.le_refl _, by show c.offset < (c.advance n).offset; omega, Nat.le_refl _⟩

theorem skipBlanks_eq (c : Cursor) :
    skipBlanks c = .ok ((), c.advance (blanksLength c.rest)) := rfl

theorem comment?_eq_none (h : commentLength? c.rest = none) : comment? c = .ok (none, c) := by
  unfold comment?
  simp only [get, getThe, MonadStateOf.get, StateT.get, bind, StateT.bind, pure, Except.pure,
    Except.bind, h]
  rfl

theorem comment?_eq_some {n : Nat} (h : commentLength? c.rest = some n) :
    comment? c = .ok (some (String.ofList (c.rest.take n)), c.advance n) := by
  unfold comment?
  simp only [get, getThe, MonadStateOf.get, StateT.get, bind, StateT.bind, pure, Except.pure,
    Except.bind, h]
  rfl

/-- What is left after blanks begins with a word, if there is anything. -/
theorem atWord_of_skipBlanks (h : (c.advance (blanksLength c.rest)).rest ≠ []) :
    (c.advance (blanksLength c.rest)).AtWord := by
  obtain ⟨x, rest, hrest⟩ := List.exists_cons_of_ne_nil h
  refine ⟨x, rest, hrest, ?_⟩
  have hhead := head_drop_spanLength isBlank c.rest
  rw [Cursor.rest_advance, blanksLength] at hrest
  rw [hrest] at hhead
  exact hhead

/-- The clause at a word, in either dialect. -/
theorem ends_clause (d : Dialect) {progress : Progress} (hprogress : progress.On source)
    (hc : c.On source) (hword : c.AtWord) :
    Ends source c.offset (fun r n => r.1.Laid source c.offset n ∧ r.2.On source)
      ((match d with
        | .keyword => keywordClause progress
        | .directive => directiveClause progress) c) := by
  cases d with
  | keyword => exact ends_keywordClause hprogress hc hword
  | directive => exact ends_directiveClause hprogress hc hword

theorem tracks_clausesIn (d : Dialect) (fuel : Nat) : ∀ {progress : Progress} {lo : Nat},
    progress.On source → Tracks source lo (clausesIn d fuel progress) fun clauses _ =>
      ClausesLaid source lo clauses := by
  induction fuel with
  | zero =>
      intro progress lo _
      exact .pure fun _ _ => trivial
  | succ fuel ih =>
      intro progress lo hprogress
      constructor
      intro c hc hlo
      unfold clausesIn
      refine Ends.run (skipBlanks_eq c) ?_
      have hc₁ := hc.advance (blanksLength c.rest)
      have h₁ := Nat.le_trans hlo (c.offset_le_advance (blanksLength c.rest))
      have hat := atWord_of_skipBlanks (c := c)
      generalize c.advance (blanksLength c.rest) = c₁ at hc₁ h₁ hat ⊢
      -- A clause that ends later and the clauses after it make the clauses from here.
      have hcons : ∀ {clause : Clause} {next : Progress} {c₂ : Cursor}, c₂.On source →
          c₁.offset ≤ c₂.offset → clause.Laid source c₁.offset c₂.offset → next.On source →
          Ends source lo (fun clauses _ => ClausesLaid source lo clauses)
            ((do return clause :: (← clausesIn d fuel next) : Scan (List Clause)) c₂) := by
        intro clause next c₂ hc₂ h₂ hclause hnext
        refine ((ih hnext).ends c₂ hc₂ (Nat.le_refl _)).bind fun clauses c₃ hc₃ h₃ hclauses => ?_
        refine .ok hc₃ (by omega) ?_
        exact ⟨c₂.offset, by omega, hclause.widen h₁ (Nat.le_refl _), hclauses⟩
      refine Ends.run rfl ?_
      cases hcomment : commentLength? c₁.rest with
      | some n =>
          refine Ends.run (comment?_eq_some hcomment) (Ends.run rfl ?_)
          exact hcons (hc₁.advance n) (c₁.offset_le_advance n)
            ⟨comment_spans hc₁ hcomment, (hc₁.slice_span n).symm⟩ hprogress
      | none =>
          refine Ends.run (comment?_eq_none hcomment) (Ends.run rfl ?_)
          by_cases hend : c₁.rest.isEmpty = true
          · rw [if_pos hend]
            cases hopen : progress.openMethod with
            | some p => exact .error (hprogress p hopen)
            | none => exact .ok hc₁ h₁ trivial
          · rw [if_neg hend]
            have hword := hat (by simpa using hend)
            have hclause := ends_clause d hprogress hc₁ hword
            cases d with
            | keyword =>
                exact hclause.bind fun r c₂ hc₂ h₂ hr => hcons hc₂ h₂ hr.1 hr.2
            | directive =>
                exact hclause.bind fun r c₂ hc₂ h₂ hr => hcons hc₂ h₂ hr.1 hr.2

theorem tracks_clauses (d : Dialect) :
    Tracks source lo (clauses d) fun clauses _ => ClausesLaid source lo clauses := by
  constructor
  intro c hc hlo
  have hstart : ({} : Progress).On source := fun _ hp => nomatch hp
  exact (tracks_clausesIn d _ hstart).ends c hc hlo

end Scan

end JvmListing
