/-
# Written annotations are read back

The text of a spelled annotation is read as the annotation, in both dialects and at
any depth.  An argument is told apart by how its text starts, so the
proof goes over the arguments one kind at a time; the levels that reading may go down
are counted by the length of the text, of which every level takes some.
-/
import JvmListing.Proofs.AnnotTrees
import JvmListing.Proofs.Clauses

namespace JvmListing

open Lexeme

/-! ## Meanings -/

/-- The spelled argument means the argument, up to positions. -/
def RawAnnotArg.Means (raw : RawAnnotArg) (arg : AnnotArg) : Prop :=
  ∃ arg', raw.toArg = .ok arg' ∧ arg'.unplaced = arg.unplaced

/-- The spelled annotation means the annotation, up to positions and wherever it stands. -/
def RawAnnot.Means (raw : RawAnnot) (a : Annot) : Prop :=
  ∀ position, ∃ a', (raw.at position).toAnnot = .ok a' ∧ a'.unplaced = a.unplaced

theorem RawAnnotArg.means_const {raw : RawConst} {c : Const HandleRef} (h : raw.toConst = .ok c) :
    (RawAnnotArg.const raw).Means (.const c) := by
  refine ⟨.const c, ?_, rfl⟩
  show (raw.toConst >>= _) = _
  rw [h]
  rfl

theorem RawAnnotArg.means_enum (type name : String) :
    (RawAnnotArg.enum type name).Means (.enum type name) := ⟨_, rfl, rfl⟩

theorem RawAnnotArg.means_annot {raw : RawAnnot} {a : Annot} (h : raw.Means a) :
    (RawAnnotArg.annot raw).Means (.annot a) := by
  obtain ⟨visible, type, args, position⟩ := raw
  obtain ⟨a', ha', hunplaced⟩ := h position
  refine ⟨.annot a', ?_, congrArg AnnotArg.annot hunplaced⟩
  have ha' : RawAnnot.toAnnot (.mk visible type args position) = .ok a' := ha'
  show (RawAnnot.toAnnot _ >>= _) = _
  rw [ha']
  rfl

theorem RawAnnotArg.means_list {raws : List RawAnnotArg} {args : List AnnotArg}
    (h : List.Forall₂ Means raws args) : (RawAnnotArg.list raws).Means (.list args) := by
  have hlist : ∃ args', toArgList raws = .ok args'
      ∧ args'.map AnnotArg.unplaced = args.map AnnotArg.unplaced := by
    induction h with
    | nil => exact ⟨[], rfl, rfl⟩
    | cons h _ ih =>
        obtain ⟨arg', harg, hunplaced⟩ := h
        obtain ⟨args', hargs, hmap⟩ := ih
        refine ⟨arg' :: args', ?_, by rw [List.map_cons, List.map_cons, hunplaced, hmap]⟩
        show (toArg _ >>= fun first => toArgList _ >>= fun rest => pure (first :: rest)) = _
        rw [harg, hargs]
        rfl
  obtain ⟨args', hargs, hmap⟩ := hlist
  refine ⟨.list args', ?_, ?_⟩
  · show (toArgList raws >>= _) = _
    rw [hargs]
    rfl
  · rw [← AnnotArg.unplacedList_eq, ← AnnotArg.unplacedList_eq] at hmap
    exact congrArg AnnotArg.list hmap

/-- An argument with a name that is not taken is put last. -/
theorem Annot.putArg_of_not_mem {name : String} (arg : AnnotArg) :
    ∀ {args : List (String × AnnotArg)}, name ∉ args.map Prod.fst →
      putArg args name arg = args ++ [(name, arg)]
  | [], _ => rfl
  | (n, a) :: args, h => by
      rw [List.map_cons, List.mem_cons, not_or] at h
      rw [putArg, if_neg fun heq => h.1 heq.symm, putArg_of_not_mem arg h.2]
      rfl

/-- The spelled argument has the name and the meaning of a named argument. -/
def NamedMeans (raw : Option String × RawAnnotArg) (x : String × AnnotArg) : Prop :=
  raw.1 = some x.1 ∧ raw.2.Means x.2

theorem RawAnnot.toArgs_eq (position : Position) {raws : List (Option String × RawAnnotArg)}
    {args : List (String × AnnotArg)} (h : List.Forall₂ NamedMeans raws args) :
    ∀ known : List (String × AnnotArg), (known.map Prod.fst ++ args.map Prod.fst).Nodup →
      ∃ args', toArgs position known raws = .ok (known ++ args')
        ∧ Annot.unplacedArgs args' = Annot.unplacedArgs args := by
  induction h with
  | nil =>
      intro known _
      exact ⟨[], congrArg Except.ok (List.append_nil known).symm, rfl⟩
  | @cons raw x raws args hx _ ih =>
      intro known hnodup
      obtain ⟨name?, raw⟩ := raw
      obtain ⟨rfl, arg', harg, hunplaced⟩ := hx
      -- no name before this one is the same, so the argument is put last
      have hfresh : x.1 ∉ known.map Prod.fst := by
        intro hmem
        exact List.disjoint_of_nodup_append hnodup hmem (by simp)
      have hnext : ((known ++ [(x.1, arg')]).map Prod.fst ++ args.map Prod.fst).Nodup := by
        simpa using hnodup
      obtain ⟨args', hargs, hmap⟩ := ih (known ++ [(x.1, arg')]) hnext
      refine ⟨(x.1, arg') :: args', ?_, ?_⟩
      · have hstep : toArgs position known ((some x.1, raw) :: raws)
            = toArgs position (Annot.putArg known x.1 arg') raws := by
          show (raw.toArg >>= _) = _
          rw [harg]
          rfl
        rw [hstep, Annot.putArg_of_not_mem arg' hfresh, hargs, List.append_assoc]
        rfl
      · show (x.1, arg'.unplaced) :: Annot.unplacedArgs args' = _
        rw [hunplaced, hmap]
        rfl

theorem RawAnnot.means_mk {raws : List (Option String × RawAnnotArg)}
    {args : List (String × AnnotArg)} (h : List.Forall₂ NamedMeans raws args)
    (hnodup : (args.map Prod.fst).Nodup) (visible : Bool) (type : String)
    (position place : Position) :
    (RawAnnot.mk visible type raws position).Means (.mk visible type args place) := by
  intro position'
  obtain ⟨args', hargs, hunplaced⟩ := toArgs_eq position' h [] hnodup
  refine ⟨.mk visible type args' position', ?_, ?_⟩
  · show (toArgs position' [] raws >>= _) = _
    rw [hargs]
    rfl
  · exact congrArg (Annot.mk visible type · {}) hunplaced

/-! ## Texts -/

/-- A named argument as the dialect writes it. -/
def namedArgText (d : Dialect) (x : String × AnnotArg) : String :=
  x.1 ++ (match d with
    | .keyword => "="
    | .directive => " ") ++ x.2.text d

theorem Annot.argTexts_eq (d : Dialect) (args : List (String × AnnotArg)) :
    argTexts d args = args.map (namedArgText d) := by
  induction args with
  | nil => rfl
  | cons x args ih =>
      obtain ⟨name, arg⟩ := x
      have hcons := congrArg (namedArgText d (name, arg) :: ·) ih
      cases d <;> exact hcons

theorem AnnotArg.texts_eq (d : Dialect) (args : List AnnotArg) :
    texts d args = args.map (text d) := by
  induction args with
  | nil => rfl
  | cons arg args ih => exact congrArg (text d arg :: ·) ih

theorem AnnotArg.toList_enum_keyword (type name : String) (after : List Char) :
    ((AnnotArg.enum type name).text .keyword).toList ++ after
      = "enum".toList ++ '(' :: (type.toList ++ ' ' :: (name.toList ++ ')' :: after)) := by
  show ("enum(" ++ type ++ " " ++ name ++ ")").toList ++ after = _
  simp [String.toList_append]

theorem AnnotArg.toList_annot_keyword (a : Annot) (after : List Char) :
    ((AnnotArg.annot a).text .keyword).toList ++ after
      = "annotation".toList ++ '(' :: ((a.bodyText .keyword).toList ++ ')' :: after) := by
  show ("annotation(" ++ a.bodyText .keyword ++ ")").toList ++ after = _
  simp [String.toList_append]

theorem AnnotArg.toList_list_keyword (args : List AnnotArg) (after : List Char) :
    ((AnnotArg.list args).text .keyword).toList ++ after
      = '[' :: Scan.listed (fun arg => (arg.text .keyword).toList) (']' :: after) args := by
  show ("[" ++ joinWith ", " (texts .keyword args) ++ "]").toList ++ after = _
  rw [texts_eq, ← toList_joinWith]
  simp [String.toList_append]

theorem Annot.toList_bodyText_keyword (visible : Bool) (type : String)
    (args : List (String × AnnotArg)) (position : Position) (after : List Char) :
    ((Annot.mk visible type args position).bodyText .keyword).toList ++ after = type.toList
      ++ '(' :: Scan.listed (fun x => (namedArgText .keyword x).toList) (')' :: after) args := by
  show (type ++ "(" ++ joinWith ", " (argTexts .keyword args) ++ ")").toList ++ after = _
  rw [argTexts_eq, ← toList_joinWith]
  simp [String.toList_append]

theorem AnnotArg.toList_enum_directive (type name : String) (after : List Char) :
    ((AnnotArg.enum type name).text .directive).toList ++ after
      = "annotation-enum".toList ++ ' ' :: (type.toList ++ ' ' :: (name.toList ++ after)) := by
  show ("annotation-enum " ++ type ++ " " ++ name).toList ++ after = _
  simp [String.toList_append]

theorem AnnotArg.toList_annot_directive (a : Annot) (after : List Char) :
    ((AnnotArg.annot a).text .directive).toList ++ after
      = "annotation".toList ++ ' ' :: ((a.bodyText .directive).toList ++ after) := by
  show ("annotation " ++ a.bodyText .directive).toList ++ after = _
  simp [String.toList_append]

theorem AnnotArg.toList_list_directive (args : List AnnotArg) (after : List Char) :
    ((AnnotArg.list args).text .directive).toList ++ after = "args".toList
      ++ ' ' :: followed (fun arg => (arg.text .directive).toList)
        ("end".toList ++ after) args := by
  show ("args" ++ spaced (texts .directive args) ++ " end").toList ++ after = _
  rw [texts_eq, ← toList_spaced]
  simp [String.toList_append]

theorem Annot.toList_bodyText_directive (visible : Bool) (type : String)
    (args : List (String × AnnotArg)) (position : Position) (after : List Char) :
    ((Annot.mk visible type args position).bodyText .directive).toList ++ after = type.toList
      ++ ' ' :: followed (fun x => (namedArgText .directive x).toList)
        ("end".toList ++ after) args := by
  show (type ++ spaced (argTexts .directive args) ++ " end").toList ++ after = _
  rw [argTexts_eq, ← toList_spaced]
  simp [String.toList_append]

theorem Annot.inWord_headWord (d : Dialect) (visible : Bool) :
    InWord (· = '(') (headWord d visible).toList := by
  refine inWord_of_all ?_
  cases d <;> cases visible <;> decide

theorem Annot.isWordBefore_type {d : Dialect} {visible : Bool} {a : Annot}
    (h : a.all (spelledTest d visible) = true) : isWordBefore '(' d a.type = true := by
  obtain ⟨v, type, args, position⟩ := a
  exact (spelledTest_annot_iff.mp (all_mk_iff.mp h).1).2.1

theorem Const.isWritten_of_isArgument {d : Dialect} {c : Const HandleRef}
    (h : c.isArgument d = true) : c.IsWritten := by
  refine isSpelled_iff.mp ?_
  cases c with
  | literal l => exact h
  | type t => exact (Bool.and_eq_true_iff.mp h).1
  | handle handle => exact h

namespace Scan

theorem length_le_listed_of_mem {β : Type} (text : β → List Char) (tail : List Char) {v : β} :
    ∀ {vs : List β}, v ∈ vs → (text v).length ≤ (listed text tail vs).length
  | [w], h => by
      obtain rfl := List.mem_singleton.mp h
      rw [listed, List.length_append]
      omega
  | w :: u :: vs, h => by
      rw [listed, List.length_append, List.length_cons, List.length_cons]
      rcases List.mem_cons.mp h with rfl | h
      · omega
      · have := length_le_listed_of_mem text tail h
        omega

end Scan

theorem length_le_followed_of_mem {β : Type} (text : β → List Char) (tail : List Char) {v : β}
    {vs : List β} (h : v ∈ vs) : (text v).length ≤ (followed text tail vs).length := by
  induction vs with
  | nil => cases h
  | cons w vs ih =>
      rw [followed, List.length_append, List.length_cons]
      rcases List.mem_cons.mp h with rfl | h
      · omega
      · have := ih h
        omega

namespace Scan

/-! ## The keyword dialect -/

/-- Does the text end an item of a list in brackets? -/
def EndsItem (after : List Char) : Prop :=
  after.head? = some ',' ∨ after.head? = some ')' ∨ after.head? = some ']'

theorem EndsItem.endsWord {after : List Char} (h : EndsItem after) : EndsWord listStop after := by
  rcases h with h | h | h <;> rw [EndsWord, h] <;> rfl

/-- Is the argument of the keyword dialect read from its text, at any depth that the text allows? -/
def ReadKeywordArg (visible : Bool) (arg : AnnotArg) : Prop :=
  ∀ depth after, (arg.text .keyword).toList.length < depth → EndsItem after →
    (keywordAnnotArg visible depth).Reads ((arg.text .keyword).toList ++ after) (·.Means arg) after

/-- The same of an annotation. -/
def ReadKeywordAnnot (visible : Bool) (a : Annot) : Prop :=
  ∀ depth after, (a.bodyText .keyword).toList.length ≤ depth →
    (keywordAnnot visible (keywordAnnotArg visible depth)).Reads
      ((a.bodyText .keyword).toList ++ after) (·.Means a) after

section Keyword

variable {visible : Bool}

theorem reads_argName {name : String} (h : IsWordTo argNameStop name) (rest : List Char) :
    argName?.Reads (name.toList ++ '=' :: rest) (· = some name) rest := by
  unfold argName?
  refine (reads_get _).bind ?_
  intro mark _
  refine (reads_upTo h.inWord (endsWord_cons rfl _)).bind ?_
  intro found hfound
  subst hfound
  refine (reads_skipBlanks (BlanksTo.refl _) rfl).bind fun _ _ => ?_
  rw [h.isEmpty]
  refine (reads_eat '=' rest).bind ?_
  intro found hfound
  subst hfound
  exact Reads.pure_eq _ rest

/-- An argument in brackets, after the first of them. -/
def keywordList (arg : Scan RawAnnotArg) : Scan RawAnnotArg := do
  let args ← delimited ']' do
    if ← atEnd then fail .unterminatedAnnotList
    arg
  return .list args

/-- An argument other than a list. -/
def keywordValue (visible : Bool) (arg : Scan RawAnnotArg) : Scan RawAnnotArg := do
  if ← atLiteral then return .const (.literal (← literal))
  let head ← peekWord
  if opensGroup head "handle" then return .const (.handle (← bracketedHandle))
  if opensGroup head "enum" then return ← keywordEnum
  if opensGroup head "annotation" then
    let _ ← eatKeyword "annotation"
    expect '('
    skipTrivia
    let nested ← keywordAnnot visible arg
    skipTrivia
    expect ')'
    return .annot nested
  return .const (.type (← typeConstant))

theorem keywordAnnotArg_succ (visible : Bool) (depth : Nat) :
    keywordAnnotArg visible (depth + 1) = (do
    skipTrivia
    if ← eat '[' then keywordList (keywordAnnotArg visible depth)
    else keywordValue visible (keywordAnnotArg visible depth)) := rfl

theorem readKeywordArg_of_value {arg : AnnotArg} (hopens : Opens '[' (arg.text .keyword).toList)
    (hvalue : ∀ depth after, (arg.text .keyword).toList.length ≤ depth → EndsItem after →
      (keywordValue visible (keywordAnnotArg visible depth)).Reads
        ((arg.text .keyword).toList ++ after) (·.Means arg) after) :
    ReadKeywordArg visible arg := by
  intro depth after hdepth hafter
  obtain ⟨depth, rfl⟩ : ∃ n, depth = n + 1 := Nat.exists_eq_succ_of_ne_zero (by omega)
  rw [keywordAnnotArg_succ]
  refine (reads_skipTrivia (BlanksTo.refl _) (hopens.noTrivia after)).bind fun _ _ => ?_
  refine (reads_eat_none (hopens.head_ne after)).bind ?_
  intro found hfound
  subst hfound
  exact hvalue depth after (Nat.le_of_lt_succ hdepth) hafter

theorem readKeywordArg_literal (l : Literal) : ReadKeywordArg visible (.const (.literal l)) := by
  refine readKeywordArg_of_value (opens_literalText l '[' rfl (by decide)) ?_
  intro depth after _ hafter
  unfold keywordValue
  refine (reads_atLiteral l (BlanksTo.refl _) hafter.endsWord).bind ?_
  intro found hfound
  subst hfound
  refine (reads_literal l (BlanksTo.refl _) hafter.endsWord).bind ?_
  intro raw hraw
  refine Reads.pure ?_ after
  exact RawAnnotArg.means_const (toConst_literal hraw)

/-- A type that is no array starts with a letter that begins no other argument. -/
theorem readKeywordArg_type {t : Ty} (h : t.IsWritten) (harray : t.isArray = false) :
    ReadKeywordArg visible (.const (.type t)) := by
  obtain ⟨c, cs, ht, -, hletter, -⟩ := exists_descriptor t
  obtain ⟨x, xs, hx, hblank, hslash, -⟩ := opens_descriptor t ')' (by decide)
  obtain ⟨rfl, rfl⟩ := List.cons.inj (ht.symm.trans hx)
  have hlist : c ≠ '[' := by
    rintro rfl
    cases t with
    | prim p =>
        rw [Ty.toList_descriptor_prim] at ht
        cases p <;> cases ht
    | array t => cases harray
    | object name =>
        rw [Ty.toList_descriptor_object] at ht
        cases ht
    | method params result =>
        rw [Ty.toList_descriptor_method] at ht
        cases ht
  -- the letters are those of `handle`, `enum` and `annotation`, which are tried first
  have hgroup : ∀ (tail : List Char) (k : Char) (ks : List Char), k ∈ ['h', 'e', 'a'] →
      opensGroup (String.ofList (c :: tail)) (String.ofList (k :: ks)) = false :=
    fun tail k ks hk => opensGroup_cons ks fun heq => hletter (heq ▸ hk)
  refine readKeywordArg_of_value ⟨c, cs, ht, hblank, hslash, hlist⟩ ?_
  intro depth after _ hafter
  unfold keywordValue
  refine (reads_atLiteral_type t (BlanksTo.refl _) hafter.endsWord).bind ?_
  intro found hfound
  subst hfound
  have hpeek : peekWord.Reads (t.descriptor.toList ++ after)
      (fun w => ∃ tail, w = String.ofList (c :: tail)) (t.descriptor.toList ++ after) := by
    rw [ht]
    exact reads_peekWord_cons hblank
  refine hpeek.bind ?_
  rintro _ ⟨tail, rfl⟩
  rw [hgroup tail 'h' ['a', 'n', 'd', 'l', 'e'] (by decide),
    hgroup tail 'e' ['n', 'u', 'm'] (by decide),
    hgroup tail 'a' ['n', 'n', 'o', 't', 'a', 't', 'i', 'o', 'n'] (by decide)]
  refine (reads_typeConstant h (BlanksTo.refl _)).bind ?_
  intro raw hraw
  refine Reads.pure ?_ after
  exact RawAnnotArg.means_const (toConst_type h hraw)

theorem readKeywordArg_handle {h : HandleRef} (hwritten : h.IsWritten) :
    ReadKeywordArg visible (.const (.handle h)) := by
  have htext := toList_handle_keyword h
  refine readKeywordArg_of_value ?_ ?_
  · have := htext []
    rw [List.append_nil] at this
    exact ⟨'h', _, this, rfl, by decide, by decide⟩
  intro depth after _ hafter
  show (keywordValue visible _).Reads ((h.text .keyword).toList ++ after) _ after
  rw [htext]
  unfold keywordValue
  refine (reads_atLiteral_letter (BlanksTo.refl _) (Or.inl rfl) (by decide)).bind ?_
  intro found hfound
  subst hfound
  refine (reads_peekWord_group "handle" rfl _).bind ?_
  rintro _ ⟨tail, rfl⟩
  rw [opensGroup_group (by decide), if_pos rfl, ← htext]
  refine (reads_bracketedHandle hwritten after).bind ?_
  intro raw hraw
  refine Reads.pure ?_ after
  exact RawAnnotArg.means_const (toConst_handle hraw)

theorem readKeywordArg_enum {type name : String} (htype : isSignature type = true)
    (hname : IsWordTo (· = ')') name) : ReadKeywordArg visible (.enum type name) := by
  have htext := AnnotArg.toList_enum_keyword type name
  refine readKeywordArg_of_value ?_ ?_
  · have := htext []
    rw [List.append_nil] at this
    exact ⟨'e', _, this, rfl, by decide, by decide⟩
  intro depth after _ _
  rw [htext]
  unfold keywordValue
  refine (reads_atLiteral_letter (BlanksTo.refl _) (Or.inl rfl) (by decide)).bind ?_
  intro found hfound
  subst hfound
  refine (reads_peekWord_group "enum" rfl _).bind ?_
  rintro _ ⟨tail, rfl⟩
  have hhandle : opensGroup (String.ofList ("enum".toList ++ '(' :: tail)) "handle" = false :=
    opensGroup_cons ['a', 'n', 'd', 'l', 'e'] (by decide)
  rw [hhandle, opensGroup_group (by decide)]
  show keywordEnum.Reads _ _ _
  unfold keywordEnum
  refine (reads_eatKeyword (sameFolded_self _)
    (inWord_of_isPlainWord rfl fun _ => paren_of_isNameChar)
    (endsWord_cons rfl _)).bind fun _ _ => ?_
  refine (reads_expect '(' _).bind fun _ _ => ?_
  refine (reads_wordOf htype (BlanksTo.refl _) (atBlank_space _)).bind ?_
  intro type' htype'
  refine (reads_skipTrivia (BlanksTo.space _)
    (hname.noTrivia (endsWord_cons rfl _) ⟨rfl, rfl⟩)).bind fun _ _ => ?_
  refine (reads_requiredUpTo hname.ne_empty hname.inWord (endsWord_cons rfl _)).bind ?_
  intro name' hname'
  refine (reads_expect ')' after).bind fun _ _ => ?_
  refine Reads.pure ?_ after
  rw [htype', hname']
  exact RawAnnotArg.means_enum type name

theorem noTrivia_keywordBodyText {a : Annot} (htype : IsWordTo (· = '(') a.type)
    (rest : List Char) :
    NoTrivia ((a.bodyText .keyword).toList ++ rest) := by
  obtain ⟨v, type, args, position⟩ := a
  rw [Annot.toList_bodyText_keyword]
  exact htype.noTrivia (endsWord_cons rfl _) ⟨rfl, rfl⟩

theorem readKeywordArg_annot {a : Annot} (htype : IsWordTo (· = '(') a.type)
    (h : ReadKeywordAnnot visible a) : ReadKeywordArg visible (.annot a) := by
  have htext := AnnotArg.toList_annot_keyword a
  have hself := htext []
  rw [List.append_nil] at hself
  refine readKeywordArg_of_value ⟨'a', _, hself, rfl, by decide, by decide⟩ ?_
  intro depth after hdepth _
  have hdepth : (a.bodyText .keyword).toList.length ≤ depth := by
    rw [hself, List.length_append, List.length_cons, List.length_append] at hdepth
    omega
  rw [htext]
  unfold keywordValue
  refine (reads_atLiteral_letter (BlanksTo.refl _) (Or.inl rfl) (by decide)).bind ?_
  intro found hfound
  subst hfound
  refine (reads_peekWord_group "annotation" rfl _).bind ?_
  rintro _ ⟨tail, rfl⟩
  have hhandle : opensGroup (String.ofList ("annotation".toList ++ '(' :: tail)) "handle" = false :=
    opensGroup_cons ['a', 'n', 'd', 'l', 'e'] (by decide)
  have henum : opensGroup (String.ofList ("annotation".toList ++ '(' :: tail)) "enum" = false :=
    opensGroup_cons ['n', 'u', 'm'] (by decide)
  rw [hhandle, henum, opensGroup_group (by decide)]
  refine (reads_eatKeyword (sameFolded_self _)
    (inWord_of_isPlainWord rfl fun _ => paren_of_isNameChar)
    (endsWord_cons rfl _)).bind fun _ _ => ?_
  refine (reads_expect '(' _).bind fun _ _ => ?_
  refine (reads_skipTrivia (BlanksTo.refl _) (noTrivia_keywordBodyText htype _)).bind fun _ _ => ?_
  refine (h depth _ hdepth).bind ?_
  intro raw hraw
  refine (reads_skipTrivia (BlanksTo.refl _) (noTrivia_cons rfl (by decide) _)).bind fun _ _ => ?_
  refine (reads_expect ')' after).bind fun _ _ => ?_
  refine Reads.pure ?_ after
  exact RawAnnotArg.means_annot hraw

theorem opens_keywordArgText (arg : AnnotArg) : Opens ']' (arg.text .keyword).toList := by
  rw [← List.append_nil (arg.text .keyword).toList]
  cases arg with
  | const c =>
      cases c with
      | literal l => exact (opens_literalText l ']' rfl (by decide)).append []
      | type t => exact (opens_descriptor t ']' (by decide)).append []
      | handle h => exact ⟨'h', _, toList_handle_keyword h [], rfl, by decide, by decide⟩
  | enum type name =>
      exact ⟨'e', _, AnnotArg.toList_enum_keyword type name [], rfl, by decide, by decide⟩
  | annot a => exact ⟨'a', _, AnnotArg.toList_annot_keyword a [], rfl, by decide, by decide⟩
  | list args => exact ⟨'[', _, AnnotArg.toList_list_keyword args [], rfl, by decide, by decide⟩

theorem readKeywordArg_list {args : List AnnotArg} (h : ∀ arg ∈ args, ReadKeywordArg visible arg) :
    ReadKeywordArg visible (.list args) := by
  have htext := AnnotArg.toList_list_keyword args
  intro depth after hdepth _
  obtain ⟨depth, rfl⟩ : ∃ n, depth = n + 1 := Nat.exists_eq_succ_of_ne_zero (by omega)
  -- the brackets around the items pay for the level that reading them goes down
  have hdepths : ∀ arg ∈ args, (arg.text .keyword).toList.length < depth := by
    intro arg harg
    have hself := htext []
    rw [List.append_nil] at hself
    have hmem := length_le_listed_of_mem (fun arg => (arg.text .keyword).toList) [']'] harg
    rw [hself, List.length_cons] at hdepth
    omega
  rw [htext, keywordAnnotArg_succ]
  refine (reads_skipTrivia (BlanksTo.refl _) (noTrivia_cons rfl (by decide) _)).bind fun _ _ => ?_
  refine (reads_eat '[' _).bind ?_
  intro found hfound
  subst hfound
  show (keywordList (keywordAnnotArg visible depth)).Reads _ _ _
  unfold keywordList
  refine (reads_delimited (R := fun raw arg => raw.Means arg) (by decide)
    (fun arg _ => (opens_keywordArgText arg).beginsItem)
    (fun arg harg after hafter => ?_) after).bind ?_
  · obtain ⟨c, cs, hcs, -⟩ := opens_keywordArgText arg
    have hended : ((arg.text .keyword).toList ++ after).isEmpty = false := by
      rw [hcs]
      rfl
    refine (reads_atEnd _).bind ?_
    intro found hfound
    rw [hfound, hended]
    exact h arg harg depth after (hdepths arg harg) (hafter.imp_right Or.inr)
  · intro raws hraws
    refine Reads.pure ?_ after
    exact RawAnnotArg.means_list hraws

theorem readKeywordAnnot_mk {type : String} {args : List (String × AnnotArg)} (position : Position)
    (htype : IsWordTo (· = '(') type) (hnames : ∀ x ∈ args, IsWordTo argNameStop x.1)
    (hnodup : (args.map Prod.fst).Nodup) (h : ∀ x ∈ args, ReadKeywordArg visible x.2) :
    ReadKeywordAnnot visible (.mk visible type args position) := by
  have htext := Annot.toList_bodyText_keyword visible type args position
  have hitem : ∀ x : String × AnnotArg, (namedArgText .keyword x).toList
      = x.1.toList ++ '=' :: (x.2.text .keyword).toList := by
    intro x
    simp [namedArgText, String.toList_append]
  intro depth after hdepth
  have hdepths : ∀ x ∈ args, (x.2.text .keyword).toList.length < depth := by
    intro x hx
    have hself := htext []
    rw [List.append_nil] at hself
    have hmem := length_le_listed_of_mem (fun x => (namedArgText .keyword x).toList) [')'] hx
    rw [hitem, List.length_append, List.length_cons] at hmem
    rw [hself, List.length_append, List.length_cons] at hdepth
    omega
  rw [htext]
  unfold keywordAnnot
  refine (reads_get _).bind ?_
  intro mark _
  refine (reads_requiredUpTo htype.ne_empty htype.inWord (endsWord_cons rfl _)).bind ?_
  intro type' htype'
  refine (reads_expect '(' _).bind fun _ _ => ?_
  refine (reads_delimited (R := NamedMeans) (by decide) (fun x hx => ?_)
    (fun x hx after hafter => ?_) after).bind ?_
  · rw [hitem]
    intro after _
    rw [List.append_assoc]
    exact ⟨(hnames x hx).noTrivia (endsWord_cons rfl _) ⟨rfl, rfl⟩, (hnames x hx).head_ne rfl _⟩
  · rw [hitem, List.append_assoc, List.cons_append]
    have hended : (x.1.toList ++ '=' :: ((x.2.text .keyword).toList ++ after)).isEmpty = false := by
      simp
    refine (reads_atEnd _).bind ?_
    intro found hfound
    rw [hfound, hended]
    refine (reads_argName (hnames x hx) _).bind ?_
    intro name hname
    refine (h x hx depth after (hdepths x hx) (hafter.imp_right Or.inl)).bind ?_
    intro raw hraw
    refine Reads.pure ?_ after
    exact ⟨hname, hraw⟩
  · intro raws hraws
    refine reads_placed mark ?_ after
    intro place
    rw [htype']
    exact RawAnnot.means_mk hraws hnodup visible type place position

end Keyword

/-! ## The directive dialect -/

/-- Is the argument of the directive dialect read from its text, at any depth that the text
allows? -/
def ReadDirectiveArg (visible : Bool) (arg : AnnotArg) : Prop :=
  ∀ depth before after, (arg.text .directive).toList.length < depth → AtBlank after →
    BlanksTo before ((arg.text .directive).toList ++ after) →
    (directiveAnnotArg visible depth).Reads before (·.Means arg) after

/-- The same of an annotation. -/
def ReadDirectiveAnnot (visible : Bool) (a : Annot) : Prop :=
  ∀ depth before after, (a.bodyText .directive).toList.length ≤ depth → AtBlank after →
    BlanksTo before ((a.bodyText .directive).toList ++ after) →
    (directiveAnnot visible (directiveAnnotArg visible depth)).Reads before (·.Means a) after

/-- What comes after the word that an argument starts with. -/
def directiveValue (visible : Bool) (arg : Scan RawAnnotArg) (mark : Cursor) (head : String) :
    Scan RawAnnotArg :=
  match lowerCase head with
  | "type" => do return .const (.type (← typeConstant))
  | "handle" => do return .const (.handle (← handleBody))
  | "annotation-enum" => do
    let type ← requiredWord "enum type"
    let name ← requiredWord "enum constant name"
    return .enum type name
  | "annotation" => do return .annot (← directiveAnnot visible arg)
  | "args" => do return .list (← upToEnd arg)
  | _ => failSince mark (.unknownAnnotArg head)

theorem directiveAnnotArg_succ (visible : Bool) (depth : Nat) :
    directiveAnnotArg visible (depth + 1) = (do
      if ← atLiteral then return .const (.literal (← literal))
      let mark ← get
      let head ← word
      directiveValue visible (directiveAnnotArg visible depth) mark head) := rfl

section Directive

variable {visible : Bool}

/-- An argument that starts with a word of its own. -/
theorem reads_directiveAnnotArg_word {depth : Nat} {w : String} {before rest after : List Char}
    {P : RawAnnotArg → Prop} (hw : InWord (fun _ => false) w.toList)
    (hletter : ∃ c cs, w.toList = c :: cs ∧ isNameStart c = true ∧ c ≠ 'N' ∧ c ≠ 'I')
    (hgap : BlanksTo before (w.toList ++ ' ' :: rest))
    (hread : ∀ mark, (directiveValue visible (directiveAnnotArg visible depth) mark w).Reads
      (' ' :: rest) P after) :
    (directiveAnnotArg visible (depth + 1)).Reads before P after := by
  have hliteral : atLiteral.Reads before (· = false) (w.toList ++ ' ' :: rest) := by
    obtain ⟨c, cs, hcs, hc, hne⟩ := hletter
    rw [hcs, List.cons_append] at hgap ⊢
    exact reads_atLiteral_letter hgap (Or.inl hc) hne
  rw [directiveAnnotArg_succ]
  refine hliteral.bind ?_
  intro found hfound
  subst hfound
  refine (reads_get _).bind ?_
  intro mark _
  refine (reads_word hw ((atBlank_space _).endsWord _)).bind ?_
  intro head hhead
  subst hhead
  exact hread mark

theorem readDirectiveArg_const {c : Const HandleRef} (h : c.IsWritten) :
    ReadDirectiveArg visible (.const c) := by
  intro depth before after hdepth hafter hgap
  obtain ⟨depth, rfl⟩ : ∃ n, depth = n + 1 := Nat.exists_eq_succ_of_ne_zero (by omega)
  have hgap : BlanksTo before ((constText .directive c).toList ++ after) := hgap
  cases c with
  | literal l =>
      rw [directiveAnnotArg_succ]
      refine (reads_atLiteral l hgap (hafter.endsWord _)).bind ?_
      intro found hfound
      subst hfound
      refine (reads_literal l (BlanksTo.refl _) (hafter.endsWord _)).bind ?_
      intro raw hraw
      refine Reads.pure ?_ after
      exact RawAnnotArg.means_const (toConst_literal hraw)
  | type t =>
      have hsplit : (constText .directive (.type t)).toList ++ after
          = "type".toList ++ ' ' :: (t.descriptor.toList ++ after) := by
        simp [constText, String.toList_append]
      rw [hsplit] at hgap
      refine reads_directiveAnnotArg_word (isWord_of_isPlainWord rfl).inWord
        ⟨'t', _, rfl, by decide⟩ hgap fun mark => ?_
      refine (reads_typeConstant h (BlanksTo.space _)).bind ?_
      intro raw hraw
      refine Reads.pure ?_ after
      exact RawAnnotArg.means_const (toConst_type h hraw)
  | handle handle =>
      have hsplit : (constText .directive (.handle handle)).toList ++ after
          = "handle".toList ++ ' ' :: (handle.bodyText.toList ++ after) := by
        simp [constText, HandleRef.text, String.toList_append]
      rw [hsplit] at hgap
      refine reads_directiveAnnotArg_word (isWord_of_isPlainWord rfl).inWord
        ⟨'h', _, rfl, by decide⟩ hgap fun mark => ?_
      refine (reads_handleBody h (BlanksTo.space _)).bind ?_
      intro raw hraw
      refine Reads.pure ?_ after
      exact RawAnnotArg.means_const (toConst_handle hraw)

theorem readDirectiveArg_enum {type name : String} (htype : isSignature type = true)
    (hname : isSignature name = true) : ReadDirectiveArg visible (.enum type name) := by
  intro depth before after hdepth hafter hgap
  obtain ⟨depth, rfl⟩ : ∃ n, depth = n + 1 := Nat.exists_eq_succ_of_ne_zero (by omega)
  rw [AnnotArg.toList_enum_directive] at hgap
  have hword : InWord (fun _ => false) "annotation-enum".toList :=
    inWord_of_all (by decide)
  refine reads_directiveAnnotArg_word hword ⟨'a', _, rfl, by decide⟩ hgap fun mark => ?_
  refine (reads_wordOf htype (BlanksTo.space _) (atBlank_space _)).bind ?_
  intro type' htype'
  refine (reads_wordOf hname (BlanksTo.space _) hafter).bind ?_
  intro name' hname'
  refine Reads.pure ?_ after
  rw [htype', hname']
  exact RawAnnotArg.means_enum type name

theorem readDirectiveArg_annot {a : Annot} (h : ReadDirectiveAnnot visible a) :
    ReadDirectiveArg visible (.annot a) := by
  intro depth before after hdepth hafter hgap
  obtain ⟨depth, rfl⟩ : ∃ n, depth = n + 1 := Nat.exists_eq_succ_of_ne_zero (by omega)
  have htext := AnnotArg.toList_annot_directive a
  have hdepth : (a.bodyText .directive).toList.length ≤ depth := by
    have hself := htext []
    rw [List.append_nil] at hself
    rw [hself, List.length_append, List.length_cons, List.length_append] at hdepth
    omega
  rw [htext] at hgap
  refine reads_directiveAnnotArg_word (isWord_of_isPlainWord rfl).inWord
    ⟨'a', _, rfl, by decide⟩ hgap
    fun mark => ?_
  refine (h depth _ after hdepth hafter (BlanksTo.space _)).bind ?_
  intro raw hraw
  refine Reads.pure ?_ after
  exact RawAnnotArg.means_annot hraw

theorem opensItem_argText (arg : AnnotArg) (rest : List Char) :
    OpensItem ((arg.text .directive).toList ++ rest) := by
  cases arg with
  | const c =>
      obtain ⟨x, xs, hxs, hx⟩ := opensItem_constText c
      exact ⟨x, xs ++ rest, congrArg (· ++ rest) hxs, hx⟩
  | enum type name =>
      exact ⟨'a', _, AnnotArg.toList_enum_directive type name rest, rfl, by decide, by decide⟩
  | annot a => exact ⟨'a', _, AnnotArg.toList_annot_directive a rest, rfl, by decide, by decide⟩
  | list args => exact ⟨'a', _, AnnotArg.toList_list_directive args rest, rfl, by decide, by decide⟩

theorem readDirectiveArg_list {args : List AnnotArg}
    (h : ∀ arg ∈ args, ReadDirectiveArg visible arg) : ReadDirectiveArg visible (.list args) := by
  intro depth before after hdepth hafter hgap
  obtain ⟨depth, rfl⟩ : ∃ n, depth = n + 1 := Nat.exists_eq_succ_of_ne_zero (by omega)
  have htext := AnnotArg.toList_list_directive args
  have hdepths : ∀ arg ∈ args, (arg.text .directive).toList.length < depth := by
    intro arg harg
    have hself := htext []
    rw [List.append_nil, List.append_nil] at hself
    have hmem :=
      length_le_followed_of_mem (fun arg => (arg.text .directive).toList) "end".toList harg
    have hlength : "args".toList.length = 4 := rfl
    rw [hself, List.length_append, List.length_cons] at hdepth
    omega
  rw [htext] at hgap
  refine reads_directiveAnnotArg_word (isWord_of_isPlainWord rfl).inWord
    ⟨'a', _, rfl, by decide⟩ hgap
    fun mark => ?_
  refine (reads_upToEnd (R := fun raw arg => raw.Means arg) (fun arg _ rest => ?_)
    (fun arg harg after hafter => ?_) hafter).bind ?_
  · have := (opensItem_argText arg (' ' :: rest)).startsItem []
    rwa [List.append_nil] at this
  · exact h arg harg depth _ after (hdepths arg harg) hafter (BlanksTo.refl _)
  · intro raws hraws
    refine Reads.pure ?_ after
    exact RawAnnotArg.means_list hraws

/-- Every argument has a name that does not end the annotation. -/
theorem readDirectiveAnnot_mk {type : String} {args : List (String × AnnotArg)}
    (position : Position)
    (htype : isSignature type = true) (hnames : ∀ x ∈ args, isSignature x.1 = true
      ∧ sameFolded (keywordOf x.1.toList) "end" = false)
    (hnodup : (args.map Prod.fst).Nodup) (h : ∀ x ∈ args, ReadDirectiveArg visible x.2) :
    ReadDirectiveAnnot visible (.mk visible type args position) := by
  have htext := Annot.toList_bodyText_directive visible type args position
  have hitem : ∀ x : String × AnnotArg, (namedArgText .directive x).toList
      = x.1.toList ++ ' ' :: (x.2.text .directive).toList := by
    intro x
    simp [namedArgText, String.toList_append]
  intro depth before after hdepth hafter hgap
  have hdepths : ∀ x ∈ args, (x.2.text .directive).toList.length < depth := by
    intro x hx
    have hself := htext []
    rw [List.append_nil, List.append_nil] at hself
    have hmem :=
      length_le_followed_of_mem (fun x => (namedArgText .directive x).toList) "end".toList hx
    rw [hitem, List.length_append, List.length_cons] at hmem
    rw [hself, List.length_append, List.length_cons] at hdepth
    omega
  rw [htext] at hgap
  unfold directiveAnnot
  refine (reads_get _).bind ?_
  intro mark _
  refine (reads_wordOf htype hgap (atBlank_space _)).bind ?_
  intro type' htype'
  refine (reads_upToEnd (R := NamedMeans) (fun x hx rest => ?_) (fun x hx after hafter => ?_)
    hafter).bind ?_
  · -- an item is told from the end of the list by its first word, which is the name here
    obtain ⟨hname, hend⟩ := hnames x hx
    rw [hitem, List.append_assoc, List.cons_append]
    exact ⟨by simp,
      (IsWordTo.of_isSignature hname).noTrivia ((atBlank_space _).endsWord _) ⟨rfl, rfl⟩,
      by rw [keywordOf_append _ (atBlank_space _), hend]⟩
  · rw [hitem, List.append_assoc, List.cons_append]
    refine (reads_word (IsWordTo.of_isSignature (hnames x hx).1).inWord
      ((atBlank_space _).endsWord _)).bind ?_
    intro name hname
    refine (h x hx depth _ after (hdepths x hx) hafter (BlanksTo.space _)).bind ?_
    intro raw hraw
    refine Reads.pure ?_ after
    exact ⟨congrArg some hname, hraw⟩
  · intro raws hraws
    refine reads_placed mark ?_ after
    intro place
    rw [htype']
    exact RawAnnot.means_mk hraws hnodup visible type place position

end Directive

/-! ## Whole annotations -/

theorem readKeyword_steps (visible : Bool) : AnnotSteps
    (fun a => a.all (spelledTest .keyword visible) = true → ReadKeywordAnnot visible a)
    (fun arg => arg.all (spelledTest .keyword visible) = true → ReadKeywordArg visible arg) := by
  constructor
  case node =>
    intro v type args position ih h
    obtain ⟨hannot, hargs⟩ := Annot.all_mk_iff.mp h
    obtain ⟨rfl, htype, hnames, hnodup⟩ := spelledTest_annot_iff.mp hannot
    exact readKeywordAnnot_mk position (isWordTo_iff.mp htype)
      (fun x hx => isWordTo_iff.mp (List.forall_mem_map.mp hnames x hx)) hnodup
      fun x hx => ih x hx (hargs x hx)
  case const =>
    intro c h
    have hwritten := Const.isWritten_of_isArgument h
    cases c with
    | literal l => exact readKeywordArg_literal l
    | type t =>
        have harray : t.isArray = false := by simpa using (Bool.and_eq_true_iff.mp h).2
        exact readKeywordArg_type hwritten harray
    | handle h => exact readKeywordArg_handle hwritten
  case enum =>
    intro type name h
    obtain ⟨htype, hname⟩ := Bool.and_eq_true_iff.mp h
    exact readKeywordArg_enum htype (isWordTo_iff.mp hname)
  case annot =>
    intro a ih h
    exact readKeywordArg_annot (isWordTo_iff.mp (Annot.isWordBefore_type h)) (ih h)
  case list =>
    intro args ih h
    exact readKeywordArg_list fun arg harg => ih arg harg (AnnotArg.all_list_iff.mp h arg harg)

theorem readDirective_steps (visible : Bool) : AnnotSteps
    (fun a => a.all (spelledTest .directive visible) = true → ReadDirectiveAnnot visible a)
    (fun arg => arg.all (spelledTest .directive visible) = true →
      ReadDirectiveArg visible arg) := by
  constructor
  case node =>
    intro v type args position ih h
    obtain ⟨hannot, hargs⟩ := Annot.all_mk_iff.mp h
    obtain ⟨rfl, htype, hnames, hnodup⟩ := spelledTest_annot_iff.mp hannot
    refine readDirectiveAnnot_mk position htype (fun x hx => ?_) hnodup fun x hx =>
      ih x hx (hargs x hx)
    have hname : (isSignature x.1 && !sameFolded (keywordOf x.1.toList) "end") = true :=
      List.forall_mem_map.mp hnames x hx
    simpa using hname
  case const => exact fun c h => readDirectiveArg_const (Const.isWritten_of_isArgument h)
  case enum =>
    intro type name h
    obtain ⟨htype, hname⟩ := Bool.and_eq_true_iff.mp h
    exact readDirectiveArg_enum htype hname
  case annot => exact fun a ih h => readDirectiveArg_annot (ih h)
  case list =>
    intro args ih h
    exact readDirectiveArg_list fun arg harg => ih arg harg (AnnotArg.all_list_iff.mp h arg harg)

theorem reads_annot (d : Dialect) {a : Annot} (h : a.isSpelled d = true) {rest : List Char}
    (hrest : AtBlank rest) :
    (annot d a.visible).Reads (' ' :: ((a.bodyText d).toList ++ rest)) (·.Means a) rest := by
  have hlength :
      (a.bodyText d).toList.length ≤ (' ' :: ((a.bodyText d).toList ++ rest)).length + 1 := by
    rw [List.length_cons, List.length_append]
    omega
  unfold annot
  refine (reads_get _).bind ?_
  intro mark hmark
  rw [hmark]
  cases d with
  | keyword =>
      have htype := isWordTo_iff.mp (Annot.isWordBefore_type h)
      refine (reads_skipTrivia (BlanksTo.space _) (noTrivia_keywordBodyText htype rest)).bind
        fun _ _ => ?_
      exact (readKeyword_steps a.visible).holds a h _ rest hlength
  | directive =>
      exact (readDirective_steps a.visible).holds a h _ _ rest hlength hrest (BlanksTo.space _)

/-- A whole annotation is one clause. -/
theorem reads_annotClause {d : Dialect} {p : Progress} {a : Annot} (h : a.isSpelled d = true)
    {rest : List Char} (hrest : AtBlank rest) :
    (clauseAt d p).Reads ((a.text d).toList ++ rest)
      (Gives (fun clause => ∃ raw a', clause = .annot raw ∧ raw.toAnnot = .ok a'
        ∧ a'.unplaced = a.unplaced) p) rest := by
  have htext : (a.text d).toList ++ rest = (Annot.headWord d a.visible).toList
      ++ ' ' :: ((a.bodyText d).toList ++ rest) := by
    simp [Annot.text, String.toList_append]
  have hword : InWord (fun _ => false) (Annot.headWord d a.visible).toList :=
    fun c hc => ⟨(Annot.inWord_headWord d a.visible c hc).1, rfl⟩
  have hhead : Head.ofWord? d (Annot.headWord d a.visible) = some (.annot a.visible) := by
    cases d <;> cases a.visible <;> decide
  rw [htext]
  refine reads_headClause hword ((atBlank_space _).endsWord _) hhead ?_
  unfold construct
  refine (reads_get _).bind ?_
  intro mark _
  refine (reads_word hword ((atBlank_space _).endsWord _)).bind fun _ _ => ?_
  refine (reads_annot d h hrest).bind ?_
  intro raw hraw
  refine reads_placed mark ?_ rest
  intro position
  obtain ⟨a', ha', hunplaced⟩ := hraw position
  exact ⟨raw.at position, a', rfl, ha', hunplaced⟩

end Scan

end JvmListing
