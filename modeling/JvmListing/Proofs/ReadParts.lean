/-
# Instructions that are read

Whatever the text, the operands that are read for an opcode mean, if anything, an
operation that can be written where it stands (`Operation.isSpelled`).  The words among
them are read after trivia, so they open no comment, and each stops at the characters
that would end it in a text of the same dialect.
-/
import JvmListing.Proofs.Lowering
import JvmListing.Proofs.ReadAnnots

namespace JvmListing

open Lexeme

/-! ## Constants -/

/-- What the spelled constant means, if anything, can be written. -/
def RawConst.IsSpelled (raw : RawConst) : Prop := ∀ c, raw.toConst = .ok c → c.isSpelled = true

theorem RawConst.isSpelled_literal (l : Located RawLiteral) : (RawConst.literal l).IsSpelled := by
  intro c hc
  obtain ⟨value, -, hc⟩ := except_bind_eq_ok.mp hc
  cases hc
  rfl

theorem RawConst.isSpelled_type {desc : Located String} (h : isDescText desc.value = true) :
    (RawConst.type desc).IsSpelled := by
  intro c hc
  dsimp only [toConst] at hc
  split at hc
  · rename_i t ht
    cases hc
    exact Scan.isSpelled_type h ht
  · cases hc

theorem RawConst.isSpelled_handle {h : RawHandle}
    (href : ∀ ref, h.toRef = .ok ref → ref.isSpelled = true) : (RawConst.handle h).IsSpelled := by
  intro c hc
  obtain ⟨ref, hh, hc⟩ := except_bind_eq_ok.mp hc
  cases hc
  exact href ref hh

namespace Scan

theorem yields_typeConst :
    (do return .type (← typeConstant) : Scan RawConst).Yields RawConst.IsSpelled := by
  refine (From.bindYields (from_typeConstant from_skipTrivia) fun desc _ hdesc => ?_).yields
  exact .pure (RawConst.isSpelled_type hdesc.2)

theorem yields_keywordConst : keywordConst.Yields RawConst.IsSpelled := by
  refine .after fun literal => .ite ?_ (.after fun head => .ite ?_ yields_typeConst)
  · exact .after fun l => .pure (RawConst.isSpelled_literal l)
  · exact .bind yields_bracketedHandle fun h hh => .pure (RawConst.isSpelled_handle hh)

theorem yields_directiveConst : directiveConst.Yields RawConst.IsSpelled := by
  refine .after fun literal => .ite ?_ (.after fun mark => .after fun head => ?_)
  · exact .after fun l => .pure (RawConst.isSpelled_literal l)
  · split
    · exact yields_typeConst
    · exact .bind yields_handleBody fun h hh => .pure (RawConst.isSpelled_handle hh)
    · exact .failSince _ _

theorem yields_constant (d : Dialect) : (constant d).Yields RawConst.IsSpelled := by
  cases d with
  | keyword => exact yields_keywordConst
  | directive => exact yields_directiveConst

theorem yields_bootstrap (d : Dialect) : (bootstrap d).Yields fun r =>
    (∀ ref, r.1.toRef = .ok ref → ref.isSpelled = true) ∧ ∀ raw ∈ r.2, raw.IsSpelled := by
  cases d with
  | keyword =>
      refine .after fun _ => .bind yields_bracketedHandle fun h hh => ?_
      refine .after fun _ => .after fun _ => .after fun _ => ?_
      exact .bind (yields_delimited ')' (.of_yields yields_keywordConst)) fun args hargs =>
        .pure ⟨hh, hargs⟩
  | directive =>
      refine .after fun _ => .after fun _ => .bind yields_handleBody fun h hh => ?_
      refine .after fun _ => .after fun _ => ?_
      exact .bind (yields_upToEnd (.of_yields yields_directiveConst)) fun args hargs =>
        .pure ⟨hh, hargs⟩

/-! ## Switches -/

theorem yields_labelRef : labelRef.Yields (isWordTo (labelStop .keyword) · = true) :=
  (from_skipTrivia.bind fun _ => from_wordTo listStop "label name").yields

/-- A label that stands between blanks. -/
theorem yields_labelWord (what : String) :
    (requiredWord what).Yields (isWordTo (labelStop .directive) · = true) := by
  intro c w c' hrun
  exact isWordTo_iff.mpr (IsWordTo.of_isSignature (yields_requiredWord what c w c' hrun))

theorem yields_defaultGroup : defaultGroup.Yields (isWordTo (labelStop .keyword) · = true) :=
  .after fun _ => .bind yields_labelRef fun _ hlabel => .after fun _ => .after fun _ => .pure hlabel

theorem yields_tableTarget? : tableTarget?.Yields fun found =>
    ∀ label, found = some label → isTarget .directive label = true := by
  refine .bind (yields_labelWord _) fun label hlabel => .pure fun found hfound => ?_
  split at hfound
  · cases hfound
  · rename_i hne
    cases hfound
    simp [isTarget, hlabel, hne]

theorem yields_directiveCase? : directiveCase?.Yields fun found =>
    ∀ x, found = some x → isWordTo (labelStop .directive) x.2 = true := by
  refine .after fun head => .ite (.pure fun x hx => nomatch hx) (.ite (.after fun _ => ?_) ?_)
  all_goals
    refine .after fun key => .bind (yields_labelWord _) fun label hlabel => .pure ?_
    rintro _ ⟨⟩
    exact hlabel

end Scan

/-! ## Operands -/

/-- What the operands of an opcode mean, if anything, can be written. -/
def Operands.IsSpelled (d : Dialect) (op : Opcode) (parts : Operands) : Prop :=
  ∀ position o, parts.toOperation op position = .ok o → o.isSpelled d = true

namespace Operands

variable {d : Dialect} {op : Opcode}

theorem isSpelled_int (h : op.shape = .int) (value : Located RawLiteral) :
    (Operands.int value).IsSpelled d op := by
  intro position o ho
  obtain ⟨v, -, ho⟩ := except_bind_eq_ok.mp ho
  cases ho
  exact decide_eq_true h

/-- An element type by its descriptor, its name or its code. -/
theorem isSpelled_newArray {word : Located String} (h : isSignature word.value = true) :
    (Operands.newArray word).IsSpelled d op := by
  have hprim : ∀ p ∈ Prim.elements, (Operation.newArray (.prim p)).isSpelled d = true := by
    cases d <;> decide
  intro position o ho
  obtain ⟨t, ht, ho⟩ := except_bind_eq_ok.mp ho
  cases ho
  unfold arrayElement at ht
  dsimp only at ht
  split at ht
  · rename_i t' hfound
    cases ht
    rcases Option.or_eq_some_iff.mp hfound with hdesc | ⟨-, hfound⟩
    · have heq := (Ty.ofFieldDescriptor?_eq_some_iff.mp hdesc).2
      have hunbroken : isUnbroken word.value = true := by
        simpa [isUnbroken] using fun c hc => ((isSignature_iff.mp h).2.1 c hc).1
      rw [heq] at hdesc hunbroken
      simp [Operation.isSpelled, hdesc, hunbroken]
    · rcases Option.or_eq_some_iff.mp hfound with hname | ⟨-, hcode⟩
      · obtain ⟨p, hp, rfl⟩ := Option.map_eq_some_iff.mp hname
        exact hprim p (List.mem_of_find?_eq_some hp)
      · obtain ⟨p, hp, rfl⟩ := Option.map_eq_some_iff.mp hcode
        obtain ⟨code, -, hp⟩ := Option.bind_eq_some_iff.mp hp
        unfold Prim.ofArrayCode? at hp
        split at hp
        · exact hprim p (List.mem_of_getElem? hp)
        · cases hp
  · cases ht

theorem isSpelled_field (h : op.shape = .field) {member : Located String} {desc : String}
    (hmember : isSignature member.value = true ∧ InWord memberStop member.value.toList)
    (hdesc : isDescText desc = true) : (Operands.field member desc).IsSpelled d op := by
  intro position o ho
  obtain ⟨⟨owner, name⟩, hsplit, ho⟩ := except_bind_eq_ok.mp ho
  cases ho
  have hmember := isMember_iff.mpr (isMember_of_splitMember hsplit hmember.1 hmember.2)
  simp [Operation.isSpelled, h, hmember, hdesc]

theorem isSpelled_method (h : op.shape = .method) {member : Located String}
    {desc : String} {itf : Bool}
    (hmember : isSignature member.value = true ∧ InWord memberStop member.value.toList)
    (hdesc : isDescText desc = true) (hitf : op = .invokeinterface → itf = true) :
    (Operands.method member desc itf).IsSpelled d op := by
  intro position o ho
  obtain ⟨⟨owner, name⟩, hsplit, ho⟩ := except_bind_eq_ok.mp ho
  cases ho
  have hmember := isMember_iff.mpr (isMember_of_splitMember hsplit hmember.1 hmember.2)
  have hitf : (op ≠ .invokeinterface || itf) = true := by
    by_cases hop : op = .invokeinterface
    · simp [hitf hop]
    · simp [hop]
  simp only [Operation.isSpelled, h, hmember, hdesc, hitf]
  rfl

theorem isSpelled_invokeDynamic {name desc : String} {bootstrap : RawHandle} {args : List RawConst}
    (hname : isSignature name = true) (hdesc : isDescText desc = true)
    (hhandle : ∀ ref, bootstrap.toRef = .ok ref → ref.isSpelled = true)
    (hargs : ∀ raw ∈ args, raw.IsSpelled) :
    (Operands.invokeDynamic name desc bootstrap args).IsSpelled d op := by
  intro position o ho
  obtain ⟨ref, href, ho⟩ := except_bind_eq_ok.mp ho
  obtain ⟨consts, hconsts, ho⟩ := except_bind_eq_ok.mp ho
  cases ho
  have hall : consts.all Const.isSpelled = true := by
    rw [List.all_eq_true]
    intro c hc
    obtain ⟨raw, hraw, hmeans⟩ :=
      exists_left_of_forall₂ (forall₂_of_mapM_ok hconsts) hc
    exact hargs raw hraw c hmeans
  simp [Operation.isSpelled, hname, hdesc, hhandle ref href, hall]

theorem isSpelled_multiArray {desc : String} (h : isSignature desc = true)
    (dims : Located RawLiteral) : (Operands.multiArray desc dims).IsSpelled d op := by
  intro position o ho
  obtain ⟨count, -, ho⟩ := except_bind_eq_ok.mp ho
  dsimp only at ho
  split at ho
  · cases ho
    exact h
  · cases ho

theorem isSpelled_tableSwitch {labels : List String} {default : String}
    (min max : Located RawLiteral) (hlabels : ∀ label ∈ labels, isTarget d label = true)
    (hdefault : isWordTo (labelStop d) default = true) :
    (Operands.tableSwitch min max labels default).IsSpelled d op := by
  intro position o ho
  obtain ⟨low, -, ho⟩ := except_bind_eq_ok.mp ho
  obtain ⟨high, -, ho⟩ := except_bind_eq_ok.mp ho
  split at ho
  · rename_i hsize
    cases ho
    have hall : labels.all (isTarget d) = true := List.all_eq_true.mpr hlabels
    simp [Operation.isSpelled, hsize.1, hsize.2, hdefault, hall]
  · cases ho

theorem isSpelled_lookupSwitch {cases : List (Located RawLiteral × String)} {default : String}
    (hcases : ∀ x ∈ cases, isWordTo (labelStop d) x.2 = true)
    (hdefault : isWordTo (labelStop d) default = true) :
    (Operands.lookupSwitch cases default).IsSpelled d op := by
  intro position o ho
  obtain ⟨found, hfound, ho⟩ := except_bind_eq_ok.mp ho
  cases ho
  have hall : found.all (isWordTo (labelStop d) ·.label) = true := by
    rw [List.all_eq_true]
    intro c hc
    obtain ⟨x, hx, hmeans⟩ :=
      exists_left_of_forall₂ (forall₂_of_mapM_ok hfound) hc
    obtain ⟨key, -, hmeans⟩ := except_bind_eq_ok.mp hmeans
    cases hmeans
    exact hcases x hx
  simp [Operation.isSpelled, hall, hdefault]

end Operands

namespace Scan

variable {d : Dialect} {op : Opcode}

theorem yields_interfaceOwner (op : Opcode) : (interfaceOwner op).Yields fun itf =>
    op = .invokeinterface → itf = true := by
  refine .after fun mark => .after fun _ => .after fun found => .ite (.pure fun _ => rfl) ?_
  exact .after fun _ => .pure fun hop => by simp [hop]

theorem spelled_tableSwitch (d : Dialect) (op : Opcode) :
    (tableSwitch d).Yields (·.IsSpelled d op) := by
  cases d with
  | keyword =>
      refine .after fun _ => .after fun min => .after fun _ => .after fun _ => .after fun max => ?_
      refine .after fun _ => .after fun _ => .after fun _ => ?_
      refine .bind (yields_delimited ')' (.of_yields yields_labelRef)) fun labels hlabels => ?_
      refine .bind yields_defaultGroup fun default hdefault => .pure ?_
      exact Operands.isSpelled_tableSwitch min max
        (fun label hlabel => by simp [isTarget, hlabels label hlabel]) hdefault
  | directive =>
      refine .after fun min => .after fun max => ?_
      refine .bind (P := fun labels => ∀ label ∈ labels, isTarget .directive label = true)
        (.after fun c => yields_repeatUntil yields_tableTarget? _) fun labels hlabels => ?_
      exact .bind (yields_labelWord _) fun default hdefault =>
        .pure (Operands.isSpelled_tableSwitch min max hlabels hdefault)

theorem spelled_lookupSwitch (d : Dialect) (op : Opcode) :
    (lookupSwitch d).Yields (·.IsSpelled d op) := by
  cases d with
  | keyword =>
      have hcase : keywordCase.Yields fun x => isWordTo (labelStop .keyword) x.2 = true :=
        .after fun key => .after fun _ => .after fun _ => .bind yields_labelRef fun _ h => .pure h
      refine .after fun _ => .bind (yields_delimited ')' (.of_yields hcase)) fun cases hcases => ?_
      exact .bind yields_defaultGroup fun default hdefault =>
        .pure (Operands.isSpelled_lookupSwitch hcases hdefault)
  | directive =>
      refine .bind (P := fun cases => ∀ x ∈ cases, isWordTo (labelStop .directive) x.2 = true)
        (.after fun c => yields_repeatUntil yields_directiveCase? _) fun cases hcases => ?_
      exact .bind (yields_labelWord _) fun default hdefault =>
        .pure (Operands.isSpelled_lookupSwitch hcases hdefault)

/-- The operands that are read for an opcode can be written after it. -/
theorem spelled_operands (d : Dialect) (op : Opcode) :
    (operands d op).Yields (·.IsSpelled d op) := by
  unfold operands
  cases hshape : op.shape with
  | none =>
      refine .pure ?_
      rintro position o ⟨⟩
      exact decide_eq_true hshape
  | int => exact .after fun value => .pure (Operands.isSpelled_int hshape value)
  | newArray =>
      refine .after fun _ => .after fun mark => .bind (yields_requiredWord _) fun word hword => ?_
      exact .after fun _ => .pure (Operands.isSpelled_newArray hword)
  | var | type | jump =>
      refine .bind (yields_requiredWord _) fun name hname => .pure ?_
      rintro position o ⟨⟩
      simp [Operation.isSpelled, hshape, hname]
  | field =>
      exact .bind yields_member fun found hfound => .bind yields_memberDesc fun desc hdesc =>
        .pure (Operands.isSpelled_field hshape hfound hdesc)
  | method =>
      refine .bind yields_member fun found hfound => .bind yields_memberDesc fun desc hdesc => ?_
      exact .bind (yields_interfaceOwner op) fun itf hitf =>
        .pure (Operands.isSpelled_method hshape hfound hdesc hitf)
  | invokeDynamic =>
      refine .bind (yields_requiredWord _) fun name hname =>
        .bind yields_memberDesc fun desc hdesc => ?_
      exact .bind (yields_bootstrap d) fun r hr =>
        .pure (Operands.isSpelled_invokeDynamic hname hdesc hr.1 hr.2)
  | ldc =>
      refine .bind (yields_constant d) fun raw hraw => .pure fun position o ho => ?_
      obtain ⟨c, hc, ho⟩ := except_bind_eq_ok.mp ho
      cases ho
      exact hraw c hc
  | iinc =>
      refine .bind (yields_requiredWord _) fun name hname => .after fun increment => .pure ?_
      intro position o ho
      obtain ⟨v, -, ho⟩ := except_bind_eq_ok.mp ho
      cases ho
      exact hname
  | multiArray =>
      exact .bind (yields_requiredWord _) fun desc hdesc => .after fun dims =>
        .pure (Operands.isSpelled_multiArray hdesc dims)
  | tableSwitch => exact spelled_tableSwitch d op
  | lookupSwitch => exact spelled_lookupSwitch d op

end Scan

theorem isSpelled_lineMarker {d : Dialect} {label : String} (h : isSignature label = true)
    {number : Located RawLiteral} {o : Operation} (ho : lineMarker label number = .ok o) :
    o.isSpelled d = true := by
  obtain ⟨v, -, ho⟩ := except_bind_eq_ok.mp ho
  dsimp only at ho
  split at ho
  · cases ho
    have hlt := Int32.toInt_lt v
    simp only [Operation.isSpelled, h, Bool.true_and, decide_eq_true_eq]
    omega
  · cases ho

end JvmListing
