/-
# Definitions on their own

A field, or a method with a `return` where it needs a body, is given back by its text
up to positions, with two kinds of exceptions (`Definition.isAmbiguous`):

* a member with the name of a modifier, where a blank follows the name: every such
  field, and every such method of the directive dialect;
* a field of the keyword dialect that starts with its name, if the name is a word that
  introduces a construct, such as `value` or `line`.

The text of an exception is not readable.  Either the construct that its name is taken
for breaks off, or the words that are left make no definition (`Undefined`).
-/
import JvmListing.Proofs.AnnotatedListings

namespace JvmListing

open Lexeme

/-! ## Words that are no instructions -/

/-- The modifiers of methods and fields. -/
def modifierWords : List String :=
  (FlagTarget.method.modifiers ++ FlagTarget.field.modifiers).map Prod.fst

theorem mem_modifierWords {w : String} (h : Scan.isModifier w = true) :
    lowerCase w ∈ modifierWords := by
  have hfind : ∀ target : FlagTarget, (Access.ofModifier? target w).isSome = true →
      ∃ m ∈ target.modifiers, lowerCase m.1 = lowerCase w := by
    intro target hsome
    obtain ⟨flag, hflag⟩ := Option.isSome_iff_exists.mp hsome
    obtain ⟨m, hm, -⟩ := Option.map_eq_some_iff.mp hflag
    exact ⟨m, List.mem_of_find?_eq_some hm, sameFolded_iff.mp (by simpa using List.find?_some hm)⟩
  have hlower : ∀ s ∈ modifierWords, lowerCase s = s := by decide
  have hmem : ∀ m ∈ FlagTarget.method.modifiers ++ FlagTarget.field.modifiers,
      lowerCase m.1 = lowerCase w → lowerCase w ∈ modifierWords := by
    intro m hm heq
    have hword : m.1 ∈ modifierWords := List.mem_map_of_mem hm
    rw [← heq, hlower _ hword]
    exact hword
  rcases Bool.or_eq_true_iff.mp h with h | h
  · obtain ⟨m, hm, heq⟩ := hfind .method h
    exact hmem m (List.mem_append_left _ hm) heq
  · obtain ⟨m, hm, heq⟩ := hfind .field h
    exact hmem m (List.mem_append_right _ hm) heq

/-- Mnemonics and modifiers are different words. -/
theorem mnemonic_not_mem_modifierWords (op : Opcode) : op.mnemonic ∉ modifierWords := by
  have hnodup : (Opcode.all.map Opcode.mnemonic ++ modifierWords.dedup).Nodup := by
    refine List.Nodup.of_map Opcode.wordNumber ?_
    decide +kernel
  intro hmem
  exact List.disjoint_of_nodup_append hnodup (List.mem_map_of_mem op.mem_all)
    (List.mem_dedup.mpr hmem)

/-- A descriptor is a letter or has a bracket or a semicolon in it, so it is none of the words of
the language. -/
theorem lowerCase_desc_ne {desc s : String} (h : isPlainFieldDesc desc = true)
    (hs : '[' ∉ s.toList ∧ ';' ∉ s.toList ∧ 2 ≤ s.toList.length) : lowerCase desc ≠ s := by
  obtain ⟨t, ht, rfl⟩ := isPlainFieldDesc_iff.mp h
  have hmem : ∀ c ∈ t.descriptor.toList, c.toLower ∈ (lowerCase t.descriptor).toList := by
    intro c hc
    rw [lowerCase, String.toList_ofList]
    exact List.mem_map_of_mem hc
  rintro rfl
  cases t with
  | prim p =>
      have hlength : (lowerCase (Ty.prim p).descriptor).toList.length = 1 := by
        cases p <;> rfl
      omega
  | array t => exact hs.1 (hmem '[' (by simp [Ty.toList_descriptor_array]))
  | object name => exact hs.2.1 (hmem ';' (by simp [Ty.toList_descriptor_object]))
  | method params result => cases ht

/-- The word is not read as anything but a name: it is no modifier, no mnemonic and introduces no
construct. -/
structure IsBare (w : String) : Prop where
  modifier : Scan.isModifier w = false
  mnemonic : Opcode.ofMnemonic? w = none
  head : Head.ofWord? .keyword w = none
  label : declaredLabel? w = none

theorem isBare_desc {desc : String} (h : isPlainFieldDesc desc = true) : IsBare desc where
  modifier := by
    rw [← Bool.not_eq_true]
    intro hmodifier
    have hshape : ∀ s ∈ modifierWords,
        '[' ∉ s.toList ∧ ';' ∉ s.toList ∧ 2 ≤ s.toList.length := by decide
    exact lowerCase_desc_ne h (hshape _ (mem_modifierWords hmodifier)) rfl
  mnemonic := by
    rw [Option.eq_none_iff_forall_ne_some]
    intro op hop
    have hshape : ∀ op ∈ Opcode.all, '[' ∉ op.mnemonic.toList ∧ ';' ∉ op.mnemonic.toList
        ∧ 2 ≤ op.mnemonic.toList.length := by decide +kernel
    exact lowerCase_desc_ne h (hshape op op.mem_all) (Opcode.mnemonic_of_ofMnemonic? hop)
  head := by
    refine Head.ofWord?_eq_none fun hmem => ?_
    have hshape : ∀ s ∈ headWords, '[' ∉ s.toList ∧ ';' ∉ s.toList ∧ 2 ≤ s.toList.length := by
      decide
    exact lowerCase_desc_ne h (hshape _ hmem) rfl
  label := by
    obtain ⟨t, ht, rfl⟩ := isPlainFieldDesc_iff.mp h
    unfold declaredLabel?
    split
    · rename_i heq
      have hmem : ':' ∈ t.descriptor.toList := List.mem_reverse.mp (heq ▸ List.mem_cons_self)
      exact absurd (Ty.isTypeChar_descriptor ht ':' hmem) (by decide)
    · rfl

/-! ## Texts without a definition -/

/-- No definition has been read. -/
structure Undefined (p : Scan.Progress) (draft : Draft) : Prop where
  defined : p.defined = false
  openMethod : p.openMethod = none
  definition : draft.definition = none

theorem Attributed.undefined {a : Attributes} {v : Option Literal} {p : Scan.Progress}
    {draft : Draft} (h : Attributed a v p draft) : Undefined p draft :=
  ⟨h.defined, h.openMethod, h.definition⟩

/-- The result has no definition. -/
def LacksDefinition (r : ReadResult Draft) : Prop :=
  ∀ draft, r = .ok draft → draft.definition = none

theorem Listing.read_of_lacksDefinition {d : Dialect} {text : String}
    (h : Leads d text.toList (Attributed {} none) text.toList LacksDefinition) :
    ∃ e, Listing.read d text = .error e := by
  obtain ⟨r, hr, hread⟩ := Listing.read_of_leads h
  cases r with
  | error e => exact ⟨e, hread⟩
  | ok draft =>
      refine ⟨⟨.noDefinition, ⟨1, 1, 0, text.toList.length⟩⟩, ?_⟩
      simp [hread, hr draft rfl, bind, Except.bind, throw, throwThe, MonadExceptOf.throw]

section Leads

variable {d : Dialect} {source : List Char}

theorem leads_undefinedEnd : Leads d source Undefined [] LacksDefinition := by
  refine Leads.finish fun p draft hS => ⟨hS.openMethod, ?_⟩
  rintro _ ⟨⟩
  exact hS.definition

theorem lacksDefinition_error (e : ReadError) : LacksDefinition (.error e) := by
  rintro _ ⟨⟩

theorem definition_addUnmatched (draft : Draft) (word : Located String) :
    (draft.addUnmatched source word).definition = draft.definition := by
  unfold Draft.addUnmatched
  split <;> rfl

/-- Words that are no definition are kept as they are. -/
theorem Scan.reads_undefinedWord {w : String} {rest : List Char} {p : Progress}
    (hw : InWord (fun _ => false) w.toList) (hrest : AtBlank rest) (hp : p.defined = false)
    (hhead : Head.ofWord? .keyword w = none) (hlabel : declaredLabel? w = none)
    (hmnemonic : Opcode.ofMnemonic? w = none)
    (hnone : keywordDefinition?.Reads (w.toList ++ rest) (· = none) (w.toList ++ rest)) :
    (clauseAt .keyword p).Reads (w.toList ++ rest)
      (Gives (fun clause => ∃ word, clause = .unmatched word) p) rest := by
  unfold clauseAt keywordClause
  refine (reads_peekWord hw (hrest.endsWord _)).bind ?_
  intro found hfound
  rw [hfound, hhead, hp]
  refine hnone.bind ?_
  intro _ h
  subst h
  unfold wordClause
  rw [hlabel, hmnemonic]
  have hword : ∀ mark : Cursor, (word >>= fun _ =>
      (since mark >>= fun position => pure (Clause.unmatched ⟨w, position⟩)) : Scan Clause).Reads
        (w.toList ++ rest) (fun clause => ∃ word, clause = .unmatched word) rest := by
    intro mark
    refine (reads_word hw (hrest.endsWord _)).bind fun _ _ => ?_
    refine (reads_since mark rest).bind ?_
    intro position _
    exact Reads.pure ⟨_, rfl⟩ rest
  refine ((reads_get _).bind fun mark _ => hword mark).bind ?_
  rintro _ ⟨found, rfl⟩
  exact Reads.pure ⟨⟨found, rfl⟩, rfl⟩ rest

/-- One word that stands before a blank and is kept. -/
theorem leads_undefinedWord {w : String} {rest after : List Char}
    (hw : isPlainWord w = true ∨ isPlainFieldDesc w = true)
    (hhead : Head.ofWord? .keyword w = none) (hlabel : declaredLabel? w = none)
    (hmnemonic : Opcode.ofMnemonic? w = none) (hrest : AtBlank rest)
    (hafter : Scan.BlanksTo rest after)
    (hnone : Scan.keywordDefinition?.Reads (w.toList ++ rest) (· = none) (w.toList ++ rest))
    (hlead : Leads .keyword source Undefined after LacksDefinition) :
    Leads .keyword source Undefined (w.toList ++ rest) LacksDefinition := by
  have hword : IsWord w := by
    rcases hw with hw | hw
    · exact isWord_of_isPlainWord hw
    · obtain ⟨t, ht, rfl⟩ := isPlainFieldDesc_iff.mp hw
      exact isWord_descriptor (.of_isPlain (Ty.isPlainConstant_of_isPlain ht))
  have hne : w.toList ≠ [] := by
    obtain ⟨c, cs, hcs, -⟩ := hword.opens
    rw [hcs]
    exact List.cons_ne_nil _ _
  refine Leads.step (hword.opens.noTrivia rest) (by simp [hne]) ?_ hafter ?_ hlead
  · intro p draft hS
    refine (Scan.reads_undefinedWord hword.inWord hrest hS.defined hhead hlabel hmnemonic
      hnone).mono ?_
    rintro ⟨_, _⟩ ⟨⟨found, rfl⟩, rfl⟩
    refine ⟨_, rfl, hS.defined, hS.openMethod, ?_⟩
    rw [definition_addUnmatched]
    exact hS.definition
  · have := List.length_pos_of_ne_nil hne
    rw [List.length_append]
    omega

/-! ## Modifiers without a name -/

theorem isWord_desc {desc : String} (h : isPlainFieldDesc desc = true) : IsWord desc := by
  obtain ⟨t, ht, rfl⟩ := isPlainFieldDesc_iff.mp h
  exact isWord_descriptor (.of_isPlain (Ty.isPlainConstant_of_isPlain ht))

theorem inWord_desc {desc : String} (h : isPlainFieldDesc desc = true) {stop : Char → Bool}
    (hstop : ∀ c, isTypeChar c = true → stop c = false) : InWord stop desc.toList := by
  obtain ⟨t, ht, rfl⟩ := isPlainFieldDesc_iff.mp h
  intro c hc
  have hchar := Ty.isTypeChar_descriptor ht c hc
  exact ⟨isBlank_of_isVisible (isVisible_of_isTypeChar hchar), hstop c hchar⟩

theorem paren_of_isTypeChar {c : Char} (h : isTypeChar c = true) : decide (c = '(') = false := by
  rw [decide_eq_false_iff_not]
  rintro rfl
  revert h
  decide

/-- The descriptor is no modifier and what follows it is no descriptor, so there is a name only. -/
theorem Scan.reads_modifier_desc {desc : String} (h : isPlainFieldDesc desc = true)
    {rest : List Char} (hrest : AtBlank rest) :
    modifier?.Reads (desc.toList ++ rest) (· = none) (desc.toList ++ rest) :=
  reads_modifier_none (inWord_desc h fun _ => paren_of_isTypeChar) (hrest.endsWord _)
    (Or.inl (isBare_desc h).modifier)

theorem Scan.reads_keywordDefinition_none {ms : List String}
    (hms : ∀ m ∈ ms, isPlainWord m = true ∧ isModifier m = true) {desc : String}
    (hdesc : isPlainFieldDesc desc = true) :
    keywordDefinition?.Reads (followed String.toList (desc.toList ++ ['\n']) ms) (· = none)
      (followed String.toList (desc.toList ++ ['\n']) ms) := by
  have hblank := atBlank_newline []
  have hword := isWord_desc hdesc
  have hempty : desc.isEmpty = false := by
    rw [Bool.eq_false_iff]
    intro h
    obtain ⟨c, cs, hcs, -⟩ := hword.opens
    rw [String.isEmpty_iff.mp h] at hcs
    cases hcs
  unfold keywordDefinition?
  refine (reads_get _).bind ?_
  intro mark hmark
  refine (reads_modifiers hms (hword.opens.noTrivia _).blank
    (reads_modifier_desc hdesc hblank)).bind
    fun _ _ => ?_
  refine (reads_upTo (inWord_desc hdesc fun _ => paren_of_isTypeChar) (hblank.endsWord _)).bind ?_
  intro name hname
  rw [hname, hempty, (isBare_desc hdesc).label]
  refine (reads_peek? _).bind ?_
  intro next hnext
  subst hnext
  refine (reads_skipBlanks (BlanksTo.newline []) rfl).bind fun _ _ => ?_
  refine (@reads_descriptor?_none [] rfl).bind ?_
  intro found hfound
  subst hfound
  refine (reads_set mark []).bind fun _ _ => ?_
  rw [hmark]
  exact Reads.pure_eq none _

/-- Modifiers and a descriptor are words without a definition. -/
theorem leads_modifiersOnly {desc : String} (hdesc : isPlainFieldDesc desc = true) :
    ∀ {ms : List String}, (∀ m ∈ ms, isPlainWord m = true ∧ Scan.isModifier m = true) →
      Leads .keyword source Undefined (followed String.toList (desc.toList ++ ['\n']) ms)
        LacksDefinition
  | [], hms => by
      have hbare := isBare_desc hdesc
      exact leads_undefinedWord (Or.inr hdesc) hbare.head hbare.label hbare.mnemonic
        (atBlank_newline []) (Scan.BlanksTo.newline [])
        (Scan.reads_keywordDefinition_none hms hdesc) leads_undefinedEnd
  | m :: ms, hms => by
      obtain ⟨⟨hplain, hmodifier⟩, hrest⟩ := List.forall_mem_cons.mp hms
      have hmem := mem_modifierWords hmodifier
      have hhead : Head.ofWord? .keyword m = none := by
        refine Head.ofWord?_eq_none fun hhead => ?_
        have hdisjoint : ∀ s ∈ modifierWords, s ∉ headWords := by decide
        exact hdisjoint _ hmem hhead
      have hmnemonic : Opcode.ofMnemonic? m = none := by
        rw [Option.eq_none_iff_forall_ne_some]
        intro op hop
        rw [Opcode.mnemonic_of_ofMnemonic? hop] at hmem
        exact mnemonic_not_mem_modifierWords op hmem
      exact leads_undefinedWord (Or.inl hplain) hhead (Scan.declaredLabel?_plain hplain) hmnemonic
        (atBlank_space _) (Scan.BlanksTo.space _) (Scan.reads_keywordDefinition_none hms hdesc)
        (leads_modifiersOnly hdesc hrest)

end Leads

/-! ## Names that introduce a construct -/

theorem looksNumeric_descriptor (t : Ty) : looksNumeric t.descriptor = false := by
  obtain ⟨c, cs, ht, hc, -, hN, hI⟩ := exists_descriptor t
  have hdescriptor : t.descriptor = String.ofList (c :: cs) := by
    rw [← ht, String.ofList_toList]
  by_cases hint : c = 'I'
  · obtain rfl := hI hint
    subst hint
    rw [hdescriptor]
    decide
  · have hfacts : c.isDigit = false ∧ c ≠ '.' ∧ c ≠ '-' ∧ c ≠ '+' := by
      rcases hc with hc | rfl | rfl
      · have hname := isNameChar_of_isNameStart hc
        exact ⟨not_isDigit_of_isNameStart hc, ne_of_isNameChar hname rfl,
          ne_of_isNameChar hname rfl, ne_of_isNameChar hname rfl⟩
      all_goals decide
    rw [hdescriptor]
    exact looksNumeric_eq_false hfacts.1 (by simp [hfacts, hN, hint])

namespace Scan

variable {desc : String}

/-- The text of a descriptor that ends the listing. -/
def lastWord (desc : String) : List Char := ' ' :: (desc.toList ++ ['\n'])

theorem reads_skipTrivia_lastWord (h : isPlainFieldDesc desc = true) :
    skipTrivia.Reads (lastWord desc) (fun _ => True) (desc.toList ++ ['\n']) :=
  reads_skipTrivia (BlanksTo.space _) ((isWord_desc h).opens.noTrivia _)

theorem reads_requiredWord_lastWord (h : isPlainFieldDesc desc = true) (what : String) :
    (requiredWord what).Reads (lastWord desc) (fun _ => True) ['\n'] :=
  (reads_wordOf (isWord_desc h).isSignature (BlanksTo.space _) (atBlank_newline [])).mono
    fun _ _ => trivial

theorem listStop_of_isTypeChar {c : Char} (h : isTypeChar c = true) : listStop c = false := by
  rw [← Bool.not_eq_true]
  intro hstop
  simp only [listStop, Bool.or_eq_true, decide_eq_true_eq] at hstop
  rcases hstop with (((rfl | rfl) | rfl) | rfl) | rfl <;> exact absurd h (by decide)

/-- A literal has to be there, and a word that is none is not. -/
theorem fails_literal {before : List Char} {w : String} {rest : List Char}
    (hgap : BlanksTo before (w.toList ++ rest)) (htrivia : NoTrivia (w.toList ++ rest))
    (hquote : (w.toList ++ rest).head? ≠ some '"' ∧ (w.toList ++ rest).head? ≠ some '\'')
    (hw : InWord listStop w.toList) (hrest : EndsWord listStop rest)
    (hnumber : looksNumeric w = false) :
    literal.Fails before := by
  unfold literal
  refine (reads_skipTrivia hgap htrivia).bind_fails fun _ _ => ?_
  refine (reads_get _).bind_fails ?_
  intro mark hmark
  split
  · rename_i heq
    rw [← hmark, heq] at hquote
    exact absurd rfl hquote.1
  · rename_i heq
    rw [← hmark, heq] at hquote
    exact absurd rfl hquote.2
  · refine (reads_upTo hw hrest).bind_fails ?_
    intro token htoken
    rw [htoken, hnumber]
    exact fun c _ => ⟨_, rfl⟩

theorem fails_literal_lastWord (h : isPlainFieldDesc desc = true) :
    literal.Fails (lastWord desc) := by
  have hquote : ∀ x, isTypeChar x = false → (desc.toList ++ ['\n']).head? ≠ some x := by
    intro x hx heq
    obtain ⟨c, cs, hcs, -⟩ := (isWord_desc h).opens
    rw [hcs] at heq
    obtain rfl : c = x := Option.some.inj heq
    obtain ⟨t, ht, rfl⟩ := isPlainFieldDesc_iff.mp h
    rw [Ty.isTypeChar_descriptor ht c (hcs ▸ List.mem_cons_self)] at hx
    cases hx
  refine fails_literal (BlanksTo.space _) ((isWord_desc h).opens.noTrivia _)
    ⟨hquote _ (by decide), hquote _ (by decide)⟩ (inWord_desc h fun _ => listStop_of_isTypeChar)
    ((atBlank_newline []).endsWord _) ?_
  obtain ⟨t, -, rfl⟩ := isPlainFieldDesc_iff.mp h
  exact looksNumeric_descriptor t

theorem fails_literal_end : literal.Fails ['\n'] := by
  have hends : EndsWord listStop [] := rfl
  refine fails_literal (w := "") (BlanksTo.newline []) ⟨rfl, rfl⟩ ?_ (fun _ hc => nomatch hc) hends
    (by decide)
  exact ⟨by simp, by simp⟩

theorem fails_requiredWord_end (what : String) : (requiredWord what).Fails ['\n'] := by
  unfold requiredWord
  refine (reads_skipTrivia (BlanksTo.newline []) ⟨rfl, rfl⟩).bind_fails fun _ _ => ?_
  have hends : EndsWord (fun _ => false) [] := rfl
  refine (reads_word (w := "") (fun _ hc => nomatch hc) hends).bind_fails ?_
  intro found hfound
  subst hfound
  exact fun c _ => ⟨_, rfl⟩

theorem fails_expect {x : Char} {cs : List Char} (h : cs.head? ≠ some x) : (expect x).Fails cs := by
  unfold expect
  refine (reads_eat_none h).bind_fails ?_
  intro found hfound
  subst hfound
  exact fun c _ => ⟨_, rfl⟩

theorem fails_textUpToWord {closing : String} {cs : List Char}
    (h : upToWord? closing (cs.length + 1) cs = none) : (textUpToWord closing).Fails cs := by
  unfold textUpToWord
  refine (reads_get _).bind_fails ?_
  intro mark hmark
  rw [hmark, h]
  exact fun c _ => ⟨_, rfl⟩

theorem upToWord?_lastWord {closing : String} (h : isPlainFieldDesc desc = true)
    (hclosing : sameFolded desc closing = false) :
    ∀ fuel, upToWord? closing fuel (lastWord desc) = none
  | 0 => rfl
  | fuel + 1 => by
      have hword := isWord_desc h
      obtain ⟨c, cs, hcs, hblank, -⟩ := hword.opens
      have hspace : ∀ c ∈ [' '], isBlank c = true := List.forall_mem_singleton.mpr rfl
      have hblanks : blanksLength (lastWord desc) = 1 :=
        blanksLength_append hspace (hword.opens.noTrivia _).blank
      have hlength := wordLength_append hword.inWord ((atBlank_newline []).endsWord fun _ => false)
      have hend : ∀ fuel, upToWord? closing fuel ['\n'] = none := by
        rintro (_ | fuel) <;> rfl
      rw [upToWord?, hblanks]
      simp only [lastWord, List.drop_one, List.tail_cons, hlength, List.take_left,
        String.ofList_toList, hclosing, List.drop_left, hend, Option.map_none]
      split <;> rfl

theorem fails_introduced {w : String} {head : Head} {rest : List Char}
    {parts : Cursor → Scan Clause}
    {p : Progress} (hw : Head.Introduces .keyword w head) (hrest : EndsWord (fun _ => false) rest)
    (hparts : construct .keyword head = get >>= fun mark => word >>= fun _ => parts mark)
    (hfail : ∀ mark, (parts mark).Fails rest) : (clauseAt .keyword p).Fails (w.toList ++ rest) := by
  have hword := (isWord_of_isPlainWord hw.plain).inWord
  unfold clauseAt keywordClause
  refine (reads_peekWord hword hrest).bind_fails ?_
  intro found hfound
  rw [hfound, hw.found]
  refine Fails.bind ?_ _
  rw [hparts]
  refine (reads_get _).bind_fails ?_
  intro mark _
  exact (reads_word hword hrest).bind_fails fun _ _ => hfail mark

end Scan

section Leads

variable {source : List Char} {desc : String}

/-- A construct that takes the descriptor for its only part is no definition. -/
theorem leads_introduced {w : String} {head : Head} {after : List Char} {P : Clause → Prop}
    {parts : Cursor → Scan Clause} (hw : Head.Introduces .keyword w head)
    (hparts : Scan.construct .keyword head = get >>= fun mark => Scan.word >>= fun _ => parts mark)
    (hread : ∀ mark, (parts mark).Reads (Scan.lastWord desc) P after)
    (hadd : ∀ clause draft, P clause → draft.definition = none →
      ∃ draft', Draft.add source draft clause = .ok draft' ∧ draft'.definition = none)
    {rest : List Char} (hafter : Scan.BlanksTo after rest)
    (hless : after.length ≤ (Scan.lastWord desc).length)
    (hlead : Leads .keyword source Undefined rest LacksDefinition) :
    Leads .keyword source Undefined (w.toList ++ Scan.lastWord desc) LacksDefinition := by
  have hword := isWord_of_isPlainWord hw.plain
  have hne : w.toList ≠ [] :=
    fun h => ne_empty_of_isPlainWord hw.plain (String.toList_eq_nil_iff.mp h)
  refine Leads.step (hword.opens.noTrivia _) (by simp [hne]) ?_ hafter ?_ hlead
  · intro p draft hS
    refine (Scan.reads_introduced hw ((atBlank_space _).endsWord _) hparts hread).mono ?_
    rintro ⟨clause, _⟩ ⟨hclause, rfl⟩
    obtain ⟨draft', hdraft, hnone⟩ := hadd clause draft hclause hS.definition
    exact ⟨draft', hdraft, hS.defined, hS.openMethod, hnone⟩
  · have := List.length_pos_of_ne_nil hne
    rw [List.length_append]
    omega

/-- A construct that misses a part. -/
theorem leads_broken {w : String} {head : Head} {parts : Cursor → Scan Clause}
    (hw : Head.Introduces .keyword w head)
    (hparts : Scan.construct .keyword head = get >>= fun mark => Scan.word >>= fun _ => parts mark)
    (hfail : ∀ mark, (parts mark).Fails (Scan.lastWord desc)) :
    Leads .keyword source Undefined (w.toList ++ Scan.lastWord desc) LacksDefinition := by
  refine Leads.of_fails lacksDefinition_error ((isWord_of_isPlainWord hw.plain).opens.noTrivia _)
    (by simp [Scan.lastWord]) ?_
  intro p draft _
  exact Scan.fails_introduced hw ((atBlank_space _).endsWord _) hparts hfail

/-- A name that introduces a construct, and a descriptor: whatever construct it is, there is no
definition. -/
theorem leads_headWord {w : String} {head : Head} (hw : Head.Introduces .keyword w head)
    (hdesc : isPlainFieldDesc desc = true) :
    Leads .keyword source Undefined (w.toList ++ Scan.lastWord desc) LacksDefinition := by
  have hword := Scan.reads_requiredWord_lastWord hdesc
  have hless : ['\n'].length ≤ (Scan.lastWord desc).length := by simp [Scan.lastWord]
  cases head with
  | signature =>
      refine leads_introduced (P := fun clause => ∃ s, clause = .signature s) hw rfl
        (fun mark => ?_) ?_ (Scan.BlanksTo.newline []) hless leads_undefinedEnd
      · refine (hword "signature").bind fun found _ => ?_
        exact Scan.reads_placed mark (fun position => ⟨_, rfl⟩) _
      · rintro _ draft ⟨s, rfl⟩ hnone
        refine ⟨{ draft with joining := false, attributes.signature := some s }, ?_, hnone⟩
        simp [Draft.add, Draft.addRecognized, hnone]
  | throws =>
      refine leads_introduced (P := fun clause => ∃ t, clause = .throws t) hw rfl (fun mark => ?_)
        ?_ (Scan.BlanksTo.newline []) hless leads_undefinedEnd
      · refine (hword "exception type").bind fun found _ => ?_
        exact Scan.reads_placed mark (fun position => ⟨_, rfl⟩) _
      · rintro _ draft ⟨t, rfl⟩ hnone
        refine ⟨{ draft with
          joining := false, attributes.thrown := draft.attributes.thrown ++ [t] }, ?_, hnone⟩
        simp [Draft.add, Draft.addRecognized, hnone]
  | deprecated =>
      refine leads_introduced (P := (· = .deprecated)) hw rfl
        (fun mark => Scan.Reads.pure_eq _ _) ?_
        (Scan.BlanksTo.space _) (Nat.le_refl _) (leads_modifiersOnly hdesc (List.forall_mem_nil _))
      rintro _ draft rfl hnone
      refine ⟨{ draft with joining := false, attributes.deprecated := true }, ?_, hnone⟩
      simp [Draft.add, Draft.addRecognized, hnone]
  | value => exact leads_broken hw rfl fun _ => (Scan.fails_literal_lastWord hdesc).bind _
  | annot visible =>
      refine leads_broken hw rfl fun mark => Scan.Fails.bind ?_ _
      unfold Scan.annot Scan.keywordAnnot
      refine (Scan.reads_get _).bind_fails fun _ _ => ?_
      refine (Scan.reads_skipTrivia_lastWord hdesc).bind_fails fun _ _ => ?_
      refine (Scan.reads_get _).bind_fails fun _ _ => ?_
      have hne : desc ≠ "" := by
        rintro rfl
        obtain ⟨c, cs, hcs, -⟩ := (isWord_desc hdesc).opens
        cases hcs
      refine (Scan.reads_requiredUpTo hne (inWord_desc hdesc fun _ => paren_of_isTypeChar)
        ((atBlank_newline []).endsWord _)).bind_fails fun _ _ => ?_
      exact (Scan.fails_expect (by simp)).bind _
  | tryCatch =>
      refine leads_broken hw rfl fun mark => ?_
      refine (hword "try start label").bind_fails fun _ _ => ?_
      exact (Scan.fails_requiredWord_end _).bind _
  | line =>
      refine leads_broken hw rfl fun mark => ?_
      refine (hword "line label").bind_fails fun _ _ => ?_
      exact Scan.fails_literal_end.bind _
  | expression =>
      refine leads_broken hw rfl fun mark => Scan.Fails.bind ?_ _
      refine Scan.fails_textUpToWord (Scan.upToWord?_lastWord hdesc ?_ _)
      rw [Bool.eq_false_iff]
      intro hfold
      exact lowerCase_desc_ne hdesc (by decide) (sameFolded_iff.mp hfold)

end Leads

/-! ## Fields without a name -/

/-- Is the literal a string, or a number without a fraction? -/
def Literal.isExact : Literal → Bool
  | .string _ | .number (.int _) | .number (.long _) => true
  | .number (.float _) | .number (.double _) => false

/-- No descriptor starts like a literal of this kind. -/
theorem descriptorLength?_literal {l : Literal} (h : l.isExact = true) (rest : List Char) :
    descriptorLength? (l.text.toList ++ rest) = none := by
  have hhead : ∃ c cs, l.text.toList ++ rest = c :: cs
      ∧ (c.isDigit = true ∨ c = '-' ∨ c = '"') := by
    have hnumber : ∀ (negative : Bool) (n : Nat) (tail : List Char), ∃ c cs,
        signText negative ++ (Nat.toDigits 10 n ++ tail) = c :: cs
          ∧ (c.isDigit = true ∨ c = '-' ∨ c = '"') := by
      intro negative n tail
      obtain ⟨c, cs, hcs, hc, -⟩ := exists_toDigits_eq n
      cases negative with
      | true => exact ⟨'-', _, rfl, Or.inr (Or.inl rfl)⟩
      | false => exact ⟨c, cs ++ tail, by rw [hcs]; rfl, Or.inl hc⟩
    cases l with
    | string s =>
        refine ⟨'"', s.toList.flatMap quoteChar ++ ['"'] ++ rest, ?_, Or.inr (Or.inr rfl)⟩
        rw [Literal.text, quote, String.toList_ofList]
        rfl
    | number n =>
        cases n with
        | int v =>
            rw [Literal.text, Number.toList_text_int, List.append_assoc]
            exact hnumber _ _ rest
        | long v =>
            rw [Literal.text, Number.toList_text_long, List.append_assoc, List.append_assoc]
            exact hnumber _ _ _
        | float _ | double _ => cases h
  obtain ⟨c, cs, hcs, hc⟩ := hhead
  have hletter : Prim.ofLetter? c = none := by
    unfold Prim.ofLetter?
    split <;> first
      | rfl
      | rename_i heq
        revert hc
        decide
  rw [hcs]
  have hne : ∀ x : Char, x.isDigit = false → x ≠ '-' → x ≠ '"' → c ≠ x := by
    rintro x hx hminus hquote rfl
    rcases hc with hc | hc | hc
    · rw [hc] at hx
      cases hx
    · exact hminus hc
    · exact hquote hc
  unfold descriptorLength?
  split
  · rename_i heq
    exact absurd (List.cons.inj heq).1 (hne '(' rfl (by decide) (by decide))
  · unfold typeLength?
    split
    · rename_i heq
      cases heq
    · rename_i heq
      exact absurd (List.cons.inj heq).1 (hne 'V' rfl (by decide) (by decide))
    · rename_i heq
      exact absurd (List.cons.inj heq).1 (hne '[' rfl (by decide) (by decide))
    · rename_i heq
      exact absurd (List.cons.inj heq).1 (hne 'L' rfl (by decide) (by decide))
    · rename_i heq
      obtain ⟨rfl, -⟩ := List.cons.inj heq
      simp [hletter]

/-- A field named like a modifier has one more word that reads as a modifier. -/
theorem FieldDef.modifiers_name {f : FieldDef} (hname : isPlainWord f.name = true)
    (hmodifier : Scan.isModifier f.name = true) :
    ∀ s ∈ Access.modifiers f.access .field ++ [f.name],
    isPlainWord s = true ∧ Scan.isModifier s = true := by
  intro s hs
  rcases List.mem_append.mp hs with hs | hs
  · have hspec := FlagTarget.OfMember.modifiers_written (Or.inr rfl) f.access s hs
    exact ⟨hspec.1, hspec.2.1⟩
  · obtain rfl := List.mem_singleton.mp hs
    exact ⟨hname, hmodifier⟩

namespace Scan

variable {f : FieldDef}

/-- The name is taken for a modifier and the descriptor for the name, so there is no descriptor. -/
theorem fails_directiveField (hname : isPlainWord f.name = true)
    (hmodifier : isModifier f.name = true)
    (hdesc : isPlainFieldDesc f.desc = true) (mark : Cursor) {tail next : List Char}
    (htail : AtBlank tail) (hgap : BlanksTo tail next) (hnext : NoTrivia next)
    (hnone : descriptorLength? next = none) :
    (directiveField mark).Fails (' ' :: (f.header.toList ++ tail)) := by
  have hms := FieldDef.modifiers_name hname hmodifier
  have htext : f.header.toList ++ tail = followed String.toList (f.desc.toList ++ tail)
      (Access.modifiers f.access .field ++ [f.name]) := by
    rw [f.toList_header, followed_split]
    rfl
  have hword := isWord_desc hdesc
  unfold directiveField
  rw [htext]
  refine (reads_skipTrivia (BlanksTo.space _)
    (noTrivia_followed (fun s hs => (hms s hs).1) fun hnone => absurd hnone (by simp))).bind_fails
    fun _ _ => ?_
  refine (reads_modifiers hms (hword.opens.noTrivia _).blank
    (reads_modifier_desc hdesc htail)).bind_fails
    fun _ _ => ?_
  refine (reads_wordOf hword.isSignature (BlanksTo.refl _) htail).bind_fails fun _ _ => ?_
  refine (reads_skipTrivia hgap hnext).bind_fails fun _ _ => ?_
  refine (reads_descriptor?_none hnone).bind_fails ?_
  rintro _ rfl
  exact fun c _ => ⟨_, rfl⟩

theorem fails_directiveFieldClause {p : Progress} (hp : p.defined = false) {text : List Char}
    (hfail : ∀ mark, (directiveField mark).Fails (' ' :: text)) :
    (clauseAt .directive p).Fails ("field".toList ++ ' ' :: text) := by
  have hw : InWord (fun _ => false) "field".toList := (isWord_of_isPlainWord rfl).inWord
  have hends := (atBlank_space text).endsWord fun _ => false
  have hlower : lowerCase "field" = "field" := by decide
  unfold clauseAt directiveClause
  refine (reads_get _).bind_fails ?_
  intro mark _
  refine (reads_peekWord hw hends).bind_fails ?_
  intro found hfound
  rw [hfound, hlower, hp]
  refine (reads_word hw hends).bind_fails fun _ _ => ?_
  exact (hfail mark).bind _

end Scan

section Leads

variable {d : Dialect} {source : List Char} {f : FieldDef}

theorem leads_keywordField_ambiguous (hname : isPlainWord f.name = true)
    (hdesc : isPlainFieldDesc f.desc = true) (hambiguous : f.isAmbiguous .keyword = true) :
    Leads .keyword source (Attributed f.attributes none) (fieldLines f .keyword).toList
      LacksDefinition := by
  have hheader : Leads .keyword source Undefined (textLine f.header).toList LacksDefinition := by
    have htext : (textLine f.header).toList = f.header.toList ++ ['\n'] := by
      simp [textLine, String.toList_append]
    rw [htext, f.toList_header]
    by_cases hmodifier : Scan.isModifier f.name = true
    · have hsplit := Scan.followed_split (f.desc.toList ++ ['\n']) f.name []
        (Access.modifiers f.access .field)
      rw [followed] at hsplit
      rw [← hsplit]
      exact leads_modifiersOnly hdesc (FieldDef.modifiers_name hname hmodifier)
    · simp only [FieldDef.isAmbiguous, hmodifier, Bool.false_or, decide_true, Bool.true_and,
        Bool.and_eq_true, List.isEmpty_iff] at hambiguous
      obtain ⟨head, hhead⟩ := Option.isSome_iff_exists.mp hambiguous.2
      rw [hambiguous.1]
      exact leads_headWord ⟨hname, hhead⟩ hdesc
  unfold fieldLines
  cases hvalue : f.value with
  | none => exact hheader.imp fun p draft hS => hS.undefined
  | some v =>
      rw [String.toList_append]
      exact leads_value v.value (hheader.imp fun p draft hS => hS.undefined)

theorem leads_directiveField_ambiguous (hname : isPlainWord f.name = true)
    (hdesc : isPlainFieldDesc f.desc = true) (hexact : f.value.all (·.value.isExact) = true)
    (hmodifier : Scan.isModifier f.name = true) :
    Leads .directive source (Attributed f.attributes none) (fieldLines f .directive).toList
      LacksDefinition := by
  have hline : ∀ {tail next : List Char}, AtBlank tail → Scan.BlanksTo tail next → NoTrivia next →
      descriptorLength? next = none → Leads .directive source (Attributed f.attributes none)
        ("field".toList ++ ' ' :: (f.header.toList ++ tail)) LacksDefinition := by
    intro tail next htail hgap hnext hnone
    refine Leads.of_fails lacksDefinition_error (noTrivia_cons rfl (by decide) _) (by simp) ?_
    intro p draft hS
    refine Scan.fails_directiveFieldClause hS.defined fun mark => ?_
    exact Scan.fails_directiveField hname hmodifier hdesc mark htail hgap hnext hnone
  unfold fieldLines
  cases hvalue : f.value with
  | none =>
      have htext : (textLine ("field " ++ f.header)).toList
          = "field".toList ++ ' ' :: (f.header.toList ++ ['\n']) := by
        simp [textLine, String.toList_append]
      dsimp only
      rw [htext]
      exact hline (atBlank_newline []) (Scan.BlanksTo.newline []) ⟨rfl, rfl⟩ rfl
  | some v =>
      rw [hvalue] at hexact
      have htext : (textLine ("field " ++ f.header ++ " " ++ v.value.text)).toList
          = "field".toList
            ++ ' ' :: (f.header.toList ++ ' ' :: (v.value.text.toList ++ ['\n'])) := by
        simp [textLine, String.toList_append]
      dsimp only
      rw [htext]
      exact hline (atBlank_space _) (Scan.BlanksTo.space _)
        ((opens_literalText v.value '(' rfl (by decide)).noTrivia _)
        (descriptorLength?_literal hexact _)

theorem leads_field_ambiguous (hname : isPlainWord f.name = true)
    (hdesc : isPlainFieldDesc f.desc = true) (hexact : f.value.all (·.value.isExact) = true)
    (hambiguous : f.isAmbiguous d = true) :
    Leads d source (Attributed f.attributes none) (fieldLines f d).toList LacksDefinition := by
  cases d with
  | keyword => exact leads_keywordField_ambiguous hname hdesc hambiguous
  | directive =>
      refine leads_directiveField_ambiguous hname hdesc hexact ?_
      simpa [FieldDef.isAmbiguous] using hambiguous

end Leads

/-! ## Definitions -/

/-- The body that a method has on its own: a `return`, if it needs one. -/
def MethodDef.loneCode (m : MethodDef) : Code :=
  if m.hasCode then [⟨.operation (.plain .vreturn), {}⟩] else []

/-- The listing of a definition with nothing else in it. -/
def Definition.alone : Definition → Listing
  | .method m => ⟨.method m, some m.loneCode⟩
  | definition => ⟨definition, some []⟩

/-- Is it a plain method, or a plain field whose value, if any, is an int, a long or a string? -/
def Definition.isPlain : Definition → Bool
  | .method m => m.isPlain
  | .field f => f.isPlain && f.value.all (·.value.isExact)
  | .class _ => false

/-- Does the dialect write the header as it would write something else? -/
def Definition.isAmbiguous (d : Dialect) : Definition → Bool
  | .method m => d = .directive && Scan.isModifier m.name
  | .field f => f.isAmbiguous d
  | .class _ => false

theorem Attributes.bare_of_isPlain {a : Attributes} (h : a.isPlain = true) :
    a.annots = [] ∧ a.bare = a := by
  simp only [isPlain, Bool.and_eq_true, List.isEmpty_iff] at h
  exact ⟨h.2, by rw [bare, ← h.2]⟩

section Alone

variable {d : Dialect} {indent : String}

theorem MethodDef.loneCode_spec (m : MethodDef) :
    (∀ e ∈ m.loneCode, e.value.isPlain = true)
      ∧ Listing.isAmbiguous ⟨.method m, some m.loneCode⟩ = Scan.isModifier m.name := by
  unfold loneCode
  split
  · exact ⟨List.forall_mem_singleton.mpr rfl, Bool.or_false _⟩
  · exact ⟨List.forall_mem_nil _, Bool.or_false _⟩

theorem MethodDef.read_write_lone {m : MethodDef} (hplain : m.isPlain = true)
    (hindent : indent.toList.all isBlank = true)
    (hclear : d = .keyword ∨ Scan.isModifier m.name = false) :
    ∃ l', Listing.read d (Listing.write ⟨d, indent⟩ ⟨.method m, some m.loneCode⟩) = .ok l'
      ∧ l'.unplaced = Listing.unplaced ⟨.method m, some m.loneCode⟩ := by
  obtain ⟨hcode, hambiguous⟩ := m.loneCode_spec
  obtain ⟨hannots, hbare⟩ := Attributes.bare_of_isPlain (MethodDef.spelled_of_isPlain hplain).2.2
  refine m.read_write_annotated ?_ hcode ?_ hindent (by simp [hannots]) (by simp [hannots])
  · rw [hbare]
    exact hplain
  · rw [hambiguous]
    exact hclear

theorem MethodDef.read_lone_error {m : MethodDef} (hplain : m.isPlain = true)
    (hindent : indent.toList.all isBlank = true) (hname : Scan.isModifier m.name = true) :
    ∃ e, Listing.read .directive
      (Listing.write ⟨.directive, indent⟩ ⟨.method m, some m.loneCode⟩) = .error e := by
  obtain ⟨hcode, hambiguous⟩ := m.loneCode_spec
  obtain ⟨_, ⟨e, rfl⟩, hread⟩ := Listing.read_of_leads (Q := fun r => ∃ e, r = .error e)
    (leads_write_ambiguous hplain hcode hindent (hambiguous.trans hname) fun e => ⟨e, rfl⟩)
  exact ⟨e, hread⟩

theorem FieldDef.read_write_lone {f : FieldDef} (hplain : f.isPlain = true)
    (hclear : f.isAmbiguous d = false) :
    ∃ l', Listing.read d (Listing.write ⟨d, indent⟩ ⟨.field f, some []⟩) = .ok l'
      ∧ l'.unplaced = Listing.unplaced ⟨.field f, some []⟩ := by
  obtain ⟨hannots, hbare⟩ :=
    Attributes.bare_of_isPlain (FieldDef.spelled_of_isPlain hplain hclear).2.2
  refine f.read_write_annotated indent ?_ hclear (by simp [hannots]) (by simp [hannots])
  rw [hbare]
  exact hplain

theorem FieldDef.read_lone_error {f : FieldDef} (hplain : f.isPlain = true)
    (hexact : f.value.all (·.value.isExact) = true) (hambiguous : f.isAmbiguous d = true) :
    ∃ e, Listing.read d (Listing.write ⟨d, indent⟩ ⟨.field f, some []⟩) = .error e := by
  simp only [FieldDef.isPlain, Bool.and_eq_true] at hplain
  obtain ⟨⟨⟨-, hname⟩, hdesc⟩, hattributes⟩ := hplain
  have hleads : ∀ source, Leads d source (Attributed {} none)
      (Listing.write ⟨d, indent⟩ ⟨.field f, some []⟩).toList LacksDefinition := by
    intro source
    have hlead : Leads d source (Attributed f.attributes none) ((fieldLines f d).toList ++ [])
        LacksDefinition := by
      rw [List.append_nil]
      exact leads_field_ambiguous hname hdesc hexact hambiguous
    rw [toList_writeField]
    exact leads_attributes (Attributes.isSpelled_of_isPlain hattributes)
      (Attributes.annots_of_isPlain hattributes) hlead
  exact Listing.read_of_lacksDefinition (hleads _)

end Alone

/-- A plain definition is given back by its text up to positions, unless its header is ambiguous in
the dialect; then the text is not readable. -/
theorem Definition.read_write_alone (definition : Definition) (layout : Layout)
    (hplain : definition.isPlain = true) (hindent : layout.indent.toList.all isBlank = true) :
    (definition.isAmbiguous layout.dialect = false →
      ∃ l', Listing.read layout.dialect (definition.alone.write layout) = .ok l'
        ∧ l'.unplaced = definition.alone.unplaced)
    ∧ (definition.isAmbiguous layout.dialect = true →
      ∃ e, Listing.read layout.dialect (definition.alone.write layout) = .error e) := by
  obtain ⟨d, indent⟩ := layout
  cases definition with
  | method m =>
      simp only [isAmbiguous, Bool.and_eq_false_iff, decide_eq_false_iff_not, Bool.and_eq_true,
        decide_eq_true_eq]
      constructor
      · intro hclear
        refine m.read_write_lone hplain hindent (hclear.imp_left fun hne => ?_)
        cases d with
        | keyword => rfl
        | directive => exact absurd rfl hne
      · rintro ⟨rfl, hname⟩
        exact m.read_lone_error hplain hindent hname
  | field f =>
      obtain ⟨hf, hexact⟩ := Bool.and_eq_true_iff.mp hplain
      exact ⟨f.read_write_lone hf, f.read_lone_error hf hexact⟩
  | «class» c => cases hplain

/-- A deprecated field that is called `value` and holds a long. -/
def Definition.valueField : Definition :=
  .field
    { access := 0, name := "value", desc := "J", value := some ⟨.number (.long (-1)), {}⟩,
      attributes := { deprecated := true } }

/-- An abstract method that is called `bridge`. -/
def Definition.bridgeMethod : Definition :=
  .method
    { access := 0x0401, name := "bridge", params := [⟨"[La/B;", "public", {}⟩], result := "V" }

theorem Definition.read_write_alone_valueField :
    (valueField.isPlain = true ∧ bridgeMethod.isPlain = true)
    ∧ (∃ e, Listing.read .keyword (valueField.alone.write ⟨.keyword, "  "⟩) = .error e)
    ∧ (∃ l', Listing.read .directive (valueField.alone.write ⟨.directive, "  "⟩) = .ok l'
      ∧ l'.unplaced = valueField.alone.unplaced)
    ∧ (∃ l', Listing.read .keyword (bridgeMethod.alone.write ⟨.keyword, "  "⟩) = .ok l'
      ∧ l'.unplaced = bridgeMethod.alone.unplaced)
    ∧ ∃ e, Listing.read .directive (bridgeMethod.alone.write ⟨.directive, "  "⟩) = .error e := by
  have hvalue : valueField.isPlain = true ∧ valueField.isAmbiguous .keyword = true
      ∧ valueField.isAmbiguous .directive = false := by decide +kernel
  have hbridge : bridgeMethod.isPlain = true ∧ bridgeMethod.isAmbiguous .keyword = false
      ∧ bridgeMethod.isAmbiguous .directive = true := by decide +kernel
  have hindent : "  ".toList.all isBlank = true := by decide +kernel
  refine ⟨⟨hvalue.1, hbridge.1⟩, ?_, ?_, ?_, ?_⟩
  · exact (read_write_alone valueField ⟨.keyword, "  "⟩ hvalue.1 hindent).2 hvalue.2.1
  · exact (read_write_alone valueField ⟨.directive, "  "⟩ hvalue.1 hindent).1 hvalue.2.2
  · exact (read_write_alone bridgeMethod ⟨.keyword, "  "⟩ hbridge.1 hindent).1 hbridge.2.1
  · exact (read_write_alone bridgeMethod ⟨.directive, "  "⟩ hbridge.1 hindent).2 hbridge.2.2

end JvmListing
