/-
# Where instructions come from

An assembled method keeps, beside its instructions, the index of the entry that each of
them was made from.  The two lists grow together but not with the entries: most kinds of
entries make nothing, a label or an operation makes one instruction, and an expression
makes as many as its fragment has.  The indices are right all the same:

  `LoweringContext.Makes`     what an entry is turned into, after the entries before it
  `Parts.makes`               every part of a body is what its entry makes
  `pairwise_origins_ofParts`  the indices of parts in a row never go down
  `assembleMethod_origins`    the way from instructions to entries, and back
-/
import JvmListing.Proofs.LabelClosure

namespace JvmListing

namespace LoweringContext

variable {ctx : LoweringContext}

/-! ## What an entry makes -/

/-- The fragment that an entry stands for, if it is an expression that compiles. -/
def fragment? (ctx : LoweringContext) (e : Entry) : Option Fragment :=
  match e.value with
  | .expression text => (ctx.compileExpression text e.position).toOption
  | _ => none

/-- How many label numbers the fragments of a body take. -/
def fragmentLabels (ctx : LoweringContext) : Code → Nat
  | [] => 0
  | e :: code => ((ctx.fragment? e).map Fragment.labelBound).getD 0 + fragmentLabels ctx code

/-- Are these the instructions that an entry makes, after the entries `before` it?  The
labels of a fragment come after those with a name and those of the fragments before. -/
def Makes (ctx : LoweringContext) (before : Code) (e : Entry) (insns : List Insn) : Prop :=
  match e.value with
  | .label name => ∃ id, ctx.labels.lookup name = some id ∧ insns = [.label id]
  | .operation op => ∃ insn, ctx.lower e.position op = .ok insn ∧ insns = [insn]
  | .expression text =>
    ∃ f, ctx.compileExpression text e.position = .ok f
      ∧ insns = f.insns.map (Insn.mapLabels (· + (ctx.labels.length + ctx.fragmentLabels before)))
  | _ => insns = []

/-- An entry takes the label numbers of its fragment, and no others. -/
theorem free_of_lowerEntry {free free' : Nat} {e : Entry} {own : Fragment}
    (h : ctx.lowerEntry free e = .ok (own, free')) :
    free' = free + ((ctx.fragment? e).map Fragment.labelBound).getD 0 := by
  have hown := lowerEntry_ok h
  unfold fragment?
  cases hv : e.value with
  | expression text =>
      rw [hv] at hown
      obtain ⟨f, hf, -, rfl⟩ := hown
      simp only [hf, Except.toOption, Option.map_some, Option.getD_some]
  | label name =>
      rw [hv] at hown
      obtain ⟨id, -, -, rfl⟩ := hown
      rfl
  | operation op =>
      rw [hv] at hown
      obtain ⟨insn, -, -, rfl⟩ := hown
      rfl
  | _ =>
      rw [hv] at hown
      obtain ⟨-, rfl⟩ := hown
      rfl

/-- What is lowered where the labels of the entries before are taken, is what the entry makes. -/
theorem makes_of_lowerEntry {before : Code} {free' : Nat} {e : Entry} {own : Fragment}
    (h : ctx.lowerEntry (ctx.labels.length + ctx.fragmentLabels before) e = .ok (own, free')) :
    ctx.Makes before e own.insns := by
  have hown := lowerEntry_ok h
  unfold Makes
  cases hv : e.value with
  | label name =>
      rw [hv] at hown
      obtain ⟨id, hid, rfl, -⟩ := hown
      exact ⟨id, hid, rfl⟩
  | operation op =>
      rw [hv] at hown
      obtain ⟨insn, hinsn, rfl, -⟩ := hown
      exact ⟨insn, hinsn, rfl⟩
  | expression text =>
      rw [hv] at hown
      obtain ⟨f, hf, rfl, -⟩ := hown
      exact ⟨f, hf, rfl⟩
  | _ =>
      rw [hv] at hown
      obtain ⟨rfl, -⟩ := hown
      rfl

end LoweringContext

/-! ## What a body makes -/

/-- The part of an entry is lowered after the fragments before it have taken their labels. -/
theorem Parts.exists_part {ctx : LoweringContext} {free : Nat} {code : Code} {parts : List Fragment}
    (h : Parts ctx free code parts) : ∀ {k : Nat} {e : Entry}, code[k]? = some e →
    ∃ own free', parts[k]? = some own
      ∧ ctx.lowerEntry (free + ctx.fragmentLabels (code.take k)) e = .ok (own, free') := by
  induction h with
  | nil =>
      intro k e hk
      cases hk
  | @cons free free' first rest own parts hown _ ih =>
      intro k e hk
      cases k with
      | zero =>
          cases hk
          exact ⟨own, free', rfl, hown⟩
      | succ k =>
          obtain ⟨part, after, hpart, hlower⟩ := ih hk
          refine ⟨part, after, hpart, ?_⟩
          rw [List.take_succ_cons, LoweringContext.fragmentLabels, ← Nat.add_assoc,
            ← LoweringContext.free_of_lowerEntry hown]
          exact hlower

/-- Every part is what its entry makes. -/
theorem Parts.makes {ctx : LoweringContext} {code : Code} {parts : List Fragment}
    (h : Parts ctx ctx.labels.length code parts) {k : Nat} {e : Entry} (hk : code[k]? = some e) :
    ∃ own, parts[k]? = some own ∧ ctx.Makes (code.take k) e own.insns := by
  obtain ⟨own, free', hown, hlower⟩ := h.exists_part hk
  exact ⟨own, hown, LoweringContext.makes_of_lowerEntry hlower⟩

theorem lt_of_mem_ofParts : ∀ {parts : List Fragment} {index : Nat} {p : Insn × Nat},
    p ∈ (Lowered.ofParts index parts).insns → p.2 < index + parts.length
  | [], _, _, hp => by cases hp
  | own :: parts, index, p, hp => by
      rw [List.length_cons]
      rcases List.mem_append.mp hp with hp | hp
      · obtain ⟨insn, -, rfl⟩ := List.mem_map.mp hp
        show index < _
        omega
      · have := lt_of_mem_ofParts hp
        omega

/-- The indices of parts in a row never go down. -/
theorem pairwise_origins_ofParts : ∀ (parts : List Fragment) (index : Nat),
    ((Lowered.ofParts index parts).insns.map (·.2)).Pairwise (· ≤ ·)
  | [], _ => .nil
  | own :: parts, index => by
      have hown :
          (own.insns.map ((·, index))).map (·.2) = List.replicate own.insns.length index := by
        rw [List.map_map]
        exact List.map_const' ..
      rw [Lowered.ofParts, List.map_append, List.pairwise_append, hown]
      refine ⟨List.pairwise_replicate.mpr (Or.inr (Nat.le_refl _)),
        pairwise_origins_ofParts parts (index + 1), ?_⟩
      intro i hi j hj
      obtain ⟨p, hp, rfl⟩ := List.mem_map.mp hj
      have hle : index + 1 ≤ p.2 := le_of_mem_ofParts hp
      rw [List.eq_of_mem_replicate hi]
      omega

/-! ## Assembled methods -/

/-- The stages of an assembly start from what the first two give. -/
theorem Assembled.loweringContext_eq {options : AssemblyOptions} {helpers : Helpers} {l : Listing}
    {a : AssembledMethod} {ctx : LoweringContext} {low : Lowered}
    (h : Assembled options helpers l a ctx low) : loweringContext options helpers l = .ok ctx := by
  refine except_bind_eq_ok.mpr ⟨ctx.method, h.method, ?_⟩
  refine except_bind_eq_ok.mpr ⟨ctx.labels, h.labels, ?_⟩
  refine except_bind_eq_ok.mpr ⟨ctx.slots, h.slots, ?_⟩
  rw [← h.options_eq, ← h.helpers_eq]
  rfl

namespace Composed

variable {helpers : Helpers} {l : Listing} {a : AssembledMethod} {ctx : LoweringContext}
  {parts : List Fragment} {handlers : List TryBlock}
  (h : Composed helpers l a ctx parts handlers)
include h

theorem length_origins : a.origins.length = a.method.insns.length := by
  rw [h.origins, h.insns, List.length_map, List.length_map]

/-- Every index is that of an entry. -/
theorem exists_entry {i k : Nat} (hi : a.origins[i]? = some k) : ∃ e, l.body[k]? = some e := by
  rw [h.origins] at hi
  obtain ⟨p, hp, rfl⟩ := List.mem_map.mp (List.mem_of_getElem? hi)
  have hlt := lt_of_mem_ofParts hp
  rw [Nat.zero_add, ← h.lowered.forall₂.length_eq] at hlt
  exact ⟨_, List.getElem?_eq_getElem hlt⟩

theorem sourceOf?_eq {i k : Nat} (hi : a.origins[i]? = some k) : a.sourceOf? i = l.body[k]? := by
  rw [AssembledMethod.sourceOf?, hi, h.code]
  rfl

theorem isSome_sourceOf?_iff (i : Nat) :
    (a.sourceOf? i).isSome = true ↔ i < a.method.insns.length := by
  rw [← h.length_origins]
  constructor
  · intro hsome
    obtain ⟨e, he⟩ := Option.isSome_iff_exists.mp hsome
    obtain ⟨k, hk, -⟩ := Option.bind_eq_some_iff.mp he
    exact (List.getElem?_eq_some_iff.mp hk).1
  · intro hlt
    have hi := List.getElem?_eq_getElem hlt
    obtain ⟨e, he⟩ := h.exists_entry hi
    rw [h.sourceOf?_eq hi, he]
    rfl

/-- What an entry makes stands together, and nothing else comes from the entry. -/
theorem exists_placedAt {k : Nat} {e : Entry} (hk : l.body[k]? = some e) :
    ∃ first insns, ctx.Makes (l.body.take k) e insns ∧ a.PlacedAt k first insns := by
  have hlabels : l.body.labelNames.length = ctx.labels.length := by
    rw [h.labels, List.length_zipIdx]
  obtain ⟨own, hown, hmakes⟩ := (hlabels ▸ h.lowered).makes hk
  obtain ⟨first, hfirst⟩ := h.placedAt hown
  exact ⟨first, own.insns, hmakes, hfirst⟩

end Composed

/-- The way from the instructions of an assembled method to the entries they were made
from.  Exactly the instructions have an entry, the entries come in order, every entry has
exactly what it makes, in order and in one place, and the line of an instruction is the
line of its entry. -/
theorem assembleMethod_origins (options : AssemblyOptions) (helpers : Helpers) (l : Listing)
    (a : AssembledMethod) (h : assembleMethod options helpers l = .ok a) :
    ∃ ctx, loweringContext options helpers l = .ok ctx
      ∧ (∀ i, (a.sourceOf? i).isSome = true ↔ i < a.method.insns.length)
      ∧ a.origins.Pairwise (· ≤ ·)
      ∧ (∀ k e, l.body[k]? = some e →
          ∃ first insns, ctx.Makes (l.body.take k) e insns ∧ a.PlacedAt k first insns)
      ∧ ∀ i k, a.origins[i]? = some k →
          ∃ e, l.body[k]? = some e ∧ a.sourceOf? i = some e
            ∧ a.lineOf? i = some e.position.line := by
  obtain ⟨ctx, low, hassembled⟩ := assembled_of_ok h
  obtain ⟨parts, handlers, hcomposed⟩ := hassembled.composed
  refine ⟨ctx, hassembled.loweringContext_eq, hcomposed.isSome_sourceOf?_iff, ?_,
    fun k e hk => hcomposed.exists_placedAt hk, ?_⟩
  · rw [hcomposed.origins]
    exact pairwise_origins_ofParts parts 0
  · intro i k hi
    obtain ⟨e, he⟩ := hcomposed.exists_entry hi
    have hsource : a.sourceOf? i = some e := (hcomposed.sourceOf?_eq hi).trans he
    refine ⟨e, he, hsource, ?_⟩
    rw [AssembledMethod.lineOf?, hsource]
    rfl

/-- A loop of its own for `spin`, and nothing for any other expression. -/
def spinOrNothing : Helpers where
  classes := some fun _ => none
  expressions := some fun text _ =>
    .ok (if text = "spin" then ⟨[.label 1, .jump .goto 1], []⟩ else ⟨[], []⟩)

/-- A method whose entries make none, one or two instructions each. -/
def unevenEntries : Listing where
  definition := .method ⟨0x0008, "m", [⟨"I", "n", {}⟩], "V", {}, {}⟩
  code := some
    [⟨.comment "// n goes up", { line := 2 }⟩, ⟨.label "A", { line := 3 }⟩,
     ⟨.expression "spin", { line := 4 }⟩, ⟨.expression "rest", { line := 5 }⟩,
     ⟨.operation (.iinc "n" 1), { line := 6 }⟩, ⟨.unmatched "?", { line := 6 }⟩,
     ⟨.expression "spin", { line := 7 }⟩, ⟨.tryCatch "A" "B" "B" none, { line := 8 }⟩,
     ⟨.label "B", { line := 9 }⟩]

theorem assembleMethod_origins_unevenEntries :
    ∃ a ctx, assembleMethod {} spinOrNothing unevenEntries = .ok a
      ∧ loweringContext {} spinOrNothing unevenEntries = .ok ctx
      ∧ a.method.insns = [.label 0, .label 3, .jump .goto 3, .iinc 0 1, .label 5, .jump .goto 5,
          .label 1]
      ∧ a.origins = [1, 2, 2, 4, 6, 6, 8]
      ∧ (List.range 8).map a.lineOf? =
          [some 3, some 4, some 4, some 6, some 7, some 7, some 9, none]
      ∧ ((a.sourceOf? 6).isSome = true ↔ 6 < a.method.insns.length)
      ∧ (∃ first insns,
        ctx.Makes (unevenEntries.body.take 6) ⟨.expression "spin", { line := 7 }⟩ insns
          ∧ a.PlacedAt 6 first insns)
      ∧ ∃ first insns,
        ctx.Makes (unevenEntries.body.take 3) ⟨.expression "rest", { line := 5 }⟩ insns
          ∧ a.PlacedAt 3 first insns := by
  have hrun : (assembleMethod {} spinOrNothing unevenEntries).toOption.map
      (fun a => (a.method.insns, a.origins, (List.range 8).map a.lineOf?)) =
      some ([.label 0, .label 3, .jump .goto 3, .iinc 0 1, .label 5, .jump .goto 5, .label 1],
        [1, 2, 2, 4, 6, 6, 8],
        [some 3, some 4, some 4, some 6, some 7, some 7, some 9, none]) := by decide +kernel
  obtain ⟨a, ha, hparts⟩ := Option.map_eq_some_iff.mp hrun
  have ha := toOption_eq_some.mp ha
  obtain ⟨hinsns, hrest⟩ := Prod.mk.inj hparts
  obtain ⟨horigins, hlines⟩ := Prod.mk.inj hrest
  obtain ⟨ctx, hctx, hsource, -, hmakes, -⟩ :=
    assembleMethod_origins {} spinOrNothing unevenEntries a ha
  exact ⟨a, ctx, ha, hctx, hinsns, horigins, hlines, hsource 6, hmakes 6 _ rfl, hmakes 3 _ rfl⟩

end JvmListing
