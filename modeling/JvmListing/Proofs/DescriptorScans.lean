/-
# Descriptors by their length

The scans of descriptors move character by character, and go back if there is no
descriptor.  How far they come can be told without moving: `typeLength?` and
`descriptorLength?` measure the type or descriptor at the front of a text.

`Scan.MovesBy part c length?` says that a scan begun at the cursor `c` passes just the
characters that were measured, and gives `false` if nothing was.  There is one lemma for
each part of a descriptor, and `Scan.passed?_eq` for the way back: a scan that moves
and goes back is the scan that measures first and moves then (`Scan.piece?`).
-/
import JvmListing.Reading.Scan

namespace JvmListing

namespace Lexeme

/-! ## Lengths -/

/-- Does the character belong to a class name inside a descriptor? -/
def inClassName (c : Char) : Bool := c ≠ ';' && !isBlank c

/-- The length of one type, which may be `void` if `voids` says so. -/
def typeLength? (voids : Bool) : List Char → Option Nat
  | [] => none
  | 'V' :: _ => if voids then some 1 else none
  | '[' :: cs => (typeLength? false cs).map (· + 1)
  | 'L' :: cs =>
    let name := spanLength inClassName cs
    if name = 0 then none
    else if (cs.drop name).head? = some ';' then some (name + 2) else none
  | c :: _ => if (Prim.ofLetter? c).isSome then some 1 else none

/-- The length of parameter types and the `)` after them, at most `fuel` of them. -/
def paramsLength? : Nat → List Char → Option Nat
  | _, ')' :: _ => some 1
  | 0, _ => none
  | fuel + 1, cs =>
    match typeLength? false cs with
    | none => none
    | some n => (paramsLength? fuel (cs.drop n)).map (n + ·)

/-- The length of one field or method descriptor. -/
def descriptorLength? : List Char → Option Nat
  | '(' :: cs =>
    match paramsLength? cs.length cs with
    | none => none
    | some n => (typeLength? true (cs.drop n)).map (n + 1 + ·)
  | cs => typeLength? false cs

end Lexeme

open Lexeme

theorem Cursor.rest_step_of_cons {c : Cursor} {x : Char} {cs : List Char} (hc : c.rest = x :: cs) :
    c.step.rest = cs := by
  rw [Cursor.rest_step, hc]
  rfl

namespace Scan

/-- The piece here that `length?` measures, if there is one. -/
def piece? (length? : List Char → Option Nat) : Scan (Option String) := do
  match length? (← get).rest with
  | some n => return some (← take n)
  | none => return none

/-! ## Parts that are passed -/

/-- Does the scan move by the length that was measured, or give `false` if there was none? -/
def MovesBy (part : Scan Bool) (c : Cursor) : Option Nat → Prop
  | some n => n ≤ c.rest.length ∧ part c = .ok (true, c.advance n)
  | none => ∃ c', part c = .ok (false, c')

namespace MovesBy

variable {part next : Scan Bool} {c : Cursor} {length? : Option Nat}

theorem pure_false : MovesBy (pure false) c none := ⟨c, rfl⟩

theorem pure_ite (b : Bool) : MovesBy (pure b) c (if b then some 0 else none) := by
  cases b with
  | false => exact pure_false
  | true => exact ⟨Nat.zero_le _, rfl⟩

/-- One character more. -/
theorem step {x : Char} {cs : List Char} (hc : c.rest = x :: cs) (h : MovesBy part c.step length?) :
    MovesBy (do modify Cursor.step; part) c (length?.map (· + 1)) := by
  cases length? with
  | none => exact h
  | some n =>
      obtain ⟨hle, hrun⟩ := h
      rw [Cursor.rest_step_of_cons hc] at hle
      refine ⟨?_, hrun⟩
      rw [hc]
      exact Nat.succ_le_succ hle

/-- A part and the part after it. -/
theorem andThen {after? : Nat → Option Nat} (h : MovesBy part c length?)
    (hnext : ∀ n, MovesBy next (c.advance n) (after? n)) :
    MovesBy (do if ← part then next else return false) c
      (length?.bind fun n => (after? n).map (n + ·)) := by
  cases length? with
  | none =>
      obtain ⟨c', hrun⟩ := h
      refine ⟨c', ?_⟩
      show (part c >>= _) = _
      rw [hrun]
      rfl
  | some n =>
      obtain ⟨hle, hrun⟩ := h
      have hseq : (do if ← part then next else return false : Scan Bool) c
          = next (c.advance n) := by
        show (part c >>= _) = _
        rw [hrun]
        rfl
      have hnext := hnext n
      show MovesBy _ c ((after? n).map (n + ·))
      cases hafter : after? n with
      | none =>
          rw [hafter] at hnext
          obtain ⟨c', hrun'⟩ := hnext
          exact ⟨c', hseq.trans hrun'⟩
      | some m =>
          rw [hafter] at hnext
          obtain ⟨hle', hrun'⟩ := hnext
          rw [Cursor.rest_advance, List.length_drop] at hle'
          refine ⟨?_, ?_⟩
          · show n + m ≤ c.rest.length
            omega
          · rw [hseq, hrun', ← Cursor.advance_add]

theorem of_run (h : MovesBy part c length?) (hrun : next c = part c) : MovesBy next c length? := by
  cases length? <;> simpa only [MovesBy, hrun] using h

/-- A part that follows a character. -/
theorem ifEaten {x : Char} {cs : List Char} (hc : c.rest = x :: cs)
    (h : MovesBy part c.step length?) :
    MovesBy (do if ← eat x then part else next) c (length?.map (· + 1)) := by
  refine (step hc h).of_run ?_
  show (eat x c >>= _) = part c.step
  rw [eat, hc, List.head?_cons, if_pos rfl]
  rfl

/-- A part that is begun where the character is not. -/
theorem unlessEaten {x : Char} (hne : c.rest.head? ≠ some x) (h : MovesBy next c length?) :
    MovesBy (do if ← eat x then part else next) c length? := by
  refine h.of_run ?_
  show (eat x c >>= _) = next c
  rw [eat, if_neg hne]
  rfl

end MovesBy

/-! ## Types -/

/-- The length of a class name with the `;` after it.  `named` says whether some of the
name has been passed already. -/
def classNameLength? (named : Bool) (cs : List Char) : Option Nat :=
  let name := spanLength inClassName cs
  if name = 0 ∧ named = false then none
  else if (cs.drop name).head? = some ';' then some (name + 1) else none

theorem classNameLength?_semicolon (named : Bool) (cs : List Char) :
    classNameLength? named (';' :: cs) = (if named then some 0 else none).map (· + 1) := by
  cases named <;> rfl

theorem classNameLength?_blank {x : Char} (hblank : isBlank x = true) (named : Bool)
    (cs : List Char) (hx : x ≠ ';') : classNameLength? named (x :: cs) = none := by
  have hspan : spanLength inClassName (x :: cs) = 0 := by
    simp [spanLength, inClassName, hblank]
  simp [classNameLength?, hspan, hx]

theorem classNameLength?_cons {x : Char} (hx : inClassName x = true) (named : Bool)
    (cs : List Char) :
    classNameLength? named (x :: cs) = (classNameLength? true cs).map (· + 1) := by
  have hspan : spanLength inClassName (x :: cs) = spanLength inClassName cs + 1 := by
    simp [spanLength, hx]
  simp only [classNameLength?, hspan, List.drop_succ_cons]
  split <;> simp_all

/-- A class name goes as far as its characters do. -/
theorem movesBy_className {cs : List Char} {c : Cursor} (named : Bool) (hc : c.rest = cs) :
    MovesBy (passClassName named cs) c (classNameLength? named cs) := by
  induction cs generalizing c named with
  | nil => cases named <;> exact MovesBy.pure_false
  | cons x cs ih =>
      have hrest := Cursor.rest_step_of_cons hc
      by_cases hsemicolon : x = ';'
      · subst hsemicolon
        rw [classNameLength?_semicolon]
        exact .step hc (.pure_ite named)
      by_cases hblank : isBlank x = true
      · rw [classNameLength?_blank hblank named cs hsemicolon, passClassName,
          if_neg hsemicolon, if_pos hblank]
        exact .step hc .pure_false
      · have hin : inClassName x = true := by simp [inClassName, hsemicolon, hblank]
        rw [classNameLength?_cons hin, passClassName, if_neg hsemicolon, if_neg hblank]
        exact .step hc (ih true hrest)

theorem typeLength?_void (voids : Bool) (cs : List Char) :
    typeLength? voids ('V' :: cs) = (if voids then some 0 else none).map (· + 1) := by
  cases voids <;> rfl

theorem typeLength?_class (voids : Bool) (cs : List Char) :
    typeLength? voids ('L' :: cs) = (classNameLength? false cs).map (· + 1) := by
  simp only [typeLength?, classNameLength?]
  split <;> simp_all

theorem typeLength?_letter {x : Char} (voids : Bool) (cs : List Char)
    (hvoid : x ≠ 'V') (harray : x ≠ '[') (hclass : x ≠ 'L') : typeLength? voids (x :: cs)
      = (if (Prim.ofLetter? x).isSome then some 0 else none).map (· + 1) := by
  simp only [typeLength?]
  split <;> rfl

/-- A type goes as far as its length says. -/
theorem movesBy_typeIn {cs : List Char} {c : Cursor} (voids : Bool) (hc : c.rest = cs) :
    MovesBy (passTypeIn voids cs) c (typeLength? voids cs) := by
  induction cs generalizing c voids with
  | nil => exact MovesBy.pure_false
  | cons x cs ih =>
      have hrest := Cursor.rest_step_of_cons hc
      by_cases hvoid : x = 'V'
      · subst hvoid
        rw [typeLength?_void]
        exact .step hc (.pure_ite voids)
      by_cases harray : x = '['
      · subst harray
        exact .step hc (ih false hrest)
      by_cases hclass : x = 'L'
      · subst hclass
        rw [typeLength?_class]
        exact .step hc (movesBy_className false hrest)
      · rw [typeLength?_letter voids cs hvoid harray hclass, passTypeIn, if_neg hvoid,
          if_neg harray, if_neg hclass]
        exact .step hc (.pure_ite _)

theorem movesBy_type (voids : Bool) (c : Cursor) :
    MovesBy (passType voids) c (typeLength? voids c.rest) :=
  movesBy_typeIn voids rfl

/-! ## Descriptors -/

theorem paramsLength?_zero {cs : List Char} (hcs : cs.head? ≠ some ')') :
    paramsLength? 0 cs = none := by
  unfold paramsLength?
  split <;> simp_all

theorem paramsLength?_succ {cs : List Char} (hcs : cs.head? ≠ some ')') (fuel : Nat) :
    paramsLength? (fuel + 1) cs
      = (typeLength? false cs).bind fun n => (paramsLength? fuel (cs.drop n)).map (n + ·) := by
  rw [paramsLength?]
  · cases typeLength? false cs <;> rfl
  · rintro tail rfl
    exact hcs rfl

theorem movesBy_params_close {c : Cursor} (hclose : c.rest.head? = some ')') (fuel : Nat) :
    MovesBy (passParams fuel) c (paramsLength? fuel c.rest) := by
  obtain ⟨cs, hc⟩ := List.head?_eq_some_iff.mp hclose
  rw [hc]
  cases fuel with
  | zero =>
      refine ⟨by rw [hc]; exact Nat.succ_le_succ (Nat.zero_le _), ?_⟩
      rw [passParams, eat, if_pos hclose]
  | succ fuel => exact .ifEaten hc (.pure_ite true)

/-- Parameters go as far as their length says.  The induction is on their greatest number. -/
theorem movesBy_params (fuel : Nat) (c : Cursor) :
    MovesBy (passParams fuel) c (paramsLength? fuel c.rest) := by
  induction fuel generalizing c with
  | zero =>
      by_cases hclose : c.rest.head? = some ')'
      · exact movesBy_params_close hclose 0
      · rw [paramsLength?_zero hclose]
        exact ⟨c, if_neg hclose⟩
  | succ fuel ih =>
      by_cases hclose : c.rest.head? = some ')'
      · exact movesBy_params_close hclose (fuel + 1)
      · rw [paramsLength?_succ hclose]
        refine .unlessEaten hclose (.andThen (movesBy_type false c) fun n => ?_)
        rw [← Cursor.rest_advance]
        exact ih (c.advance n)

theorem descriptorLength?_open (cs : List Char) :
    descriptorLength? ('(' :: cs) = ((paramsLength? cs.length cs).bind fun n =>
      (typeLength? true (cs.drop n)).map (n + ·)).map (· + 1) := by
  rw [descriptorLength?]
  cases paramsLength? cs.length cs with
  | none => rfl
  | some n =>
      show (typeLength? true (cs.drop n)).map (n + 1 + ·)
        = ((typeLength? true (cs.drop n)).map (n + ·)).map (· + 1)
      rw [Option.map_map]
      congr 1
      funext m
      exact Nat.add_right_comm n 1 m

/-- A descriptor goes as far as its length says. -/
theorem movesBy_descriptor (c : Cursor) : MovesBy passDescriptor c (descriptorLength? c.rest) := by
  by_cases hopen : c.rest.head? = some '('
  · obtain ⟨cs, hc⟩ := List.head?_eq_some_iff.mp hopen
    have hrest := Cursor.rest_step_of_cons hc
    have hboth := (movesBy_params cs.length c.step).andThen fun n =>
      movesBy_type true (c.step.advance n)
    simp only [Cursor.rest_advance, hrest] at hboth
    rw [hc, descriptorLength?_open]
    exact .ifEaten hc (hboth.of_run (by rw [← hrest]; rfl))
  · have hfield : descriptorLength? c.rest = typeLength? false c.rest := by
      rw [descriptorLength?]
      intro cs hc
      exact hopen (by rw [hc]; rfl)
    rw [hfield]
    exact .unlessEaten hopen (movesBy_type false c)

/-! ## The way back -/

/-- To move and go back is to measure first and move then. -/
theorem passed?_eq {part : Scan Bool} {length? : List Char → Option Nat}
    (h : ∀ c, MovesBy part c (length? c.rest)) : passed? part = piece? length? := by
  funext c
  have hc := h c
  show (part c >>= _) = (match length? c.rest with
    | some n => (do return some (← take n) : Scan (Option String))
    | none => return none) c
  cases hlength : length? c.rest with
  | none =>
      rw [hlength] at hc
      obtain ⟨c', hrun⟩ := hc
      rw [hrun]
      rfl
  | some n =>
      rw [hlength] at hc
      obtain ⟨hle, hrun⟩ := hc
      have htext : c.textTo (c.advance n) = String.ofList (c.rest.take n) := by
        rw [Cursor.textTo, Cursor.offset_advance, Nat.min_eq_left hle, Nat.add_sub_cancel_left]
      rw [hrun]
      show Except.ok (some (c.textTo (c.advance n)), c.advance n) = _
      rw [htext]
      rfl

theorem descriptor?_eq_piece? : descriptor? = piece? descriptorLength? :=
  passed?_eq movesBy_descriptor

theorem resultType?_eq_piece? : resultType? = piece? (typeLength? true) :=
  passed?_eq (movesBy_type true)

end Scan

end JvmListing
