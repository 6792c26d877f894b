/-
# String literals are read exactly

What `quote` writes for a text is read as that text, and the cursor is then at the first
character after the closing quote, whatever the text is and whatever follows.  A literal
has no control character, so it stays on its line and the cursor moves by columns only.
-/
import JvmListing.Proofs.Scans

namespace JvmListing

/-! ## Literals are on one line -/

theorem isControl_digitChar {n : Nat} (h : n < 16) : isControl n.digitChar = false := by
  revert n
  decide

theorem isControl_of_mem_fourHexDigits {n : Nat} {x : Char} (hx : x ∈ fourHexDigits n) :
    isControl x = false := by
  simp only [fourHexDigits, List.mem_cons, List.not_mem_nil, or_false] at hx
  rcases hx with rfl | rfl | rfl | rfl <;> exact isControl_digitChar (Nat.mod_lt _ (by decide))

/-- A control character is not written as itself. -/
theorem isControl_of_mem_quoteChar {c x : Char} (hx : x ∈ quoteChar c) : isControl x = false := by
  -- the escapes with a letter are two characters each, the same for all texts
  have hescape : ∀ e, isControl e = false → x ∈ ['\\', e] → isControl x = false := by
    intro e he hx
    rcases List.mem_cons.mp hx with rfl | hx
    · decide
    · rw [List.mem_singleton.mp hx, he]
  unfold quoteChar at hx
  iterate 7
    split at hx
    · exact hescape _ (by decide) hx
  split at hx
  · rcases List.mem_cons.mp hx with rfl | hx
    · decide
    rcases List.mem_cons.mp hx with rfl | hx
    · decide
    exact isControl_of_mem_fourHexDigits hx
  · rename_i hplain
    rw [List.mem_singleton.mp hx]
    simpa using hplain

theorem isControl_of_mem_quote {s : String} {x : Char} (hx : x ∈ (quote s).toList) :
    isControl x = false := by
  rw [quote, String.toList_ofList] at hx
  rcases List.mem_append.mp hx with hx | hx
  · rcases List.mem_cons.mp hx with rfl | hx
    · decide
    · obtain ⟨c, -, hc⟩ := List.mem_flatMap.mp hx
      exact isControl_of_mem_quoteChar hc
  · rw [List.mem_singleton.mp hx]
    decide

theorem newline_not_mem_quote (s : String) : '\n' ∉ (quote s).toList := by
  intro hx
  cases isControl_of_mem_quote hx

/-- A cursor moves over characters of its line by columns. -/
theorem Cursor.advance_of_line {rest : List Char} : ∀ {w : List Char}, '\n' ∉ w →
    ∀ offset line column : Nat, (⟨w ++ rest, offset, line, column⟩ : Cursor).advance w.length =
      ⟨rest, offset + w.length, line, column + w.length⟩
  | [], _, _, _, _ => rfl
  | x :: w, hw, offset, line, column => by
      have hx : x ≠ '\n' := fun h => hw (h ▸ List.mem_cons_self)
      have hrest : '\n' ∉ w := fun h => hw (List.mem_cons_of_mem _ h)
      have hstep : (⟨x :: w ++ rest, offset, line, column⟩ : Cursor).step =
          ⟨w ++ rest, offset + 1, line, column + 1⟩ := if_neg hx
      rw [List.length_cons, Cursor.advance, hstep, Cursor.advance_of_line hrest,
        Nat.add_assoc offset, Nat.add_assoc column, Nat.add_comm 1]

/-! ## Literals are read back -/

namespace Scan

/-- A string literal is read as the text it was written for, up to and including its
closing quote, and nothing of what follows. -/
theorem stringLiteral_quote (v : String) (rest : List Char) (offset line column : Nat) :
    stringLiteral ⟨(quote v).toList ++ rest, offset, line, column⟩ =
      .ok (v, ⟨rest, offset + (quote v).length, line, column + (quote v).length⟩) := by
  rw [stringLiteral, quoted, Lexeme.readString_quote, ← String.length_toList,
    ← Cursor.advance_of_line (newline_not_mem_quote v)]

-- Quotes, a control character, one beyond four digits, and a rest that begins like an escape.
example : stringLiteral (.start (quote "\"\x07\\😀" ++ "\\\"")) =
    .ok ("\"\x07\\😀", ⟨['\\', '"'], 13, 1, 14⟩) := by decide +kernel

end Scan

end JvmListing
