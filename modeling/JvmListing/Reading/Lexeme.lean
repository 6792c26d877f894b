/-
# Lexemes

The smallest pieces of a listing, as classes of text.  A class is given by the
length of the piece at the front of a text, so reading a piece is moving a cursor
by that length.  A listing has no fixed set of tokens, because descriptors hold
the brackets and separators of the rest; each construct asks for the piece it
expects next.  Descriptors have no length here: their scan finds their end by moving.
-/
import JvmListing.Text.Blank
import JvmListing.Text.LetterCase
import JvmListing.Text.Quoted
import JvmListing.Reading.Fault

namespace JvmListing

namespace Lexeme

/-- The length of the characters in front that satisfy `p`. -/
def spanLength (p : Char → Bool) (cs : List Char) : Nat := (cs.takeWhile p).length

def blanksLength (cs : List Char) : Nat := spanLength isBlank cs

/-- The length of a word, which ends before a blank or a character of `stop`. -/
def wordLength (stop : Char → Bool) (cs : List Char) : Nat :=
  spanLength (fun c => !isBlank c && !stop c) cs

/-! ## Comments -/

/-- The length up to and including `*/`, or of the whole text without one. -/
def blockLength : List Char → Nat
  | [] => 0
  | '*' :: '/' :: _ => 2
  | _ :: cs => blockLength cs + 1

/-- The length of a comment, its markers included. -/
def commentLength? : List Char → Option Nat
  | '/' :: '/' :: cs => some (2 + spanLength (· ≠ '\n') cs)
  | '/' :: '*' :: cs => some (2 + blockLength cs)
  | _ => none

/-- The length of blanks and comments, of which there are at most `fuel`. -/
def triviaLengthIn : Nat → List Char → Nat
  | 0, cs => blanksLength cs
  | fuel + 1, cs =>
    let blanks := blanksLength cs
    match commentLength? (cs.drop blanks) with
    | none => blanks
    | some comment => blanks + comment + triviaLengthIn fuel (cs.drop (blanks + comment))

/-- The length of the blanks and comments in front. -/
def triviaLength (cs : List Char) : Nat := triviaLengthIn cs.length cs

/-! ## Text up to a word -/

/-- For a text in which a word stands alone, in any case: the length before the
word and the length including it.  At most `fuel` words are looked at. -/
def upToWord? (word : String) : Nat → List Char → Option (Nat × Nat)
  | 0, _ => none
  | fuel + 1, cs =>
    let blanks := blanksLength cs
    let rest := cs.drop blanks
    if rest.isEmpty then none
    else
      let length := wordLength (fun _ => false) rest
      if sameFolded (String.ofList (rest.take length)) word then some (blanks, blanks + length)
      else
        (upToWord? word fuel (rest.drop length)).map fun (before, through) =>
          (blanks + length + before, blanks + length + through)

/-! ## Quoted literals

The readers below give what was read with its length, or a fault with the length
that was read when it showed. -/

/-- What a letter stands for after a backslash. -/
def escaped? : Char → Option Char
  | 'n' => some '\n'
  | 't' => some '\t'
  | 'r' => some '\r'
  | 'b' => some '\x08'
  | 'f' => some '\x0c'
  | '0' => some '\x00'
  | '"' => some '"'
  | '\'' => some '\''
  | '\\' => some '\\'
  | _ => none

/-- The character with a code, if the code is one. -/
def charOfCode? (code : Nat) : Option Char :=
  if h : code.isValidChar then some (Char.ofNatAux code h) else none

/-- The four hexadecimal digits of a character code. -/
def readUnicode (cs : List Char) : Except (Fault × Nat) (Char × Nat) :=
  let digits := spanLength (fun c => (hexValue? c).isSome) (cs.take 4)
  if digits < 4 then .error (.invalidUnicodeEscape, min (digits + 1) cs.length)
  else
    match (foldDigits 16 hexValue? 0 (cs.take 4)).bind charOfCode? with
    | some c => .ok (c, 4)
    | none => .error (.invalidUnicodeEscape, 4)

/-- What follows a backslash. -/
def readEscape : List Char → Except (Fault × Nat) (Char × Nat)
  | [] => .error (.invalidEscape, 0)
  | 'u' :: cs =>
    match readUnicode cs with
    | .ok (c, n) => .ok (c, n + 1)
    | .error (fault, n) => .error (fault, n + 1)
  | c :: _ =>
    match escaped? c with
    | some x => .ok (x, 1)
    | none => .error (.invalidEscape, 1)

/-- The characters of a string literal after its opening quote, at most `fuel` of them. -/
def readStringBody : Nat → List Char → Except (Fault × Nat) (List Char × Nat)
  | _, [] => .error (.unterminatedString, 0)
  | _, '"' :: _ => .ok ([], 1)
  | 0, _ => .error (.unterminatedString, 0)
  | fuel + 1, '\\' :: cs =>
    match readEscape cs with
    | .error (fault, n) => .error (fault, n + 1)
    | .ok (c, n) =>
      match readStringBody fuel (cs.drop n) with
      | .error (fault, m) => .error (fault, n + 1 + m)
      | .ok (text, m) => .ok (c :: text, n + 1 + m)
  | fuel + 1, c :: cs =>
    match readStringBody fuel cs with
    | .error (fault, m) => .error (fault, m + 1)
    | .ok (text, m) => .ok (c :: text, m + 1)

/-- A string literal. -/
def readString : List Char → Except (Fault × Nat) (String × Nat)
  | '"' :: cs =>
    match readStringBody cs.length cs with
    | .ok (text, n) => .ok (String.ofList text, n + 1)
    | .error (fault, n) => .error (fault, n + 1)
  | _ => .error (.expectedChar '"', 0)

/-- The one character of a character literal after its opening quote. -/
def readCharBody : List Char → Except (Fault × Nat) (Char × Nat)
  | [] => .error (.unterminatedChar, 0)
  | '\\' :: cs =>
    match readEscape cs with
    | .ok (c, n) => .ok (c, n + 1)
    | .error (fault, n) => .error (fault, n + 1)
  | c :: _ => .ok (c, 1)

/-- A character literal. -/
def readChar : List Char → Except (Fault × Nat) (Char × Nat)
  | '\'' :: cs =>
    match readCharBody cs with
    | .error (fault, n) => .error (fault, n + 1)
    | .ok (c, n) =>
      if (cs.drop n).head? = some '\'' then .ok (c, n + 2) else .error (.unclosedChar, n + 1)
  | _ => .error (.expectedChar '\'', 0)

end Lexeme

end JvmListing
