/-
# Arguments

Constants and annotations in both dialects.  The keyword dialect brackets its
parts, the directive dialect opens them with a word and closes lists with `end`.

Annotations hold arguments, which hold annotations and lists.  Reading them goes
down by a number of levels that is at least the length of the text, and every
level takes a character, so it never runs out.
-/
import JvmListing.Reading.Part

namespace JvmListing

namespace Scan

/-- Does a word begin with a keyword, in any case, and `(`? -/
def opensGroup (word keyword : String) : Bool :=
  (keyword ++ "(").toList.isPrefixOf (lowerCase word).toList

/-- Moves over the `end` that closes a list, if it is next.  The text may not end before it. -/
def eatEnd : Scan Bool := do
  skipTrivia
  if ← atEnd then fail (.unclosed "end")
  eatKeyword "end"

/-- Items up to a closing `end`. -/
def upToEnd {α : Type} (item : Scan α) : Scan (List α) :=
  collect do
    if ← eatEnd then return none
    return some (← item)

/-! ## Constants -/

/-- `handle(…)`. -/
def bracketedHandle : Scan RawHandle := do
  expectKeyword "handle" "handle(...)"
  expect '('
  let h ← handleBody
  skipTrivia
  expect ')'
  return h

/-- A constant of the keyword dialect. -/
def keywordConst : Scan RawConst := do
  if ← atLiteral then return .literal (← literal)
  if opensGroup (← peekWord) "handle" then return .handle (← bracketedHandle)
  return .type (← typeConstant)

/-- A constant of the directive dialect. -/
def directiveConst : Scan RawConst := do
  if ← atLiteral then return .literal (← literal)
  let mark ← get
  let head ← word
  match lowerCase head with
  | "type" => return .type (← typeConstant)
  | "handle" => return .handle (← handleBody)
  | _ => failSince mark (.constantExpected head)

/-- The operand of `ldc` or an argument of a bootstrap method. -/
def constant : Dialect → Scan RawConst
  | .keyword => keywordConst
  | .directive => directiveConst

/-! ## Annotations -/

/-- The name before an argument and its `=`. -/
def argName? : Scan (Option String) := do
  let mark ← get
  let name ← upTo fun c =>
    c = '=' || c = ',' || c = ')' || c = '(' || c = '"' || c = '\'' || c = '['
  skipBlanks
  if !name.isEmpty then
    if ← eat '=' then return some name
  set mark
  return none

/-- `type(name=arg, …)`, where `arg` reads an argument. -/
def keywordAnnot (visible : Bool) (arg : Scan RawAnnotArg) : Scan RawAnnot := do
  let mark ← get
  let type ← requiredUpTo (· = '(') "annotation type"
  expect '('
  let args ← delimited ')' do
    if ← atEnd then failSince mark .unterminatedAnnot
    let name ← argName?
    return (name, ← arg)
  return .mk visible type args (← since mark)

/-- `type name arg … end`, where `arg` reads an argument. -/
def directiveAnnot (visible : Bool) (arg : Scan RawAnnotArg) : Scan RawAnnot := do
  let mark ← get
  let type ← requiredWord "annotation type"
  let args ← upToEnd do
    let name ← word
    return (some name, ← arg)
  return .mk visible type args (← since mark)

/-- `enum(type name)`. -/
def keywordEnum : Scan RawAnnotArg := do
  let _ ← eatKeyword "enum"
  expect '('
  let type ← requiredWord "enum type"
  skipTrivia
  let name ← requiredUpTo (· = ')') "enum constant name"
  expect ')'
  return .enum type name

/-- An argument of the keyword dialect that nests at most so deep. -/
def keywordAnnotArg (visible : Bool) : Nat → Scan RawAnnotArg
  | 0 => fail .unterminatedAnnotList
  | depth + 1 => do
    skipTrivia
    if ← eat '[' then
      let args ← delimited ']' do
        if ← atEnd then fail .unterminatedAnnotList
        keywordAnnotArg visible depth
      return .list args
    if ← atLiteral then return .const (.literal (← literal))
    let head ← peekWord
    if opensGroup head "handle" then return .const (.handle (← bracketedHandle))
    if opensGroup head "enum" then return ← keywordEnum
    if opensGroup head "annotation" then
      let _ ← eatKeyword "annotation"
      expect '('
      skipTrivia
      let nested ← keywordAnnot visible (keywordAnnotArg visible depth)
      skipTrivia
      expect ')'
      return .annot nested
    return .const (.type (← typeConstant))

/-- An argument of the directive dialect that nests at most so deep. -/
def directiveAnnotArg (visible : Bool) : Nat → Scan RawAnnotArg
  | 0 => fail .unterminatedAnnotList
  | depth + 1 => do
    if ← atLiteral then return .const (.literal (← literal))
    let mark ← get
    let head ← word
    match lowerCase head with
    | "type" => return .const (.type (← typeConstant))
    | "handle" => return .const (.handle (← handleBody))
    | "annotation-enum" =>
      let type ← requiredWord "enum type"
      let name ← requiredWord "enum constant name"
      return .enum type name
    | "annotation" => return .annot (← directiveAnnot visible (directiveAnnotArg visible depth))
    | "args" => return .list (← upToEnd (directiveAnnotArg visible depth))
    | _ => failSince mark (.unknownAnnotArg head)

/-- The type and the arguments of an annotation. -/
def annot (d : Dialect) (visible : Bool) : Scan RawAnnot := do
  let depth := (← get).rest.length + 1
  match d with
  | .keyword =>
    skipTrivia
    keywordAnnot visible (keywordAnnotArg visible depth)
  | .directive => directiveAnnot visible (directiveAnnotArg visible depth)

end Scan

end JvmListing
