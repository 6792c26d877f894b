/-
# Operands

The operands of every instruction in both dialects.  Most are single words and
read alike; calls of bootstrap methods and switches are spelled in two ways.
-/
import JvmListing.Reading.Argument

namespace JvmListing

namespace Scan

/-- Is the owner of a called method an interface?  The word `itf` says so for the
opcodes that do not say it themselves. -/
def interfaceOwner (op : Opcode) : Scan Bool := do
  let mark ← get
  skipBlanks
  if ← eatKeyword "itf" then return true
  set mark
  return op == .invokeinterface

/-- The keyword and the bracket that open a group. -/
def openGroup (keyword : String) : Scan Unit := do
  skipTrivia
  expectKeyword keyword (keyword ++ "(...)")
  expect '('

/-! ## Bootstrap calls -/

/-- The handle and the arguments of a bootstrap method. -/
def bootstrap : Dialect → Scan (RawHandle × List RawConst)
  | .keyword => do
    skipTrivia
    let h ← bracketedHandle
    skipTrivia
    expectKeyword "args" "args(...)"
    expect '('
    return (h, ← delimited ')' keywordConst)
  | .directive => do
    skipTrivia
    expectKeyword "handle" "bootstrap handle"
    let h ← handleBody
    skipTrivia
    expectKeyword "args" "bootstrap args"
    return (h, ← upToEnd directiveConst)

/-! ## Switches -/

/-- `default(label)`. -/
def defaultGroup : Scan String := do
  openGroup "default"
  let label ← labelRef
  skipTrivia
  expect ')'
  return label

/-- One target of a table switch, or nothing after the word `default`. -/
def tableTarget? : Scan (Option String) := do
  let label ← requiredWord "switch label"
  return if sameFolded label "default" then none else some label

def tableSwitch : Dialect → Scan Operands
  | .keyword => do
    openGroup "range"
    let min ← literal
    skipTrivia
    expect ':'
    let max ← literal
    skipTrivia
    expect ')'
    openGroup "offsets"
    let labels ← delimited ')' labelRef
    return .tableSwitch min max labels (← defaultGroup)
  | .directive => do
    let min ← literal
    let max ← literal
    let labels ← collect tableTarget?
    return .tableSwitch min max labels (← requiredWord "default label")

/-- `key=label`. -/
def keywordCase : Scan (Located RawLiteral × String) := do
  let key ← literal
  skipTrivia
  expect '='
  return (key, ← labelRef)

/-- `case key label`, or nothing after the word `default`. -/
def directiveCase? : Scan (Option (Located RawLiteral × String)) := do
  let head ← requiredWord "case or default"
  if sameFolded head "default" then return none
  if !sameFolded head "case" then fail (.caseExpected head)
  let key ← literal
  return some (key, ← requiredWord "case label")

def lookupSwitch : Dialect → Scan Operands
  | .keyword => do
    openGroup "mapping"
    let cases ← delimited ')' keywordCase
    return .lookupSwitch cases (← defaultGroup)
  | .directive => do
    let cases ← collect directiveCase?
    return .lookupSwitch cases (← requiredWord "default label")

/-! ## All operands -/

/-- The operands of an instruction. -/
def operands (d : Dialect) (op : Opcode) : Scan Operands := do
  match op.shape with
  | .none => return .none
  | .int => return .int (← literal)
  | .newArray =>
    skipTrivia
    let mark ← get
    let type ← requiredWord "array type"
    return .newArray ⟨type, ← since mark⟩
  | .var => return .var (← requiredWord "variable name")
  | .type => return .type (← requiredWord "type")
  | .field =>
    let found ← member
    return .field found (← memberDesc)
  | .method =>
    let found ← member
    let desc ← memberDesc
    return .method found desc (← interfaceOwner op)
  | .invokeDynamic =>
    let name ← requiredWord "name"
    let desc ← memberDesc
    let (h, args) ← bootstrap d
    return .invokeDynamic name desc h args
  | .jump => return .jump (← requiredWord "jump label")
  | .ldc => return .ldc (← constant d)
  | .iinc =>
    let name ← requiredWord "variable name"
    return .iinc name (← literal)
  | .multiArray =>
    let desc ← requiredWord "array descriptor"
    return .multiArray desc (← literal)
  | .tableSwitch => tableSwitch d
  | .lookupSwitch => lookupSwitch d

end Scan

end JvmListing
