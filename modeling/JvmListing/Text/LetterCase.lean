/-
# Letter case

Keywords, mnemonics and modifiers are recognised in any mixture of cases.  Only
the ASCII letters fold; every other character stands for itself.
-/

namespace JvmListing

/-- Text with its ASCII letters in lower case. -/
def lowerCase (s : String) : String := String.ofList (s.toList.map Char.toLower)

/-- Text with its ASCII letters in upper case. -/
def upperCase (s : String) : String := String.ofList (s.toList.map Char.toUpper)

/-- Do the texts agree up to the case of ASCII letters? -/
def sameFolded (a b : String) : Bool := a.toList.map Char.toLower == b.toList.map Char.toLower

theorem sameFolded_self (a : String) : sameFolded a a = true := by simp [sameFolded]

end JvmListing
