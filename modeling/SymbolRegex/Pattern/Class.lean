import SymbolRegex.Pattern.Basic
import SymbolRegex.Token.Basic

/-! # Predefined classes

Each class letter stands for a set of single ASCII characters, or for the
complement of that set.
-/

namespace SymbolRegex

/-- The characters of the class `s`. -/
def whitespaceChars : List Char := [' ', '\t', '\n', '\r', '\x0B', '\x0C']

def ClassName.items : ClassName → List SetItem
  | digit => [.range "0" "9"]
  | alpha => [.range "a" "z", .range "A" "Z"]
  | whitespace => whitespaceChars.map fun c => .literal c.toString
  | alphanumeric => [.range "a" "z", .range "A" "Z", .range "0" "9"]

def CharClass.leaf (k : CharClass) : Leaf := .set k.negated k.name.items

end SymbolRegex
