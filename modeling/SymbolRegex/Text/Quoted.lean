import SymbolRegex.Text.Unshown

/-! # Quoted text

Text is shown between quotes on one line, so that every character can be told
from its neighbours. Tab, line feed, carriage return, NUL, the backslash and the
surrounding quote have short escapes; a character without a visible form of its
own is written as its code point in lower-case hexadecimal.
-/

namespace SymbolRegex.Text

/-- The code point of `c` between braces, after a backslash and the letter `u`. -/
def codePointEscape (c : Char) : String :=
  "\\u\x7b" ++ String.ofList (Nat.toDigits 16 c.toNat) ++ "\x7d"

/-- How `c` is written between two copies of `quote`. -/
def showChar (quote c : Char) : String :=
  if c.toNat = 0 then "\\0"
  else if c = '\t' then "\\t"
  else if c = '\n' then "\\n"
  else if c = '\r' then "\\r"
  else if c = '\\' then "\\\\"
  else if c = quote then String.ofList ['\\', quote]
  else if isUnshown c then codePointEscape c
  else c.toString

def quoteChar (c : Char) : String := "'" ++ showChar '\'' c ++ "'"

def quoteText (text : String) : String :=
  "\"" ++ String.join (text.toList.map (showChar '"')) ++ "\""

end SymbolRegex.Text
