import SymbolRegex.Pattern.Basic

/-! # Writing patterns

A pattern is written in the form in which it can be read over symbols: every
literal in single quotes, actions by their index, and parentheses wherever a
repetition, an action or a sequence would otherwise take its part apart.
-/

namespace SymbolRegex

def writeLiteralChar : Char → String
  | '\'' => "\\'"
  | '\\' => "\\\\"
  | '\n' => "\\n"
  | '\t' => "\\t"
  | '\r' => "\\r"
  | c => c.toString

def writeLiteral (text : String) : String :=
  "'" ++ String.join (text.toList.map writeLiteralChar) ++ "'"

/-- A range, with its ends as literals. -/
def writeRange (low high : String) : String := writeLiteral low ++ "-" ++ writeLiteral high

def SetItem.write : SetItem → String
  | .literal text => writeLiteral text
  | .range low high => writeRange low high

def Leaf.write : Leaf → String
  | .literal text => writeLiteral text
  | .range low high => writeRange low high
  | .set negated items =>
    "[" ++ (if negated then "^" else "") ++ " ".intercalate (items.map SetItem.write) ++ "]"
  | .any => "."

/-- The bounds of a counted repetition, written once if they agree. -/
def writeBounds (min max : Nat) : String :=
  "\x7b" ++ (if min = max then toString min else s!"{min},{max}") ++ "\x7d"

namespace Pattern

variable {α : Type}

def enclose (wanted : Bool) (text : String) : String :=
  if wanted then "(" ++ text ++ ")" else text

def isLeaf : Pattern α → Bool
  | leaf _ => true
  | _ => false

/-- Lists of patterns need parentheses inside a sequence. -/
def isList : Pattern α → Bool
  | sequence _ | choice _ => true
  | _ => false

mutual

def write : TextPattern → String
  | leaf a => a.write
  | sequence ps => " ".intercalate (writeItems ps)
  | choice ps => " | ".intercalate (writeBranches ps)
  | optional p => enclose (!p.isLeaf) (write p) ++ "?"
  | counted p min max => enclose (!p.isLeaf) (write p) ++ writeBounds min max
  | oneOrMore p => enclose (!p.isLeaf) (write p) ++ "+"
  | zeroOrMore p => enclose (!p.isLeaf) (write p) ++ "*"
  | action i p => toString i ++ "=" ++ enclose (!p.isLeaf) (write p)

def writeItems : List TextPattern → List String
  | [] => []
  | p :: ps => enclose p.isList (write p) :: writeItems ps

def writeBranches : List TextPattern → List String
  | [] => []
  | p :: ps => write p :: writeBranches ps

end

end Pattern
end SymbolRegex
