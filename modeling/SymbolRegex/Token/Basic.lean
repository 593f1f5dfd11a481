import SymbolRegex.Diagnostic.Basic

/-! # Tokens

Patterns are written with punctuation, predefined classes of one letter, quoted
literals, strings and integers. A pattern is read over characters or over named
symbols; both kinds of pattern share their tokens.
-/

namespace SymbolRegex

/-- What a pattern is written over: single characters or named symbols. -/
inductive Mode where
  | char | symbol
deriving DecidableEq, Repr

def Mode.name : Mode → String
  | .char => "char"
  | .symbol => "symbol"

inductive Punctuation where
  | leftParen | rightParen | leftBracket | rightBracket | leftBrace | rightBrace
  | caret | dash | dot | question | bar | star | plus | comma | equals
deriving DecidableEq, Repr

namespace Punctuation

def char : Punctuation → Char
  | leftParen => '('
  | rightParen => ')'
  | leftBracket => '['
  | rightBracket => ']'
  | leftBrace => '\x7b'
  | rightBrace => '\x7d'
  | caret => '^'
  | dash => '-'
  | dot => '.'
  | question => '?'
  | bar => '|'
  | star => '*'
  | plus => '+'
  | comma => ','
  | equals => '='

def all : List Punctuation :=
  [leftParen, rightParen, leftBracket, rightBracket, leftBrace, rightBrace,
    caret, dash, dot, question, bar, star, plus, comma, equals]

def ofChar? (c : Char) : Option Punctuation := all.find? fun p => p.char = c

@[simp] theorem ofChar?_char (p : Punctuation) : ofChar? p.char = some p := by
  cases p <;> rfl

theorem ofChar?_eq_some_iff {c : Char} {p : Punctuation} : ofChar? c = some p ↔ p.char = c := by
  constructor
  · intro h; simpa using List.find?_some h
  · rintro rfl; exact ofChar?_char p

end Punctuation

inductive ClassName where
  | digit | alpha | whitespace | alphanumeric
deriving DecidableEq, Repr

/-- A predefined class, which is a group of characters or all others. -/
structure CharClass where
  name : ClassName
  negated : Bool
deriving DecidableEq, Repr

namespace CharClass

/-- Negated classes are written in upper case. -/
def letter : CharClass → Char
  | ⟨.digit, false⟩ => 'd'
  | ⟨.digit, true⟩ => 'D'
  | ⟨.alpha, false⟩ => 'a'
  | ⟨.alpha, true⟩ => 'A'
  | ⟨.whitespace, false⟩ => 's'
  | ⟨.whitespace, true⟩ => 'S'
  | ⟨.alphanumeric, false⟩ => 'w'
  | ⟨.alphanumeric, true⟩ => 'W'

def all : List CharClass :=
  [⟨.digit, false⟩, ⟨.digit, true⟩, ⟨.alpha, false⟩, ⟨.alpha, true⟩, ⟨.whitespace, false⟩,
    ⟨.whitespace, true⟩, ⟨.alphanumeric, false⟩, ⟨.alphanumeric, true⟩]

def ofLetter? (c : Char) : Option CharClass := all.find? fun k => k.letter = c

@[simp] theorem ofLetter?_letter (k : CharClass) : ofLetter? k.letter = some k := by
  rcases k with ⟨n, b⟩; cases n <;> cases b <;> rfl

end CharClass

inductive TokenKind where
  | eof
  /-- Stands where the source could not be read; its problem is reported on its own. -/
  | error
  | literal | string | integer
  | punct (p : Punctuation)
  | charClass (k : CharClass)
deriving DecidableEq, Repr

namespace TokenKind

/-- How messages speak of a token of this kind. -/
def describe : TokenKind → String
  | eof => "end of pattern"
  | error => "invalid token"
  | literal => "literal"
  | string => "string"
  | integer => "integer"
  | punct p => "`" ++ p.char.toString ++ "`"
  | charClass k => "class `" ++ k.letter.toString ++ "`"

end TokenKind

/-- A token. Literals and strings have their content as text, all others their source slice. -/
structure Token where
  kind : TokenKind
  text : String
  position : Position
deriving DecidableEq, Repr

def Token.eof (position : Position) : Token := ⟨.eof, "", position⟩

end SymbolRegex
