import SymbolRegex.Text.Alphanumeric
import SymbolRegex.Text.Blank
import SymbolRegex.Token.Basic

/-! # Lexemes

A source is cut into lexemes before anything in it is given a meaning: single
punctuation characters, words, quoted runs and stray characters, with blank
characters between them. Every lexeme keeps its source slice and the position of
its first character.
-/

namespace SymbolRegex

inductive Shape where
  | punct (p : Punctuation)
  /-- A word of ASCII digits. -/
  | digits
  | word
  /-- A run between single quotes. -/
  | quoted
  /-- A run between double quotes. -/
  | string
  /-- A run whose line or source ends before its closing quote. -/
  | unterminated
  /-- A character that starts no lexeme of another shape. -/
  | stray
deriving DecidableEq, Repr

structure Lexeme where
  shape : Shape
  slice : List Char
  position : Position
deriving DecidableEq, Repr

namespace Lexeme

def isWordChar (c : Char) : Bool := Text.isAlphanumeric c || c = '_'

/-- How many characters after an opening quote belong to its run, and whether the run is closed.
A backslash takes the next character with it. -/
def quotedRun (quote : Char) : List Char → Nat × Bool
  | [] => (0, false)
  | ['\\'] => (1, false)
  | '\\' :: _ :: rest => let (n, closed) := quotedRun quote rest; (n + 2, closed)
  | c :: rest =>
    if c = '\n' then (0, false)
    else if c = quote then (1, true)
    else let (n, closed) := quotedRun quote rest; (n + 1, closed)

def wordShape (word : List Char) : Shape := if word.all Char.isDigit then .digits else .word

/-- The shape of the lexeme that starts with `c`, and how many of the characters in `rest`
belong to it. -/
def measure (c : Char) (rest : List Char) : Shape × Nat :=
  if c = '\'' ∨ c = '"' then
    let (n, closed) := quotedRun c rest
    (if !closed then .unterminated else if c = '"' then .string else .quoted, n)
  else match Punctuation.ofChar? c with
    | some p => (.punct p, 0)
    | none =>
      if isWordChar c then
        let more := rest.takeWhile isWordChar
        (wordShape (c :: more), more.length)
      else (.stray, 0)

def scan (p : Position) : List Char → List Lexeme
  | [] => []
  | c :: rest =>
    if Text.isBlank c then scan (p.next c) rest
    else
      let (shape, n) := measure c rest
      let slice := c :: rest.take n
      ⟨shape, slice, p⟩ :: scan (p.after slice) (rest.drop n)
termination_by cs => cs.length

/-- What a quoted run holds between its quotes. -/
def content (l : Lexeme) : List Char := l.slice.tail.dropLast

end Lexeme
end SymbolRegex
