import SymbolRegex.Text.Quoted
import SymbolRegex.Token.Basic

/-! # Lexical faults

What can be wrong with the characters of a pattern, before its grammar.
-/

namespace SymbolRegex

/-- The causes of a lexical fault. -/
inductive LexCause where
  | unterminated (quote : Char)
  | unrecognized (c : Char)
  | emptyLiteral
  | multiChar (text : String)
  | invalidEscape (c : Char)
deriving DecidableEq, Repr

namespace LexCause

def code : LexCause → Code
  | unterminated _ => .unterminatedQuote
  | unrecognized _ => .unrecognizedChar
  | emptyLiteral => .emptyLiteral
  | multiChar _ => .multiCharLiteral
  | invalidEscape _ => .invalidEscape

def message : LexCause → String
  | unterminated quote => "unterminated literal, missing closing " ++ quote.toString
  | unrecognized c => "unrecognized character " ++ Text.quoteChar c
  | emptyLiteral => "empty quoted literal"
  | multiChar text => "literal '" ++ text ++ "' holds more than one character"
  | invalidEscape c => "invalid escape sequence \\" ++ c.toString

def notes : LexCause → List String
  | emptyLiteral => ["a literal must hold at least one character"]
  | multiChar _ => ["use a string \"...\" to match a sequence of characters"]
  | invalidEscape _ => ["valid escapes are \\\\ \\' \\\" \\n \\t \\r"]
  | _ => []

theorem phase_code (cause : LexCause) : cause.code.phase = .lexical := by
  cases cause <;> rfl

end LexCause

structure LexFault where
  cause : LexCause
  position : Position
deriving DecidableEq, Repr

def LexFault.diagnostic (f : LexFault) : Diagnostic :=
  .errorAt f.position f.cause.code f.cause.message f.cause.notes

end SymbolRegex
