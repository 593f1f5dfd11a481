/-! # Diagnostic codes

Every problem has a code. The first digit of its label names the phase that
found it: lexical, grammatical, binding, configuration or internal.
-/

namespace SymbolRegex

/-- The phases of compilation that report problems. -/
inductive Phase where
  | lexical | grammatical | binding | configuration | internal
deriving DecidableEq, Repr

namespace Phase

def name : Phase → String
  | .lexical => "lexical"
  | .grammatical => "syntax"
  | .binding => "bind"
  | .configuration => "configuration"
  | .internal => "internal"

end Phase

inductive Code where
  | unterminatedQuote | unrecognizedChar | emptyLiteral | multiCharLiteral | invalidEscape
  | unexpectedToken | expectedTerm | unclosedDelimiter | invalidBounds | invalidActionPrefix
  | invalidSetMember
  | invertedRange | unregisteredSymbol | duplicateSet | lateRegistration | alphabetFull
  | malformedConfig | missingClasses
  | tooManyErrors
deriving DecidableEq, Repr

namespace Code

/-- Every code, in the order of the labels. -/
def all : List Code :=
  [unterminatedQuote, unrecognizedChar, emptyLiteral, multiCharLiteral, invalidEscape,
    unexpectedToken, expectedTerm, unclosedDelimiter, invalidBounds, invalidActionPrefix,
    invalidSetMember, invertedRange, unregisteredSymbol, duplicateSet, lateRegistration,
    alphabetFull, malformedConfig, missingClasses, tooManyErrors]

theorem mem_all (code : Code) : code ∈ all := by cases code <;> decide

def label : Code → String
  | unterminatedQuote => "E0001"
  | unrecognizedChar => "E0002"
  | emptyLiteral => "E0003"
  | multiCharLiteral => "E0004"
  | invalidEscape => "E0005"
  | unexpectedToken => "E1001"
  | expectedTerm => "E1002"
  | unclosedDelimiter => "E1003"
  | invalidBounds => "E1004"
  | invalidActionPrefix => "E1005"
  | invalidSetMember => "E1006"
  | invertedRange => "E2001"
  | unregisteredSymbol => "E2002"
  | duplicateSet => "E2003"
  | lateRegistration => "E2004"
  | alphabetFull => "E2005"
  | malformedConfig => "E3001"
  | missingClasses => "E3002"
  | tooManyErrors => "E9001"

def description : Code → String
  | unterminatedQuote => "unterminated quoted literal or string"
  | unrecognizedChar => "unrecognized character"
  | emptyLiteral => "empty quoted literal"
  | multiCharLiteral => "char-mode literal holds more than one character"
  | invalidEscape => "invalid escape sequence"
  | unexpectedToken => "unexpected token"
  | expectedTerm => "expected a term"
  | unclosedDelimiter => "unclosed delimiter"
  | invalidBounds => "invalid repetition bounds"
  | invalidActionPrefix => "invalid action prefix"
  | invalidSetMember => "invalid set member"
  | invertedRange => "literal range high bound must exceed its low bound"
  | unregisteredSymbol => "symbol was never registered"
  | duplicateSet => "duplicate literal set name"
  | lateRegistration => "pattern added after the engine was bound"
  | alphabetFull => "symbol alphabet exhausted"
  | malformedConfig => "malformed configuration"
  | missingClasses => "class list does not cover every action"
  | tooManyErrors => "too many errors"

def phase : Code → Phase
  | unterminatedQuote | unrecognizedChar | emptyLiteral | multiCharLiteral | invalidEscape =>
    .lexical
  | unexpectedToken | expectedTerm | unclosedDelimiter | invalidBounds | invalidActionPrefix
  | invalidSetMember => .grammatical
  | invertedRange | unregisteredSymbol | duplicateSet | lateRegistration | alphabetFull =>
    .binding
  | malformedConfig | missingClasses => .configuration
  | tooManyErrors => .internal

/-- The code with a label, which may be written in either case. -/
def ofLabel? (text : String) : Option Code :=
  all.find? fun code => code.label = text.map Char.toUpper

theorem ofLabel?_label (code : Code) : ofLabel? code.label = some code := by
  cases code <;> decide +kernel

end Code
end SymbolRegex
