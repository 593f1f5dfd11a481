import SymbolRegex.Token.Basic

/-! # Grammatical faults

What can be wrong with the tokens of a pattern. A fault at an `error` token says
nothing of its own, since the lexical fault behind it is reported already.
-/

namespace SymbolRegex

inductive ParseCause where
  | unexpected (found : TokenKind) (expected : String)
  | expectedTerm (found : TokenKind)
  | emptyString
  | unclosed (opening : TokenKind) (opened : Position)
  | invalidBounds (reason : String)
  | invalidActionPrefix (reason : String)
  | invalidSetMember (reason : String)
  | lexical
deriving DecidableEq, Repr

structure ParseFault where
  cause : ParseCause
  position : Position
deriving DecidableEq, Repr

namespace ParseFault

/-- The diagnostic of a fault, unless it is lexical. -/
def diagnostic? (f : ParseFault) : Option Diagnostic :=
  let report (code : Code) (message : String) (notes : List String) :=
    some (Diagnostic.errorAt f.position code message notes)
  match f.cause with
  | .unexpected found expected =>
    report .unexpectedToken ("unexpected " ++ found.describe ++ ", expected " ++ expected) []
  | .expectedTerm found => report .expectedTerm ("expected a term, found " ++ found.describe) []
  | .emptyString =>
    report .expectedTerm "empty string" ["a string must hold at least one character"]
  | .unclosed opening opened =>
    report .unclosedDelimiter ("unclosed " ++ opening.describe)
      [s!"opened at {opened.line}:{opened.column}"]
  | .invalidBounds reason => report .invalidBounds ("invalid repetition bounds: " ++ reason) []
  | .invalidActionPrefix reason =>
    report .invalidActionPrefix ("invalid action prefix: " ++ reason) []
  | .invalidSetMember reason => report .invalidSetMember ("invalid set member: " ++ reason) []
  | .lexical => none

theorem diagnostic?_eq_none_iff {f : ParseFault} : f.diagnostic? = none ↔ f.cause = .lexical := by
  rcases f with ⟨cause, position⟩; cases cause <;> simp [diagnostic?]

end ParseFault
end SymbolRegex
