import SymbolRegex.Token.Escape
import SymbolRegex.Token.Fault
import SymbolRegex.Token.Lexeme

/-! # Token streams

Each lexeme becomes one token, except that words over characters are taken apart
into classes and digit runs. A fault leaves an `error` token in its place; it is
reported when the first token of its lexeme is taken from the stream.
-/

namespace SymbolRegex

/-- A token and the faults that come to light when it is taken. -/
structure Lexed where
  token : Token
  faults : List LexFault := []
deriving DecidableEq, Repr

namespace Lexed

def ofFault (cause : LexCause) (slice : List Char) (position : Position) : Lexed :=
  ⟨⟨.error, String.ofList slice, position⟩, [⟨cause, position⟩]⟩

end Lexed

namespace Lexeme

def asSlice (l : Lexeme) (kind : TokenKind) : Lexed :=
  ⟨⟨kind, String.ofList l.slice, l.position⟩, []⟩

def faulty (l : Lexeme) (cause : LexCause) : Lexed := .ofFault cause l.slice l.position

/-- Hand the content of a quoted run on, unless an escape in it has no meaning. -/
def withContent (l : Lexeme) (use : String → Lexed) : Lexed :=
  match Escape.unescape l.content with
  | .ok content => use (String.ofList content)
  | .error e => .ofFault (.invalidEscape e.char) l.slice (l.position.right (1 + e.offset))

/-- A literal over characters holds exactly one. -/
def charLiteral (l : Lexeme) (content : String) : Lexed :=
  match content.toList with
  | [] => l.faulty .emptyLiteral
  | [_] => ⟨⟨.literal, content, l.position⟩, []⟩
  | _ => l.faulty (.multiChar content)

/-- A literal over symbols holds any name but the empty one. -/
def symbolLiteral (l : Lexeme) (content : String) : Lexed :=
  if content.isEmpty then l.faulty .emptyLiteral else ⟨⟨.literal, content, l.position⟩, []⟩

def splitWord (p : Position) : List Char → List Lexed
  | [] => []
  | c :: rest =>
    if c.isDigit then
      let digits := c :: rest.takeWhile Char.isDigit
      ⟨⟨.integer, String.ofList digits, p⟩, []⟩ ::
        splitWord (p.right digits.length) (rest.dropWhile Char.isDigit)
    else
      let head := match CharClass.ofLetter? c with
        | some k => ⟨⟨.charClass k, c.toString, p⟩, []⟩
        | none => .ofFault (.unrecognized c) [c] p
      head :: splitWord (p.right 1) rest
termination_by cs => cs.length
decreasing_by
  · have := (List.dropWhile_sublist Char.isDigit (l := rest)).length_le
    simp; omega
  · simp

/-- Let the first of several tokens carry the faults of all. -/
def reportTogether : List Lexed → List Lexed
  | [] => []
  | x :: xs => ⟨x.token, x.faults ++ xs.flatMap (·.faults)⟩ :: xs.map (⟨·.token, []⟩)

/-- A word over symbols is a class if it is one class letter, and a name otherwise. -/
def symbolWordKind : List Char → TokenKind
  | [c] => match CharClass.ofLetter? c with
    | some k => .charClass k
    | none => .literal
  | _ => .literal

def first (l : Lexeme) : Char := l.slice.headD '\''

def tokens (mode : Mode) (l : Lexeme) : List Lexed :=
  match l.shape with
  | .punct p => [l.asSlice (.punct p)]
  | .digits => [l.asSlice .integer]
  | .word => match mode with
    | .char => reportTogether (splitWord l.position l.slice)
    | .symbol => [l.asSlice (symbolWordKind l.slice)]
  | .quoted => match mode with
    | .char => [l.withContent l.charLiteral]
    | .symbol => [l.withContent l.symbolLiteral]
  | .string => [l.withContent fun content => ⟨⟨.string, content, l.position⟩, []⟩]
  | .unterminated => [l.faulty (.unterminated l.first)]
  | .stray => [l.faulty (.unrecognized l.first)]

end Lexeme

/-- The tokens of a source that are still to come, and the token after the last. -/
structure TokenStream where
  ahead : List Lexed
  eof : Token
deriving DecidableEq, Repr

namespace TokenStream

/-- Take the next token; the end is found again and again. -/
def next (s : TokenStream) : Lexed × TokenStream :=
  match s.ahead with
  | [] => (⟨s.eof, []⟩, s)
  | x :: rest => (x, ⟨rest, s.eof⟩)

def toList (s : TokenStream) : List Lexed := s.ahead ++ [⟨s.eof, []⟩]

def tokens (s : TokenStream) : List Token := s.toList.map (·.token)

def faults (s : TokenStream) : List LexFault := s.ahead.flatMap (·.faults)

end TokenStream

def lex (mode : Mode) (source : String) : TokenStream :=
  let cs := source.toList
  ⟨(Lexeme.scan .start cs).flatMap (Lexeme.tokens mode), .eof (Position.start.after cs)⟩

end SymbolRegex
