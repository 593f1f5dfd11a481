import SymbolRegex.Pattern.Class
import SymbolRegex.Pattern.Fault
import SymbolRegex.Pattern.SetTable
import SymbolRegex.Token.Stream

/-! # Reading patterns

The grammar, with one token of lookahead:

* a choice is one or more sequences with `|` between them;
* a sequence is one or more terms;
* a term is an atom, with an action before it and a repetition after it if there are any;
* an atom is a literal, a parenthesised choice, a bracketed set, `.`, a string or a class;
* a repetition is `+`, `*`, `?` or bounds in braces.

Over characters an action is written `=`, over symbols a name comes before it.
Reading stops at the first fault, so a fault tells how many tokens were not
looked at: lexical faults behind them never come to light.
-/

namespace SymbolRegex.Parser

/-- What does not change while a pattern is read. -/
structure Grammar where
  mode : Mode
  sets : SetTable
  /-- The token after the last. -/
  eof : Token

/-- The tokens still to be read, and the actions met so far. -/
structure State where
  ahead : List Token
  actions : Nat := 0
  /-- The names of the actions, the latest first. -/
  names : List String := []

/-- A fault, and how many tokens were not looked at when it was found. -/
structure Failure where
  fault : ParseFault
  unseen : Nat
deriving DecidableEq, Repr

/-- A state with at least one token less than `s`. -/
abbrev After (s : State) := { r : State // r.ahead.length < s.ahead.length }

abbrev Within (s : State) := { r : State // r.ahead.length ≤ s.ahead.length }

/-- The outcome of reading a construct that takes at least one token. -/
abbrev Result (α : Type) (s : State) := Except Failure (α × After s)

namespace State

def reading (s : State) (rest : List Token) : State := { s with ahead := rest }

/-- Take the next token if it is of the given kind. -/
def take? (s : State) (kind : TokenKind) : Option (Token × After s) :=
  match h : s.ahead with
  | [] => none
  | t :: rest =>
    if t.kind = kind then some (t, ⟨s.reading rest, by simp [State.reading, h]⟩) else none

end State

/-! ## Faults -/

namespace Grammar

variable (g : Grammar)

def current (s : State) : Token := s.ahead.headD g.eof

def faultHere (s : State) (cause : TokenKind → ParseCause) : Failure :=
  let t := g.current s
  ⟨⟨if t.kind = .error then .lexical else cause t.kind, t.position⟩, s.ahead.length - 1⟩

def unexpected (s : State) (expected : String) : Failure :=
  g.faultHere s (.unexpected · expected)

def expectedTerm (s : State) : Failure := g.faultHere s .expectedTerm

/-- The source ends before the closing counterpart of `opening`. -/
def unclosed (opening : Token) : Failure :=
  ⟨⟨.unclosed opening.kind opening.position, g.eof.position⟩, 0⟩

end Grammar

/-- A fault at a token that was taken before `s`. -/
def faultAt (t : Token) (s : State) (cause : ParseCause) : Failure :=
  ⟨⟨cause, t.position⟩, s.ahead.length⟩

/-! ## Tokens of a given kind -/

def expect (g : Grammar) (kind : TokenKind) (expected : String) (s : State) : Result Token s :=
  match s.take? kind with
  | some r => .ok r
  | none => .error (g.unexpected s expected)

def expectClose (g : Grammar) (opening : Token) (close : Punctuation) (s : State) :
    Result Token s :=
  if s.ahead.isEmpty then .error (g.unclosed opening)
  else expect g (.punct close) (TokenKind.punct close).describe s

/-! ## Literals and sets -/

/-- The leaf of a symbol text, which is a set if the text names one. -/
def textLeaf (g : Grammar) (text : String) : Leaf :=
  match g.sets.get? text with
  | some members => .ofTexts members
  | none => .literal text

def isSymbol (g : Grammar) (t : Token) : Bool :=
  t.kind = .literal || (t.kind = .integer && g.mode = .symbol)

def textItems (g : Grammar) (text : String) : List SetItem :=
  match g.sets.get? text with
  | some members => members.map .literal
  | none => [.literal text]

/-- The upper end of a range that starts at `low`, after the dash. -/
def rangeItem (g : Grammar) (low : Token) (s : State) : Except Failure (SetItem × Within s) :=
  match h : s.ahead with
  | [] => .error ⟨⟨.invalidSetMember (reason g.eof), g.eof.position⟩, 0⟩
  | high :: rest =>
    let s' := s.reading rest
    if high.kind = .error then .error (faultAt high s' .lexical)
    else if isSymbol g high then
      .ok (.range low.text high.text, ⟨s', by simp [s', State.reading, h]⟩)
    else .error (faultAt high s' (.invalidSetMember (reason high)))
where
  reason (t : Token) : String :=
    "expected the upper bound of a range, found " ++ t.kind.describe

/-- The members that start with the token `t`, which was taken before `s`. -/
def setMember (g : Grammar) (t : Token) (s : State) : Except Failure (List SetItem × Within s) :=
  let stay : Within s := ⟨s, Nat.le_refl _⟩
  if isSymbol g t then
    match s.take? (.punct .dash) with
    | none => .ok (textItems g t.text, stay)
    | some (_, ⟨s₁, h₁⟩) => do
      let (item, ⟨s₂, h₂⟩) ← rangeItem g t s₁
      return ([item], ⟨s₂, by omega⟩)
  else
    let refuse (reason : String) := Except.error (faultAt t s (.invalidSetMember reason))
    match t.kind with
    | .charClass k =>
      if k.negated then refuse s!"negated {t.kind.describe} cannot appear inside a set"
      else .ok (k.name.items, stay)
    | .string => .ok (t.text.toList.map fun c => .literal c.toString, stay)
    | kind => refuse (kind.describe ++ " is not a set member")

/-- The members of a set up to its closing bracket, with that bracket. -/
def setMembers (g : Grammar) (opening : Token) (s : State) : Result (List SetItem × Token) s :=
  match h : s.ahead with
  | [] => .error (g.unclosed opening)
  | t :: rest =>
    let s' := s.reading rest
    have hs : s'.ahead.length < s.ahead.length := by simp [s', State.reading, h]
    if t.kind = .punct .rightBracket then .ok (([], t), ⟨s', hs⟩)
    else if t.kind = .error then .error (g.unexpected s "a set member")
    else do
      let (items, ⟨s₁, h₁⟩) ← setMember g t s'
      let ((more, close), ⟨s₂, h₂⟩) ← setMembers g opening s₁
      return ((items ++ more, close), ⟨s₂, by omega⟩)
termination_by s.ahead.length

/-- A set, after its opening bracket. -/
def set (g : Grammar) (opening : Token) (s : State) : Result Leaf s := do
  let (negated, ⟨s₁, h₁⟩) := match s.take? (.punct .caret) with
    | some (_, ⟨s₁, h₁⟩) => (true, (⟨s₁, Nat.le_of_lt h₁⟩ : Within s))
    | none => (false, ⟨s, Nat.le_refl _⟩)
  let ((items, close), ⟨s₂, h₂⟩) ← setMembers g opening s₁
  if items.isEmpty then
    throw (faultAt close s₂ (.invalidSetMember "a set needs at least one member"))
  return (.set negated items, ⟨s₂, by omega⟩)

/-! ## Repetitions -/

def decimal (text : String) : Nat :=
  text.toList.foldl (fun n c => 10 * n + (c.toNat - '0'.toNat)) 0

/-- Bounds are stored in 32 bits. -/
def boundLimit : Nat := UInt32.size

def exceeds (bound : String) : ParseCause :=
  .invalidBounds s!"{bound} exceeds the maximum of {Pattern.maxCount}"

def bound (g : Grammar) (s : State) : Result Nat s := do
  let (t, r) ← expect g .integer "an integer bound" s
  if decimal t.text < boundLimit then return (decimal t.text, r)
  else throw (faultAt t r.val (exceeds t.text))

def boundsFault? (min max : Nat) : Option ParseCause :=
  if max = 0 then some (.invalidBounds "a repetition must allow at least one occurrence")
  else if max < min then
    some (.invalidBounds s!"minimum {min} is greater than maximum {max}")
  else if Pattern.maxCount < max then some (exceeds (toString max))
  else none

/-- The bounds of a repetition, after its opening brace. -/
def bounds (g : Grammar) (opening : Token) (s : State) : Result (Nat × Nat) s := do
  let (min, ⟨s₁, h₁⟩) ← bound g s
  let (max, ⟨s₂, h₂⟩) ← match s₁.take? (.punct .comma) with
    | none => pure (min, (⟨s₁, Nat.le_refl _⟩ : Within s₁))
    | some (_, ⟨s₂, h₂⟩) => do
      let (max, ⟨s₃, h₃⟩) ← bound g s₂
      pure (max, ⟨s₃, by omega⟩)
  let (_, ⟨s₃, h₃⟩) ← expectClose g opening .rightBrace s₂
  match boundsFault? min max with
  | some cause => throw (faultAt opening s₃ cause)
  | none => return ((min, max), ⟨s₃, by omega⟩)

def repetition (g : Grammar) (p : TextPattern) (s : State) :
    Except Failure (TextPattern × Within s) :=
  match h : s.ahead with
  | [] => .ok (p, ⟨s, Nat.le_refl _⟩)
  | t :: rest =>
    let s' := s.reading rest
    have hs : s'.ahead.length ≤ s.ahead.length := by simp [s', State.reading, h]
    match t.kind with
    | .punct .plus => .ok (.oneOrMore p, ⟨s', hs⟩)
    | .punct .star => .ok (.zeroOrMore p, ⟨s', hs⟩)
    | .punct .question => .ok (.optional p, ⟨s', hs⟩)
    | .punct .leftBrace => do
      let ((min, max), ⟨s₁, h₁⟩) ← bounds g t s'
      return (.counted p min max, ⟨s₁, by omega⟩)
    | _ => .ok (p, ⟨s, Nat.le_refl _⟩)

/-! ## Terms -/

/-- What a term starts with. -/
inductive Lead (s : State) where
  /-- The prefix of an action with this index. -/
  | action (index : Nat) (rest : After s)
  /-- A symbol that was taken to see whether it names an action. -/
  | symbol (t : Token) (rest : After s)
  /-- Neither; no token was taken. -/
  | bare

def State.addAction (s : State) (name? : Option String) : State :=
  { s with actions := s.actions + 1, names := name?.toList ++ s.names }

def lead (g : Grammar) (s : State) : Except Failure (Lead s) :=
  match h : s.ahead with
  | [] => .ok .bare
  | t :: rest =>
    let s' := s.reading rest
    have hs : s'.ahead.length < s.ahead.length := by simp [s', State.reading, h]
    match g.mode with
    | .char =>
      if t.kind = .punct .equals then .ok (.action s.actions ⟨s'.addAction none, hs⟩)
      else if t.kind = .integer then
        let cause := if (g.current s').kind = .punct .equals
          then ParseCause.invalidActionPrefix "char-mode actions are written `=term`"
          else .expectedTerm .integer
        .error ⟨⟨cause, t.position⟩, s'.ahead.length - 1⟩
      else .ok .bare
    | .symbol =>
      if t.kind = .punct .equals then
        .error (faultAt t s'
          (.invalidActionPrefix "symbol-mode actions need a name, as in `NAME=term`"))
      else if isSymbol g t then
        match s'.take? (.punct .equals) with
        | some (_, ⟨s₁, h₁⟩) =>
          .ok (.action s.actions ⟨s₁.addAction (some t.text), Nat.lt_trans h₁ hs⟩)
        | none => .ok (.symbol t ⟨s', hs⟩)
      else .ok .bare

/-- A string stands for the sequence of its characters. -/
def stringPattern (text : String) : TextPattern :=
  .ofSequence (text.toList.map fun c => .leaf (.literal c.toString))

def State.endsSequence (s : State) : Bool :=
  match s.ahead with
  | [] => true
  | t :: _ => t.kind = .punct .bar || t.kind = .punct .rightParen

mutual

def branches (g : Grammar) (s : State) : Result (List TextPattern) s := do
  let (items, ⟨s₁, h₁⟩) ← terms g s
  match s₁.take? (.punct .bar) with
  | none => return ([.ofSequence items], ⟨s₁, h₁⟩)
  | some (_, ⟨s₂, h₂⟩) =>
    let (more, ⟨s₃, h₃⟩) ← branches g s₂
    return (.ofSequence items :: more, ⟨s₃, by omega⟩)
termination_by (s.ahead.length, 3)

def terms (g : Grammar) (s : State) : Result (List TextPattern) s := do
  let (p, ⟨s₁, h₁⟩) ← term g s
  if s₁.endsSequence then return ([p], ⟨s₁, h₁⟩)
  let (more, ⟨s₂, h₂⟩) ← terms g s₁
  return (p :: more, ⟨s₂, by omega⟩)
termination_by (s.ahead.length, 2)

def term (g : Grammar) (s : State) : Result TextPattern s := do
  match ← lead g s with
  | .bare =>
    let (p, ⟨s₁, h₁⟩) ← atom g s
    let (q, ⟨s₂, h₂⟩) ← repetition g p s₁
    return (q, ⟨s₂, by omega⟩)
  | .symbol t ⟨s₁, h₁⟩ =>
    let (q, ⟨s₂, h₂⟩) ← repetition g (.leaf (textLeaf g t.text)) s₁
    return (q, ⟨s₂, by omega⟩)
  | .action index ⟨s₁, h₁⟩ =>
    let (p, ⟨s₂, h₂⟩) ← atom g s₁
    let (q, ⟨s₃, h₃⟩) ← repetition g p s₂
    return (.action index q, ⟨s₃, by omega⟩)
termination_by (s.ahead.length, 1)

def atom (g : Grammar) (s : State) : Result TextPattern s :=
  match h : s.ahead with
  | [] => .error (g.expectedTerm s)
  | t :: rest =>
    let s' := s.reading rest
    have hs : s'.ahead.length < s.ahead.length := by simp [s', State.reading, h]
    if isSymbol g t then .ok (.leaf (textLeaf g t.text), ⟨s', hs⟩)
    else match t.kind with
    | .punct .leftParen => do
      let (ps, ⟨s₁, h₁⟩) ← branches g s'
      let (_, ⟨s₂, h₂⟩) ← expectClose g t .rightParen s₁
      return (.ofChoice ps, ⟨s₂, by omega⟩)
    | .punct .leftBracket => do
      let (leaf, ⟨s₁, h₁⟩) ← set g t s'
      return (.leaf leaf, ⟨s₁, by omega⟩)
    | .punct .dot => .ok (.leaf .any, ⟨s', hs⟩)
    | .string =>
      if t.text.isEmpty then .error (faultAt t s' .emptyString)
      else .ok (stringPattern t.text, ⟨s', hs⟩)
    | .charClass k => .ok (.leaf k.leaf, ⟨s', hs⟩)
    | _ => .error (g.expectedTerm s)
termination_by (s.ahead.length, 0)

end

/-- A pattern, and the names of its actions in order of their indices if it is over symbols. -/
structure Output where
  pattern : TextPattern
  actionNames : List String

def whole (g : Grammar) (tokens : List Token) : Except Failure Output := do
  let (ps, ⟨s, _⟩) ← branches g { ahead := tokens }
  if s.ahead.isEmpty then return ⟨.ofChoice ps, s.names.reverse⟩
  else throw (g.unexpected s "end of pattern")

end Parser

/-- What came of reading a pattern: the diagnostics in order, and the pattern unless it failed. -/
structure Reading where
  diagnostics : List Diagnostic
  output? : Option Parser.Output

/-- Read the pattern that a token stream holds; names of sets in the table stand for their members.
Only the faults of tokens that were looked at are reported. -/
def Reading.ofStream (mode : Mode) (sets : SetTable) (stream : TokenStream) : Reading :=
  let grammar : Parser.Grammar := ⟨mode, sets, stream.eof⟩
  let reported (seen : List Lexed) := (seen.flatMap (·.faults)).map LexFault.diagnostic
  match Parser.whole grammar (stream.ahead.map (·.token)) with
  | .ok output => ⟨reported stream.ahead, some output⟩
  | .error failure =>
    let seen := stream.ahead.take (stream.ahead.length - failure.unseen)
    ⟨reported seen ++ failure.fault.diagnostic?.toList, none⟩

def readPattern (mode : Mode) (sets : SetTable) (source : String) : Reading :=
  .ofStream mode sets (lex mode source)

end SymbolRegex
