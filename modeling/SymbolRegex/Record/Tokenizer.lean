import SymbolRegex.Record.Compilation

/-! # Tokenizing records

A record is cut into words at whitespace and framing characters; framing
characters are tokens of their own. A word that no keep pattern matches is split
at the action spans of the first split pattern that matches all of it.
-/

namespace SymbolRegex

structure Tokenizer where
  whitespace : List Char
  framing : List Char
  /-- The engine of the split patterns, if there are any. -/
  split? : Option Engine
  /-- The engine of the patterns for words that are never split, if there are any. -/
  keep? : Option Engine

namespace Tokenizer

/-- The engine of some patterns over characters, if there are any. -/
def engine? (sets : SetTable) (entries : List PatternEntry) :
    Except ConfigFault (Option Engine) :=
  if entries.isEmpty then .ok none
  else (fun c => some c.engine) <$> Compilation.ofEntries entries .char sets true

def ofConfig (config : TokenizerConfig) : Except ConfigFault Tokenizer := do
  let sets ← SetTable.ofDefinitions {} config.sets
  let split? ← engine? sets config.patterns
  let keep? ← engine? sets config.nosplit
  return ⟨config.whitespace.toList, config.framing.toList, split?, keep?⟩

inductive Piece where
  | word (chars : List Char)
  | frame (char : Char)
deriving DecidableEq, Repr

def isWordChar (t : Tokenizer) (c : Char) : Bool :=
  !t.framing.contains c && !t.whitespace.contains c

/-- The words and framing characters of a record. -/
def pieces (t : Tokenizer) : List Char → List Piece
  | [] => []
  | c :: rest =>
    if t.framing.contains c then .frame c :: t.pieces rest
    else if t.whitespace.contains c then t.pieces rest
    else .word (c :: rest.takeWhile t.isWordChar) :: t.pieces (rest.dropWhile t.isWordChar)
termination_by cs => cs.length
decreasing_by
  · simp
  · simp
  · have := (List.dropWhile_sublist t.isWordChar (l := rest)).length_le
    simp; omega

def slice (word : List Char) (enter leave : Nat) : List Char :=
  (word.drop enter).take (leave - enter)

/-- Cut a word from position `cursor` on at spans in ascending order, skipping those that start
before the end of one already cut. -/
def cutAt (word : List Char) (cursor : Nat) : List (Nat × Nat) → List (List Char)
  | [] => if cursor < word.length then [slice word cursor word.length] else []
  | (enter, leave) :: rest =>
    if enter < cursor then cutAt word cursor rest
    else
      (if cursor < enter then [slice word cursor enter] else []) ++
        slice word enter leave :: cutAt word leave rest

/-- The spans that are not empty, in ascending order. -/
def sortedSpans (actions : List ActionSpan) : List (Nat × Nat) :=
  let spans := (actions.filter fun s => s.enter < s.leave).map fun s => (s.enter, s.leave)
  spans.mergeSort fun x y => decide (x.1 < y.1 ∨ (x.1 = y.1 ∧ x.2 ≤ y.2))

def matchWord? (engine? : Option Engine) (word : List Char) : Option Match := do
  (← engine?).matchText (.ofList word) .whole

def splitWord (t : Tokenizer) (word : List Char) : List (List Char) :=
  if (matchWord? t.keep? word).isSome then [word]
  else match matchWord? t.split? word with
    | none => [word]
    | some found => cutAt word 0 (sortedSpans found.actions)

def pieceTokens (t : Tokenizer) : Piece → List (List Char)
  | .word chars => t.splitWord chars
  | .frame c => [[c]]

def tokenize (t : Tokenizer) (record : String) : List String :=
  ((t.pieces record.toList).flatMap t.pieceTokens).map String.ofList

end Tokenizer
end SymbolRegex
