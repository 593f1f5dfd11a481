/-! # Pattern trees

A pattern is a regular expression whose leaves consume one symbol each. Its
actions mark the parts whose matched span is reported. The tree is generic in
its leaves: as written, a leaf speaks of symbol texts, and once the pattern is
bound to an alphabet, of ordinals.
-/

namespace SymbolRegex

inductive SetItem where
  | literal (text : String)
  /-- All registered symbols from `low` to `high` in text order. -/
  | range (low high : String)
deriving DecidableEq, Repr

inductive Leaf where
  | literal (text : String)
  | range (low high : String)
  | set (negated : Bool) (items : List SetItem)
  | any
deriving DecidableEq, Repr

inductive Pattern (α : Type) where
  | leaf (label : α)
  | sequence (items : List (Pattern α))
  | choice (items : List (Pattern α))
  | optional (body : Pattern α)
  | counted (body : Pattern α) (min max : Nat)
  | oneOrMore (body : Pattern α)
  | zeroOrMore (body : Pattern α)
  | action (index : Nat) (body : Pattern α)
deriving Repr, BEq

abbrev TextPattern := Pattern Leaf

namespace SetItem

def symbols : SetItem → List String
  | literal text => [text]
  | range low high => [low, high]

end SetItem

namespace Leaf

def ofTexts (texts : List String) : Leaf := set false (texts.map .literal)

/-- The texts that a leaf mentions, the lower end of a range first. -/
def symbols : Leaf → List String
  | literal text => [text]
  | range low high => [low, high]
  | set _ items => items.flatMap SetItem.symbols
  | any => []

end Leaf

namespace Pattern

variable {α β ε : Type}

/-- The largest number of repetitions that a counted pattern may be written with. -/
def maxCount : Nat := 10

/-- A sequence of exactly one item is that item. -/
def ofSequence : List (Pattern α) → Pattern α
  | [p] => p
  | ps => sequence ps

def ofChoice : List (Pattern α) → Pattern α
  | [p] => p
  | ps => choice ps

mutual

/-- How many action slots a pattern gets, which is one more than its highest index. The sum is one
of 32 bits: there is no slot for the index `2 ^ 32 - 1`. -/
def slotCount : Pattern α → UInt32
  | leaf _ => 0
  | sequence ps => maxSlotCount ps
  | choice ps => maxSlotCount ps
  | optional p => slotCount p
  | counted p _ _ => slotCount p
  | oneOrMore p => slotCount p
  | zeroOrMore p => slotCount p
  | action i p => max (.ofNat i + 1) (slotCount p)

def maxSlotCount : List (Pattern α) → UInt32
  | [] => 0
  | p :: ps => max (slotCount p) (maxSlotCount ps)

end

mutual

def leaves : Pattern α → List α
  | leaf a => [a]
  | sequence ps => allLeaves ps
  | choice ps => allLeaves ps
  | optional p => leaves p
  | counted p _ _ => leaves p
  | oneOrMore p => leaves p
  | zeroOrMore p => leaves p
  | action _ p => leaves p

def allLeaves : List (Pattern α) → List α
  | [] => []
  | p :: ps => leaves p ++ allLeaves ps

end

mutual

/-- Replace every leaf, stopping at the first that cannot be. -/
def mapLeaves (f : α → Except ε β) : Pattern α → Except ε (Pattern β)
  | leaf a => leaf <$> f a
  | sequence ps => sequence <$> mapAllLeaves f ps
  | choice ps => choice <$> mapAllLeaves f ps
  | optional p => optional <$> mapLeaves f p
  | counted p min max => (counted · min max) <$> mapLeaves f p
  | oneOrMore p => oneOrMore <$> mapLeaves f p
  | zeroOrMore p => zeroOrMore <$> mapLeaves f p
  | action i p => action i <$> mapLeaves f p

def mapAllLeaves (f : α → Except ε β) : List (Pattern α) → Except ε (List (Pattern β))
  | [] => .ok []
  | p :: ps => do
    let q ← mapLeaves f p
    return q :: (← mapAllLeaves f ps)

end

end Pattern

/-- The texts that a pattern mentions, from left to right. -/
def TextPattern.symbols (p : TextPattern) : List String := p.leaves.flatMap Leaf.symbols

end SymbolRegex
