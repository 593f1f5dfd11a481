import SymbolRegex.Engine.Basic

/-! # Matching

The patterns of an engine are tried in the order in which they were added. A
match names its pattern, the length of what it accepts, and the span of every
action on the accepting path.
-/

namespace SymbolRegex

/-- The symbols from `enter` up to `leave`, as matched by an action. -/
structure ActionSpan where
  action : Nat
  enter : Nat
  leave : Nat
deriving DecidableEq, Repr

structure Match where
  pattern : Nat
  length : Nat
  actions : List ActionSpan
deriving DecidableEq, Repr

/-- The spans of the actions that were entered and left, in order of their indices. -/
def Slots.spans (slots : Slots) : List ActionSpan :=
  slots.toList.zipIdx.filterMap fun (slot, i) => do return ⟨i, ← slot.enter, ← slot.leave⟩

namespace Program

/-- The match of the pattern with index `i` that an acceptance stands for. -/
def toMatch (i : Nat) (accepted : Automaton.Acceptance) : Match :=
  ⟨i, accepted.1, Slots.spans accepted.2⟩

/-- The first match among fragments that are numbered from `i` on. -/
def findFrom (a : Automaton) (input : List Input) (extent : Extent) (i : Nat) (s : Scratch) :
    List Automaton.Fragment → Option Match
  | [] => none
  | fragment :: rest =>
    match a.run fragment input extent s with
    | (some accepted, _) => some (toMatch i accepted)
    | (none, s) => findFrom a input extent (i + 1) s rest

/-- All matches among fragments that are numbered from `i` on. -/
def allFrom (a : Automaton) (input : List Input) (extent : Extent) (i : Nat) (s : Scratch) :
    List Automaton.Fragment → List Match
  | [] => []
  | fragment :: rest =>
    let (accepted?, s) := a.run fragment input extent s
    (accepted?.map (toMatch i)).toList ++ allFrom a input extent (i + 1) s rest

def find (p : Program) (input : List Input) (extent : Extent) : Option Match :=
  findFrom p.automaton input extent 0 (.new p.automaton.nodeCount) p.fragments

def all (p : Program) (input : List Input) (extent : Extent) : List Match :=
  allFrom p.automaton input extent 0 (.new p.automaton.nodeCount) p.fragments

theorem head?_allFrom (a : Automaton) (input : List Input) (extent : Extent) (i : Nat)
    (s : Scratch) (fragments : List Automaton.Fragment) :
    (allFrom a input extent i s fragments).head? = findFrom a input extent i s fragments := by
  induction fragments generalizing i s with
  | nil => rfl
  | cons fragment rest ih =>
    simp only [allFrom, findFrom]
    rcases a.run fragment input extent s with ⟨_ | accepted, s'⟩
    · simp [ih]
    · simp

theorem find_eq_head? (p : Program) (input : List Input) (extent : Extent) :
    p.find input extent = (p.all input extent).head? :=
  (head?_allFrom ..).symm

end Program

namespace Engine

def symbolInput (e : Engine) (symbols : List String) : List Input :=
  symbols.map fun text => .symbol (e.alphabet.ordinal text)

def charInput (e : Engine) (text : String) : List Input :=
  e.symbolInput (text.toList.map Char.toString)

/-- Each list of texts as one input position with several candidates. -/
def candidateInput (e : Engine) (candidates : List (List String)) : List Input :=
  candidates.map fun options =>
    .candidates (.ofList e.alphabet.width (options.map e.alphabet.ordinal))

def matchOrdinals (e : Engine) (ordinals : List Nat) (extent : Extent) : Option Match :=
  e.program.find (ordinals.map .symbol) extent

def matchSymbols (e : Engine) (symbols : List String) (extent : Extent) : Option Match :=
  e.program.find (e.symbolInput symbols) extent

def matchText (e : Engine) (text : String) (extent : Extent) : Option Match :=
  e.program.find (e.charInput text) extent

def matchCandidates (e : Engine) (candidates : List (List String)) (extent : Extent) :
    Option Match :=
  e.program.find (e.candidateInput candidates) extent

/-- The matches of all patterns that accept a text, in the order of the patterns. -/
def allTextMatches (e : Engine) (text : String) (extent : Extent) : List Match :=
  e.program.all (e.charInput text) extent

theorem head?_allTextMatches (e : Engine) (text : String) (extent : Extent) :
    (e.allTextMatches text extent).head? = e.matchText text extent :=
  (Program.find_eq_head? ..).symm

end Engine
end SymbolRegex
