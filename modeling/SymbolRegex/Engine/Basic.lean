import SymbolRegex.Automaton.Construction
import SymbolRegex.Automaton.Simulation
import SymbolRegex.Pattern.Printer

/-! # Engines

An engine collects patterns over a shared alphabet, which grows with every
pattern added. Binding happens once: it closes the alphabet and builds one
automaton for all patterns, or fails for good. Until it has succeeded an engine
matches nothing.
-/

namespace SymbolRegex

/-- The automaton of several patterns, with the fragment of each. -/
structure Program where
  automaton : Automaton := {}
  fragments : List Automaton.Fragment := []
deriving DecidableEq, Repr

def Program.add (p : Program) (bound : BoundPattern) : Program :=
  let start := p.automaton.nodeCount
  let stop := start + 1
  { automaton := Automaton.wire bound start stop p.automaton.addNode.addNode
    fragments := p.fragments ++ [⟨start, stop, bound.slotCount⟩] }

def Program.ofPatterns (bounds : List BoundPattern) : Program := bounds.foldl add {}

namespace Engine

inductive Stage where
  | collecting
  | bound (program : Program)
  | failed
deriving DecidableEq, Repr

inductive AddFault where
  | alreadyBound (pattern : TextPattern)
  /-- Binding has failed before, and reported why. -/
  | alreadyFailed
  | registration (fault : RegistrationFault)

def AddFault.diagnostics : AddFault → List Diagnostic
  | alreadyBound pattern =>
    [.error .lateRegistration ("cannot add `" ++ pattern.write ++ "`: the engine is already bound")
      ["register every pattern before calling bind"]]
  | alreadyFailed => []
  | registration fault => [.error .alphabetFull fault.message]

end Engine

structure Engine where
  alphabet : Alphabet := {}
  patterns : List TextPattern := []
  stage : Engine.Stage := .collecting

namespace Engine

def register (e : Engine) (text : String) : Except RegistrationFault (Nat × Engine) := do
  let (ordinal, alphabet) ← e.alphabet.register text
  return (ordinal, { e with alphabet })

def registerAll (e : Engine) (texts : List String) : Engine × Option RegistrationFault :=
  let (alphabet, fault?) := e.alphabet.registerAll texts
  ({ e with alphabet }, fault?)

/-- Register all characters with one-byte code points. -/
def registerBytes (e : Engine) : Engine × Option RegistrationFault :=
  e.registerAll Alphabet.byteTexts

/-- Register the symbols of a pattern, up to the first that cannot be. -/
def setUp (e : Engine) (p : TextPattern) : Engine × Option RegistrationFault :=
  let (alphabet, fault?) := e.alphabet.setUp p
  ({ e with alphabet }, fault?)

theorem setUp_eq (e : Engine) (p : TextPattern) : e.setUp p = e.registerAll p.symbols := by
  rw [setUp, registerAll, e.alphabet.setUp_eq]

/-- Add a pattern with its symbols, and give its index. -/
def add (e : Engine) (p : TextPattern) : Engine × Except AddFault Nat :=
  match e.stage with
  | .bound _ => (e, .error (.alreadyBound p))
  | .failed => (e, .error .alreadyFailed)
  | .collecting =>
    match e.setUp p with
    | (e', some fault) => (e', .error (.registration fault))
    | (e', none) => ({ e' with patterns := e.patterns ++ [p] }, .ok e.patterns.length)

/-- Bind every pattern to an alphabet, or give the faults of all that cannot be. -/
def bindAll (a : Alphabet) : List TextPattern → Except (List BindFault) (List BoundPattern)
  | [] => .ok []
  | p :: ps =>
    match a.bindPattern p, bindAll a ps with
    | .ok b, .ok bs => .ok (b :: bs)
    | .ok _, .error faults => .error faults
    | .error fault, .ok _ => .error [fault]
    | .error fault, .error faults => .error (fault :: faults)

/-- Close the alphabet and build the automaton. Only the first call does anything; it gives the
faults that made it fail. -/
def bind (e : Engine) : Engine × List BindFault :=
  match e.stage with
  | .bound _ | .failed => (e, [])
  | .collecting =>
    let alphabet := e.alphabet.freeze
    match bindAll alphabet e.patterns with
    | .ok bounds => ({ e with alphabet, stage := .bound (.ofPatterns bounds) }, [])
    | .error faults => ({ e with alphabet, stage := .failed }, faults)

/-- The automaton and fragments, which are empty unless binding has succeeded. -/
def program (e : Engine) : Program :=
  match e.stage with
  | .bound p => p
  | _ => {}

def isBound (e : Engine) : Bool :=
  match e.stage with
  | .bound _ => true
  | _ => false

def fragment? (e : Engine) (pattern : Nat) : Option Automaton.Fragment :=
  e.program.fragments[pattern]?

end Engine
end SymbolRegex
