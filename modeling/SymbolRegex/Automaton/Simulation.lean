import SymbolRegex.Automaton.Basic

/-! # Running an automaton

All threads advance over the input in lock step. In each step a node belongs to
the first thread that reaches it, and threads are tried in order of priority, so
the thread that survives at a node came there along the most preferred path. A
thread carries, for each action, the position of its first entry and of its last
exit.
-/

namespace SymbolRegex

inductive Input where
  /-- One known symbol. -/
  | symbol (ordinal : Nat)
  /-- Any one of several symbols. -/
  | candidates (set : OrdinalSet)
deriving DecidableEq, Repr

def Input.accepts (x : Input) (label : OrdinalSet) : Bool :=
  match x with
  | symbol i => label.contains i
  | candidates set => label.intersects set

inductive Extent where
  /-- A part at the start, which is not empty and as long as possible. -/
  | leading
  | whole
deriving DecidableEq, Repr

/-- The positions at which an action was first entered and last left. -/
structure Slot where
  enter : Option Nat := none
  leave : Option Nat := none
deriving DecidableEq, Repr

abbrev Slots := Array Slot

/-- Note a marker that is passed; symbols are consumed from `before` to `after`. -/
def Slot.pass (entering : Bool) (before after : Nat) (s : Slot) : Slot :=
  if entering then { s with enter := s.enter <|> some before } else { s with leave := some after }

def Arc.mark (arc : Arc) (before after : Nat) (slots : Slots) : Slots :=
  arc.markers.foldl (fun slots m => slots.modify m.action (.pass m.entering before after)) slots

structure Thread where
  node : Nat
  slots : Slots
deriving DecidableEq, Repr

/-! ## Claims -/

/-- Which nodes are claimed in the current step: those stamped with its number. The number has 32
bits, and when it comes round to an old one, the stamps of that step are taken for claims. -/
structure Claims where
  stamps : Array UInt32
  generation : UInt32
deriving DecidableEq, Repr

namespace Claims

def new (count : Nat) : Claims := ⟨Array.replicate count 0, 0⟩

def advance (c : Claims) : Claims := ⟨c.stamps, c.generation + 1⟩

def free (c : Claims) (n : NodeId) : Bool := c.stamps[n]?.any (· != c.generation)

def claim (c : Claims) (n : NodeId) : Claims :=
  ⟨c.stamps.setIfInBounds n c.generation, c.generation⟩

def freeCount (c : Claims) : Nat := c.stamps.countP (· != c.generation)

theorem free_claim (c : Claims) (n m : NodeId) :
    (c.claim n).free m = (c.free m && decide (m ≠ n)) := by
  simp only [free, claim, Array.getElem?_setIfInBounds]
  by_cases e : m = n
  · subst e; by_cases h : m < c.stamps.size <;> simp [h]
  · simp [e, Ne.symm e]

theorem freeCount_claim_lt {c : Claims} {n : NodeId} (h : c.free n = true) :
    (c.claim n).freeCount < c.freeCount := by
  obtain ⟨stamp, hs, hne⟩ := Option.any_eq_true _ _ |>.1 h
  obtain ⟨hn, rfl⟩ := Array.getElem?_eq_some_iff.1 hs
  have hpos : 0 < c.stamps.countP (· != c.generation) :=
    Array.countP_pos_iff.2 ⟨_, Array.getElem_mem hn, hne⟩
  simp only [freeCount, claim, Array.setIfInBounds, hn, dite_true, Array.countP_set, hne]
  simp only [ite_true, bne_self_eq_false, Bool.false_eq_true, ite_false]
  omega

end Claims

/-- The buffers of one call, which its runs use one after another. -/
structure Scratch where
  claims : Claims
  /-- Threads that wait to claim their nodes. -/
  stack : List Thread := []
  current : Array Thread := #[]
  next : Array Thread := #[]
deriving DecidableEq, Repr

namespace Scratch

def new (count : Nat) : Scratch := { claims := .new count }

def begin (s : Scratch) : Scratch :=
  { s with claims := s.claims.advance, current := #[], next := #[] }

end Scratch

namespace Automaton

/-! ## Threads -/

/-- The threads that a thread turns into without consuming a symbol, in order of priority. -/
def silentSteps (a : Automaton) (pos : Nat) (t : Thread) : List Thread :=
  (a.outgoing t.node).filterMap fun arc =>
    match arc.label with
    | .epsilon => some ⟨arc.target, arc.mark pos pos t.slots⟩
    | .symbols _ => none

/-- The threads that a thread turns into by consuming the symbol at `pos`. -/
def symbolSteps (a : Automaton) (pos : Nat) (x : Input) (t : Thread) : List Thread :=
  (a.outgoing t.node).filterMap fun arc =>
    match arc.label with
    | .epsilon => none
    | .symbols set =>
      if x.accepts set then some ⟨arc.target, arc.mark pos (pos + 1) t.slots⟩ else none

/-- The threads of one step, with the claims that they made. -/
structure Frontier where
  claims : Claims
  threads : Array Thread

/-- Let the threads of a stack claim their nodes, the top one first, and with each thread those
that it turns into without consuming a symbol. -/
def spread (a : Automaton) (pos : Nat) (f : Frontier) (stack : List Thread) : Frontier :=
  match stack with
  | [] => f
  | t :: rest =>
    if _h : f.claims.free t.node then
      a.spread pos ⟨f.claims.claim t.node, f.threads.push t⟩ (a.silentSteps pos t ++ rest)
    else a.spread pos f rest
termination_by (f.claims.freeCount, stack.length)
decreasing_by
  · exact Prod.Lex.left _ _ (Claims.freeCount_claim_lt _h)
  · exact Prod.Lex.right _ (by simp)

def addThread (a : Automaton) (pos : Nat) : Frontier × List Thread → Thread →
    Frontier × List Thread
  | (f, stack), t => (a.spread pos f (t :: stack), [])

/-- Gather in `next` the threads that are there after the symbol at `pos`, and let it take the place
of `current`. -/
def step (a : Automaton) (pos : Nat) (x : Input) (s : Scratch) : Scratch :=
  let (f, stack) := s.current.foldl
    (fun gathered t => (a.symbolSteps pos x t).foldl (a.addThread (pos + 1)) gathered)
    (⟨s.claims.advance, s.next⟩, s.stack)
  ⟨f.claims, stack, f.threads, #[]⟩

/-! ## Matches -/

/-- The part of an automaton that belongs to one pattern. -/
structure Fragment where
  start : Nat
  stop : Nat
  slotCount : UInt32
deriving DecidableEq, Repr

abbrev Acceptance := Nat × Slots

/-- The acceptance at `pos`, or the best one before. -/
def accept (fragment : Fragment) (extent : Extent) (pos : Nat) (atEnd : Bool)
    (threads : Array Thread) (best : Option Acceptance) : Option Acceptance :=
  let allowed : Bool := match extent with
    | .leading => 0 < pos
    | .whole => atEnd
  if allowed then
    match threads.find? (·.node = fragment.stop) with
    | some t => some (pos, t.slots)
    | none => best
  else best

/-- Run over the input from `pos` on; no thread is left to accept once all have died. -/
def runFrom (a : Automaton) (fragment : Fragment) (extent : Extent) (pos : Nat)
    (input : List Input) (s : Scratch) (best : Option Acceptance) :
    Option Acceptance × Scratch :=
  let best := accept fragment extent pos input.isEmpty s.current best
  match input with
  | [] => (best, s)
  | x :: rest =>
    if s.current.isEmpty then (best, s)
    else a.runFrom fragment extent (pos + 1) rest (a.step pos x s) best

/-- Run one pattern over an input, with the buffers that earlier runs have left behind. -/
def run (a : Automaton) (fragment : Fragment) (input : List Input) (extent : Extent)
    (s : Scratch) : Option Acceptance × Scratch :=
  let s := s.begin
  let slots := Array.replicate fragment.slotCount.toNat {}
  let (f, stack) := a.addThread 0 (⟨s.claims, s.current⟩, s.stack) ⟨fragment.start, slots⟩
  a.runFrom fragment extent 0 input ⟨f.claims, stack, f.threads, s.next⟩ none

end Automaton
end SymbolRegex
