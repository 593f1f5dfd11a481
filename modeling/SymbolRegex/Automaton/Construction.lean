import SymbolRegex.Alphabet.Binding
import SymbolRegex.Automaton.Basic

/-! # Automata of patterns

A bound pattern is wired between two given nodes. Arcs are made in order of
preference: the body of a repetition before the arc that skips or leaves it. A
loop gets an entry and an exit of its own, so that its back arc touches neither
of the given nodes, which other alternatives may share.
-/

namespace SymbolRegex.Automaton

abbrev Wiring := NodeId → NodeId → Automaton → Automaton

/-- Wire `remaining` copies of a body in a row, of which the first is number `copy`. A copy from
number `min` on may be skipped. -/
def wireCopies (body : Wiring) (min : Nat) (copy : Nat) (remaining : Nat) : Wiring :=
  match remaining with
  | 0 => fun _ _ a => a
  | more + 1 => fun start stop a =>
    let next := if more = 0 then stop else a.nodeCount
    let a := if more = 0 then a else a.addNode
    let a := body start next a
    let a := if min ≤ copy then a.addArc start next .epsilon else a
    wireCopies body min (copy + 1) more next stop a

/-- Wire a body that may be repeated, and skipped if `skippable`. -/
def wireLoop (body : Wiring) (skippable : Bool) : Wiring := fun start stop a =>
  let entry := a.nodeCount
  let exit := entry + 1
  let a := a.addNode.addNode.addArc start entry .epsilon
  let a := body entry exit a
  let a := (a.addArc exit entry .epsilon).addArc exit stop .epsilon
  if skippable then a.addArc start stop .epsilon else a

mutual

/-- Wire a pattern between two nodes. -/
def wire : BoundPattern → Wiring
  | .leaf set => fun start stop a => a.addArc start stop (.symbols set)
  | .sequence ps => wireSequence ps
  | .choice ps => wireChoice ps
  | .optional p => fun start stop a => (wire p start stop a).addArc start stop .epsilon
  | .counted p min max =>
    if max = 0 then fun start stop a => a.addArc start stop .epsilon
    else wireCopies (wire p) min 0 max
  | .oneOrMore p => wireLoop (wire p) false
  | .zeroOrMore p => wireLoop (wire p) true
  | .action i p => fun start stop a =>
    let first := a.arcCount
    (wire p start stop a).markAction first start stop i

def wireSequence : List BoundPattern → Wiring
  | [] => fun start stop a => a.addArc start stop .epsilon
  | [p] => wire p
  | p :: q :: ps => fun start stop a =>
    let next := a.nodeCount
    wireSequence (q :: ps) next stop (wire p start next a.addNode)

def wireChoice : List BoundPattern → Wiring
  | [] => fun _ _ a => a
  | p :: ps => fun start stop a => wireChoice ps start stop (wire p start stop a)

end

end SymbolRegex.Automaton
