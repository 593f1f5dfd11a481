import SymbolRegex.Config.Fault
import SymbolRegex.Diagnostic.Queue
import SymbolRegex.Engine.Match
import SymbolRegex.Pattern.Parser

/-! # Compiling configured patterns

The patterns of a configuration are read in order and bound into one engine. All
of it reports to one queue; the first pattern that cannot be read ends the
compilation.
-/

namespace SymbolRegex

/-- The table of the defined sets; no name may be defined twice. -/
def SetTable.ofDefinitions (table : SetTable := {}) :
    List SetDefinition → Except ConfigFault SetTable
  | [] => .ok table
  | d :: rest =>
    match table.define d.name d.members with
    | (table, true) => ofDefinitions table rest
    | (_, false) => .error (.duplicateSet d.name)

structure Compilation where
  engine : Engine
  outputs : List Parser.Output

namespace Compilation

def slotCounts (c : Compilation) : List UInt32 := c.outputs.map (·.pattern.slotCount)

def actionNames (c : Compilation) : List (List String) := c.outputs.map (·.actionNames)

def firstCode (q : Queue) : Code := (q.diagnostics.head?.map (·.code)).getD .malformedConfig

def bindingFault (q : Queue) : ConfigFault := .binding (firstCode q) q.messages

/-- Read patterns, of which the first is number `index`, and add them to an engine. -/
def addEntries (mode : Mode) (sets : SetTable) (index : Nat) (engine : Engine) (queue : Queue) :
    List PatternEntry → Except ConfigFault (Engine × Queue × List Parser.Output)
  | [] => .ok (engine, queue, [])
  | entry :: rest =>
    let reading := readPattern mode sets entry.pattern
    let queue := queue.addAll reading.diagnostics
    match reading.output? with
    | none => .error (.pattern index entry.pattern (firstCode queue) queue.messages)
    | some output =>
      match engine.add output.pattern with
      | (_, .error fault) => .error (bindingFault (queue.addAll fault.diagnostics))
      | (engine, .ok _) => do
        let (engine, queue, outputs) ← addEntries mode sets (index + 1) engine queue rest
        return (engine, queue, output :: outputs)

/-- Compile patterns, over the byte alphabet if it is wanted. -/
def ofEntries (entries : List PatternEntry) (mode : Mode) (sets : SetTable)
    (byteAlphabet : Bool) : Except ConfigFault Compilation := do
  let (engine, fault?) :=
    if byteAlphabet then Engine.registerBytes {} else (({} : Engine), none)
  if let some fault := fault? then throw (.binding .alphabetFull [fault.message])
  let (engine, queue, outputs) ← addEntries mode sets 0 engine {} entries
  let (engine, faults) := engine.bind
  if engine.isBound then return ⟨engine, outputs⟩
  else throw (bindingFault (queue.addAll (faults.map (·.diagnostic))))

end Compilation
end SymbolRegex
