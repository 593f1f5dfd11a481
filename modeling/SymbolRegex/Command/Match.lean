import SymbolRegex.Command.Basic
import SymbolRegex.Diagnostic.Queue
import SymbolRegex.Engine.Match
import SymbolRegex.Pattern.Parser
import SymbolRegex.Text.Blank
import SymbolRegex.Text.Quoted

/-! # Matching one input

Over characters the input is taken character by character, over symbols word by
word.
-/

namespace SymbolRegex.Command

/-- Read patterns into an engine, with the action names of each; the first fault ends it. -/
def addPatterns (mode : Mode) (engine : Engine) (queue : Queue) :
    List String → Except CommandFault (Engine × Queue × List (List String))
  | [] => .ok (engine, queue, [])
  | pattern :: rest =>
    let reading := readPattern mode {} pattern
    let queue := queue.addAll reading.diagnostics
    match reading.output? with
    | none => .error (.diagnostics queue.messages)
    | some output =>
      match engine.add output.pattern with
      | (_, .error fault) => .error (.diagnostics (queue.addAll fault.diagnostics).messages)
      | (engine, .ok _) => do
        let (engine, queue, names) ← addPatterns mode engine queue rest
        return (engine, queue, output.actionNames :: names)

/-- A bound engine for some patterns, with the action names of each. -/
def compilePatterns (mode : Mode) (patterns : List String) :
    Except CommandFault (Engine × List (List String)) := do
  let (engine, fault?) := match mode with
    | .char => Engine.registerBytes {}
    | .symbol => (({} : Engine), none)
  if let some fault := fault? then throw (.diagnostics [fault.message])
  let (engine, queue, names) ← addPatterns mode engine {} patterns
  let (engine, faults) := engine.bind
  if engine.isBound then return (engine, names)
  else throw (.diagnostics (queue.addAll (faults.map (·.diagnostic))).messages)

def inputSymbols (mode : Mode) (input : String) : List String :=
  match mode with
  | .char => input.toList.map Char.toString
  | .symbol => Text.words input

def spanLine (mode : Mode) (names symbols : List String) (s : ActionSpan) : String :=
  let label := names.getD s.action (toString s.action)
  let joiner := match mode with
    | .char => ""
    | .symbol => " "
  let text := joiner.intercalate ((symbols.drop s.enter).take (s.leave - s.enter))
  s!"  {label} [{s.enter}, {s.leave}) " ++ Text.quoteText text

/-- What was matched, or that nothing was. -/
def matchLines (mode : Mode) (names : List (List String)) (symbols : List String) :
    Option Match → List String
  | none => ["no match"]
  | some m =>
    s!"pattern {m.pattern} matched {m.length} of {symbols.length} symbols" ::
      m.actions.map (spanLine mode (names.getD m.pattern []) symbols)

def runMatch (patterns : List String) (input : String) (mode : Mode) (extent : Extent) :
    CommandResult :=
  match compilePatterns mode patterns with
  | .error fault => .failure "" fault
  | .ok (engine, names) =>
    let symbols := inputSymbols mode input
    .success (unlines (matchLines mode names symbols (engine.matchSymbols symbols extent)))

end SymbolRegex.Command
