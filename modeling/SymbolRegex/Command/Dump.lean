import SymbolRegex.Command.Basic
import SymbolRegex.Diagnostic.Queue
import SymbolRegex.Engine.Match
import SymbolRegex.Pattern.Parser
import SymbolRegex.Text.Quoted

/-! # Showing a compiled pattern -/

namespace SymbolRegex.Command

def treeLines (output : Parser.Output) : List String :=
  ("tree: " ++ output.pattern.write) ::
    if output.actionNames.isEmpty then [] else ["actions: " ++ ", ".intercalate output.actionNames]

def engineLines (engine : Engine) : List String :=
  let entry (e : String × Nat) := "  " ++ writeOrdinal e.2 ++ " " ++ Text.quoteText e.1
  let fragment (f : Automaton.Fragment) :=
    "nfa: " ++ writeNode f.start ++ " -> " ++ writeNode f.stop
  "ordinals:" :: engine.alphabet.entries.map entry ++ ((engine.fragment? 0).map fragment).toList

/-- Show how a pattern is read and what automaton it gets. -/
def dump (pattern : String) (mode : Mode) : CommandResult :=
  let reading := readPattern mode {} pattern
  let queue := ({} : Queue).addAll reading.diagnostics
  match reading.output? with
  | none => .failure "" (.diagnostics queue.messages)
  | some output =>
    let tree := unlines (treeLines output)
    match ({} : Engine).add output.pattern with
    | (_, .error fault) =>
      .failure tree (.diagnostics (queue.addAll fault.diagnostics).messages)
    | (engine, .ok _) =>
      let (engine, faults) := engine.bind
      if engine.isBound then
        .success (tree ++ unlines (engineLines engine) ++ engine.program.automaton.write)
      else
        .failure tree (.diagnostics (queue.addAll (faults.map (·.diagnostic))).messages)

end SymbolRegex.Command
