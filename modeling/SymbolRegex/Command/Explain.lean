import SymbolRegex.Command.Basic

/-! # Explaining diagnostic codes -/

namespace SymbolRegex.Command

/-- Say what a code stands for. -/
def explain (text : String) : CommandResult :=
  match Code.ofLabel? text with
  | some code => .success s!"{code.label} ({code.phase.name}): {code.description}\n"
  | none => .failure "" (.unknownCode text)

end SymbolRegex.Command
