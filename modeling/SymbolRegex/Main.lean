import SymbolRegex.Command.Line

/-! # The program -/

open SymbolRegex.Command

/-- The content of a file, or why it cannot be read. -/
def readConfigFile (path : String) : IO (Except String String) := do
  try
    let bytes ← IO.FS.readBinFile path
    match String.fromUTF8? bytes with
    | some text => return .ok text
    | none => return .error "stream did not contain valid UTF-8"
  catch
    | .noFileOrDirectory .. => return .error "No such file or directory (os error 2)"
    | .permissionDenied .. => return .error "Permission denied (os error 13)"
    | e => return .error (toString e)

def main (args : List String) : IO UInt32 := do
  let outcome ← match Invocation.ofArgs args with
    | .finished outcome => pure outcome
    | .records task path =>
      match ← readConfigFile path with
      | .error reason => pure (recordsOutcome task path (.error reason) .empty)
      | .ok text => pure (recordsOutcome task path (.ok text) (← (← IO.getStdin).readBinToEnd))
  IO.print outcome.stdout
  IO.eprint outcome.stderr
  return UInt32.ofNat outcome.status
