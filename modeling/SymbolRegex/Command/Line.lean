import SymbolRegex.Command.Dump
import SymbolRegex.Command.Explain
import SymbolRegex.Command.Match
import SymbolRegex.Command.Records

/-! # The command line

The arguments decide what is to be done. Only record processing needs anything
else: the content of its configuration file, and the standard input.
-/

namespace SymbolRegex.Command

structure Outcome where
  status : Nat := 0
  stdout : String := ""
  stderr : String := ""
deriving DecidableEq, Repr

/-- The outcome of a command; a failure is reported on standard error. -/
def Outcome.ofResult (r : CommandResult) : Outcome :=
  match r.fault? with
  | none => { stdout := r.output }
  | some fault => { status := 1, stdout := r.output, stderr := fault.report ++ "\n" }

def Outcome.misuse (lines : List String) : Outcome := { status := 1, stderr := unlines lines }

def usage : String := unlines
  ["ordex: regular expressions over a discovered symbol alphabet",
    "",
    "Usage: ordex <command> [options]",
    "",
    "Commands:",
    "  dump [--symbol] <pattern>          Show the parsed tree and its NFA",
    "  match [--symbol] [--exact] <pattern>... -- <input>",
    "                                     Match input against the patterns",
    "  tokenize <config.json>             Tokenize stdin, one record per line",
    "  symbolize <config.json>            Map whitespace-separated tokens to symbols",
    "  classify <config.json>             Classify whitespace-separated symbols",
    "  --explain <code>                   Explain an error code (e.g., E1004)",
    "  help                               Show this help message",
    "  version                            Show version information",
    "",
    "Set RUST_LOG (e.g. RUST_LOG=ordex_engine=debug) for a trace of each phase."]

def isSymbolFlag (arg : String) : Bool := arg = "--symbol" || arg = "-s"

def isExactFlag (arg : String) : Bool := arg = "--exact" || arg = "-e"

/-- Show the first argument that is no flag. -/
def dumpArgs (args : List String) : Outcome :=
  let mode := if args.any isSymbolFlag then .symbol else .char
  match args.find? (!isSymbolFlag ·) with
  | none => .misuse ["Usage: ordex dump [--symbol] <pattern>"]
  | some pattern => .ofResult (dump pattern mode)

/-- Flags and patterns stand before `--`, the words of the input after it. -/
def matchArgs (args : List String) : Outcome :=
  let before := args.takeWhile (· ≠ "--")
  let mode := if before.any isSymbolFlag then .symbol else .char
  let extent := if before.any isExactFlag then .whole else .leading
  let patterns := before.filter fun arg => !isSymbolFlag arg && !isExactFlag arg
  match args.dropWhile (· ≠ "--"), patterns with
  | _ :: input, _ :: _ =>
    .ofResult (runMatch patterns (" ".intercalate input) mode extent)
  | _, _ => .misuse ["Usage: ordex match [--symbol] [--exact] <pattern>... -- <input>"]

inductive Invocation where
  | finished (outcome : Outcome)
  /-- Process the records on standard input, as a configuration file says. -/
  | records (task : RecordTask) (path : String)

def Invocation.ofArgs : List String → Invocation
  | [] => .finished { stdout := usage }
  | command :: args =>
    match RecordTask.ofName? command with
    | some task =>
      match args with
      | path :: _ => .records task path
      | [] => .finished <| .misuse
          ["Usage: ordex " ++ command ++ " <config.json>", "",
            "Reads one record per line from stdin."]
    | none =>
      if command = "dump" then .finished (dumpArgs args)
      else if command = "match" then .finished (matchArgs args)
      else if command = "--explain" ∨ command = "explain" then
        match args with
        | code :: _ => .finished (.ofResult (explain code))
        | [] => .finished <| .misuse
            ["Usage: ordex --explain <ERROR_CODE>", "Example: ordex --explain E1004"]
      else if command = "help" ∨ command = "--help" ∨ command = "-h" then
        .finished { stdout := usage }
      else if command = "version" ∨ command = "--version" ∨ command = "-v" then
        .finished { stdout := "ordex 0.1.0\n" }
      else .finished
        { status := 1, stdout := usage, stderr := "Unknown command: " ++ command ++ "\n\n" }

/-- The outcome of record processing, given the content of the configuration file or the reason
why it cannot be read. -/
def recordsOutcome (task : RecordTask) (path : String) (config : Except String String)
    (stdin : ByteArray) : Outcome :=
  match config with
  | .error reason => .ofResult (.failure "" (.unreadableFile path reason))
  | .ok text => .ofResult (task.run text stdin)

end SymbolRegex.Command
