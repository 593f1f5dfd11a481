import SymbolRegex.Config.Fault

/-! # Commands

A command writes text and may fail; what it wrote before it failed is kept.
-/

namespace SymbolRegex

inductive CommandFault where
  /-- Rendered diagnostics of patterns. -/
  | diagnostics (messages : List String)
  | config (fault : ConfigFault)
  | unreadableFile (path reason : String)
  /-- The input is not UTF-8. -/
  | undecodableInput
  | unknownCode (text : String)
deriving DecidableEq, Repr

namespace CommandFault

def message : CommandFault → String
  | diagnostics messages => "\n".intercalate messages
  | config fault => fault.message
  | unreadableFile path reason => "cannot read `" ++ path ++ "`: " ++ reason
  | undecodableInput => "stream did not contain valid UTF-8"
  | unknownCode text => "unknown error code `" ++ text ++ "`"

/-- All there is to say about a failure. -/
def report (fault : CommandFault) : String :=
  match fault with
  | diagnostics _ => fault.message
  | config c => "\n".intercalate (s!"error[{c.code.label}]: {c.message}" :: c.messages)
  | _ => "error: " ++ fault.message

end CommandFault

structure CommandResult where
  output : String
  fault? : Option CommandFault := none
deriving DecidableEq, Repr

namespace CommandResult

def success (output : String) : CommandResult := ⟨output, none⟩

def failure (output : String) (fault : CommandFault) : CommandResult := ⟨output, some fault⟩

end CommandResult

/-- Lines as text, each with a line feed. -/
def unlines (lines : List String) : String := String.join (lines.map (· ++ "\n"))

end SymbolRegex
