import SymbolRegex.Config.Basic
import SymbolRegex.Diagnostic.Basic

/-! # Configuration faults

Why a configuration cannot be used. Faults in patterns carry the rendered
diagnostics, and the code of the first of them.
-/

namespace SymbolRegex

inductive ConfigFault where
  /-- The text is not a configuration of the wanted kind. -/
  | unreadable
  | pattern (index : Nat) (source : String) (code : Code) (messages : List String)
  | binding (code : Code) (messages : List String)
  | duplicateSet (name : String)
  | missingSymbol (index : Nat)
  | missingClasses (index actions classes : Nat)
deriving DecidableEq, Repr

namespace ConfigFault

def code : ConfigFault → Code
  | unreadable | missingSymbol _ => .malformedConfig
  | pattern _ _ code _ | binding code _ => code
  | duplicateSet _ => .duplicateSet
  | missingClasses _ _ _ => .missingClasses

def message : ConfigFault → String
  | unreadable => "malformed configuration"
  | pattern index source _ _ => s!"pattern {index} `{source}` does not compile"
  | binding _ _ => "patterns failed to bind"
  | duplicateSet name => "literal set `" ++ name ++ "` is defined more than once"
  | missingSymbol index => s!"pattern {index} has no SYMBOL"
  | missingClasses index actions classes =>
    s!"pattern {index} has {actions} actions but only {classes} classes"

/-- The rendered diagnostics behind a fault. -/
def messages : ConfigFault → List String
  | pattern _ _ _ messages | binding _ messages => messages
  | _ => []

end ConfigFault

/-- Read a configuration of any kind from its text. -/
def readConfig {α : Type} (ofValue? : ConfigValue → Option α) (text : String) :
    Except ConfigFault α :=
  match ConfigValue.parse? text >>= ofValue? with
  | some config => .ok config
  | none => .error .unreadable

def TokenizerConfig.read : String → Except ConfigFault TokenizerConfig := readConfig ofValue?

def SymbolizerConfig.read : String → Except ConfigFault SymbolizerConfig := readConfig ofValue?

def ClassifierConfig.read : String → Except ConfigFault ClassifierConfig := readConfig ofValue?

end SymbolRegex
