import SymbolRegex.Record.Compilation

/-! # Symbolizing tokens

A token stands for the symbol of the first pattern that matches all of it. Read
more freely, it may stand for the symbol of any pattern that does, or for itself.
-/

namespace SymbolRegex

structure Symbolizer where
  engine : Engine
  /-- The symbols of the patterns, in order. -/
  symbols : List String
  default? : Option String

namespace Symbolizer

/-- The symbols of all entries, of which the first is number `index`. -/
def entrySymbols (index : Nat) : List PatternEntry → Except ConfigFault (List String)
  | [] => .ok []
  | entry :: rest =>
    match entry.symbol? with
    | none => .error (.missingSymbol index)
    | some symbol => (symbol :: ·) <$> entrySymbols (index + 1) rest

def ofConfig (config : SymbolizerConfig) : Except ConfigFault Symbolizer := do
  let symbols ← entrySymbols 0 config.patterns
  let sets ← SetTable.ofDefinitions {} config.sets
  let compiled ← Compilation.ofEntries config.patterns .char sets true
  return ⟨compiled.engine, symbols, config.default?⟩

def symbolOf (s : Symbolizer) (pattern : Nat) : String := s.symbols.getD pattern ""

/-- The symbol of a token: that of the first pattern that matches, else the default, else the
token itself. -/
def symbolize (s : Symbolizer) (token : String) : String :=
  match s.engine.matchText token .whole with
  | some found => s.symbolOf found.pattern
  | none => s.default?.getD token

/-- Everything that a token could stand for, each once, with the token itself at the end. -/
def candidates (s : Symbolizer) (token : String) : List String :=
  let symbols := (s.engine.allTextMatches token .whole).map (s.symbolOf ·.pattern)
  SetTable.appendNew (symbols.foldl SetTable.appendNew []) token

end Symbolizer
end SymbolRegex
