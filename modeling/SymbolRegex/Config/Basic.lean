import SymbolRegex.Config.Value

/-! # Configurations

The settings of the three steps of record processing. Their names are in upper
case, and an unknown, repeated or missing name or a value of the wrong kind makes
a configuration unreadable.
-/

namespace SymbolRegex

/-- A pattern and what it maps to. -/
structure PatternEntry where
  pattern : String
  /-- The symbol of the words that match. -/
  symbol? : Option String := none
  /-- The classes of the actions, in the order of their indices. -/
  classes? : Option (List String) := none
deriving DecidableEq, Repr

/-- A named symbol set that patterns may refer to. -/
structure SetDefinition where
  name : String
  members : List String
deriving DecidableEq, Repr

structure TokenizerConfig where
  /-- The characters that separate words and are dropped. -/
  whitespace : String := " \t\r\n"
  /-- The characters that separate words and are kept as tokens. -/
  framing : String := ""
  /-- Patterns whose action spans become tokens of their own. -/
  patterns : List PatternEntry := []
  /-- Patterns for words that are never split. -/
  nosplit : List PatternEntry := []
  sets : List SetDefinition := []
deriving DecidableEq, Repr

structure SymbolizerConfig where
  patterns : List PatternEntry
  /-- The symbol of words that no pattern matches, which otherwise stand for themselves. -/
  default? : Option String := none
  sets : List SetDefinition := []
deriving DecidableEq, Repr

structure ClassifierConfig where
  patterns : List PatternEntry
  /-- The class of positions outside all actions. -/
  default? : Option String := none
  sets : List SetDefinition := []
  /-- Whether to register all characters with one-byte code points first. -/
  byteAlphabet : Bool := false
deriving DecidableEq, Repr

open ConfigValue

def PatternEntry.ofValue? (v : ConfigValue) : Option PatternEntry := do
  let entries ← settings? ["PATTERN", "SYMBOL", "CLASSES"] v
  return {
    pattern := ← setting? entries "PATTERN" text?
    symbol? := ← setting? entries "SYMBOL" (nullable? text?) (some none)
    classes? := ← setting? entries "CLASSES" (nullable? (list? text?)) (some none) }

def SetDefinition.ofValue? (v : ConfigValue) : Option SetDefinition := do
  let entries ← settings? ["NAME", "SYMBOL_SET"] v
  return {
    name := ← setting? entries "NAME" text?
    members := ← setting? entries "SYMBOL_SET" (list? text?) }

def TokenizerConfig.ofValue? (v : ConfigValue) : Option TokenizerConfig := do
  let entries ← settings? ["WHITESPACE", "FRAMING", "PATTERNS", "NOSPLIT", "SYMBOL_SETS"] v
  let unset : TokenizerConfig := {}
  return {
    whitespace := ← setting? entries "WHITESPACE" text? unset.whitespace
    framing := ← setting? entries "FRAMING" text? unset.framing
    patterns := ← setting? entries "PATTERNS" (list? PatternEntry.ofValue?) unset.patterns
    nosplit := ← setting? entries "NOSPLIT" (list? PatternEntry.ofValue?) unset.nosplit
    sets := ← setting? entries "SYMBOL_SETS" (list? SetDefinition.ofValue?) unset.sets }

def SymbolizerConfig.ofValue? (v : ConfigValue) : Option SymbolizerConfig := do
  let entries ← settings? ["PATTERNS", "DEFAULT", "SYMBOL_SETS"] v
  return {
    patterns := ← setting? entries "PATTERNS" (list? PatternEntry.ofValue?)
    default? := ← setting? entries "DEFAULT" (nullable? text?) (some none)
    sets := ← setting? entries "SYMBOL_SETS" (list? SetDefinition.ofValue?) (some []) }

def ClassifierConfig.ofValue? (v : ConfigValue) : Option ClassifierConfig := do
  let entries ← settings? ["PATTERNS", "DEFAULT", "SYMBOL_SETS", "BYTE_ALPHABET"] v
  return {
    patterns := ← setting? entries "PATTERNS" (list? PatternEntry.ofValue?)
    default? := ← setting? entries "DEFAULT" (nullable? text?) (some none)
    sets := ← setting? entries "SYMBOL_SETS" (list? SetDefinition.ofValue?) (some [])
    byteAlphabet := ← setting? entries "BYTE_ALPHABET" bool? (some false) }

end SymbolRegex
