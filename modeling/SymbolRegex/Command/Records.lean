import SymbolRegex.Command.Basic
import SymbolRegex.Record.Classifier
import SymbolRegex.Record.Symbolizer
import SymbolRegex.Record.Tokenizer
import SymbolRegex.Text.Blank
import SymbolRegex.Text.Lines

/-! # Processing records line by line

Each of these commands takes the text of a configuration and an input with one
record on each line, and writes one line for each record.
-/

namespace SymbolRegex.Command

inductive RecordTask where
  | tokenize | symbolize | classify
deriving DecidableEq, Repr

namespace RecordTask

def name : RecordTask → String
  | tokenize => "tokenize"
  | symbolize => "symbolize"
  | classify => "classify"

def ofName? (text : String) : Option RecordTask :=
  [tokenize, symbolize, classify].find? fun task => task.name = text

def classifiedLine : Option Classification → String
  | none => "no match"
  | some c => toString c.pattern ++ ": " ++ " ".intercalate c.classes

/-- The function from records to lines that a configuration sets up. -/
def lineFunction (task : RecordTask) (config : String) : Except ConfigFault (String → String) :=
  match task with
  | tokenize => do
    let t ← Tokenizer.ofConfig (← TokenizerConfig.read config)
    return fun line => " ".intercalate (t.tokenize line)
  | symbolize => do
    let s ← Symbolizer.ofConfig (← SymbolizerConfig.read config)
    return fun line => " ".intercalate ((Text.words line).map s.symbolize)
  | classify => do
    let c ← Classifier.ofConfig (← ClassifierConfig.read config)
    return fun line => classifiedLine (c.process (Text.words line))

/-- Process all lines of an input. -/
def run (task : RecordTask) (config : String) (input : ByteArray) : CommandResult :=
  match task.lineFunction config with
  | .error fault => .failure "" (.config fault)
  | .ok line =>
    let lines := Text.Lines.ofBytes input
    ⟨unlines (lines.texts.map line), if lines.complete then none else some .undecodableInput⟩

end RecordTask
end SymbolRegex.Command
