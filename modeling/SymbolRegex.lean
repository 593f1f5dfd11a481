import SymbolRegex.Alphabet.Basic
import SymbolRegex.Alphabet.Binding
import SymbolRegex.Alphabet.OrdinalSet
import SymbolRegex.Automaton.Basic
import SymbolRegex.Automaton.Construction
import SymbolRegex.Automaton.Simulation
import SymbolRegex.Command.Basic
import SymbolRegex.Command.Dump
import SymbolRegex.Command.Explain
import SymbolRegex.Command.Line
import SymbolRegex.Command.Match
import SymbolRegex.Command.Records
import SymbolRegex.Config.Basic
import SymbolRegex.Config.Fault
import SymbolRegex.Config.Value
import SymbolRegex.Diagnostic.Basic
import SymbolRegex.Diagnostic.Code
import SymbolRegex.Diagnostic.Queue
import SymbolRegex.Engine.Basic
import SymbolRegex.Engine.Match
import SymbolRegex.Main
import SymbolRegex.Pattern.Basic
import SymbolRegex.Pattern.Class
import SymbolRegex.Pattern.Fault
import SymbolRegex.Pattern.Parser
import SymbolRegex.Pattern.Printer
import SymbolRegex.Pattern.SetTable
import SymbolRegex.Proofs.FirstOccurrences
import SymbolRegex.Proofs.Growth
import SymbolRegex.Proofs.Language
import SymbolRegex.Proofs.Occurrence
import SymbolRegex.Proofs.Walk
import SymbolRegex.Proofs.Layout
import SymbolRegex.Proofs.Realization
import SymbolRegex.Proofs.Path
import SymbolRegex.Record.Classifier
import SymbolRegex.Record.Compilation
import SymbolRegex.Record.Symbolizer
import SymbolRegex.Record.Tokenizer
import SymbolRegex.Text.Alphanumeric
import SymbolRegex.Text.Blank
import SymbolRegex.Text.InversionList
import SymbolRegex.Text.Lines
import SymbolRegex.Text.Quoted
import SymbolRegex.Text.Unshown
import SymbolRegex.Token.Basic
import SymbolRegex.Token.Escape
import SymbolRegex.Token.Fault
import SymbolRegex.Token.Lexeme
import SymbolRegex.Token.Stream
import SymbolRegex.Proofs.Exploration
import SymbolRegex.Proofs.Soundness
import SymbolRegex.Proofs.Acceptance
import SymbolRegex.Proofs.Fragments
import SymbolRegex.Proofs.Binding
import SymbolRegex.Proofs.Calls
import SymbolRegex.Proofs.History
import SymbolRegex.Proofs.Matching
import SymbolRegex.Proofs.Spans
import SymbolRegex.Proofs.Candidates
import SymbolRegex.Proofs.Priority
import SymbolRegex.Proofs.Phrase
import SymbolRegex.Proofs.Reading
import SymbolRegex.Proofs.Recognition
import SymbolRegex.Proofs.Unambiguous
import SymbolRegex.Proofs.Reporting
import SymbolRegex.Proofs.Flattening
import SymbolRegex.Proofs.Written
import SymbolRegex.Proofs.Spelling
import SymbolRegex.Proofs.RoundTrip
import SymbolRegex.Proofs.Lifecycle
import SymbolRegex.Proofs.Compiling
import SymbolRegex.Proofs.Cutting
import SymbolRegex.Proofs.Tokens
import SymbolRegex.Proofs.Classification
import SymbolRegex.Proofs.Ambiguity
import SymbolRegex.Proofs.Numbering
import SymbolRegex.Proofs.Slices
import SymbolRegex.Proofs.Likeness
import SymbolRegex.Proofs.Registering
import SymbolRegex.Proofs.Isolation
import SymbolRegex.Proofs.Renaming
import SymbolRegex.Proofs.Replacement
import SymbolRegex.Proofs.Parallel
import SymbolRegex.Proofs.Expansion
import SymbolRegex.Proofs.Blame
import SymbolRegex.Proofs.Filtering
import SymbolRegex.Proofs.Prefixes
import SymbolRegex.Proofs.Sizes
import SymbolRegex.Proofs.Lexing
import SymbolRegex.Proofs.Labels
import SymbolRegex.Proofs.Rejection
import SymbolRegex.Proofs.Gaps
import SymbolRegex.Proofs.Splitting
import SymbolRegex.Proofs.Members
import SymbolRegex.Proofs.Discovery
import SymbolRegex.Proofs.Definitions
import SymbolRegex.Proofs.SettingUp
import SymbolRegex.Proofs.Agreement
import SymbolRegex.Proofs.Frame
import SymbolRegex.Proofs.Closure
