import SymbolRegex.Record.Compilation

/-! # Classifying records

A record of symbols is matched as a whole. Each position inside the span of an
action gets the class of that action, the one with the highest index if there are
several, and all other positions get the default class.
-/

namespace SymbolRegex

/-- The pattern that matched a record, and the class of each position. -/
structure Classification where
  pattern : Nat
  classes : List String
deriving DecidableEq, Repr

structure Classifier where
  engine : Engine
  /-- For each pattern the classes of its actions. -/
  classes : List (List String)
  default : String

namespace Classifier

/-- The classes of the actions of each pattern, which are the action names if no others are
given. The first entry is number `index`. -/
def entryClasses (index : Nat) :
    List (PatternEntry × Parser.Output) → Except ConfigFault (List (List String))
  | [] => .ok []
  | (entry, output) :: rest =>
    let classes := entry.classes?.getD output.actionNames
    let actions := output.pattern.slotCount.toNat
    if classes.length < actions then
      .error (.missingClasses index actions classes.length)
    else (classes :: ·) <$> entryClasses (index + 1) rest

def ofConfig (config : ClassifierConfig) : Except ConfigFault Classifier := do
  let sets ← SetTable.ofDefinitions {} config.sets
  let compiled ← Compilation.ofEntries config.patterns .symbol sets config.byteAlphabet
  let classes ← entryClasses 0 (config.patterns.zip compiled.outputs)
  return ⟨compiled.engine, classes, config.default?.getD ""⟩

def paint (classes : List String) (span : ActionSpan) (name : String) : List String :=
  classes.mapIdx fun i c => if span.enter ≤ i ∧ i < span.leave then name else c

/-- The classes of a matched record of the given length. -/
def classify (c : Classifier) (found : Match) (length : Nat) : Classification :=
  let names := c.classes.getD found.pattern []
  let mark (classes : List String) (span : ActionSpan) :=
    match names[span.action]? with
    | some name => paint classes span name
    | none => classes
  ⟨found.pattern, found.actions.foldl mark (List.replicate length c.default)⟩

def process (c : Classifier) (symbols : List String) : Option Classification :=
  (c.engine.matchSymbols symbols .whole).map (c.classify · symbols.length)

def processCandidates (c : Classifier) (candidates : List (List String)) :
    Option Classification :=
  (c.engine.matchCandidates candidates .whole).map (c.classify · candidates.length)

end Classifier
end SymbolRegex
