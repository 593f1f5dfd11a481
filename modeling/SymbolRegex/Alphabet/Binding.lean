import SymbolRegex.Alphabet.Basic
import SymbolRegex.Alphabet.OrdinalSet
import SymbolRegex.Diagnostic.Basic
import SymbolRegex.Pattern.Basic

/-! # Binding patterns to an alphabet

A pattern is set up before it is bound: the texts that it mentions are registered as
they come, and what was registered stays when one of them cannot be. Binding turns
each leaf of the pattern into the set of ordinals that it accepts. It fails at the
first leaf that mentions a symbol that is not registered, or a range whose upper end
does not come after its lower end.
-/

namespace SymbolRegex

/-- A pattern over ordinals. -/
abbrev BoundPattern := Pattern OrdinalSet

inductive BindFault where
  | unregistered (symbol : String)
  | inverted (low high : String)
deriving DecidableEq, Repr

def BindFault.diagnostic : BindFault → Diagnostic
  | unregistered symbol =>
    .error .unregisteredSymbol ("symbol `" ++ symbol ++ "` was never registered")
      ["every pattern must be set up before the engine is bound"]
  | inverted low high =>
    .error .invertedRange ("invalid range `" ++ low ++ "`-`" ++ high ++ "`")
      ["the upper bound must sort after the lower bound"]

namespace Alphabet

def setUpItems (a : Alphabet) : List SetItem → Alphabet × Option RegistrationFault
  | [] => (a, none)
  | item :: rest =>
    match a.registerAll item.symbols with
    | (a', none) => a'.setUpItems rest
    | (a', some fault) => (a', some fault)

def setUpLeaf (a : Alphabet) : Leaf → Alphabet × Option RegistrationFault
  | .literal text => a.registerAll [text]
  | .range low high => a.registerAll [low, high]
  | .set _ items => a.setUpItems items
  | .any => (a, none)

mutual

/-- Register the texts that a pattern mentions. -/
def setUp (a : Alphabet) : TextPattern → Alphabet × Option RegistrationFault
  | .leaf l => a.setUpLeaf l
  | .sequence ps => setUpAll a ps
  | .choice ps => setUpAll a ps
  | .optional p => setUp a p
  | .counted p _ _ => setUp a p
  | .oneOrMore p => setUp a p
  | .zeroOrMore p => setUp a p
  | .action _ p => setUp a p

def setUpAll (a : Alphabet) : List TextPattern → Alphabet × Option RegistrationFault
  | [] => (a, none)
  | p :: ps =>
    match setUp a p with
    | (a', none) => setUpAll a' ps
    | (a', some fault) => (a', some fault)

end

def bindText (a : Alphabet) (text : String) : Except BindFault Nat :=
  match a.ordinal? text with
  | some i => .ok i
  | none => .error (.unregistered text)

def bindLiteral (a : Alphabet) (text : String) : Except BindFault OrdinalSet :=
  OrdinalSet.singleton a.width <$> a.bindText text

def bindRange (a : Alphabet) (low high : String) : Except BindFault OrdinalSet := do
  let _ ← a.bindText low
  let _ ← a.bindText high
  if high ≤ low then throw (.inverted low high)
  return .ofList a.width (a.range low high)

def bindItem (a : Alphabet) : SetItem → Except BindFault OrdinalSet
  | .literal text => a.bindLiteral text
  | .range low high => a.bindRange low high

/-- The union of `start` with the sets of several items. -/
def bindItems (a : Alphabet) (start : OrdinalSet) : List SetItem → Except BindFault OrdinalSet
  | [] => .ok start
  | item :: rest => do a.bindItems (start.union (← a.bindItem item)) rest

/-- The ordinals that a leaf accepts. -/
def bindLeaf (a : Alphabet) : Leaf → Except BindFault OrdinalSet
  | .literal text => a.bindLiteral text
  | .range low high => a.bindRange low high
  | .set negated items => do
    let union ← a.bindItems (.empty a.width) items
    return if negated then union.compl else union
  | .any => .ok (.full a.width)

def bindPattern (a : Alphabet) (p : TextPattern) : Except BindFault BoundPattern :=
  p.mapLeaves a.bindLeaf

theorem registerAll_append (a : Alphabet) (texts more : List String) :
    a.registerAll (texts ++ more) =
      match a.registerAll texts with
      | (a', none) => a'.registerAll more
      | (a', some fault) => (a', some fault) := by
  induction texts generalizing a with
  | nil => rfl
  | cons text rest ih =>
    rw [List.cons_append, registerAll, registerAll]
    cases a.register text with
    | ok r => exact ih r.2
    | error fault => rfl

theorem setUpItems_eq (a : Alphabet) (items : List SetItem) :
    a.setUpItems items = a.registerAll (items.flatMap SetItem.symbols) := by
  induction items generalizing a with
  | nil => rfl
  | cons item rest ih =>
    rw [List.flatMap_cons, registerAll_append, setUpItems]
    simp only [ih]

theorem setUpLeaf_eq (a : Alphabet) (l : Leaf) : a.setUpLeaf l = a.registerAll l.symbols := by
  cases l with
  | literal text => rfl
  | range low high => rfl
  | set negated items => exact a.setUpItems_eq items
  | any => rfl

mutual

/-- Setting a pattern up registers its texts from left to right. -/
theorem setUp_eq (a : Alphabet) : ∀ p : TextPattern, a.setUp p = a.registerAll p.symbols
  | .leaf l => by
    rw [setUp, setUpLeaf_eq, TextPattern.symbols, Pattern.leaves, List.flatMap_singleton]
  | .sequence ps => setUpAll_eq a ps
  | .choice ps => setUpAll_eq a ps
  | .optional p => setUp_eq a p
  | .counted p _ _ => setUp_eq a p
  | .oneOrMore p => setUp_eq a p
  | .zeroOrMore p => setUp_eq a p
  | .action _ p => setUp_eq a p

theorem setUpAll_eq (a : Alphabet) : ∀ ps : List TextPattern,
    a.setUpAll ps = a.registerAll ((Pattern.allLeaves ps).flatMap Leaf.symbols)
  | [] => rfl
  | p :: ps => by
    rw [setUpAll, Pattern.allLeaves, List.flatMap_append, registerAll_append, setUp_eq a p,
      TextPattern.symbols]
    split
    · next a' _ => exact setUpAll_eq a' ps
    · rfl

end

end Alphabet
end SymbolRegex
