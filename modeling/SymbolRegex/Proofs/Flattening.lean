import SymbolRegex.Engine.Basic
import SymbolRegex.Proofs.Occurrence

/-! # Flattened choices

A choice inside a choice offers its branches as if they were branches of the
outer one. Putting them there keeps the actions of a pattern and its automaton,
down to the order of nodes and arcs.
-/

namespace SymbolRegex
namespace Pattern

variable {α β ε : Type}

/-- The alternatives of a pattern, which is the only one unless it is a choice. -/
def alternatives : Pattern α → List (Pattern α)
  | choice ps => ps
  | p => [p]

theorem alternatives_of_not_list {p : Pattern α} (h : p.isList = false) :
    p.alternatives = [p] := by
  cases p <;> first | rfl | contradiction

mutual

/-- Replace each choice that is a branch of a choice by its branches. -/
def flatten : Pattern α → Pattern α
  | leaf a => leaf a
  | sequence ps => sequence (flattenItems ps)
  | choice ps => choice (flattenBranches ps)
  | optional p => optional (flatten p)
  | counted p min max => counted (flatten p) min max
  | oneOrMore p => oneOrMore (flatten p)
  | zeroOrMore p => zeroOrMore (flatten p)
  | action i p => action i (flatten p)

def flattenItems : List (Pattern α) → List (Pattern α)
  | [] => []
  | p :: ps => flatten p :: flattenItems ps

def flattenBranches : List (Pattern α) → List (Pattern α)
  | [] => []
  | p :: ps => alternatives (flatten p) ++ flattenBranches ps

end

@[simp] theorem isLeaf_flatten (p : Pattern α) : p.flatten.isLeaf = p.isLeaf := by
  cases p <;> rfl

@[simp] theorem isList_flatten (p : Pattern α) : p.flatten.isList = p.isList := by
  cases p <;> rfl

@[simp] theorem length_flattenItems (ps : List (Pattern α)) :
    (flattenItems ps).length = ps.length := by
  induction ps with
  | nil => rfl
  | cons p ps ih => simp [flattenItems, ih]

theorem flattenBranches_append (ps qs : List (Pattern α)) :
    flattenBranches (ps ++ qs) = flattenBranches ps ++ flattenBranches qs := by
  induction ps with
  | nil => rfl
  | cons p ps ih => simp [flattenBranches, ih]

theorem flattenBranches_alternatives (p : Pattern α) :
    flattenBranches p.alternatives = p.flatten.alternatives := by
  cases p <;> simp [alternatives, flattenBranches, flatten]

mutual

theorem flatten_flatten : ∀ p : Pattern α, p.flatten.flatten = p.flatten
  | leaf _ => rfl
  | sequence ps => congrArg sequence (flattenItems_flattenItems ps)
  | choice ps => congrArg choice (flattenBranches_flattenBranches ps)
  | optional p | counted p _ _ | oneOrMore p | zeroOrMore p | action _ p => by
    simp only [flatten, flatten_flatten p]

theorem flattenItems_flattenItems : ∀ ps : List (Pattern α),
    flattenItems (flattenItems ps) = flattenItems ps
  | [] => rfl
  | p :: ps => by
    simp only [flattenItems, flatten_flatten p, flattenItems_flattenItems ps]

theorem flattenBranches_flattenBranches : ∀ ps : List (Pattern α),
    flattenBranches (flattenBranches ps) = flattenBranches ps
  | [] => rfl
  | p :: ps => by
    rw [flattenBranches, flattenBranches_append, flattenBranches_alternatives, flatten_flatten p,
      flattenBranches_flattenBranches ps]

end

/-! ## Actions -/

theorem allActions_append (ps qs : List (Pattern α)) :
    allActions (ps ++ qs) = allActions ps ++ allActions qs := by
  rw [allActions, allParts_append, List.map_append]; rfl

theorem allActions_alternatives (p : Pattern α) : allActions p.alternatives = p.actions := by
  cases p <;> simp [alternatives, allActions, allParts, actions, parts]

mutual

theorem actions_flatten : ∀ p : Pattern α, p.flatten.actions = p.actions
  | leaf _ => rfl
  | sequence ps => allActions_flattenItems ps
  | choice ps => allActions_flattenBranches ps
  | optional p | counted p _ _ | oneOrMore p | zeroOrMore p => p.actions_flatten
  | action i p => by rw [flatten, actions_action, actions_action, actions_flatten p]

theorem allActions_flattenItems : ∀ ps : List (Pattern α),
    allActions (flattenItems ps) = allActions ps
  | [] => rfl
  | p :: ps => by
    rw [flattenItems, allActions_cons, allActions_cons, actions_flatten p,
      allActions_flattenItems ps]

theorem allActions_flattenBranches : ∀ ps : List (Pattern α),
    allActions (flattenBranches ps) = allActions ps
  | [] => rfl
  | p :: ps => by
    rw [flattenBranches, allActions_append, allActions_alternatives, allActions_cons,
      actions_flatten p, allActions_flattenBranches ps]

end

/-! ## Binding -/

theorem mapAllLeaves_append (f : α → Except ε β) (ps qs : List (Pattern α)) :
    mapAllLeaves f (ps ++ qs) =
      (do return (← mapAllLeaves f ps) ++ (← mapAllLeaves f qs)) := by
  have hnil : (mapAllLeaves f [] : Except ε _) = pure [] := rfl
  induction ps with
  | nil => simp [hnil]
  | cons p ps ih => simp [mapAllLeaves, ih]

theorem mapAllLeaves_singleton (f : α → Except ε β) (p : Pattern α) :
    mapAllLeaves f [p] = ([·]) <$> mapLeaves f p := by
  rw [mapAllLeaves]
  cases mapLeaves f p <;> rfl

theorem mapAllLeaves_alternatives (f : α → Except ε β) (p : Pattern α) :
    mapAllLeaves f p.alternatives = alternatives <$> mapLeaves f p := by
  cases p <;> simp [alternatives, mapAllLeaves_singleton, mapLeaves]

mutual

theorem mapLeaves_flatten (f : α → Except ε β) : ∀ p : Pattern α,
    mapLeaves f p.flatten = flatten <$> mapLeaves f p
  | leaf a => by simp [flatten, mapLeaves]
  | sequence ps => by simp [flatten, mapLeaves, mapAllLeaves_flattenItems f ps]
  | choice ps => by simp [flatten, mapLeaves, mapAllLeaves_flattenBranches f ps]
  | optional p | counted p _ _ | oneOrMore p | zeroOrMore p | action _ p => by
    simp [flatten, mapLeaves, mapLeaves_flatten f p]

theorem mapAllLeaves_flattenItems (f : α → Except ε β) : ∀ ps : List (Pattern α),
    mapAllLeaves f (flattenItems ps) = flattenItems <$> mapAllLeaves f ps
  | [] => rfl
  | p :: ps => by
    simp [flattenItems, mapAllLeaves, mapLeaves_flatten f p, mapAllLeaves_flattenItems f ps]

theorem mapAllLeaves_flattenBranches (f : α → Except ε β) : ∀ ps : List (Pattern α),
    mapAllLeaves f (flattenBranches ps) = flattenBranches <$> mapAllLeaves f ps
  | [] => rfl
  | p :: ps => by
    simp [flattenBranches, mapAllLeaves, mapAllLeaves_append, mapAllLeaves_alternatives,
      mapLeaves_flatten f p, mapAllLeaves_flattenBranches f ps]

end

end Pattern

namespace Automaton

open Pattern

theorem wireChoice_append (ps qs : List BoundPattern) (start stop : NodeId) (a : Automaton) :
    wireChoice (ps ++ qs) start stop a = wireChoice qs start stop (wireChoice ps start stop a) := by
  induction ps generalizing a with
  | nil => simp [wireChoice]
  | cons p ps ih => simp [wireChoice, ih]

theorem wireChoice_alternatives (p : BoundPattern) : wireChoice p.alternatives = wire p := by
  funext start stop a
  cases p <;> simp [alternatives, wireChoice, wire]

mutual

theorem wire_flatten : ∀ p : BoundPattern, wire p.flatten = wire p
  | .leaf _ => rfl
  | .sequence ps => by rw [flatten, wire, wire, wireSequence_flatten ps]
  | .choice ps => by rw [flatten, wire, wire, wireChoice_flatten ps]
  | .optional p | .counted p _ _ | .oneOrMore p | .zeroOrMore p | .action _ p => by
    simp only [flatten, wire, wire_flatten p]

theorem wireSequence_flatten : ∀ ps : List BoundPattern,
    wireSequence (flattenItems ps) = wireSequence ps
  | [] => rfl
  | [p] => by simp only [flattenItems, wireSequence, wire_flatten p]
  | p :: q :: ps => by
    have h := wireSequence_flatten (q :: ps)
    simp only [flattenItems] at h
    simp only [flattenItems, wireSequence, wire_flatten p, h]

theorem wireChoice_flatten : ∀ ps : List BoundPattern,
    wireChoice (flattenBranches ps) = wireChoice ps
  | [] => rfl
  | p :: ps => by
    funext start stop a
    rw [flattenBranches, wireChoice_append, wireChoice_alternatives, wire_flatten p,
      wireChoice_flatten ps, wireChoice]

end

end Automaton

theorem Program.add_flatten (program : Program) (b : BoundPattern) :
    program.add b.flatten = program.add b := by
  rw [add, add, Automaton.wire_flatten, Pattern.slotCount_congr b.actions_flatten]

/-- A flattened pattern is bound to an alphabet as the pattern is, to the same automaton. -/
theorem Program.add_bind_flatten (program : Program) (a : Alphabet) (p : TextPattern) :
    program.add <$> a.bindPattern p.flatten = program.add <$> a.bindPattern p := by
  rw [Alphabet.bindPattern, Alphabet.bindPattern, Pattern.mapLeaves_flatten, ← comp_map]
  congr 1
  funext b
  exact add_flatten program b

end SymbolRegex
