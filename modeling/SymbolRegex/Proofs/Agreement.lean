import SymbolRegex.Proofs.Likeness

/-! # Ways of giving an input

A run asks of an input symbol only which sets accept it. A set accepts a known symbol
exactly if it shares a member with the set of that symbol alone, so an input gives the
same matches as a text, as symbols, as ordinals, and as lists of one candidate each.
-/

namespace SymbolRegex

open Automaton

variable {x x' : Input} {input input' : List Input}

/-! ## Inputs that every set accepts alike -/

namespace Automaton

theorem symbolSteps_congr (same : x.Alike (· = ·) x') (a : Automaton) (pos : Nat) :
    a.symbolSteps pos x = a.symbolSteps pos x' := by
  ext1 t
  apply List.filterMap_congr
  intro arc _
  cases arc.label with
  | epsilon => rfl
  | symbols set => simp only [same rfl]

theorem step_congr (same : x.Alike (· = ·) x') (a : Automaton) (pos : Nat) (s : Scratch) :
    a.step pos x s = a.step pos x' s := by
  rw [step, step, symbolSteps_congr same]

theorem runFrom_congr (same : List.Forall₂ (Input.Alike (· = ·)) input input') (a : Automaton)
    (fragment : Fragment) (extent : Extent) (pos : Nat) (s : Scratch)
    (best : Option Acceptance) :
    a.runFrom fragment extent pos input s best = a.runFrom fragment extent pos input' s best := by
  induction same generalizing pos s best with
  | nil => rfl
  | cons hx _ ih =>
    rw [runFrom, runFrom, step_congr hx]
    simp only [List.isEmpty_cons, ih]

theorem run_congr (same : List.Forall₂ (Input.Alike (· = ·)) input input') (a : Automaton)
    (fragment : Fragment) (extent : Extent) (s : Scratch) :
    a.run fragment input extent s = a.run fragment input' extent s :=
  runFrom_congr same a fragment extent 0 _ none

end Automaton

namespace Program

theorem findFrom_congr (same : List.Forall₂ (Input.Alike (· = ·)) input input') (a : Automaton)
    (extent : Extent) (i : Nat) (s : Scratch) (fragments : List Fragment) :
    findFrom a input extent i s fragments = findFrom a input' extent i s fragments := by
  induction fragments generalizing i s with
  | nil => rfl
  | cons fragment fragments ih =>
    rw [findFrom, findFrom, run_congr same]
    simp only [ih]

theorem find_congr (same : List.Forall₂ (Input.Alike (· = ·)) input input') (p : Program)
    (extent : Extent) : p.find input extent = p.find input' extent :=
  findFrom_congr same p.automaton extent 0 _ p.fragments

end Program

/-! ## One candidate at each position -/

/-- A set has the ordinal of a text exactly if it meets the set of that ordinal alone, since the
ordinals of all texts, known or not, are below the width. -/
theorem Alphabet.symbol_alike_candidates (a : Alphabet) (text : String) :
    (Input.symbol (a.ordinal text)).Alike (· = ·)
      (.candidates (.ofList a.width ([text].map a.ordinal))) := by
  rintro set _ rfl
  have lt := a.ordinal_lt_width text
  rw [Input.accepts, Input.accepts, Bool.eq_iff_iff, OrdinalSet.intersects_iff]
  constructor
  · intro h
    exact ⟨a.ordinal text, h, by simp [lt]⟩
  · rintro ⟨i, hi, alone⟩
    obtain ⟨-, rfl⟩ : i < a.width ∧ i = a.ordinal text := by simpa using alone
    exact hi

namespace Engine

theorem symbolInput_alike (e : Engine) (symbols : List String) :
    List.Forall₂ (Input.Alike (· = ·)) (e.symbolInput symbols)
      (e.candidateInput (symbols.map fun text => [text])) := by
  rw [symbolInput, candidateInput, List.map_map, List.forall₂_map_left_iff,
    List.forall₂_map_right_iff, List.forall₂_same]
  intro text _
  exact e.alphabet.symbol_alike_candidates text

theorem matchSymbols_eq_matchCandidates (e : Engine) (symbols : List String) (extent : Extent) :
    e.matchSymbols symbols extent =
      e.matchCandidates (symbols.map fun text => [text]) extent :=
  Program.find_congr (e.symbolInput_alike symbols) e.program extent

theorem matchSymbols_eq_matchOrdinals (e : Engine) (symbols : List String) (extent : Extent) :
    e.matchSymbols symbols extent = e.matchOrdinals (symbols.map e.alphabet.ordinal) extent := by
  rw [matchSymbols, matchOrdinals, symbolInput, List.map_map]
  rfl

/-- An engine, bound or not, finds the same match in a text and in its characters as symbols, in
symbols and in their ordinals, and in symbols and in lists of one candidate each. -/
theorem matches_agree (e : Engine) (extent : Extent) :
    (∀ symbols : List String,
      e.matchSymbols symbols extent = e.matchOrdinals (symbols.map e.alphabet.ordinal) extent ∧
      e.matchSymbols symbols extent =
        e.matchCandidates (symbols.map fun text => [text]) extent) ∧
    ∀ text : String, let symbols := text.toList.map Char.toString
      e.matchText text extent = e.matchSymbols symbols extent ∧
      e.matchText text extent = e.matchOrdinals (symbols.map e.alphabet.ordinal) extent ∧
      e.matchText text extent = e.matchCandidates (symbols.map fun text => [text]) extent := by
  constructor
  · intro symbols
    exact ⟨e.matchSymbols_eq_matchOrdinals symbols extent,
      e.matchSymbols_eq_matchCandidates symbols extent⟩
  · intro text symbols
    have characters : e.matchText text extent = e.matchSymbols symbols extent := rfl
    rw [characters]
    exact ⟨rfl, e.matchSymbols_eq_matchOrdinals symbols extent,
      e.matchSymbols_eq_matchCandidates symbols extent⟩

end Engine

end SymbolRegex
