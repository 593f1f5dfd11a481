import Mathlib.Computability.Language
import SymbolRegex.Engine.Match

/-! # The language of a pattern

A pattern denotes a language over texts: leaves accept single symbols, and the
other nodes combine languages. A derivation shows how a word belongs to the
language and records the occurrences of actions that it passes. A word belongs to
the language exactly when it has a derivation.
-/

namespace SymbolRegex

namespace SetItem

/-- The texts that an item stands for; a range holds registered texts only. -/
def Accepts (a : Alphabet) : SetItem → String → Prop
  | literal text, s => s = text
  | range low high, s => s ∈ a.texts ∧ low ≤ s ∧ s ≤ high

end SetItem

namespace Leaf

/-- The texts that a leaf accepts. A negated set accepts all texts, registered or not, that none
of its items stands for. -/
def Accepts (a : Alphabet) : Leaf → String → Prop
  | literal text, s => s = text
  | range low high, s => s ∈ a.texts ∧ low ≤ s ∧ s ≤ high
  | set false items, s => ∃ item ∈ items, item.Accepts a s
  | set true items, s => ¬ ∃ item ∈ items, item.Accepts a s
  | any, _ => True

end Leaf

namespace Pattern

open Computability

variable {α β σ τ ε : Type}

mutual

/-- The words that match a pattern. A counted pattern is repeated between `lower` and `upper` times;
a lower bound above the upper one counts as the upper one. -/
def language (accepts : α → σ → Prop) : Pattern α → Language σ
  | leaf l => {w | ∃ x, accepts l x ∧ w = [x]}
  | sequence ps => sequenceLanguage accepts ps
  | choice ps => choiceLanguage accepts ps
  | optional p => language accepts p + 1
  | counted p lower upper =>
    {w | ∃ n, min lower upper ≤ n ∧ n ≤ upper ∧ w ∈ language accepts p ^ n}
  | oneOrMore p => language accepts p * (language accepts p)∗
  | zeroOrMore p => (language accepts p)∗
  | action _ p => language accepts p

def sequenceLanguage (accepts : α → σ → Prop) : List (Pattern α) → Language σ
  | [] => 1
  | p :: ps => language accepts p * sequenceLanguage accepts ps

def choiceLanguage (accepts : α → σ → Prop) : List (Pattern α) → Language σ
  | [] => 0
  | p :: ps => language accepts p + choiceLanguage accepts ps

end

/-- A derivation of a word that stands from position `k` on, with the occurrences of actions in the
order in which they begin. -/
inductive Derives (accepts : α → σ → Prop) :
    Pattern α → Nat → List σ → List ActionSpan → Prop where

  | leaf {l : α} {k : Nat} {x : σ} : accepts l x → Derives accepts (leaf l) k [x] []

  | nil {k : Nat} : Derives accepts (sequence []) k [] []

  | cons {p : Pattern α} {ps : List (Pattern α)} {k : Nat} {u v : List σ}
      {os os' : List ActionSpan} : Derives accepts p k u os →
      Derives accepts (sequence ps) (k + u.length) v os' →
      Derives accepts (sequence (p :: ps)) k (u ++ v) (os ++ os')

  | choice {p : Pattern α} {ps : List (Pattern α)} {k : Nat} {w : List σ}
      {os : List ActionSpan} : p ∈ ps → Derives accepts p k w os →
      Derives accepts (choice ps) k w os

  | skip {p : Pattern α} {k : Nat} : Derives accepts (optional p) k [] []

  | take {p : Pattern α} {k : Nat} {w : List σ} {os : List ActionSpan} :
      Derives accepts p k w os → Derives accepts (optional p) k w os

  | counted {p : Pattern α} {lower upper n k : Nat} {w : List σ} {os : List ActionSpan} :
      min lower upper ≤ n → n ≤ upper →
      Derives accepts (sequence (List.replicate n p)) k w os →
      Derives accepts (counted p lower upper) k w os

  | oneOrMore {p : Pattern α} {n k : Nat} {w : List σ} {os : List ActionSpan} :
      Derives accepts (sequence (List.replicate (n + 1) p)) k w os →
      Derives accepts (oneOrMore p) k w os

  | zeroOrMore {p : Pattern α} {n k : Nat} {w : List σ} {os : List ActionSpan} :
      Derives accepts (sequence (List.replicate n p)) k w os →
      Derives accepts (zeroOrMore p) k w os

  | action {i : Nat} {p : Pattern α} {k : Nat} {w : List σ} {os : List ActionSpan} :
      Derives accepts p k w os → Derives accepts (action i p) k w (⟨i, k, k + w.length⟩ :: os)

section Language

variable {accepts : α → σ → Prop} {p : Pattern α} {k : Nat} {w : List σ} {os : List ActionSpan}

theorem derives_nil_iff :
    Derives accepts (sequence []) k w os ↔ w = [] ∧ os = [] := by
  constructor
  · intro h; cases h; exact ⟨rfl, rfl⟩
  · rintro ⟨rfl, rfl⟩; exact .nil

theorem derives_cons_iff {ps : List (Pattern α)} :
    Derives accepts (sequence (p :: ps)) k w os ↔ ∃ u v os₁ os₂, w = u ++ v ∧ os = os₁ ++ os₂ ∧
      Derives accepts p k u os₁ ∧ Derives accepts (sequence ps) (k + u.length) v os₂ := by
  constructor
  · intro h; cases h with | cons hp hps => exact ⟨_, _, _, _, rfl, rfl, hp, hps⟩
  · rintro ⟨u, v, os₁, os₂, rfl, rfl, hp, hps⟩; exact .cons hp hps

theorem derives_leaf_iff {l : α} : Derives accepts (leaf l) k w os ↔
    (∃ x, w = [x] ∧ accepts l x) ∧ os = [] := by
  constructor
  · intro h; cases h with | leaf h => exact ⟨⟨_, rfl, h⟩, rfl⟩
  · rintro ⟨⟨x, rfl, h⟩, rfl⟩; exact .leaf h

theorem derives_choice_iff {ps : List (Pattern α)} :
    Derives accepts (choice ps) k w os ↔ ∃ p ∈ ps, Derives accepts p k w os := by
  constructor
  · intro h; cases h with | choice hp h => exact ⟨_, hp, h⟩
  · rintro ⟨p, hp, h⟩; exact .choice hp h

theorem derives_optional_iff : Derives accepts (optional p) k w os ↔
    Derives accepts p k w os ∨ w = [] ∧ os = [] := by
  constructor
  · intro h
    cases h with
    | skip => exact Or.inr ⟨rfl, rfl⟩
    | take h => exact Or.inl h
  · rintro (h | ⟨rfl, rfl⟩)
    · exact .take h
    · exact .skip

theorem derives_counted_iff {lower upper : Nat} : Derives accepts (counted p lower upper) k w os ↔
    ∃ n, min lower upper ≤ n ∧ n ≤ upper ∧
      Derives accepts (sequence (List.replicate n p)) k w os := by
  constructor
  · intro h; cases h with | counted hl hu h => exact ⟨_, hl, hu, h⟩
  · rintro ⟨n, hl, hu, h⟩; exact .counted hl hu h

theorem derives_oneOrMore_iff : Derives accepts (oneOrMore p) k w os ↔
    ∃ n, Derives accepts (sequence (List.replicate (n + 1) p)) k w os := by
  constructor
  · intro h; cases h with | oneOrMore h => exact ⟨_, h⟩
  · rintro ⟨n, h⟩; exact .oneOrMore h

theorem derives_zeroOrMore_iff : Derives accepts (zeroOrMore p) k w os ↔
    ∃ n, Derives accepts (sequence (List.replicate n p)) k w os := by
  constructor
  · intro h; cases h with | zeroOrMore h => exact ⟨_, h⟩
  · rintro ⟨n, h⟩; exact .zeroOrMore h

theorem derives_zeroOrMore_iff_oneOrMore : Derives accepts (zeroOrMore p) k w os ↔
    Derives accepts (oneOrMore p) k w os ∨ w = [] ∧ os = [] := by
  rw [derives_zeroOrMore_iff, derives_oneOrMore_iff]
  constructor
  · rintro ⟨_ | n, h⟩
    · exact Or.inr (derives_nil_iff.1 h)
    · exact Or.inl ⟨n, h⟩
  · rintro (⟨n, h⟩ | h)
    · exact ⟨n + 1, h⟩
    · exact ⟨0, derives_nil_iff.2 h⟩

theorem derives_action_iff {i : Nat} : Derives accepts (action i p) k w os ↔
    ∃ os', os = ⟨i, k, k + w.length⟩ :: os' ∧ Derives accepts p k w os' := by
  constructor
  · intro h; cases h with | action h => exact ⟨_, rfl, h⟩
  · rintro ⟨os', rfl, h⟩; exact .action h

theorem exists_derives_of_mem_pow {p : Pattern α}
    (body : ∀ {k w}, w ∈ language accepts p → ∃ os, Derives accepts p k w os) {n k : Nat}
    {w : List σ} (h : w ∈ language accepts p ^ n) :
    ∃ os, Derives accepts (sequence (List.replicate n p)) k w os := by
  induction n generalizing k w with
  | zero => exact ⟨[], derives_nil_iff.2 ⟨h, rfl⟩⟩
  | succ n ih =>
    rw [pow_succ'] at h
    obtain ⟨u, hu, v, hv, rfl⟩ := Language.mem_mul.1 h
    obtain ⟨os, hp⟩ := body hu
    obtain ⟨os', hps⟩ := ih hv
    exact ⟨_, .cons hp hps⟩

theorem sequenceLanguage_replicate (p : Pattern α) (n : Nat) :
    sequenceLanguage accepts (List.replicate n p) = language accepts p ^ n := by
  induction n with
  | zero => rfl
  | succ n ih => rw [List.replicate_succ, sequenceLanguage, ih, pow_succ']

theorem mem_choiceLanguage_iff {ps : List (Pattern α)} {w : List σ} :
    w ∈ choiceLanguage accepts ps ↔ ∃ p ∈ ps, w ∈ language accepts p := by
  induction ps with
  | nil => simp [choiceLanguage]
  | cons p ps ih => rw [choiceLanguage, Language.mem_add, ih, List.exists_mem_cons_iff]

theorem mem_language_of_derives {p : Pattern α} {k : Nat} {w : List σ} {os : List ActionSpan}
    (h : Derives accepts p k w os) : w ∈ language accepts p := by
  induction h with
  | leaf h => exact ⟨_, h, rfl⟩
  | nil => exact Language.nil_mem_one
  | cons _ _ hp hps => exact Language.append_mem_mul hp hps
  | choice h _ ih => exact mem_choiceLanguage_iff.2 ⟨_, h, ih⟩
  | skip => exact Or.inr rfl
  | take _ ih => exact Or.inl ih
  | counted hl hu _ ih =>
    rw [language, sequenceLanguage_replicate] at ih
    exact ⟨_, hl, hu, ih⟩
  | oneOrMore _ ih =>
    rw [language, sequenceLanguage_replicate, pow_succ'] at ih
    obtain ⟨u, hu, v, hv, rfl⟩ := Language.mem_mul.1 ih
    apply Language.append_mem_mul hu
    rw [Language.kstar_eq_iSup_pow]
    exact Language.mem_iSup.2 ⟨_, hv⟩
  | zeroOrMore _ ih =>
    rw [language, sequenceLanguage_replicate] at ih
    rw [language, Language.kstar_eq_iSup_pow]
    exact Language.mem_iSup.2 ⟨_, ih⟩
  | action _ ih => exact ih

mutual

theorem exists_derives_of_mem {p : Pattern α} {k : Nat} {w : List σ}
    (h : w ∈ language accepts p) : ∃ os, Derives accepts p k w os := by
  match p with
  | leaf l => obtain ⟨x, hx, rfl⟩ := h; exact ⟨_, .leaf hx⟩
  | sequence ps => exact exists_derives_sequence_of_mem h
  | choice ps =>
    obtain ⟨p, hp, os, hd⟩ := exists_derives_choice_of_mem (k := k) h
    exact ⟨os, .choice hp hd⟩
  | optional p =>
    rcases h with h | rfl
    · obtain ⟨os, hd⟩ := exists_derives_of_mem (k := k) h
      exact ⟨os, .take hd⟩
    · exact ⟨_, .skip⟩
  | counted p lower upper =>
    obtain ⟨n, hl, hu, h⟩ := h
    obtain ⟨os, hd⟩ := exists_derives_of_mem_pow (k := k) exists_derives_of_mem h
    exact ⟨os, .counted hl hu hd⟩
  | oneOrMore p =>
    obtain ⟨u, hu, v, hv, rfl⟩ := Language.mem_mul.1 h
    rw [Language.kstar_eq_iSup_pow] at hv
    obtain ⟨n, hv⟩ := Language.mem_iSup.1 hv
    have h : u ++ v ∈ language accepts p ^ (n + 1) := by
      rw [pow_succ']; exact Language.append_mem_mul hu hv
    obtain ⟨os, hd⟩ := exists_derives_of_mem_pow (k := k) exists_derives_of_mem h
    exact ⟨os, .oneOrMore hd⟩
  | zeroOrMore p =>
    rw [language, Language.kstar_eq_iSup_pow] at h
    obtain ⟨n, h⟩ := Language.mem_iSup.1 h
    obtain ⟨os, hd⟩ := exists_derives_of_mem_pow (k := k) exists_derives_of_mem h
    exact ⟨os, .zeroOrMore hd⟩
  | action i p =>
    obtain ⟨os, hd⟩ := exists_derives_of_mem (p := p) (k := k) h
    exact ⟨_, .action hd⟩

theorem exists_derives_sequence_of_mem {ps : List (Pattern α)} {k : Nat} {w : List σ}
    (h : w ∈ sequenceLanguage accepts ps) : ∃ os, Derives accepts (sequence ps) k w os := by
  match ps with
  | [] => exact ⟨[], derives_nil_iff.2 ⟨h, rfl⟩⟩
  | p :: ps =>
    obtain ⟨u, hu, v, hv, rfl⟩ := Language.mem_mul.1 h
    obtain ⟨os, hp⟩ := exists_derives_of_mem (k := k) hu
    obtain ⟨os', hps⟩ := exists_derives_sequence_of_mem (k := k + u.length) hv
    exact ⟨_, .cons hp hps⟩

theorem exists_derives_choice_of_mem {ps : List (Pattern α)} {k : Nat} {w : List σ}
    (h : w ∈ choiceLanguage accepts ps) : ∃ p ∈ ps, ∃ os, Derives accepts p k w os := by
  match ps with
  | [] => exact absurd h (Language.notMem_zero w)
  | p :: ps =>
    rcases h with h | h
    · obtain ⟨os, hd⟩ := exists_derives_of_mem (k := k) h
      exact ⟨p, List.mem_cons_self, os, hd⟩
    · obtain ⟨q, hq, os, hd⟩ := exists_derives_choice_of_mem (k := k) h
      exact ⟨q, List.mem_cons_of_mem p hq, os, hd⟩

end

/-- The language of a pattern holds exactly the words that have a derivation. -/
theorem mem_language_iff {p : Pattern α} {w : List σ} (k : Nat) :
    w ∈ language accepts p ↔ ∃ os, Derives accepts p k w os :=
  ⟨exists_derives_of_mem, fun ⟨_, h⟩ => mem_language_of_derives h⟩

end Language
end Pattern
end SymbolRegex
