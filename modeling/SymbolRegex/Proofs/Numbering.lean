import SymbolRegex.Proofs.Compiling
import SymbolRegex.Proofs.Fragments
import SymbolRegex.Proofs.Written

/-! # Numbered actions

What is read has its actions numbered from left to right, an outer action before those
inside it. Over symbols each of them has a name, so that the names cover the indices of
all actions.
-/

namespace SymbolRegex
namespace Pattern

variable {α : Type} {p : Pattern α} {i j n : Nat} {body : Pattern α}

/-- The action `j` stands inside the action `i`. -/
def Inside (p : Pattern α) (i j : Nat) : Prop := ∃ body, (i, body) ∈ p.parts ∧ j ∈ body.actions

mutual

theorem sublist_actions : ∀ p : Pattern α, (i, body) ∈ p.parts →
    (i :: body.actions).Sublist p.actions
  | .leaf _, h => absurd h List.not_mem_nil
  | .sequence ps, h => sublist_allActions ps h
  | .choice ps, h => sublist_allActions ps h
  | .optional p, h => sublist_actions p h
  | .counted p _ _, h => sublist_actions p h
  | .oneOrMore p, h => sublist_actions p h
  | .zeroOrMore p, h => sublist_actions p h
  | .action j p, h => by
    rw [actions_action]
    rcases List.mem_cons.1 h with e | h
    · obtain ⟨rfl, rfl⟩ := Prod.mk.inj e
      exact List.Sublist.refl _
    · exact (sublist_actions p h).cons j

theorem sublist_allActions : ∀ ps : List (Pattern α), (i, body) ∈ allParts ps →
    (i :: body.actions).Sublist (allActions ps)
  | [], h => absurd h List.not_mem_nil
  | p :: ps, h => by
    rw [allActions_cons]
    rcases List.mem_append.1 h with h | h
    · exact (sublist_actions p h).trans (List.sublist_append_left _ _)
    · exact (sublist_allActions ps h).trans (List.sublist_append_right _ _)

end

mutual

theorem actionCount_le : ∀ p : Pattern α, (∀ i ∈ p.actions, i < n) → p.actionCount ≤ n
  | .leaf _, _ => Nat.zero_le n
  | .sequence ps, h => maxActionCount_le ps h
  | .choice ps, h => maxActionCount_le ps h
  | .optional p, h => actionCount_le p h
  | .counted p _ _, h => actionCount_le p h
  | .oneOrMore p, h => actionCount_le p h
  | .zeroOrMore p, h => actionCount_le p h
  | .action i p, h => by
    obtain ⟨hi, hp⟩ := List.forall_mem_cons.1 h
    exact Nat.max_le.2 ⟨hi, actionCount_le p hp⟩

theorem maxActionCount_le : ∀ ps : List (Pattern α), (∀ i ∈ allActions ps, i < n) →
    maxActionCount ps ≤ n
  | [], _ => Nat.zero_le n
  | p :: ps, h => by
    rw [allActions_cons, List.forall_mem_append] at h
    exact Nat.max_le.2 ⟨actionCount_le p h.1, maxActionCount_le ps h.2⟩

end

mutual

theorem lt_actionCount {i : Nat} {b : Pattern α} : ∀ p : Pattern α, (i, b) ∈ p.parts →
    i < p.actionCount
  | .leaf _, h => absurd h List.not_mem_nil
  | .sequence ps, h => lt_maxActionCount ps h
  | .choice ps, h => lt_maxActionCount ps h
  | .optional p, h => lt_actionCount p h
  | .counted p _ _, h => lt_actionCount p h
  | .oneOrMore p, h => lt_actionCount p h
  | .zeroOrMore p, h => lt_actionCount p h
  | .action j p, h => by
    rw [actionCount]
    rcases List.mem_cons.1 h with e | h
    · obtain rfl := congrArg Prod.fst e
      exact Nat.lt_of_lt_of_le (Nat.lt_succ_self i) (Nat.le_max_left _ _)
    · exact Nat.lt_of_lt_of_le (lt_actionCount p h) (Nat.le_max_right _ _)

theorem lt_maxActionCount {i : Nat} {b : Pattern α} : ∀ ps : List (Pattern α),
    (i, b) ∈ allParts ps → i < maxActionCount ps
  | [], h => absurd h List.not_mem_nil
  | p :: ps, h => by
    rw [maxActionCount]
    rcases List.mem_append.1 h with h | h
    · exact Nat.lt_of_lt_of_le (lt_actionCount p h) (Nat.le_max_left _ _)
    · exact Nat.lt_of_lt_of_le (lt_maxActionCount ps h) (Nat.le_max_right _ _)

end

def Numbered (p : Pattern α) : Prop := p.actions.Pairwise (· < ·)

/-- An action has a larger index than one that it stands inside. -/
theorem Numbered.lt (h : p.Numbered) (inside : p.Inside i j) : i < j := by
  obtain ⟨body, hbody, hj⟩ := inside
  exact List.rel_of_pairwise_cons (h.sublist (sublist_actions p hbody)) hj

theorem lt_actionCount_of_mem (h : i ∈ p.actions) : i < p.actionCount := by
  obtain ⟨⟨i, body⟩, hbody, rfl⟩ := List.mem_map.1 h
  exact lt_actionCount p hbody

end Pattern

namespace Phrase

variable {mode : Mode} {sets : SetTable}

theorem Choice.actions_output (c : Choice mode sets) :
    c.output.pattern.actions = List.range' 0 c.labels.length := by
  rw [Choice.output, actions_ofChoice, c.actions_branches]

theorem Choice.length_actionNames (c : Choice .symbol sets) :
    c.output.actionNames.length = c.labels.length := by
  have named (l : Label .symbol) : l.name?.isSome = true := by
    cases l
    rfl
  rw [Choice.output, List.length_filterMap_eq_countP, List.countP_eq_length]
  exact fun l _ => named l

end Phrase

/-- What is read from a source is what a phrase of its tokens stands for. -/
theorem exists_phrase_of_output {mode : Mode} {sets : SetTable} {source : String}
    {output : Parser.Output} (h : (readPattern mode sets source).output? = some output) :
    ∃ c : Phrase.Choice mode sets,
      c.tokens = (lex mode source).ahead.map (·.token) ∧ output = c.output := by
  rw [readPattern, Reading.output?_eq_some_iff] at h
  exact (Parser.whole_eq_ok_iff rfl).1 h

namespace Compilation

variable {mode : Mode} {sets : SetTable} {entry : PatternEntry} {output : Parser.Output}

theorem ReadAs.exists_phrase (h : ReadAs mode sets entry output) :
    ∃ c : Phrase.Choice mode sets, output = c.output := by
  obtain ⟨c, -, hc⟩ := exists_phrase_of_output h
  exact ⟨c, hc⟩

theorem ReadAs.numbered (h : ReadAs mode sets entry output) : output.pattern.Numbered := by
  obtain ⟨c, rfl⟩ := h.exists_phrase
  rw [Pattern.Numbered, c.actions_output]
  exact List.pairwise_lt_range' ..

theorem ReadAs.actionCount_le (h : ReadAs .symbol sets entry output) :
    output.pattern.actionCount ≤ output.actionNames.length := by
  obtain ⟨c, rfl⟩ := h.exists_phrase
  refine Pattern.actionCount_le _ fun i hi => ?_
  rw [c.actions_output, List.mem_range'_1] at hi
  rw [c.length_actionNames]
  omega

end Compilation
end SymbolRegex
