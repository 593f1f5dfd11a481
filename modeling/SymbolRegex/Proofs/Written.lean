import SymbolRegex.Pattern.Printer
import SymbolRegex.Proofs.Flattening
import SymbolRegex.Proofs.Phrase

/-! # Patterns that can be written

Not every pattern is one that a source stands for: sequences and choices have at
least two parts, sets at least one member, texts at least one character, and
bounds are limited. What a phrase stands for is of that kind, with its actions
numbered in order, and so is written as it is when it is flattened.
-/

namespace SymbolRegex

def SetItem.Writable : SetItem → Prop
  | literal text => text ≠ ""
  | range low high => low ≠ "" ∧ high ≠ ""

/-- A range stands inside a set only. -/
def Leaf.Writable : Leaf → Prop
  | literal text => text ≠ ""
  | range _ _ => False
  | set _ items => items ≠ [] ∧ ∀ i ∈ items, i.Writable
  | any => True

namespace Pattern

inductive Writable : TextPattern → Prop where

  | leaf {a : Leaf} : a.Writable → Writable (leaf a)

  | sequence {ps : List TextPattern} : 2 ≤ ps.length → (∀ p ∈ ps, Writable p) →
      Writable (sequence ps)

  | choice {ps : List TextPattern} : 2 ≤ ps.length → (∀ p ∈ ps, Writable p) →
      Writable (choice ps)

  | optional {p : TextPattern} : Writable p → Writable (optional p)

  | counted {p : TextPattern} {min max : Nat} : ValidBounds min max → Writable p →
      Writable (counted p min max)

  | oneOrMore {p : TextPattern} : Writable p → Writable (oneOrMore p)

  | zeroOrMore {p : TextPattern} : Writable p → Writable (zeroOrMore p)

  | action {i : Nat} {p : TextPattern} : Writable p → Writable (action i p)

theorem two_le_length {α : Type} {ps : List α} (hne : ps ≠ []) (h : ∀ p, ps ≠ [p]) :
    2 ≤ ps.length := by
  match ps, hne, h with
  | [p], _, h => exact absurd rfl (h p)
  | _ :: _ :: _, _, _ => simp

theorem ofChoice_of_two_le {α : Type} {ps : List (Pattern α)} (h : 2 ≤ ps.length) :
    ofChoice ps = choice ps := by
  match ps, h with
  | _ :: _ :: _, _ => rfl

theorem ofSequence_of_two_le {α : Type} {ps : List (Pattern α)} (h : 2 ≤ ps.length) :
    ofSequence ps = sequence ps := by
  match ps, h with
  | _ :: _ :: _, _ => rfl

theorem writable_ofSequence {ps : List TextPattern} (hne : ps ≠ []) (h : ∀ p ∈ ps, Writable p) :
    Writable (ofSequence ps) := by
  unfold ofSequence
  split
  · exact h _ (List.mem_singleton_self _)
  · next hs => exact .sequence (two_le_length hne hs) h

theorem writable_ofChoice {ps : List TextPattern} (hne : ps ≠ []) (h : ∀ p ∈ ps, Writable p) :
    Writable (ofChoice ps) := by
  unfold ofChoice
  split
  · exact h _ (List.mem_singleton_self _)
  · next hs => exact .choice (two_le_length hne hs) h

/-! ## Writing flattened patterns -/

theorem writeBranches_append (ps qs : List TextPattern) :
    writeBranches (ps ++ qs) = writeBranches ps ++ writeBranches qs := by
  induction ps with
  | nil => rfl
  | cons p ps ih => simp [writeBranches, ih]

theorem writeBranches_ne_nil {ps : List TextPattern} (h : ps ≠ []) : writeBranches ps ≠ [] := by
  cases ps with
  | nil => exact absurd rfl h
  | cons p ps => simp [writeBranches]

theorem intercalate_alternatives (p : TextPattern) :
    " | ".intercalate (writeBranches p.alternatives) = p.write := by
  cases p <;> simp [alternatives, writeBranches, write]

theorem alternatives_flatten_ne_nil {p : TextPattern} (h : Writable p) :
    p.flatten.alternatives ≠ [] := by
  induction h with
  | @choice ps hl _ ih =>
    cases ps with
    | nil => contradiction
    | cons p ps =>
      show flattenBranches (p :: ps) ≠ []
      simp [flattenBranches, ih p List.mem_cons_self]
  | _ => simp [flatten, alternatives]

theorem flattenBranches_ne_nil {ps : List TextPattern} (hne : ps ≠ [])
    (h : ∀ p ∈ ps, Writable p) : flattenBranches ps ≠ [] := by
  cases ps with
  | nil => exact absurd rfl hne
  | cons p ps => simp [flattenBranches, alternatives_flatten_ne_nil (h p List.mem_cons_self)]

theorem length_le_flattenBranches {ps : List TextPattern} (h : ∀ p ∈ ps, Writable p) :
    ps.length ≤ (flattenBranches ps).length := by
  induction ps with
  | nil => exact Nat.le_refl _
  | cons p ps ih =>
    rw [List.forall_mem_cons] at h
    have hp := List.length_pos_iff.2 (alternatives_flatten_ne_nil h.1)
    have := ih h.2
    simp only [flattenBranches, List.length_append, List.length_cons]
    omega

theorem ofChoice_alternatives {p : TextPattern} (h : Writable p) :
    ofChoice p.flatten.alternatives = p.flatten := by
  cases h with
  | choice hl h => exact ofChoice_of_two_le (Nat.le_trans hl (length_le_flattenBranches h))
  | _ => rfl

theorem writeItems_flatten {ps : List TextPattern} (h : ∀ p ∈ ps, p.flatten.write = p.write) :
    writeItems (flattenItems ps) = writeItems ps := by
  induction ps with
  | nil => rfl
  | cons p ps ih =>
    rw [List.forall_mem_cons] at h
    simp [flattenItems, writeItems, h.1, ih h.2]

theorem writeBranches_flatten {ps : List TextPattern} (hw : ∀ p ∈ ps, Writable p)
    (h : ∀ p ∈ ps, p.flatten.write = p.write) :
    " | ".intercalate (writeBranches (flattenBranches ps)) =
      " | ".intercalate (writeBranches ps) := by
  induction ps with
  | nil => rfl
  | cons p ps ih =>
    rw [List.forall_mem_cons] at hw h
    cases ps with
    | nil => simp [flattenBranches, intercalate_alternatives, h.1, writeBranches]
    | cons q ps =>
      have hp := writeBranches_ne_nil (alternatives_flatten_ne_nil hw.1)
      have hq := writeBranches_ne_nil (flattenBranches_ne_nil (List.cons_ne_nil q ps) hw.2)
      rw [flattenBranches, writeBranches_append, String.intercalate_append_of_ne_nil hp hq,
        intercalate_alternatives, h.1, ih hw.2 h.2]
      simp [writeBranches]

/-- Flattening does not show when a pattern is written. -/
theorem write_flatten {p : TextPattern} (h : Writable p) : p.flatten.write = p.write := by
  induction h with
  | leaf => rfl
  | sequence _ _ ih => simp only [flatten, write, writeItems_flatten ih]
  | choice _ hw ih => simp only [flatten, write, writeBranches_flatten hw ih]
  | optional _ ih | counted _ _ ih | oneOrMore _ ih | zeroOrMore _ ih | action _ ih =>
    simp [flatten, write, ih]

end Pattern

/-! ## What phrases stand for -/

namespace Phrase

open Pattern

variable {α : Type} {mode : Mode} {sets : SetTable}

/-- Tokens of which those that write a symbol have a text. -/
def Worded (ts : List Token) : Prop :=
  ∀ t ∈ ts, t.kind = .literal ∨ t.kind = .integer → t.text ≠ ""

theorem worded_cons {t : Token} {ts : List Token} : Worded (t :: ts) ↔
    (t.kind = .literal ∨ t.kind = .integer → t.text ≠ "") ∧ Worded ts :=
  List.forall_mem_cons

theorem worded_append {ts us : List Token} : Worded (ts ++ us) ↔ Worded ts ∧ Worded us :=
  List.forall_mem_append

theorem text_ne {t : SymbolToken mode} {ts : List Token} (h : Worded ts) (ht : t.val ∈ ts) :
    t.val.text ≠ "" :=
  h _ ht (t.property.imp_right And.left)

theorem writable_classItems (name : ClassName) :
    name.items ≠ [] ∧ ∀ i ∈ name.items, i.Writable := by
  cases name <;> simp [ClassName.items, SetItem.Writable, whitespaceChars]

theorem Member.writable {m : Member mode} (h : Worded m.tokens) :
    ∀ i ∈ m.items {}, i.Writable := by
  cases m with
  | symbol t =>
    have ht := text_ne h (by simp [tokens] : t.val ∈ _)
    simpa [items, symbolItems, SetItem.Writable] using ht
  | range low dash high =>
    have hl := text_ne h (by simp [tokens] : low.val ∈ _)
    have hh := text_ne h (by simp [tokens] : high.val ∈ _)
    simpa [items, SetItem.Writable] using ⟨hl, hh⟩
  | group name t => exact (writable_classItems name).2
  | string t => simp [items, charItems, SetItem.Writable]

theorem Bracketed.writable {b : Bracketed mode {}} (h : Worded b.tokens) : b.leaf.Writable := by
  refine ⟨b.items_ne_nil, fun i hi => ?_⟩
  obtain ⟨m, hm, hi⟩ := List.mem_flatMap.1 hi
  refine m.writable (fun t ht => h t ?_) i hi
  simp only [tokens, List.cons_append, List.mem_cons, List.mem_append, List.mem_flatMap]
  exact .inr (.inr (.inl ⟨m, hm, ht⟩))

theorem Repetition.writable {q : Repetition} {p : TextPattern} (h : Writable p) :
    Writable (q.pattern p) := by
  cases q with
  | plus => exact .oneOrMore h
  | star => exact .zeroOrMore h
  | question => exact .optional h
  | exactly _ _ _ valid | between _ _ _ _ _ valid => exact .counted valid h

theorem Choice.branches_ne_nil (c : Choice mode sets) (n : Nat) : c.branches n ≠ [] := by
  cases c <;> simp [branches]

theorem Sequence.items_ne_nil (s : Sequence mode sets) (n : Nat) : s.items n ≠ [] := by
  cases s <;> simp [items]

mutual

/-- What a phrase stands for can be written. -/
theorem Choice.writable : ∀ {c : Choice mode {}} {n : Nat}, Worded c.tokens →
    ∀ p ∈ c.branches n, Writable p
  | .single s, n, h => by
    rw [Choice.branches, List.forall_mem_singleton]
    exact writable_ofSequence (s.items_ne_nil n) (Sequence.writable h)
  | .more s bar rest, n, h => by
    obtain ⟨hs, hr⟩ := worded_append.1 h
    rw [Choice.branches, List.forall_mem_cons]
    exact ⟨writable_ofSequence (s.items_ne_nil n) (Sequence.writable hs),
      Choice.writable (worded_cons.1 hr).2⟩

theorem Sequence.writable : ∀ {s : Sequence mode {}} {n : Nat}, Worded s.tokens →
    ∀ p ∈ s.items n, Writable p
  | .single t, n, h => by
    rw [Sequence.items, List.forall_mem_singleton]
    exact Term.writable h
  | .more t rest, n, h => by
    obtain ⟨ht, hr⟩ := worded_append.1 h
    rw [Sequence.items, List.forall_mem_cons]
    exact ⟨Term.writable ht, Sequence.writable hr⟩

theorem Term.writable : ∀ {t : Term mode {}} {n : Nat}, Worded t.tokens → Writable (t.pattern n)
  | .mk label? a repetition?, n, h => by
    have ha := (worded_append.1 (worded_append.1 h).2).1
    have body (n : Nat) :
        Writable (repetition?.elim (a.pattern n) (Repetition.pattern (a.pattern n))) := by
      cases repetition? with
      | none => exact Atom.writable ha
      | some q => exact q.writable (Atom.writable ha)
    cases label? with
    | none => exact body n
    | some l => exact .action (body (n + 1))

theorem Atom.writable : ∀ {a : Atom mode {}} {n : Nat}, Worded a.tokens → Writable (a.pattern n)
  | .symbol t, n, h => .leaf (text_ne h (List.mem_singleton_self _) : t.val.text ≠ "")
  | .group opening c closing, n, h => by
    have hc := (worded_append.1 (worded_cons.1 h).2).1
    exact writable_ofChoice (c.branches_ne_nil n) (Choice.writable hc)
  | .set b, n, h => .leaf (b.writable h)
  | .any t, n, h => .leaf trivial
  | .string t ne, n, h => by
    refine writable_ofSequence (by simpa using ne) ?_
    rw [List.forall_mem_map]
    exact fun c _ => .leaf (by simp [Leaf.Writable])
  | .charClass k t, n, h => .leaf (writable_classItems k.name)

end

/-! ## The numbers of actions -/

theorem parts_ofSequence (ps : List (Pattern α)) : (ofSequence ps).parts = allParts ps := by
  unfold ofSequence
  split
  · exact (List.append_nil _).symm
  · rfl

theorem parts_ofChoice (ps : List (Pattern α)) : (ofChoice ps).parts = allParts ps := by
  unfold ofChoice
  split
  · exact (List.append_nil _).symm
  · rfl

theorem actions_ofSequence (ps : List (Pattern α)) : (ofSequence ps).actions = allActions ps := by
  rw [actions, parts_ofSequence, allActions]

theorem actions_ofChoice (ps : List (Pattern α)) : (ofChoice ps).actions = allActions ps := by
  rw [actions, parts_ofChoice, allActions]

theorem Repetition.actions_pattern (q : Repetition) (p : TextPattern) :
    (q.pattern p).actions = p.actions := by
  cases q <;> rfl

theorem allParts_leaves (ls : List α) : allParts (ls.map leaf) = [] := by
  induction ls with
  | nil => rfl
  | cons l ls ih => rw [List.map_cons, allParts, ih]; rfl

mutual

theorem Choice.actions_branches : ∀ (c : Choice mode sets) (n : Nat),
    allActions (c.branches n) = List.range' n c.labels.length
  | .single s, n => by
    rw [Choice.branches, allActions_cons, actions_ofSequence, s.actions_items]
    exact List.append_nil _
  | .more s bar rest, n => by
    rw [Choice.branches, allActions_cons, actions_ofSequence, s.actions_items,
      rest.actions_branches, Choice.labels, List.length_append]
    exact List.range'_append_1

theorem Sequence.actions_items : ∀ (s : Sequence mode sets) (n : Nat),
    allActions (s.items n) = List.range' n s.labels.length
  | .single t, n => by
    rw [Sequence.items, allActions_cons, t.actions_pattern]
    exact List.append_nil _
  | .more t rest, n => by
    rw [Sequence.items, allActions_cons, t.actions_pattern, rest.actions_items, Sequence.labels,
      List.length_append]
    exact List.range'_append_1

theorem Term.actions_pattern : ∀ (t : Term mode sets) (n : Nat),
    (t.pattern n).actions = List.range' n t.labels.length
  | .mk label? a repetition?, n => by
    have body (n : Nat) :
        (repetition?.elim (a.pattern n) (Repetition.pattern (a.pattern n))).actions =
          List.range' n a.labels.length := by
      cases repetition? with
      | none => exact a.actions_pattern n
      | some q => rw [Option.elim_some, q.actions_pattern, a.actions_pattern]
    cases label? with
    | none => exact body n
    | some l =>
      rw [Term.pattern, actions_action, body]
      rfl

theorem Atom.actions_pattern : ∀ (a : Atom mode sets) (n : Nat),
    (a.pattern n).actions = List.range' n a.labels.length
  | .group _ c _, n => by rw [Atom.pattern, actions_ofChoice, c.actions_branches]; rfl
  | .string t _, n => by
    rw [Atom.pattern, actions_ofSequence, ← Function.comp_def leaf, ← List.map_map, allActions,
      allParts_leaves]
    rfl
  | .symbol _, _ | .set _, _ | .any _, _ | .charClass _ _, _ => rfl

end

end Phrase
end SymbolRegex
