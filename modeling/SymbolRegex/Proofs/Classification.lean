import Mathlib.Data.Set.Finite.Lemmas
import SymbolRegex.Proofs.Numbering
import SymbolRegex.Proofs.Spans
import SymbolRegex.Record.Classifier

/-! # Classes of positions

The actions of a match are marked in ascending order, so that a position gets the class
of the last one that covers it. An action inside another has the larger index, and its
class takes precedence. Neither a class nor a position is looked up out of range.
-/

namespace SymbolRegex

def ActionSpan.Has (s : ActionSpan) (k : Nat) : Prop := s.enter ≤ k ∧ k < s.leave

def Match.Covers (m : Match) (i k : Nat) : Prop := ∃ s ∈ m.actions, s.action = i ∧ s.Has k

namespace Classifier

open Compilation

variable {names classes : List String} {spans : List ActionSpan} {s : ActionSpan} {k : Nat}

/-! ## Marking -/

/-- Give all positions in a span the class of its action, if there is one. -/
def mark (names classes : List String) (s : ActionSpan) : List String :=
  match names[s.action]? with
  | some name => paint classes s name
  | none => classes

theorem getElem?_paint (name : String) : (paint classes s name)[k]? =
    classes[k]?.map fun c => if s.enter ≤ k ∧ k < s.leave then name else c := by
  rw [paint, List.getElem?_mapIdx]

theorem length_mark : (mark names classes s).length = classes.length := by
  unfold mark
  split
  · exact List.length_mapIdx
  · rfl

theorem length_foldl_mark : (spans.foldl (mark names) classes).length = classes.length := by
  induction spans generalizing classes with
  | nil => rfl
  | cons s spans ih => rw [List.foldl_cons, ih, length_mark]

theorem getElem?_mark_of_not_has (h : ¬ s.Has k) : (mark names classes s)[k]? = classes[k]? := by
  unfold mark
  split
  · rw [getElem?_paint]
    simp only [if_neg (show ¬ (s.enter ≤ k ∧ k < s.leave) from h), Option.map_id']
  · rfl

theorem getElem?_mark_of_has (h : s.Has k) (hs : s.action < names.length)
    (hk : k < classes.length) : (mark names classes s)[k]? = names[s.action]? := by
  rw [mark, List.getElem?_eq_getElem hs]
  dsimp only
  rw [getElem?_paint, List.getElem?_eq_getElem hk, Option.map_some,
    if_pos (show s.enter ≤ k ∧ k < s.leave from h)]

theorem getElem?_foldl_mark_of_not_has (h : ∀ s ∈ spans, ¬ s.Has k) :
    (spans.foldl (mark names) classes)[k]? = classes[k]? := by
  induction spans generalizing classes with
  | nil => rfl
  | cons s spans ih =>
    obtain ⟨hs, h⟩ := List.forall_mem_cons.1 h
    rw [List.foldl_cons, ih h, getElem?_mark_of_not_has hs]

/-- A position gets the class of the last span that it lies in. -/
theorem getElem?_foldl_mark_of_has (ascending : (spans.map (·.action)).Pairwise (· < ·))
    (mem : s ∈ spans) (h : s.Has k) (last : ∀ t ∈ spans, t.Has k → t.action ≤ s.action)
    (hs : s.action < names.length) (hk : k < classes.length) :
    (spans.foldl (mark names) classes)[k]? = names[s.action]? := by
  obtain ⟨before, behind, rfl⟩ := List.append_of_mem mem
  have later : ∀ t ∈ behind, s.action < t.action := by
    rw [List.map_append, List.map_cons, List.pairwise_append, List.pairwise_cons] at ascending
    exact List.forall_mem_map.1 ascending.2.1.1
  rw [List.foldl_append, List.foldl_cons, getElem?_foldl_mark_of_not_has,
    getElem?_mark_of_has h hs (by rwa [length_foldl_mark])]
  -- what is marked afterwards has a larger index, and leaves the position alone
  intro t ht has
  exact Nat.not_le.2 (later t ht) (last t (by simp [ht]) has)

/-! ## Lookups in range -/

def mark? (names classes : List String) (s : ActionSpan) : Option (List String) :=
  match names[s.action]? with
  | some name =>
    if s.enter ≤ s.leave ∧ s.leave ≤ classes.length then some (paint classes s name) else none
  | none => some classes

/-- Classify a match as `classify` does, unless something is looked up out of range. -/
def classify? (c : Classifier) (found : Match) (length : Nat) : Option Classification := do
  let names ← c.classes[found.pattern]?
  let classes ← found.actions.foldlM (mark? names) (List.replicate length c.default)
  return ⟨found.pattern, classes⟩

theorem foldlM_mark? (h : ∀ s ∈ spans, s.enter ≤ s.leave ∧ s.leave ≤ classes.length) :
    spans.foldlM (mark? names) classes = some (spans.foldl (mark names) classes) := by
  induction spans generalizing classes with
  | nil => rfl
  | cons s spans ih =>
    obtain ⟨hs, h⟩ := List.forall_mem_cons.1 h
    have step : mark? names classes s = some (mark names classes s) := by
      unfold mark? mark
      cases names[s.action]? with
      | none => rfl
      | some name => exact if_pos hs
    rw [List.foldlM_cons, step, List.foldl_cons]
    exact ih (by rwa [length_mark])

variable {c : Classifier} {found : Match} {length : Nat}

theorem classify_eq (hp : c.classes[found.pattern]? = some names) : c.classify found length =
    ⟨found.pattern, found.actions.foldl (mark names) (List.replicate length c.default)⟩ := by
  have : c.classes.getD found.pattern [] = names := by
    rw [List.getD_eq_getElem?_getD, hp, Option.getD_some]
  rw [classify, this]
  rfl

theorem classify?_eq (hp : c.classes[found.pattern]? = some names)
    (h : ∀ s ∈ found.actions, s.enter ≤ s.leave ∧ s.leave ≤ length) :
    c.classify? found length = some (c.classify found length) := by
  have marked : found.actions.foldlM (mark? names) (List.replicate length c.default) =
      some (found.actions.foldl (mark names) (List.replicate length c.default)) :=
    foldlM_mark? (by simpa using h)
  rw [classify?, hp, classify_eq hp]
  simp only [Option.bind_eq_bind, Option.bind_some, marked]
  rfl

/-! ## Classifiers of a configuration -/

abbrev namesOf (entry : PatternEntry) (output : Parser.Output) : List String :=
  entry.classes?.getD output.actionNames

theorem entryClasses_eq_ok {index : Nat} {pairs : List (PatternEntry × Parser.Output)}
    {lists : List (List String)} (h : entryClasses index pairs = .ok lists) :
    List.Forall₂ (fun pair names => names = namesOf pair.1 pair.2 ∧
      pair.2.pattern.slotCount.toNat ≤ names.length) pairs lists := by
  induction pairs generalizing index lists with
  | nil =>
    obtain rfl := Except.ok.inj h
    exact .nil
  | cons pair pairs ih =>
    obtain ⟨entry, output⟩ := pair
    unfold entryClasses at h
    dsimp only at h
    split at h
    · cases h
    · next enough =>
      obtain ⟨rest, hrest, rfl⟩ := map_eq_ok_iff.1 h
      exact .cons ⟨rfl, Nat.le_of_not_lt enough⟩ (ih hrest)

/-- What a classifier has for the pattern of an entry. -/
structure Serves (c : Classifier) (sets : SetTable) (i : Nat) (entry : PatternEntry)
    (output : Parser.Output) : Prop where
  reads : (readPattern .symbol sets entry.pattern).output? = some output
  pattern : c.engine.patterns[i]? = some output.pattern
  classes : c.classes[i]? = some (namesOf entry output)
  enough : output.pattern.slotCount.toNat ≤ (namesOf entry output).length
  /-- The action names would always do. -/
  named : output.pattern.actionCount ≤ output.actionNames.length
  nested : ∀ i j, output.pattern.Inside i j → i < j

structure Follows (c : Classifier) (config : ClassifierConfig) (sets : SetTable) : Prop where
  default : c.default = config.default?.getD ""
  compiled : ∃ bounds, c.engine.Compiled bounds
  length : c.engine.patterns.length = config.patterns.length
  serves : ∀ i entry, config.patterns[i]? = some entry → ∃ output, c.Serves sets i entry output

theorem follows_of_ofConfig {config : ClassifierConfig} (h : ofConfig config = .ok c) :
    ∃ sets, SetTable.ofDefinitions {} config.sets = .ok sets ∧ c.Follows config sets := by
  obtain ⟨sets, hsets, h⟩ := bind_eq_ok_iff.1 h
  obtain ⟨compiled, hcompiled, h⟩ := bind_eq_ok_iff.1 h
  obtain ⟨lists, hlists, h⟩ := bind_eq_ok_iff.1 h
  obtain rfl := Except.ok.inj h
  have holds := holds_of_ofEntries hcompiled
  have listed := entryClasses_eq_ok hlists
  refine ⟨sets, hsets, ?_⟩
  constructor
  case default => rfl
  case compiled => exact holds.compiled
  case length =>
    dsimp only
    rw [holds.patterns, List.length_map, holds.outputs.length_eq]
  case serves =>
    intro i entry hentry
    obtain ⟨output, houtput, reads⟩ := exists_of_forall₂ holds.outputs hentry
    have hpair : (config.patterns.zip compiled.outputs)[i]? = some (entry, output) :=
      List.getElem?_zip_eq_some.2 ⟨hentry, houtput⟩
    obtain ⟨_, hlist, rfl, enough⟩ := exists_of_forall₂ listed hpair
    have hpattern : compiled.engine.patterns[i]? = some output.pattern := by
      rw [holds.patterns, List.getElem?_map, houtput, Option.map_some]
    exact ⟨output, reads, hpattern, hlist, enough, reads.actionCount_le,
      fun i j => reads.numbered.lt⟩

/-! ## Classifications -/

/-- The classes that a match gives to the positions of a record of length `n`. -/
structure Classifies (p : TextPattern) (names : List String) (default : String) (m : Match)
    (n : Nat) (r : Classification) : Prop where
  pattern : r.pattern = m.pattern
  length : r.classes.length = n
  /-- Every reported action has a class. -/
  named : ∀ s ∈ m.actions, s.action < names.length
  covered : ∀ k i, IsGreatest {j | m.Covers j k} i → r.classes[k]? = names[i]?
  uncovered : ∀ k < n, (∀ i, ¬ m.Covers i k) → r.classes[k]? = some default
  /-- An inner action takes precedence over an outer one. -/
  inner : ∀ i j k, p.Inside i j → m.Covers i k → m.Covers j k →
    i < j ∧ ∃ l, j ≤ l ∧ m.Covers l k ∧ r.classes[k]? = names[l]?

theorem exists_greatest_covers {m : Match} {i : Nat} (h : m.Covers i k) :
    ∃ l, IsGreatest {j | m.Covers j k} l := by
  obtain ⟨s, hs, -, has⟩ := h
  have finite : {t | t ∈ m.actions ∧ t.Has k}.Finite :=
    (List.finite_toSet m.actions).subset fun _ h => h.1
  obtain ⟨t, ⟨ht, has⟩, last⟩ := Set.exists_max_image _ ActionSpan.action finite ⟨s, hs, has⟩
  refine ⟨t.action, ⟨t, ht, rfl, has⟩, ?_⟩
  rintro _ ⟨u, hu, rfl, has⟩
  exact last u ⟨hu, has⟩

variable {config : ClassifierConfig} {sets : SetTable} {entry : PatternEntry}
  {output : Parser.Output} {w : List String} {p : TextPattern} {os : List ActionSpan}

theorem Serves.classifies (h : c.Serves sets found.pattern entry output)
    (explained : c.engine.Explained found w p os) (le : found.length ≤ length) :
    Classifies output.pattern (namesOf entry output) c.default found length
      (c.classify found length) := by
  obtain rfl : output.pattern = p := Option.some_inj.1 (h.pattern.symm.trans explained.pattern)
  have named : ∀ s ∈ found.actions, s.action < (namesOf entry output).length := by
    intro s hs
    have := ((explained.reports.occurs_iff s.action).1 (List.mem_map_of_mem hs)).1
    exact Nat.lt_of_lt_of_le this h.enough
  have covered : ∀ k i, IsGreatest {j | found.Covers j k} i →
      (c.classify found length).classes[k]? = (namesOf entry output)[i]? := by
    rintro k i ⟨⟨s, hs, rfl, has⟩, last⟩
    have := (explained.within s hs).2
    have lt := has.2
    rw [classify_eq h.classes]
    exact getElem?_foldl_mark_of_has explained.reports.ascending hs has
      (fun t ht has => last ⟨t, ht, rfl, has⟩) (named s hs) (by rw [List.length_replicate]; omega)
  rw [classify_eq h.classes] at covered ⊢
  constructor
  case pattern => rfl
  case length => exact length_foldl_mark.trans List.length_replicate
  case named => exact named
  case covered => exact covered
  case uncovered =>
    intro k hk none
    have : ∀ s ∈ found.actions, ¬ s.Has k := fun s hs has => none s.action ⟨s, hs, rfl, has⟩
    rw [getElem?_foldl_mark_of_not_has this, List.getElem?_replicate, if_pos hk]
  case inner =>
    intro i j k inside _ hj
    obtain ⟨l, greatest⟩ := exists_greatest_covers hj
    exact ⟨h.nested i j inside, l, greatest.2 hj, greatest.1, covered k l greatest⟩

/-- What the classification is of a match in a record of length `n`. -/
def Classified (c : Classifier) (config : ClassifierConfig) (sets : SetTable) (m : Match)
    (n : Nat) (r : Classification) : Prop :=
  ∃ entry output, config.patterns[m.pattern]? = some entry ∧
    c.Serves sets m.pattern entry output ∧
    Classifies output.pattern (namesOf entry output) (config.default?.getD "") m n r

theorem Follows.classified (h : c.Follows config sets)
    (explained : c.engine.Explained found w p os) (le : found.length ≤ length) :
    c.classify? found length = some (c.classify found length) ∧
      c.Classified config sets found length (c.classify found length) := by
  have lt := (List.getElem?_eq_some_iff.1 explained.pattern).1
  rw [h.length] at lt
  have hentry := List.getElem?_eq_getElem lt
  obtain ⟨output, serves⟩ := h.serves _ _ hentry
  refine ⟨classify?_eq serves.classes fun s hs => ?_, _, output, hentry, serves,
    h.default ▸ serves.classifies explained le⟩
  have := explained.within s hs
  omega

theorem Follows.process (h : c.Follows config sets) {found? : Option Match}
    (explained : ∀ m ∈ found?, m.length ≤ length ∧ ∃ w p os, c.engine.Explained m w p os) :
    found?.mapM (c.classify? · length) = some (found?.map (c.classify · length)) ∧
      ∀ r, found?.map (c.classify · length) = some r →
        ∃ m, found? = some m ∧ c.Classified config sets m length r := by
  cases found? with
  | none => exact ⟨rfl, fun r h => nomatch h⟩
  | some m =>
    obtain ⟨le, w, p, os, explained⟩ := explained m rfl
    obtain ⟨looked, classified⟩ := h.classified explained le
    refine ⟨?_, ?_⟩
    · simp [looked]
    · rintro _ ⟨⟩
      exact ⟨m, rfl, classified⟩

end Classifier
end SymbolRegex
