import SymbolRegex.Proofs.Isolation

/-! # Ordinals do not matter

What a pattern matches depends on which texts its leaves accept, and not on the
ordinals that stand for these texts. Two alphabets with the same texts in all ranges
of the patterns therefore lead to the same matches, spans included, whatever else is
registered and in whatever order.
-/

namespace SymbolRegex

open Automaton

namespace Alphabet

def Same (a a' : Alphabet) (set set' : OrdinalSet) : Prop :=
  ∃ P : String → Prop, a.Stands P set ∧ a'.Stands P set'

/-- Every text in one of the ranges is registered in both alphabets or in none. -/
def AgreeOn (a a' : Alphabet) (ranges : List (String × String)) : Prop :=
  ∀ r ∈ ranges, ∀ s, r.1 ≤ s → s ≤ r.2 → (s ∈ a.texts ↔ s ∈ a'.texts)

variable {a a' : Alphabet} {set : OrdinalSet}

theorem accepts_range_iff {low high : String} (agree : a.AgreeOn a' [(low, high)]) (s : String) :
    s ∈ a.texts ∧ low ≤ s ∧ s ≤ high ↔ s ∈ a'.texts ∧ low ≤ s ∧ s ≤ high :=
  and_congr_left fun h => agree _ (List.mem_singleton_self _) s h.1 h.2

theorem accepts_item_iff {item : SetItem} (agree : a.AgreeOn a' item.ranges) (s : String) :
    item.Accepts a s ↔ item.Accepts a' s := by
  cases item with
  | literal text => exact Iff.rfl
  | range low high => exact accepts_range_iff agree s

theorem accepts_leaf_iff {l : Leaf} (agree : a.AgreeOn a' l.ranges) (s : String) :
    l.Accepts a s ↔ l.Accepts a' s := by
  cases l with
  | literal text => exact Iff.rfl
  | range low high => exact accepts_range_iff agree s
  | any => exact Iff.rfl
  | set negated items =>
    have some : (∃ item ∈ items, item.Accepts a s) ↔ ∃ item ∈ items, item.Accepts a' s := by
      refine exists_congr fun item => and_congr_right fun mem => accepts_item_iff ?_ s
      exact fun r hr => agree r (List.mem_flatMap.2 ⟨item, mem, hr⟩)
    cases negated with
    | false => exact some
    | true => exact not_congr some

theorem exists_same {l : Leaf} (known : l.symbols ⊆ a'.texts) (agree : a.AgreeOn a' l.ranges)
    (h : a.bindLeaf l = .ok set) : ∃ set', a'.bindLeaf l = .ok set' ∧ Same a a' set set' := by
  obtain ⟨set', h'⟩ := exists_bindLeaf_iff.2 ⟨known, (exists_bindLeaf_iff.1 ⟨set, h⟩).2⟩
  have stands := stands_leaf h'
  refine ⟨set', h', l.Accepts a, stands_leaf h, stands.width, fun s => ?_⟩
  exact (stands.contains_iff s).trans (accepts_leaf_iff agree s).symm

theorem alike_of_reads {τ : Type} {g g' : τ → Input} {S : τ → String → Prop} (reads : Reads a g S)
    (reads' : Reads a' g' S) (xs : List τ) :
    List.Forall₂ (Input.Alike (Same a a')) (xs.map g) (xs.map g') := by
  rw [List.forall₂_map_left_iff, List.forall₂_map_right_iff, List.forall₂_same]
  rintro x - set set' ⟨P, stands, stands'⟩
  have same : Fits set (g x) ↔ Fits set' (g' x) :=
    (reads P set stands x).trans (reads' P set' stands' x).symm
  rwa [Bool.eq_iff_iff]

/-- A pattern is bound to copies over alphabets that have its symbols and agree on its ranges. -/
theorem copies_bindPattern {p : TextPattern} {b b' : BoundPattern} (known : p.symbols ⊆ a'.texts)
    (agree : a.AgreeOn a' p.ranges) (h : a.bindPattern p = .ok b) (h' : a'.bindPattern p = .ok b') :
    Copies (Same a a') b b' := by
  have leaf (l : Leaf) (hl : l ∈ p.leaves) (set : OrdinalSet) (hset : a.bindLeaf l = .ok set) :
      ∃ set', a'.bindLeaf l = .ok set' ∧ Same a a' set set' := by
    refine exists_same (fun s hs => known ?_) (fun r hr => agree r ?_) hset
    · exact List.mem_flatMap.2 ⟨l, hl, hs⟩
    · exact List.mem_flatMap.2 ⟨l, hl, hr⟩
  obtain ⟨c, hc, copies⟩ := Pattern.copies_mapLeaves leaf h
  have same : Except.ok c = .ok b' := hc.symm.trans h'
  rwa [Except.ok.inj same] at copies

end Alphabet

namespace Engine

variable {e e' : Engine} {bounds bounds' : List BoundPattern}

/-- Engines with the same patterns over alphabets that agree on the ranges. -/
structure Corresponding (e e' : Engine) : Prop where
  patterns : e.patterns = e'.patterns
  known : ∀ p ∈ e.patterns, p.symbols ⊆ e'.alphabet.texts
  agree : ∀ p ∈ e.patterns, e.alphabet.AgreeOn e'.alphabet p.ranges

theorem Corresponding.copies (h : e.Corresponding e') (c : Compiled e bounds)
    (c' : Compiled e' bounds') :
    List.Forall₂ (Copies (e.alphabet.Same e'.alphabet)) bounds bounds' := by
  have all := forall₂_of_bindAll c.bound
  have all' := forall₂_of_bindAll c'.bound
  rw [← h.patterns] at all'
  suffices copies : ∀ {ps bounds bounds'}, ps ⊆ e.patterns →
      List.Forall₂ (fun p b => e.alphabet.bindPattern p = .ok b) ps bounds →
      List.Forall₂ (fun p b => e'.alphabet.bindPattern p = .ok b) ps bounds' →
      List.Forall₂ (Copies (e.alphabet.Same e'.alphabet)) bounds bounds' from
    copies (List.Subset.refl _) all all'
  clear all all'
  intro ps bounds bounds' sub all all'
  induction all generalizing bounds' with
  | nil =>
    obtain rfl := List.forall₂_nil_left_iff.1 all'
    exact .nil
  | @cons p b ps bounds hb _ ih =>
    obtain ⟨b', bounds', hb', rest, rfl⟩ := List.forall₂_cons_left_iff.1 all'
    obtain ⟨mem, sub⟩ := List.cons_subset.1 sub
    exact .cons (Alphabet.copies_bindPattern (h.known p mem) (h.agree p mem) hb hb') (ih sub rest)

/-- Corresponding engines that are both bound, or both not, find the same matches. -/
theorem Corresponding.all_eq (h : e.Corresponding e') (same : e.isBound = e'.isBound)
    (decided : e.isBound = true → (∃ bounds, Compiled e bounds) ∧ ∃ bounds, Compiled e' bounds)
    {τ : Type} {g g' : τ → Input} {S : τ → String → Prop} (reads : Reads e.alphabet g S)
    (reads' : Reads e'.alphabet g' S) (xs : List τ) (extent : Extent) :
    e.program.all (xs.map g) extent = e'.program.all (xs.map g') extent := by
  cases bound : e.isBound with
  | true =>
    obtain ⟨⟨bounds, c⟩, bounds', c'⟩ := decided bound
    rw [c.program_eq, c'.program_eq]
    exact Program.all_congr (h.copies c c') (Alphabet.alike_of_reads reads reads' xs)
  | false =>
    rw [program_of_not_bound bound, program_of_not_bound (same.symm.trans bound)]
    rfl

/-- The ordinals that symbols get do not matter. Take two engines with the same patterns, whatever
was registered before, between or after them, over alphabets with the same texts in every range of a
pattern: asked to bind, both are bound or neither is, and they find the same matches. -/
theorem matches_eq_of_agreeOn (ops ops' : List Operation)
    (patterns : (after ops).patterns = (after ops').patterns)
    (agree : ∀ p ∈ (after ops).patterns,
      (after ops).alphabet.AgreeOn (after ops').alphabet p.ranges) :
    let e := after (ops ++ [.bind])
    let e' := after (ops' ++ [.bind])
    e.isBound = e'.isBound ∧ ∀ extent,
      (∀ symbols, e.matchSymbols symbols extent = e'.matchSymbols symbols extent) ∧
      (∀ text, e.matchText text extent = e'.matchText text extent) ∧
      (∀ text, e.allTextMatches text extent = e'.allTextMatches text extent) ∧
      ∀ candidates, e.matchCandidates candidates extent = e'.matchCandidates candidates extent := by
  intro e e'
  have same : e.isBound = e'.isBound := by
    rw [Bool.eq_iff_iff, isBound_after_bind_iff, isBound_after_bind_iff, patterns]
  have corresponding : e.Corresponding e' := by
    obtain ⟨texts, kept⟩ := kept_after_bind ops
    obtain ⟨texts', kept'⟩ := kept_after_bind ops'
    constructor
    case patterns => exact kept.trans (patterns.trans kept'.symm)
    case known =>
      intro p hp
      rw [texts']
      exact (supplied_after ops').known p (patterns ▸ kept ▸ hp)
    case agree =>
      intro p hp r hr
      rw [texts, texts']
      exact agree p (kept ▸ hp) r hr
  have all {τ : Type} {g g' : τ → Input} {S : τ → String → Prop} (reads : Reads e.alphabet g S)
      (reads' : Reads e'.alphabet g' S) (xs : List τ) (extent : Extent) :
      e.program.all (xs.map g) extent = e'.program.all (xs.map g') extent :=
    corresponding.all_eq same
      (fun bound => ⟨exists_compiled _ bound, exists_compiled _ (same ▸ bound)⟩) reads reads' xs
      extent
  have text (w : List String) (extent : Extent) :
      e.program.all (e.symbolInput w) extent = e'.program.all (e'.symbolInput w) extent :=
    all (reads_text e.alphabet) (reads_text e'.alphabet) w extent
  refine ⟨same, fun extent => ⟨fun symbols => ?_, fun text' => ?_, fun text' => text _ extent,
    fun candidates => ?_⟩⟩
  · rw [matchSymbols, matchSymbols, Program.find_eq_head?, Program.find_eq_head?, text]
  · rw [matchText, matchText, Program.find_eq_head?, Program.find_eq_head?]
    exact congrArg List.head? (text _ extent)
  · rw [matchCandidates, matchCandidates, Program.find_eq_head?, Program.find_eq_head?]
    exact congrArg List.head?
      (all (reads_candidates e.alphabet) (reads_candidates e'.alphabet) candidates extent)

def inAndOut : TextPattern :=
  .sequence [.action 0 (.leaf (.range "a" "c")), .leaf (.set true [.range "a" "c"])]

/-- The second engine has `b` elsewhere in its alphabet, and knows a symbol past the range. -/
theorem matches_eq_of_agreeOn_range :
    let e := after ([.register "b", .add inAndOut] ++ [.bind])
    let e' := after ([.add inAndOut, .register "y", .register "b"] ++ [.bind])
    e.alphabet.ordinal? "b" ≠ e'.alphabet.ordinal? "b" ∧
      e'.matchSymbols ["b", "y"] .whole = some ⟨0, 2, [⟨0, 0, 1⟩]⟩ := by
  intro e e'
  have agree : ∀ p ∈ [inAndOut], (after [.register "b", .add inAndOut]).alphabet.AgreeOn
      (after [.add inAndOut, .register "y", .register "b"]).alphabet p.ranges := by
    rw [List.forall_mem_singleton]
    intro r hr s _ hs
    have hr : r ∈ [("a", "c"), ("a", "c")] := hr
    obtain rfl : r = ("a", "c") := by simpa using hr
    have past : s ≠ "y" := by
      rintro rfl
      exact absurd hs (by decide)
    show s ∈ ["b", "a", "c"] ↔ s ∈ ["a", "c", "y", "b"]
    simp only [List.mem_cons, List.not_mem_nil, or_false, past, false_or]
    tauto
  have same := matches_eq_of_agreeOn [.register "b", .add inAndOut]
    [.add inAndOut, .register "y", .register "b"] rfl agree
  refine ⟨by decide, ((same.2 .whole).1 _).symm.trans ?_⟩
  cbv

end Engine

end SymbolRegex
