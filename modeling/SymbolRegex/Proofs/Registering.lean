import Mathlib.Data.Finset.Card
import Mathlib.Data.List.Nodup
import SymbolRegex.Proofs.Compiling
import SymbolRegex.Proofs.Lifecycle

/-! # Registered symbols

An engine takes a pattern only with all its symbols, and never gives away the last
ordinal, so whatever is called its alphabet has the symbols of its patterns and an
ordinal for all other texts. Binding can therefore fail only at a range that is
written the wrong way round.
-/

namespace SymbolRegex

/-! ## Patterns that can be bound -/

def SetItem.ranges : SetItem → List (String × String)
  | literal _ => []
  | range low high => [(low, high)]

def Leaf.ranges : Leaf → List (String × String)
  | literal _ => []
  | range low high => [(low, high)]
  | set _ items => items.flatMap SetItem.ranges
  | any => []

/-- The ends of the ranges of a pattern, from left to right. -/
def TextPattern.ranges (p : TextPattern) : List (String × String) := p.leaves.flatMap Leaf.ranges

def Ascending (ranges : List (String × String)) : Prop := ∀ r ∈ ranges, ¬ r.2 ≤ r.1

theorem ascending_flatMap_iff {α : Type} {f : α → List (String × String)} {xs : List α} :
    Ascending (xs.flatMap f) ↔ ∀ x ∈ xs, Ascending (f x) := by
  simp only [Ascending, List.forall_mem_flatMap]

namespace Alphabet

variable {a : Alphabet} {text : String}

theorem exists_bindText_iff : (∃ i, a.bindText text = .ok i) ↔ text ∈ a.texts := by
  constructor
  · rintro ⟨i, h⟩
    exact mem_of_ordinal? (bindText_eq_ok_iff.1 h)
  · intro h
    exact ⟨_, bindText_eq_ok_iff.2 (ordinal_of_mem h)⟩

theorem exists_bindLiteral_iff : (∃ set, a.bindLiteral text = .ok set) ↔ text ∈ a.texts := by
  rw [← exists_bindText_iff]
  simp [bindLiteral, map_eq_ok_iff]

theorem exists_bindRange_iff {low high : String} : (∃ set, a.bindRange low high = .ok set) ↔
    (low ∈ a.texts ∧ high ∈ a.texts) ∧ ¬ high ≤ low := by
  rw [← exists_bindText_iff, ← exists_bindText_iff]
  constructor
  · rintro ⟨set, h⟩
    obtain ⟨i, hi, h⟩ := bind_eq_ok_iff.1 h
    obtain ⟨j, hj, h⟩ := bind_eq_ok_iff.1 h
    refine ⟨⟨⟨i, hi⟩, j, hj⟩, fun le => ?_⟩
    rw [if_pos le] at h
    cases h
  · rintro ⟨⟨⟨i, hi⟩, j, hj⟩, lt⟩
    refine ⟨.ofList a.width (a.range low high), ?_⟩
    rw [bindRange, hi, hj]
    exact if_neg lt

theorem exists_bindItem_iff {item : SetItem} : (∃ set, a.bindItem item = .ok set) ↔
    item.symbols ⊆ a.texts ∧ Ascending item.ranges := by
  cases item with
  | literal text =>
    refine exists_bindLiteral_iff.trans ?_
    simp [SetItem.symbols, SetItem.ranges, Ascending]
  | range low high =>
    refine exists_bindRange_iff.trans ?_
    simp [SetItem.symbols, SetItem.ranges, Ascending]

theorem exists_bindItems_iff {items : List SetItem} {start : OrdinalSet} :
    (∃ set, a.bindItems start items = .ok set) ↔
      ∀ item ∈ items, ∃ set, a.bindItem item = .ok set := by
  induction items generalizing start with
  | nil => simp [bindItems]
  | cons item items ih =>
    rw [List.forall_mem_cons]
    constructor
    · rintro ⟨set, h⟩
      obtain ⟨part, hpart, h⟩ := bind_eq_ok_iff.1 h
      exact ⟨⟨part, hpart⟩, ih.1 ⟨set, h⟩⟩
    · rintro ⟨⟨part, hpart⟩, h⟩
      obtain ⟨set, hset⟩ := ih.2 h
      exact ⟨set, bind_eq_ok_iff.2 ⟨part, hpart, hset⟩⟩

theorem exists_bindLeaf_iff {l : Leaf} : (∃ set, a.bindLeaf l = .ok set) ↔
    l.symbols ⊆ a.texts ∧ Ascending l.ranges := by
  cases l with
  | literal text =>
    refine exists_bindLiteral_iff.trans ?_
    simp [Leaf.symbols, Leaf.ranges, Ascending]
  | range low high =>
    refine exists_bindRange_iff.trans ?_
    simp [Leaf.symbols, Leaf.ranges, Ascending]
  | any => simp [bindLeaf, Leaf.symbols, Leaf.ranges, Ascending]
  | set negated items =>
    have made : (∃ set, a.bindLeaf (.set negated items) = .ok set) ↔
        ∃ set, a.bindItems (.empty a.width) items = .ok set := by
      constructor
      · rintro ⟨set, h⟩
        obtain ⟨union, hunion, -⟩ := bind_eq_ok_iff.1 h
        exact ⟨union, hunion⟩
      · rintro ⟨union, h⟩
        exact ⟨_, bind_eq_ok_iff.2 ⟨union, h, rfl⟩⟩
    rw [made, exists_bindItems_iff]
    simp only [exists_bindItem_iff, Leaf.symbols, Leaf.ranges, ascending_flatMap_iff,
      List.subset_def, List.forall_mem_flatMap, forall_and]

end Alphabet

namespace Pattern

variable {α β ε : Type} {f : α → Except ε β}

mutual

theorem exists_mapLeaves_iff : ∀ p : Pattern α,
    (∃ q, p.mapLeaves f = .ok q) ↔ ∀ l ∈ p.leaves, ∃ x, f l = .ok x
  | .leaf l => by simp [mapLeaves, leaves, map_eq_ok_iff]
  | .sequence ps => by simp [mapLeaves, leaves, map_eq_ok_iff, ← exists_mapAllLeaves_iff ps]
  | .choice ps => by simp [mapLeaves, leaves, map_eq_ok_iff, ← exists_mapAllLeaves_iff ps]
  | .optional p => by simp [mapLeaves, leaves, map_eq_ok_iff, ← exists_mapLeaves_iff p]
  | .counted p _ _ => by simp [mapLeaves, leaves, map_eq_ok_iff, ← exists_mapLeaves_iff p]
  | .oneOrMore p => by simp [mapLeaves, leaves, map_eq_ok_iff, ← exists_mapLeaves_iff p]
  | .zeroOrMore p => by simp [mapLeaves, leaves, map_eq_ok_iff, ← exists_mapLeaves_iff p]
  | .action _ p => by simp [mapLeaves, leaves, map_eq_ok_iff, ← exists_mapLeaves_iff p]

theorem exists_mapAllLeaves_iff : ∀ ps : List (Pattern α),
    (∃ qs, mapAllLeaves f ps = .ok qs) ↔ ∀ l ∈ allLeaves ps, ∃ x, f l = .ok x
  | [] => by simp [mapAllLeaves, allLeaves]
  | p :: ps => by
    rw [allLeaves, List.forall_mem_append, ← exists_mapLeaves_iff p, ← exists_mapAllLeaves_iff ps]
    constructor
    · rintro ⟨qs, h⟩
      obtain ⟨q, hq, h⟩ := bind_eq_ok_iff.1 h
      obtain ⟨qs', hqs, -⟩ := bind_eq_ok_iff.1 h
      exact ⟨⟨q, hq⟩, qs', hqs⟩
    · rintro ⟨⟨q, hq⟩, qs, hqs⟩
      exact ⟨q :: qs, bind_eq_ok_iff.2 ⟨q, hq, bind_eq_ok_iff.2 ⟨qs, hqs, rfl⟩⟩⟩

end

end Pattern

/-- A pattern can be bound if its symbols are registered and its ranges go up. -/
theorem Alphabet.exists_bindPattern_iff {a : Alphabet} {p : TextPattern} :
    (∃ b, a.bindPattern p = .ok b) ↔ p.symbols ⊆ a.texts ∧ Ascending p.ranges := by
  refine (Pattern.exists_mapLeaves_iff p).trans ?_
  simp only [exists_bindLeaf_iff, TextPattern.symbols, TextPattern.ranges, ascending_flatMap_iff,
    List.subset_def, List.forall_mem_flatMap, forall_and]

namespace Engine

/-- The alphabet has the symbols of every pattern, and an ordinal is left for all other texts. -/
structure Supplied (e : Engine) : Prop where
  room : e.alphabet.size < Alphabet.capacity
  known : ∀ p ∈ e.patterns, p.symbols ⊆ e.alphabet.texts

variable {e : Engine}

theorem supplied_new : Supplied {} where
  room := by decide
  known := by simp

theorem Supplied.registerAll (h : e.Supplied) (texts : List String) :
    (e.registerAll texts).1.Supplied where
  room := Alphabet.room_of_registerAll texts h.room
  known p hp := List.Subset.trans (h.known p hp) (e.alphabet.grows_registerAll texts).texts.subset

theorem Supplied.add (h : e.Supplied) (p : TextPattern) : (e.add p).1.Supplied := by
  unfold Engine.add
  split
  · exact h
  · exact h
  · have grown := h.registerAll p.symbols
    rw [setUp_eq]
    unfold Engine.registerAll at grown ⊢
    cases hr : e.alphabet.registerAll p.symbols with
    | mk alphabet fault? =>
    rw [hr] at grown
    cases fault? with
    | some fault => exact grown
    | none =>
      refine ⟨grown.room, List.forall_mem_append.2 ⟨grown.known, ?_⟩⟩
      rw [List.forall_mem_singleton]
      exact Alphabet.subset_of_registerAll hr

theorem Supplied.bind (h : e.Supplied) : e.bind.1.Supplied := by
  by_cases hs : e.stage = .collecting
  · obtain ⟨stage, he, -⟩ := bind_of_collecting hs
    rw [he]
    exact ⟨h.room, h.known⟩
  · rw [bind_of_ne_collecting hs]
    exact h

theorem Supplied.perform (h : e.Supplied) (op : Operation) : (e.perform op).Supplied := by
  cases op with
  | register text =>
    rw [perform_register]
    split
    · next i a' hr =>
      refine ⟨Alphabet.room_of_register hr h.room, fun p hp => ?_⟩
      exact List.Subset.trans (h.known p hp) (Alphabet.grows_register hr).texts.subset
    · exact h
  | registerBytes => exact h.registerAll _
  | add p => exact h.add p
  | bind => exact h.bind

theorem after_concat (ops : List Operation) (op : Operation) :
    after (ops ++ [op]) = (after ops).perform op := by
  rw [after, List.foldl_append]
  rfl

theorem supplied_after (ops : List Operation) : (after ops).Supplied := by
  induction ops using List.reverseRecOn with
  | nil => exact supplied_new
  | append_singleton ops op ih =>
    rw [after_concat]
    exact ih.perform op

/-! ## Engines that can be bound -/

theorem exists_bindAll_iff {a : Alphabet} {ps : List TextPattern} :
    (∃ bounds, bindAll a ps = .ok bounds) ↔ ∀ p ∈ ps, ∃ b, a.bindPattern p = .ok b := by
  induction ps with
  | nil => simp [bindAll]
  | cons p ps ih =>
    rw [List.forall_mem_cons, ← ih, bindAll]
    cases a.bindPattern p <;> cases bindAll a ps <;> simp

/-- An attempt to bind closed the alphabet, and succeeded exactly if every pattern can be bound. -/
def Decided (e : Engine) : Prop := e.stage ≠ .collecting → e.alphabet.frozen = true ∧
  (e.isBound = true ↔ ∃ bounds, bindAll e.alphabet e.patterns = .ok bounds)

theorem decided_bind (hs : e.stage = .collecting) : e.bind.1.Decided := by
  intro _
  unfold bind
  rw [hs]
  dsimp only
  cases hb : bindAll e.alphabet.freeze e.patterns with
  | ok bounds => exact ⟨rfl, iff_of_true rfl ⟨bounds, hb⟩⟩
  | error faults =>
    refine ⟨rfl, iff_of_false Bool.false_ne_true ?_⟩
    rintro ⟨bounds, h⟩
    rw [hb] at h
    cases h

theorem Decided.perform (h : e.Decided) (op : Operation) : (e.perform op).Decided := by
  by_cases hs : e.stage = .collecting
  · by_cases hop : op = .bind
    · subst hop
      exact decided_bind hs
    · intro settled
      rw [stage_perform e hop] at settled
      exact absurd hs settled
  · rwa [Settled.perform_eq ⟨(h hs).1, hs⟩]

theorem decided_after (ops : List Operation) : (after ops).Decided := by
  induction ops using List.reverseRecOn with
  | nil => exact fun h => absurd rfl h
  | append_singleton ops op ih =>
    rw [after_concat]
    exact ih.perform op

theorem settled_bind (e : Engine) :
    e.bind.1.alphabet.texts = e.alphabet.texts ∧ e.bind.1.stage ≠ .collecting := by
  by_cases hs : e.stage = .collecting
  · obtain ⟨stage, he, hstage⟩ := bind_of_collecting hs
    rw [he]
    exact ⟨rfl, hstage⟩
  · rw [bind_of_ne_collecting hs]
    exact ⟨rfl, hs⟩

theorem kept_after_bind (ops : List Operation) :
    (after (ops ++ [.bind])).alphabet.texts = (after ops).alphabet.texts ∧
      (after (ops ++ [.bind])).patterns = (after ops).patterns := by
  rw [after_concat]
  exact ⟨(settled_bind _).1, patterns_bind _⟩

/-- An engine that was asked to bind is bound exactly if all ranges of its patterns go up. -/
theorem isBound_after_bind_iff (ops : List Operation) : (after (ops ++ [.bind])).isBound = true ↔
    ∀ p ∈ (after ops).patterns, Ascending p.ranges := by
  obtain ⟨texts, patterns⟩ := kept_after_bind ops
  have settled : (after (ops ++ [.bind])).stage ≠ .collecting := by
    rw [after_concat]
    exact (settled_bind _).2
  apply (decided_after _ settled).2.trans
  rw [exists_bindAll_iff, patterns]
  refine forall₂_congr fun p hp => Alphabet.exists_bindPattern_iff.trans ?_
  rw [texts]
  exact and_iff_right ((supplied_after ops).known p hp)

end Engine

/-! ## Patterns that mention few symbols -/

namespace Alphabet

variable {a : Alphabet} {s : Finset String} {text : String} {texts : List String}

/-- An alphabet still takes symbols, and has none but some of the given ones. -/
structure TakesFrom (a : Alphabet) (s : Finset String) : Prop where
  thawed : a.frozen = false
  within : ∀ text ∈ a.texts, text ∈ s

theorem TakesFrom.registerAll (h : a.TakesFrom s) (room : s.card < capacity)
    (mem : ∀ text ∈ texts, text ∈ s) : ∃ a', a.registerAll texts = (a', none) ∧ a'.TakesFrom s := by
  have within : ∀ text ∈ a.texts ++ texts, text ∈ s := List.forall_mem_append.2 ⟨h.within, mem⟩
  have card : (a.texts ++ texts).eraseDups.length ≤ s.card := by
    rw [← List.toFinset_card_of_nodup (nodup_eraseDups _)]
    refine Finset.card_le_card fun text ht => within text ?_
    rwa [List.mem_toFinset, List.mem_eraseDups] at ht
  obtain ⟨a', all⟩ := exists_registerAll_of_room h.thawed (card.trans_lt room)
  have grows := a.grows_registerAll texts
  rw [all] at grows
  refine ⟨a', all, grows.frozen.trans h.thawed, fun text ht => within text ?_⟩
  rwa [texts_of_registerAll all, append_missing, List.mem_eraseDups] at ht

end Alphabet

namespace Engine

variable {e : Engine} {s : Finset String} {p : TextPattern}

structure Ready (e : Engine) (s : Finset String) : Prop where
  collecting : e.stage = .collecting
  takes : e.alphabet.TakesFrom s

theorem Ready.registerAll (h : e.Ready s) (room : s.card < Alphabet.capacity)
    {texts : List String} (mem : ∀ text ∈ texts, text ∈ s) :
    ∃ e', e.registerAll texts = (e', none) ∧ e'.Ready s := by
  obtain ⟨a', hr, takes⟩ := h.takes.registerAll room mem
  exact ⟨{ e with alphabet := a' }, registerAll_of_eq hr, h.collecting, takes⟩

theorem Ready.add (h : e.Ready s) (room : s.card < Alphabet.capacity)
    (mem : ∀ text ∈ p.symbols, text ∈ s) : ∃ e' i, e.add p = (e', .ok i) ∧ e'.Ready s := by
  obtain ⟨e', hr, h'⟩ := h.registerAll room mem
  refine ⟨{ e' with patterns := e.patterns ++ [p] }, e.patterns.length, ?_, h'.collecting, h'.takes⟩
  rw [Engine.add, h.collecting]
  dsimp only
  rw [setUp_eq, hr]

/-- A new engine takes patterns that mention few enough symbols, and is bound if all their ranges go
up. -/
theorem after_adds_bind {ps : List TextPattern} (room : s.card < Alphabet.capacity)
    (mem : ∀ p ∈ ps, ∀ text ∈ p.symbols, text ∈ s) (ascending : ∀ p ∈ ps, Ascending p.ranges) :
    (after (ps.map .add ++ [.bind])).isBound = true ∧
      (after (ps.map .add ++ [.bind])).patterns = ps := by
  have added : ∀ {e : Engine}, e.Ready s →
      ((ps.map Operation.add).foldl perform e).patterns = e.patterns ++ ps := by
    clear ascending
    induction ps with
    | nil => exact fun _ => (List.append_nil _).symm
    | cons p ps ih =>
      intro e ready
      obtain ⟨hp, mem⟩ := List.forall_mem_cons.1 mem
      obtain ⟨e', i, hadd, ready'⟩ := ready.add room hp
      have step : e.perform (.add p) = e' := congrArg Prod.fst hadd
      rw [List.map_cons, List.foldl_cons, step, ih mem ready', patterns_of_add hadd,
        List.append_assoc]
      rfl
  have patterns : (after (ps.map .add)).patterns = ps :=
    (added (e := {}) ⟨rfl, rfl, by simp⟩).trans (List.nil_append _)
  rw [isBound_after_bind_iff, (kept_after_bind _).2, patterns]
  exact ⟨ascending, rfl⟩

end Engine

end SymbolRegex
