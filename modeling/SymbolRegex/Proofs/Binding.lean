import Mathlib.Data.Fintype.EquivFin
import Mathlib.Data.List.Forall2
import SymbolRegex.Proofs.Realization

/-! # What binding preserves

A bound leaf holds the ordinals of exactly the texts that the leaf accepts, where
the ordinal past the last stands for every text that is not registered. A bound
pattern therefore has the derivations of the pattern.
-/

namespace SymbolRegex

theorem map_eq_ok_iff {α β ε : Type} {f : α → β} {x : Except ε α} {y : β} :
    f <$> x = .ok y ↔ ∃ z, x = .ok z ∧ f z = y := by
  cases x with
  | error e => constructor <;> simp [Functor.map, Except.map]
  | ok z => simp [Functor.map, Except.map]

theorem bind_eq_ok_iff {α β ε : Type} {f : α → Except ε β} {x : Except ε α} {y : β} :
    x >>= f = .ok y ↔ ∃ z, x = .ok z ∧ f z = .ok y := by
  cases x with
  | error e => constructor <;> simp [bind, Except.bind]
  | ok z => simp [bind, Except.bind]

namespace Alphabet

variable {a : Alphabet} {text s : String} {i : Nat} {set : OrdinalSet}

theorem ordinal_lt_width (a : Alphabet) (s : String) : a.ordinal s < a.width := by
  unfold width
  by_cases h : s ∈ a.texts
  · exact Nat.lt_succ_of_lt (ordinal?_lt_size (ordinal_of_mem h))
  · rw [ordinal_of_not_mem h]
    exact Nat.lt_succ_self _

theorem ordinal_eq_iff (h : a.ordinal? text = some i) : a.ordinal s = i ↔ s = text := by
  constructor
  · rintro rfl
    have lt := ordinal?_lt_size h
    have hs : s ∈ a.texts := by
      by_contra hs
      rw [ordinal_of_not_mem hs] at lt
      exact Nat.lt_irrefl _ lt
    have e := ordinal?_eq_some_iff.1 (ordinal_of_mem hs)
    rw [ordinal?_eq_some_iff.1 h, Option.some_inj] at e
    exact e.symm
  · rintro rfl
    rw [ordinal, h, Option.getD_some]

theorem exists_ordinal_eq (h : i < a.width) : ∃ s, a.ordinal s = i := by
  rcases Nat.lt_or_ge i a.size with lt | ge
  · have hi : a.text? i = some a.texts[i] := List.getElem?_eq_getElem lt
    exact ⟨a.texts[i], (ordinal_eq_iff (ordinal?_eq_some_iff.2 hi)).2 rfl⟩
  · obtain ⟨s, hs⟩ := Infinite.exists_notMem_finset a.texts.toFinset
    refine ⟨s, (ordinal_of_not_mem fun h => hs (List.mem_toFinset.2 h)).trans ?_⟩
    unfold width at h
    omega

theorem bindText_eq_ok_iff : a.bindText text = .ok i ↔ a.ordinal? text = some i := by
  unfold bindText
  cases a.ordinal? text <;> simp

/-- A set is bound to what it stands for: it holds the ordinals of the texts that satisfy `P`. -/
structure Stands (a : Alphabet) (P : String → Prop) (set : OrdinalSet) : Prop where
  width : set.width = a.width
  contains_iff : ∀ s, set.contains (a.ordinal s) = true ↔ P s

theorem stands_literal (h : a.bindLiteral text = .ok set) : Stands a (· = text) set := by
  obtain ⟨i, hi, rfl⟩ := map_eq_ok_iff.1 h
  have hi := bindText_eq_ok_iff.1 hi
  constructor
  · simp [OrdinalSet.singleton]
  · intro s
    have lt := a.ordinal_lt_width text
    rw [(ordinal_eq_iff hi).2 rfl] at lt
    simp [OrdinalSet.singleton, lt, ordinal_eq_iff hi]

theorem stands_range {low high : String} (h : a.bindRange low high = .ok set) :
    Stands a (fun s => s ∈ a.texts ∧ low ≤ s ∧ s ≤ high) set := by
  obtain ⟨_, -, h⟩ := bind_eq_ok_iff.1 h
  obtain ⟨_, -, h⟩ := bind_eq_ok_iff.1 h
  split at h
  · simp [throw, throwThe, MonadExceptOf.throw, bind, Except.bind] at h
  · obtain rfl := Except.ok.inj h
    refine ⟨OrdinalSet.width_ofList _ _, fun s => ?_⟩
    rw [OrdinalSet.contains_ofList, Bool.and_eq_true, decide_eq_true_eq, decide_eq_true_eq,
      mem_range]
    constructor
    · rintro ⟨-, text, htext, hle⟩
      obtain rfl := (ordinal_eq_iff htext).1 rfl
      exact ⟨mem_of_ordinal? htext, hle⟩
    · rintro ⟨hs, hle⟩
      exact ⟨a.ordinal_lt_width s, s, ordinal_of_mem hs, hle⟩

theorem stands_item {item : SetItem} (h : a.bindItem item = .ok set) :
    Stands a (item.Accepts a) set := by
  cases item with
  | literal text => exact stands_literal h
  | range low high => exact stands_range h

theorem stands_items {items : List SetItem} {start : OrdinalSet} {P : String → Prop}
    (hstart : Stands a P start) (h : a.bindItems start items = .ok set) :
    Stands a (fun s => P s ∨ ∃ item ∈ items, item.Accepts a s) set := by
  induction items generalizing start P with
  | nil =>
    obtain rfl := Except.ok.inj h
    exact ⟨hstart.width, fun s => by simp [hstart.contains_iff]⟩
  | cons item items ih =>
    obtain ⟨part, hpart, h⟩ := bind_eq_ok_iff.1 h
    have hitem := stands_item hpart
    have hunion : Stands a (fun s => P s ∨ item.Accepts a s) (start.union part) := by
      refine ⟨(OrdinalSet.width_union _ _).trans hstart.width, fun s => ?_⟩
      rw [OrdinalSet.contains_union (hitem.width.trans hstart.width.symm), Bool.or_eq_true,
        hstart.contains_iff, hitem.contains_iff]
    obtain ⟨hwidth, hcontains⟩ := ih hunion h
    refine ⟨hwidth, fun s => (hcontains s).trans ?_⟩
    rw [List.exists_mem_cons_iff, or_assoc]

theorem stands_leaf {l : Leaf} (h : a.bindLeaf l = .ok set) : Stands a (l.Accepts a) set := by
  cases l with
  | literal text => exact stands_literal h
  | range low high => exact stands_range h
  | any =>
    obtain rfl := Except.ok.inj h
    exact ⟨rfl, fun s => by simp [Leaf.Accepts, a.ordinal_lt_width s]⟩
  | set negated items =>
    obtain ⟨union, hunion, h⟩ := bind_eq_ok_iff.1 h
    obtain rfl := Except.ok.inj h
    have empty : Stands a (fun _ => False) (.empty a.width) := ⟨rfl, fun s => by simp⟩
    obtain ⟨hwidth, hcontains⟩ := stands_items empty hunion
    cases negated with
    | false => exact ⟨hwidth, fun s => (hcontains s).trans (by simp [Leaf.Accepts])⟩
    | true =>
      refine ⟨hwidth, fun s => ?_⟩
      have := hcontains s
      simp only [false_or] at this
      simp [Leaf.Accepts, hwidth, a.ordinal_lt_width s, ← this]

end Alphabet

/-! ## Derivations of bound patterns -/

namespace Pattern

variable {α β σ τ ε : Type} {accepts : α → σ → Prop} {accepts' : β → σ → Prop}
  {p : Pattern α} {q : Pattern β} {k : Nat} {w : List σ} {os : List ActionSpan}

def Agree (accepts : α → σ → Prop) (accepts' : β → σ → Prop) (p : Pattern α) (q : Pattern β) :
    Prop :=
  ∀ k w os, Derives accepts p k w os ↔ Derives accepts' q k w os

theorem agree_sequence {ps : List (Pattern α)} {qs : List (Pattern β)}
    (h : List.Forall₂ (Agree accepts accepts') ps qs) :
    Agree accepts accepts' (sequence ps) (sequence qs) := by
  induction h with
  | nil => exact fun k w os => derives_nil_iff.trans derives_nil_iff.symm
  | cons hp _ ih =>
    intro k w os
    rw [derives_cons_iff, derives_cons_iff]
    simp only [hp _ _ _, ih _ _ _]

theorem agree_replicate (h : Agree accepts accepts' p q) (n : Nat) :
    Agree accepts accepts' (sequence (List.replicate n p)) (sequence (List.replicate n q)) := by
  apply agree_sequence
  induction n with
  | zero => exact .nil
  | succ n ih => exact .cons h ih

theorem agree_choice {ps : List (Pattern α)} {qs : List (Pattern β)}
    (h : List.Forall₂ (Agree accepts accepts') ps qs) :
    Agree accepts accepts' (choice ps) (choice qs) := by
  intro k w os
  rw [derives_choice_iff, derives_choice_iff]
  induction h with
  | nil => simp
  | cons hp _ ih => rw [List.exists_mem_cons_iff, List.exists_mem_cons_iff, hp k w os, ih]

theorem agree_optional (h : Agree accepts accepts' p q) :
    Agree accepts accepts' (optional p) (optional q) := by
  intro k w os
  rw [derives_optional_iff, derives_optional_iff, h k w os]

theorem agree_counted (h : Agree accepts accepts' p q) (lower upper : Nat) :
    Agree accepts accepts' (counted p lower upper) (counted q lower upper) := by
  intro k w os
  rw [derives_counted_iff, derives_counted_iff]
  simp only [agree_replicate h _ _ _ _]

theorem agree_oneOrMore (h : Agree accepts accepts' p q) :
    Agree accepts accepts' (oneOrMore p) (oneOrMore q) := by
  intro k w os
  rw [derives_oneOrMore_iff, derives_oneOrMore_iff]
  simp only [agree_replicate h _ _ _ _]

theorem agree_zeroOrMore (h : Agree accepts accepts' p q) :
    Agree accepts accepts' (zeroOrMore p) (zeroOrMore q) := by
  intro k w os
  rw [derives_zeroOrMore_iff, derives_zeroOrMore_iff]
  simp only [agree_replicate h _ _ _ _]

theorem agree_action (h : Agree accepts accepts' p q) (i : Nat) :
    Agree accepts accepts' (action i p) (action i q) := by
  intro k w os
  rw [derives_action_iff, derives_action_iff]
  simp only [h _ _ _]

theorem agree_leaf {l : α} {l' : β} (h : ∀ x, accepts l x ↔ accepts' l' x) :
    Agree accepts accepts' (leaf l) (leaf l') := by
  intro k w os
  rw [derives_leaf_iff, derives_leaf_iff]
  simp only [h]

mutual

theorem actions_mapLeaves {f : α → Except ε β} :
    ∀ (p : Pattern α) {q : Pattern β}, p.mapLeaves f = .ok q → q.actions = p.actions
  | leaf _, _, h => by
    obtain ⟨_, -, rfl⟩ := map_eq_ok_iff.1 h
    rfl
  | sequence ps, _, h => by
    obtain ⟨_, hqs, rfl⟩ := map_eq_ok_iff.1 h
    exact allActions_mapAllLeaves ps hqs
  | choice ps, _, h => by
    obtain ⟨_, hqs, rfl⟩ := map_eq_ok_iff.1 h
    exact allActions_mapAllLeaves ps hqs
  | optional p, _, h => by
    obtain ⟨q, hq, rfl⟩ := map_eq_ok_iff.1 h
    show q.actions = p.actions
    exact actions_mapLeaves p hq
  | counted p _ _, _, h => by
    obtain ⟨q, hq, rfl⟩ := map_eq_ok_iff.1 h
    show q.actions = p.actions
    exact actions_mapLeaves p hq
  | oneOrMore p, _, h => by
    obtain ⟨q, hq, rfl⟩ := map_eq_ok_iff.1 h
    show q.actions = p.actions
    exact actions_mapLeaves p hq
  | zeroOrMore p, _, h => by
    obtain ⟨q, hq, rfl⟩ := map_eq_ok_iff.1 h
    show q.actions = p.actions
    exact actions_mapLeaves p hq
  | action i p, _, h => by
    obtain ⟨_, hq, rfl⟩ := map_eq_ok_iff.1 h
    exact congrArg (i :: ·) (actions_mapLeaves p hq)

theorem allActions_mapAllLeaves {f : α → Except ε β} :
    ∀ (ps : List (Pattern α)) {qs : List (Pattern β)}, mapAllLeaves f ps = .ok qs →
      allActions qs = allActions ps
  | [], _, h => by
    obtain rfl := Except.ok.inj h
    rfl
  | p :: ps, _, h => by
    obtain ⟨q, hq, h⟩ := bind_eq_ok_iff.1 h
    obtain ⟨qs, hqs, h⟩ := bind_eq_ok_iff.1 h
    obtain rfl := Except.ok.inj h
    rw [allActions_cons, allActions_cons, actions_mapLeaves p hq, allActions_mapAllLeaves ps hqs]

end

mutual

/-- Replacing leaves by others that accept the same keeps all derivations. -/
theorem agree_mapLeaves {f : α → Except ε β}
    (same : ∀ l l', f l = .ok l' → ∀ x, accepts l x ↔ accepts' l' x) :
    ∀ (p : Pattern α) {q : Pattern β}, p.mapLeaves f = .ok q → Agree accepts accepts' p q
  | leaf l, _, h => by
    obtain ⟨l', hl, rfl⟩ := map_eq_ok_iff.1 h
    exact agree_leaf (same l l' hl)
  | sequence ps, _, h => by
    obtain ⟨qs, hqs, rfl⟩ := map_eq_ok_iff.1 h
    exact agree_sequence (agree_mapAllLeaves same ps hqs)
  | choice ps, _, h => by
    obtain ⟨qs, hqs, rfl⟩ := map_eq_ok_iff.1 h
    exact agree_choice (agree_mapAllLeaves same ps hqs)
  | optional p, _, h => by
    obtain ⟨q, hq, rfl⟩ := map_eq_ok_iff.1 h
    exact agree_optional (agree_mapLeaves same p hq)
  | counted p lower upper, _, h => by
    obtain ⟨q, hq, rfl⟩ := map_eq_ok_iff.1 h
    exact agree_counted (agree_mapLeaves same p hq) lower upper
  | oneOrMore p, _, h => by
    obtain ⟨q, hq, rfl⟩ := map_eq_ok_iff.1 h
    exact agree_oneOrMore (agree_mapLeaves same p hq)
  | zeroOrMore p, _, h => by
    obtain ⟨q, hq, rfl⟩ := map_eq_ok_iff.1 h
    exact agree_zeroOrMore (agree_mapLeaves same p hq)
  | action i p, _, h => by
    obtain ⟨q, hq, rfl⟩ := map_eq_ok_iff.1 h
    exact agree_action (agree_mapLeaves same p hq) i

theorem agree_mapAllLeaves {f : α → Except ε β}
    (same : ∀ l l', f l = .ok l' → ∀ x, accepts l x ↔ accepts' l' x) :
    ∀ (ps : List (Pattern α)) {qs : List (Pattern β)}, mapAllLeaves f ps = .ok qs →
      List.Forall₂ (Agree accepts accepts') ps qs
  | [], _, h => by
    obtain rfl := Except.ok.inj h
    exact .nil
  | p :: ps, _, h => by
    obtain ⟨q, hq, h⟩ := bind_eq_ok_iff.1 h
    obtain ⟨qs, hqs, h⟩ := bind_eq_ok_iff.1 h
    obtain rfl := Except.ok.inj h
    exact .cons (agree_mapLeaves same p hq) (agree_mapAllLeaves same ps hqs)

end

/-- A word of symbols that each stand for several others has the derivations of all words that it
stands for. -/
theorem derives_choose_iff {S : τ → σ → Prop} {xs : List τ} :
    Derives (fun l x => ∃ s, S x s ∧ accepts l s) p k xs os ↔
      ∃ w, List.Forall₂ S xs w ∧ Derives accepts p k w os := by
  constructor
  · intro h
    induction h with
    | leaf h =>
      obtain ⟨s, hs, h⟩ := h
      exact ⟨[s], .cons hs .nil, .leaf h⟩
    | nil => exact ⟨[], .nil, .nil⟩
    | cons _ _ ihp ihps =>
      obtain ⟨u, hu, hp⟩ := ihp
      obtain ⟨v, hv, hps⟩ := ihps
      rw [hu.length_eq] at hps
      exact ⟨u ++ v, List.rel_append hu hv, .cons hp hps⟩
    | choice hmem _ ih =>
      obtain ⟨w, hw, h⟩ := ih
      exact ⟨w, hw, .choice hmem h⟩
    | skip => exact ⟨[], .nil, .skip⟩
    | take _ ih =>
      obtain ⟨w, hw, h⟩ := ih
      exact ⟨w, hw, .take h⟩
    | counted hl hu _ ih =>
      obtain ⟨w, hw, h⟩ := ih
      exact ⟨w, hw, .counted hl hu h⟩
    | oneOrMore _ ih =>
      obtain ⟨w, hw, h⟩ := ih
      exact ⟨w, hw, .oneOrMore h⟩
    | zeroOrMore _ ih =>
      obtain ⟨w, hw, h⟩ := ih
      exact ⟨w, hw, .zeroOrMore h⟩
    | action _ ih =>
      obtain ⟨w, hw, h⟩ := ih
      refine ⟨w, hw, ?_⟩
      rw [hw.length_eq]
      exact .action h
  · rintro ⟨w, hw, h⟩
    induction h generalizing xs with
    | @leaf l k s h =>
      obtain ⟨x, xs, hx, hxs, rfl⟩ := List.forall₂_cons_right_iff.1 hw
      obtain rfl := List.forall₂_nil_right_iff.1 hxs
      exact .leaf ⟨s, hx, h⟩
    | nil =>
      obtain rfl := List.forall₂_nil_right_iff.1 hw
      exact .nil
    | @cons p ps k u v os os' _ _ ihp ihps =>
      have hu := List.forall₂_take_append xs u v hw
      have hv := List.forall₂_drop_append xs u v hw
      rw [← List.take_append_drop u.length xs]
      refine .cons (ihp hu) ?_
      rw [hu.length_eq]
      exact ihps hv
    | choice hmem _ ih => exact .choice hmem (ih hw)
    | skip =>
      obtain rfl := List.forall₂_nil_right_iff.1 hw
      exact .skip
    | take _ ih => exact .take (ih hw)
    | counted hl hu _ ih => exact .counted hl hu (ih hw)
    | oneOrMore _ ih => exact .oneOrMore (ih hw)
    | zeroOrMore _ ih => exact .zeroOrMore (ih hw)
    | action _ ih =>
      rw [← hw.length_eq]
      exact .action (ih hw)

theorem derives_map_iff {g : τ → σ} {xs : List τ} :
    Derives accepts p k (xs.map g) os ↔ Derives (fun l x => accepts l (g x)) p k xs os := by
  have : Derives (fun l x => ∃ s, g x = s ∧ accepts l s) p k xs os ↔
      ∃ w, List.Forall₂ (fun x s => g x = s) xs w ∧ Derives accepts p k w os := derives_choose_iff
  simp only [exists_eq_left', ← List.forall₂_map_left_iff, List.forall₂_eq_eq_eq] at this
  exact this.symm

end Pattern

open Automaton

/-- Each input symbol stands for some texts: a leaf takes it when it accepts one of them. -/
def Reads {τ : Type} (a : Alphabet) (g : τ → Input) (S : τ → String → Prop) : Prop :=
  ∀ (P : String → Prop) (set : OrdinalSet), a.Stands P set → ∀ x,
    Fits set (g x) ↔ ∃ s, S x s ∧ P s

/-- The derivations of a bound pattern, over input symbols that each stand for some texts, are those
of the pattern over texts. -/
theorem Alphabet.derives_bind_iff {a : Alphabet} {p : TextPattern} {b : BoundPattern} {τ : Type}
    (h : a.bindPattern p = .ok b) {g : τ → Input} {S : τ → String → Prop} (reads : Reads a g S)
    {k : Nat} {xs : List τ} {os : List ActionSpan} :
    Pattern.Derives Fits b k (xs.map g) os ↔
      ∃ w, List.Forall₂ S xs w ∧ Pattern.Derives (Leaf.Accepts a) p k w os := by
  rw [Pattern.derives_map_iff, ← Pattern.derives_choose_iff]
  have same (l : Leaf) (set : OrdinalSet) (hl : a.bindLeaf l = .ok set) (x : τ) :
      (∃ s, S x s ∧ l.Accepts a s) ↔ Fits set (g x) :=
    (reads _ _ (Alphabet.stands_leaf hl) x).symm
  exact (Pattern.agree_mapLeaves same p h k xs os).symm

namespace Alphabet.Stands

variable {a : Alphabet} {P : String → Prop} {set : OrdinalSet}

theorem fits_text (h : Stands a P set) (s : String) :
    Fits set (.symbol (a.ordinal s)) ↔ ∃ t, s = t ∧ P t := by
  rw [exists_eq_left', ← h.contains_iff]
  exact Iff.rfl

theorem fits_ordinal (h : Stands a P set) (i : Nat) :
    Fits set (.symbol i) ↔ ∃ s, a.ordinal s = i ∧ P s := by
  constructor
  · intro hi
    have lt := OrdinalSet.lt_width_of_contains hi
    rw [h.width] at lt
    obtain ⟨s, rfl⟩ := exists_ordinal_eq lt
    exact ⟨s, rfl, (h.contains_iff s).1 hi⟩
  · rintro ⟨s, rfl, hs⟩
    exact (h.contains_iff s).2 hs

theorem fits_candidates (h : Stands a P set) (options : List String) :
    Fits set (.candidates (.ofList a.width (options.map a.ordinal))) ↔
      ∃ s, s ∈ options ∧ P s := by
  apply OrdinalSet.intersects_iff.trans
  simp only [OrdinalSet.contains_ofList, Bool.and_eq_true, decide_eq_true_eq, List.mem_map]
  constructor
  · rintro ⟨i, hi, -, s, hs, rfl⟩
    exact ⟨s, hs, (h.contains_iff s).1 hi⟩
  · rintro ⟨s, hs, hP⟩
    exact ⟨_, (h.contains_iff s).2 hP, a.ordinal_lt_width s, s, hs, rfl⟩

end Alphabet.Stands

end SymbolRegex
