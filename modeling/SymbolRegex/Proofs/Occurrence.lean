import Mathlib.Order.Bounds.Defs
import SymbolRegex.Proofs.Language

/-! # Occurrences of actions

The occurrences that a derivation records lie within the word that it derives. An
action that stands in the pattern once, and under no repetition, occurs at most
once, and what it covers then belongs to the language of its body.
-/

namespace SymbolRegex

/-- What is reported of some occurrences: for each action below `count` that occurs, from where its
first occurrence begins to where its last one ends. -/
structure Reports (count : Nat) (occurrences reported : List ActionSpan) : Prop where
  ascending : (reported.map (·.action)).Pairwise (· < ·)
  occurs_iff : ∀ i, i ∈ reported.map (·.action) ↔ i < count ∧ i ∈ occurrences.map (·.action)
  enter : ∀ s ∈ reported,
    IsLeast {x | ∃ o ∈ occurrences, o.action = s.action ∧ o.enter = x} s.enter
  leave : ∀ s ∈ reported,
    IsGreatest {x | ∃ o ∈ occurrences, o.action = s.action ∧ o.leave = x} s.leave

namespace Pattern

variable {α σ : Type}

mutual

/-- The indices and bodies of the actions of a pattern, each before those inside it. -/
def parts : Pattern α → List (Nat × Pattern α)
  | leaf _ => []
  | sequence ps => allParts ps
  | choice ps => allParts ps
  | optional p => parts p
  | counted p _ _ => parts p
  | oneOrMore p => parts p
  | zeroOrMore p => parts p
  | action i p => (i, p) :: parts p

def allParts : List (Pattern α) → List (Nat × Pattern α)
  | [] => []
  | p :: ps => parts p ++ allParts ps

end

def actions (p : Pattern α) : List Nat := p.parts.map (·.1)

def allActions (ps : List (Pattern α)) : List Nat := (allParts ps).map (·.1)

mutual

/-- One more than the highest index of an action. -/
def actionCount : Pattern α → Nat
  | leaf _ => 0
  | sequence ps => maxActionCount ps
  | choice ps => maxActionCount ps
  | optional p => actionCount p
  | counted p _ _ => actionCount p
  | oneOrMore p => actionCount p
  | zeroOrMore p => actionCount p
  | action i p => max (i + 1) (actionCount p)

def maxActionCount : List (Pattern α) → Nat
  | [] => 0
  | p :: ps => max (actionCount p) (maxActionCount ps)

end

/-- The action `i` stands in a pattern once, with the given body, and under no repetition. -/
inductive OnlyAt (i : Nat) (body : Pattern α) : Pattern α → Prop where

  | here : i ∉ body.actions → OnlyAt i body (action i body)

  | action {j : Nat} {p : Pattern α} : j ≠ i → OnlyAt i body p → OnlyAt i body (action j p)

  | optional {p : Pattern α} : OnlyAt i body p → OnlyAt i body (optional p)

  | sequence {ps qs : List (Pattern α)} {p : Pattern α} : i ∉ allActions ps →
      OnlyAt i body p → i ∉ allActions qs → OnlyAt i body (sequence (ps ++ p :: qs))

  | choice {ps qs : List (Pattern α)} {p : Pattern α} : i ∉ allActions ps →
      OnlyAt i body p → i ∉ allActions qs → OnlyAt i body (choice (ps ++ p :: qs))

variable {accepts : α → σ → Prop} {p : Pattern α} {k : Nat} {w : List σ} {os : List ActionSpan}

theorem parts_subset_allParts {ps : List (Pattern α)} (h : p ∈ ps) : p.parts ⊆ allParts ps := by
  induction ps with
  | nil => exact absurd h List.not_mem_nil
  | cons q ps ih =>
    rcases List.mem_cons.1 h with rfl | h
    · exact List.subset_append_left _ _
    · exact List.Subset.trans (ih h) (List.subset_append_right _ _)

theorem actions_subset_allActions {ps : List (Pattern α)} (h : p ∈ ps) :
    p.actions ⊆ allActions ps :=
  List.map_subset _ (parts_subset_allParts h)

theorem allActions_nil : allActions ([] : List (Pattern α)) = [] := rfl

theorem allActions_cons (p : Pattern α) (ps : List (Pattern α)) :
    allActions (p :: ps) = p.actions ++ allActions ps := List.map_append

theorem actions_action (i : Nat) (p : Pattern α) : (action i p).actions = i :: p.actions := rfl

theorem toNat_max (a b : UInt32) : (max a b).toNat = max a.toNat b.toNat := by
  have split : max a b = if a ≤ b then b else a := rfl
  rw [split, apply_ite UInt32.toNat, Nat.max_def]
  rfl

mutual

theorem slotCount_le_iff {n : Nat} : ∀ p : Pattern α,
    p.slotCount.toNat ≤ n ↔ ∀ i ∈ p.actions, (i + 1) % UInt32.size ≤ n
  | leaf _ => by simp [slotCount, actions, parts]
  | sequence ps => maxSlotCount_le_iff ps
  | choice ps => maxSlotCount_le_iff ps
  | optional p => slotCount_le_iff p
  | counted p _ _ => slotCount_le_iff p
  | oneOrMore p => slotCount_le_iff p
  | zeroOrMore p => slotCount_le_iff p
  | action i p => by
    have slot : (UInt32.ofNat i + 1).toNat = (i + 1) % UInt32.size := by
      rw [UInt32.toNat_add, UInt32.toNat_ofNat']
      exact Nat.mod_add_mod i _ 1
    rw [slotCount, toNat_max, Nat.max_le, slot, slotCount_le_iff p, actions_action,
      List.forall_mem_cons]

theorem maxSlotCount_le_iff {n : Nat} : ∀ ps : List (Pattern α),
    (maxSlotCount ps).toNat ≤ n ↔ ∀ i ∈ allActions ps, (i + 1) % UInt32.size ≤ n
  | [] => by simp [maxSlotCount, allActions, allParts]
  | p :: ps => by
    rw [maxSlotCount, toNat_max, Nat.max_le, slotCount_le_iff p, maxSlotCount_le_iff ps,
      allActions_cons, List.forall_mem_append]

end

theorem slotCount_congr {β : Type} {q : Pattern β} (h : p.actions = q.actions) :
    p.slotCount = q.slotCount := by
  apply UInt32.toNat_inj.1
  apply Nat.le_antisymm
  · rw [slotCount_le_iff, h, ← slotCount_le_iff]
  · rw [slotCount_le_iff, ← h, ← slotCount_le_iff]

/-- There is a slot for every index but the last of 32 bits. -/
theorem lt_slotCount {i : Nat} (hi : i ∈ p.actions) (lt : i + 1 < UInt32.size) :
    i < p.slotCount.toNat := by
  have := (slotCount_le_iff p).1 (Nat.le_refl _) i hi
  rwa [Nat.mod_eq_of_lt lt] at this

theorem allParts_replicate_subset (p : Pattern α) (n : Nat) :
    allParts (List.replicate n p) ⊆ p.parts := by
  induction n with
  | zero => exact List.nil_subset _
  | succ n ih => exact List.append_subset.2 ⟨List.Subset.refl _, ih⟩

theorem derives_append_iff {ps qs : List (Pattern α)} :
    Derives accepts (sequence (ps ++ qs)) k w os ↔ ∃ u v os₁ os₂, w = u ++ v ∧ os = os₁ ++ os₂ ∧
      Derives accepts (sequence ps) k u os₁ ∧
      Derives accepts (sequence qs) (k + u.length) v os₂ := by
  induction ps generalizing k w os with
  | nil =>
    constructor
    · intro h; exact ⟨[], w, [], os, rfl, rfl, .nil, h⟩
    · rintro ⟨u, v, os₁, os₂, rfl, rfl, hu, hv⟩
      obtain ⟨rfl, rfl⟩ := derives_nil_iff.1 hu
      exact hv
  | cons p ps ih =>
    rw [List.cons_append, derives_cons_iff]
    constructor
    · rintro ⟨u, v, os₁, os₂, rfl, rfl, hp, h⟩
      obtain ⟨v₁, v₂, os₃, os₄, rfl, rfl, hps, hqs⟩ := ih.1 h
      refine ⟨u ++ v₁, v₂, os₁ ++ os₃, os₄, by simp, by simp, .cons hp hps, ?_⟩
      rwa [List.length_append, ← Nat.add_assoc]
    · rintro ⟨u, v, os₁, os₂, rfl, rfl, h, hqs⟩
      obtain ⟨u₁, u₂, os₃, os₄, rfl, rfl, hp, hps⟩ := derives_cons_iff.1 h
      refine ⟨u₁, u₂ ++ v, os₃, os₄ ++ os₂, by simp, by simp, hp, ?_⟩
      refine ih.2 ⟨u₂, v, os₄, os₂, rfl, rfl, hps, ?_⟩
      rwa [List.length_append, ← Nat.add_assoc] at hqs

theorem Derives.bounds (h : Derives accepts p k w os) :
    ∀ o ∈ os, k ≤ o.enter ∧ o.enter ≤ o.leave ∧ o.leave ≤ k + w.length := by
  induction h with
  | leaf | nil | skip => exact fun _ h => absurd h List.not_mem_nil
  | cons _ _ hp hps =>
    intro o ho
    rw [List.length_append]
    rcases List.mem_append.1 ho with ho | ho
    · have := hp o ho; omega
    · have := hps o ho; omega
  | choice _ _ ih | take _ ih | counted _ _ _ ih | oneOrMore _ ih | zeroOrMore _ ih => exact ih
  | action _ ih =>
    rintro o (_ | ⟨_, ho⟩)
    · exact ⟨Nat.le_refl _, Nat.le_add_right _ _, Nat.le_refl _⟩
    · exact ih o ho

/-- What an occurrence covers, in a word that stands from `k` on, belongs to a language. -/
def Covers (l : Language σ) (k : Nat) (w : List σ) (o : ActionSpan) : Prop :=
  ∃ u x v, w = u ++ x ++ v ∧ o.enter = k + u.length ∧ o.leave = k + u.length + x.length ∧ x ∈ l

theorem Covers.append_left {l : Language σ} {u v : List σ} {o : ActionSpan}
    (h : Covers l (k + u.length) v o) : Covers l k (u ++ v) o := by
  obtain ⟨u', x, v', rfl, he, hl, hx⟩ := h
  refine ⟨u ++ u', x, v', by simp, ?_, ?_, hx⟩ <;> simp only [List.length_append] <;> omega

theorem Covers.append_right {l : Language σ} {u : List σ} {o : ActionSpan} (h : Covers l k u o)
    (v : List σ) : Covers l k (u ++ v) o := by
  obtain ⟨u', x, v', rfl, he, hl, hx⟩ := h
  exact ⟨u', x, v' ++ v, by simp, he, hl, hx⟩

/-- An occurrence covers what the body of its action accepts. -/
theorem Derives.covers (h : Derives accepts p k w os) : ∀ o ∈ os, ∃ body,
    (o.action, body) ∈ p.parts ∧ Covers (body.language accepts) k w o := by
  induction h with
  | leaf | nil | skip => exact fun _ h => absurd h List.not_mem_nil
  | @cons _ _ k u v os os' _ _ hp hps =>
    intro o ho
    rcases List.mem_append.1 ho with ho | ho
    · obtain ⟨body, hmem, hc⟩ := hp o ho
      exact ⟨body, List.mem_append_left _ hmem, hc.append_right v⟩
    · obtain ⟨body, hmem, hc⟩ := hps o ho
      exact ⟨body, List.mem_append_right _ hmem, hc.append_left⟩
  | choice h _ ih =>
    intro o ho
    obtain ⟨body, hmem, hc⟩ := ih o ho
    exact ⟨body, parts_subset_allParts h hmem, hc⟩
  | take _ ih => exact ih
  | counted _ _ _ ih | oneOrMore _ ih | zeroOrMore _ ih =>
    intro o ho
    obtain ⟨body, hmem, hc⟩ := ih o ho
    have := allParts_replicate_subset _ _ hmem
    exact ⟨body, this, hc⟩
  | @action i p k w os h ih =>
    intro o ho
    rcases List.mem_cons.1 ho with rfl | ho
    · exact ⟨p, List.mem_cons_self, [], w, [], by simp, rfl, rfl, mem_language_of_derives h⟩
    · obtain ⟨body, hmem, hc⟩ := ih o ho
      exact ⟨body, List.mem_cons_of_mem _ hmem, hc⟩

theorem Derives.mem_actions (h : Derives accepts p k w os) : ∀ o ∈ os, o.action ∈ p.actions := by
  intro o ho
  obtain ⟨body, hmem, -⟩ := h.covers o ho
  exact List.mem_map_of_mem hmem

theorem allParts_append (ps qs : List (Pattern α)) :
    allParts (ps ++ qs) = allParts ps ++ allParts qs := by
  induction ps with
  | nil => rfl
  | cons p ps ih => rw [List.cons_append, allParts, allParts, ih, List.append_assoc]

variable {i : Nat} {body : Pattern α}

theorem body_eq_of_mem {ps qs : List (Pattern α)} (hps : i ∉ allActions ps)
    (hqs : i ∉ allActions qs) (ih : ∀ b, (i, b) ∈ p.parts → b = body) :
    ∀ b, (i, b) ∈ allParts (ps ++ p :: qs) → b = body := by
  intro b hb
  rw [allParts_append, allParts] at hb
  rcases List.mem_append.1 hb with hb | hb
  · exact absurd (List.mem_map_of_mem hb) hps
  · rcases List.mem_append.1 hb with hb | hb
    · exact ih b hb
    · exact absurd (List.mem_map_of_mem hb) hqs

theorem OnlyAt.body_eq (only : OnlyAt i body p) : ∀ b, (i, b) ∈ p.parts → b = body := by
  induction only with
  | here fresh =>
    intro b hb
    rcases List.mem_cons.1 hb with e | hb
    · exact (Prod.mk.injEq _ _ _ _ ▸ e).2
    · exact absurd (List.mem_map_of_mem hb) fresh
  | action hj _ ih =>
    intro b hb
    rcases List.mem_cons.1 hb with e | hb
    · exact absurd (congrArg Prod.fst e).symm hj
    · exact ih b hb
  | optional _ ih => exact ih
  | sequence hps _ hqs ih => exact body_eq_of_mem hps hqs ih
  | choice hps _ hqs ih => exact body_eq_of_mem hps hqs ih

/-- An action that stands in the pattern once, and under no repetition, occurs at most once. -/
theorem OnlyAt.once (only : OnlyAt i body p) (h : Derives accepts p k w os) :
    ∀ o ∈ os, o.action = i → ∀ o' ∈ os, o'.action = i → o = o' := by
  induction only generalizing k w os with
  | here fresh =>
    cases h with
    | action h =>
      have outermost {o c : ActionSpan} {cs : List ActionSpan} (ho : o ∈ c :: cs)
          (inside : ∀ o ∈ cs, o.action ∈ body.actions) (hi : o.action = i) : o = c :=
        (List.mem_cons.1 ho).resolve_right fun ho => fresh (hi ▸ inside o ho)
      intro o ho hi o' ho' hi'
      exact (outermost ho h.mem_actions hi).trans (outermost ho' h.mem_actions hi').symm
  | action hj _ ih =>
    cases h with
    | action h =>
      intro o ho hi o' ho' hi'
      rcases List.mem_cons.1 ho with rfl | ho
      · exact absurd hi hj
      · rcases List.mem_cons.1 ho' with rfl | ho'
        · exact absurd hi' hj
        · exact ih h o ho hi o' ho' hi'
  | optional _ ih =>
    cases h with
    | skip => exact fun _ h => absurd h List.not_mem_nil
    | take h => exact ih h
  | sequence hps _ hqs ih =>
    obtain ⟨u, v, os₁, os₂, rfl, rfl, hu, h⟩ := derives_append_iff.1 h
    obtain ⟨x, v, os₂, os₃, rfl, rfl, hx, hv⟩ := derives_cons_iff.1 h
    have mem : ∀ o ∈ os₁ ++ (os₂ ++ os₃), o.action = i → o ∈ os₂ := by
      intro o ho hi
      rcases List.mem_append.1 ho with ho | ho
      · exact absurd (hi ▸ hu.mem_actions o ho) hps
      · exact (List.mem_append.1 ho).resolve_right fun ho => hqs (hi ▸ hv.mem_actions o ho)
    intro o ho hi o' ho' hi'
    exact ih hx o (mem o ho hi) hi o' (mem o' ho' hi') hi'
  | choice hps _ hqs ih =>
    cases h with
    | choice hmem h =>
      rcases List.mem_append.1 hmem with hq | hq
      · intro o ho hi
        exact absurd (actions_subset_allActions hq (hi ▸ h.mem_actions o ho)) hps
      · rcases List.mem_cons.1 hq with rfl | hq
        · exact ih h
        · intro o ho hi
          exact absurd (actions_subset_allActions hq (hi ▸ h.mem_actions o ho)) hqs

end Pattern

/-- What is reported for an action that occurs once is what its body accepts. -/
theorem Reports.extract_mem {α σ : Type} {accepts : α → σ → Prop} {p : Pattern α} {w : List σ}
    {os reported : List ActionSpan} {count : Nat} (r : Reports count os reported)
    (h : Pattern.Derives accepts p 0 w os) {s : ActionSpan} (hs : s ∈ reported)
    (once : ∀ o ∈ os, o.action = s.action → ∀ o' ∈ os, o'.action = s.action → o = o') :
    ∃ body, (s.action, body) ∈ p.parts ∧ w.extract s.enter s.leave ∈ body.language accepts := by
  obtain ⟨o, ho, hi, he⟩ := (r.enter s hs).1
  obtain ⟨o', ho', hi', hl⟩ := (r.leave s hs).1
  obtain rfl := once o ho hi o' ho' hi'
  obtain ⟨body, hmem, u, x, v, rfl, hue, hul, hx⟩ := h.covers o ho
  have : s.leave - s.enter = x.length := by omega
  refine ⟨body, hi ▸ hmem, ?_⟩
  rw [List.extract_eq_take_drop, this, ← he, hue, Nat.zero_add, List.append_assoc, List.drop_left,
    List.take_left]
  exact hx

end SymbolRegex
