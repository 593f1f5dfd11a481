import SymbolRegex.Proofs.Exploration

/-! # Threads come along paths

Whichever nodes pass for claimed, a thread has come along some path, with the slots of
that path, and claims only where paths lead. So a run accepts nothing that no path
accepts. What it can do, when the numbers of its steps are not new, is miss something.
-/

namespace SymbolRegex

/-- The lengths that a match may have in an input of the given length. -/
def Extent.Allows (length : Nat) : Extent → Nat → Prop
  | leading, n => 0 < n ∧ n ≤ length
  | whole, n => n = length

theorem Extent.Allows.le {length n : Nat} {extent : Extent} (h : extent.Allows length n) :
    n ≤ length := by
  cases extent with
  | leading => exact h.2
  | whole => exact Nat.le_of_eq h

namespace Automaton

variable {a : Automaton} {fragment : Fragment} {input w rest : List Input} {extent : Extent}
  {best : Option Acceptance} {accepted : Acceptance} {f : Frontier} {t : Thread}
  {stack : List Thread} {start n : Nat} {slots : Slots} {claims : Claims} {s : Scratch} {x : Input}

/-! ## Accepting -/

theorem allows_iff (split : input = w ++ rest) : extent.Allows input.length w.length ↔
    (match extent with | .leading => decide (0 < w.length) | .whole => rest.isEmpty) = true := by
  rw [split, List.length_append]
  cases extent with
  | leading => simp [Extent.Allows]
  | whole =>
    rw [Extent.Allows, List.isEmpty_iff, ← List.length_eq_zero_iff]
    omega

theorem accept_of_allows (split : input = w ++ rest) (h : extent.Allows input.length w.length) :
    accept fragment extent w.length rest.isEmpty f.threads best =
      ((f.threads.find? (·.node = fragment.stop)).map fun t => (w.length, t.slots)).or best := by
  apply (if_pos ((allows_iff split).1 h)).trans
  cases f.threads.find? (·.node = fragment.stop) <;> rfl

theorem accept_of_not_allows (split : input = w ++ rest)
    (h : ¬ extent.Allows input.length w.length) :
    accept fragment extent w.length rest.isEmpty f.threads best = best :=
  if_neg fun allowed => h ((allows_iff split).2 allowed)

/-! ## Threads along paths -/

def Along (a : Automaton) (start : Nat) (slots : Slots) (w : List Input) (t : Thread) : Prop :=
  ∃ d : Traced, Path a start w d.path d.node ∧ d.thread slots = t

theorem Along.silent (wf : a.WellFormed) (h : a.Along start slots w t) :
    ∀ e ∈ a.silentSteps w.length t, a.Along start slots w e := by
  obtain ⟨d, path, rfl⟩ := h
  rw [Traced.silentSteps_eq path]
  refine List.forall_mem_map.2 fun e he => ?_
  obtain ⟨s, hs, ht, rfl⟩ := Traced.mem_next_iff.1 he
  have := Traced.path_follow wf path hs ht
  rw [List.append_nil] at this
  exact ⟨_, this, rfl⟩

theorem Along.symbol (wf : a.WellFormed) (h : a.Along start slots w t) (x : Input) :
    ∀ e ∈ a.symbolSteps w.length x t, a.Along start slots (w ++ [x]) e := by
  obtain ⟨d, path, rfl⟩ := h
  rw [Traced.symbolSteps_eq path]
  refine List.forall_mem_map.2 fun e he => ?_
  obtain ⟨s, hs, ht, rfl⟩ := Traced.mem_next_iff.1 he
  exact ⟨_, Traced.path_follow wf path hs ht, rfl⟩

/-- All threads have come along paths, and where no path leads the stamps are as they were. -/
structure Sound (a : Automaton) (start : Nat) (slots : Slots) (before : Claims) (w : List Input)
    (f : Frontier) : Prop where
  along : ∀ t ∈ f.threads.toList, a.Along start slots w t
  size : f.claims.stamps.size = before.stamps.size
  stamps : ∀ n, (∀ u p, ¬ Path a start u p n) → f.claims.stamps[n]? = before.stamps[n]?

theorem sound_none (a : Automaton) (start : Nat) (slots : Slots) (claims : Claims)
    (w : List Input) : a.Sound start slots claims w ⟨claims.advance, #[]⟩ where
  along _ h := absurd h List.not_mem_nil
  size := rfl
  stamps _ _ := rfl

theorem Sound.spread (wf : a.WellFormed) (h : a.Sound start slots claims w f)
    (along : ∀ t ∈ stack, a.Along start slots w t) :
    a.Sound start slots claims w (a.spread w.length f stack) := by
  induction f, stack using spread.induct a w.length with
  | case1 f => rwa [spread_nil]
  | case2 f t stack free ih =>
    obtain ⟨ht, hstack⟩ := List.forall_mem_cons.1 along
    rw [spread_cons_of_free free]
    refine ih ⟨fun e he => ?_, ?_, fun n unreached => ?_⟩
      (List.forall_mem_append.2 ⟨ht.silent wf, hstack⟩)
    · rw [Array.toList_push] at he
      rcases List.mem_append.1 he with he | he
      · exact h.along e he
      · exact List.mem_singleton.1 he ▸ ht
    · exact Array.size_setIfInBounds.trans h.size
    · obtain ⟨d, path, rfl⟩ := ht
      have ne : d.node ≠ n := fun e => unreached w d.path (e ▸ path)
      exact (Array.getElem?_setIfInBounds_ne ne).trans (h.stamps n unreached)
  | case3 f t stack taken ih =>
    rw [spread_cons_of_taken taken]
    exact ih h (List.forall_mem_cons.1 along).2

theorem sound_enter (wf : a.WellFormed) (claims : Claims) :
    a.Sound start slots claims [] (a.enter claims ⟨start, slots⟩) := by
  have along : a.Along start slots [] ⟨start, slots⟩ :=
    ⟨⟨start, []⟩, path_nil_iff.2 ⟨rfl, rfl⟩, rfl⟩
  exact (sound_none ..).spread wf (List.forall_mem_singleton.2 along)

theorem Sound.advance (wf : a.WellFormed) (h : a.Sound start slots claims w f) (x : Input) :
    a.Sound start slots claims (w ++ [x]) (a.advance w.length x f) := by
  have none : a.Sound start slots claims (w ++ [x]) ⟨f.claims.advance, #[]⟩ :=
    ⟨fun _ h => absurd h List.not_mem_nil, h.size, h.stamps⟩
  have along : ∀ e ∈ f.threads.toList.flatMap (a.symbolSteps w.length x),
      a.Along start slots (w ++ [x]) e := by
    intro e he
    obtain ⟨t, ht, he⟩ := List.mem_flatMap.1 he
    exact (h.along t ht).symbol wf x e he
  have := none.spread wf along
  rwa [List.length_append, List.length_singleton] at this

/-! ## Runs -/

structure Supports (a : Automaton) (fragment : Fragment) (input : List Input) (extent : Extent)
    (accepted : Acceptance) : Prop where
  allows : extent.Allows input.length accepted.1
  path : ∃ p, Path a fragment.start (input.take accepted.1) p fragment.stop ∧
    accepted.2 = markAll 0 (p.map (·.arc)) (Array.replicate fragment.slotCount.toNat {})

theorem Sound.accept (split : input = w ++ rest)
    (h : a.Sound fragment.start (Array.replicate fragment.slotCount.toNat {}) claims w f)
    (hbest : ∀ b ∈ best, a.Supports fragment input extent b) :
    ∀ b ∈ accept fragment extent w.length rest.isEmpty f.threads best,
      a.Supports fragment input extent b := by
  by_cases allowed : extent.Allows input.length w.length
  · rw [accept_of_allows split allowed]
    intro b hb
    rcases Option.or_eq_some_iff.1 hb with hb | ⟨-, hb⟩
    · obtain ⟨t, ht, rfl⟩ := Option.map_eq_some_iff.1 hb
      obtain ⟨d, path, rfl⟩ := h.along t (Array.mem_toList_iff.2 (Array.mem_of_find?_eq_some ht))
      have hn := Array.find?_some ht
      rw [decide_eq_true_eq] at hn
      dsimp only [Traced.thread] at hn
      have take : input.take w.length = w := by rw [split, List.take_left]
      exact ⟨allowed, d.path, by rwa [take, ← hn], rfl⟩
    · exact hbest b hb
  · rw [accept_of_not_allows split allowed]
    exact hbest

/-- What is left of a run: nothing waits, and only nodes where paths lead have been stamped. -/
structure Remains (a : Automaton) (start : Nat) (before : Claims) (s : Scratch) : Prop where
  stack : s.stack = []
  size : s.claims.stamps.size = before.stamps.size
  stamps : ∀ n, (∀ u p, ¬ Path a start u p n) → s.claims.stamps[n]? = before.stamps[n]?

theorem Sound.runFrom (wf : a.WellFormed) (split : input = w ++ rest)
    (h : a.Sound fragment.start (Array.replicate fragment.slotCount.toNat {}) claims w f)
    (hbest : ∀ b ∈ best, a.Supports fragment input extent b) :
    (∀ b ∈ (a.runFrom fragment extent w.length rest f.scratch best).1,
      a.Supports fragment input extent b) ∧
    a.Remains fragment.start claims (a.runFrom fragment extent w.length rest f.scratch best).2 := by
  have remains {w f} (h : a.Sound fragment.start (Array.replicate fragment.slotCount.toNat {})
      claims w f) : a.Remains fragment.start claims f.scratch := ⟨rfl, h.size, h.stamps⟩
  induction rest generalizing w f best with
  | nil => exact ⟨h.accept split hbest, remains h⟩
  | cons x rest ih =>
    have hacc := h.accept split hbest
    rw [Automaton.runFrom]
    split_ifs
    · exact ⟨hacc, remains h⟩
    · have := ih (w := w ++ [x]) (by rw [split]; simp) (h.advance wf x) hacc
      rwa [List.length_append, List.length_singleton, ← step_scratch] at this

/-- A run accepts only what some path accepts. -/
theorem supports_run (wf : a.WellFormed) (idle : s.stack = []) (fragment : Fragment)
    (input : List Input) (extent : Extent) :
    (∀ b ∈ (a.run fragment input extent s).1, a.Supports fragment input extent b) ∧
      a.Remains fragment.start s.claims (a.run fragment input extent s).2 := by
  rw [run_eq idle]
  exact (sound_enter wf s.claims).runFrom wf (List.nil_append input).symm fun _ h => nomatch h

end Automaton

end SymbolRegex
