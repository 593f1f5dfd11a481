import Mathlib.Order.Bounds.Defs
import SymbolRegex.Proofs.Matching

/-! # Matching a part and matching the whole

A run that may accept a part at the start goes through the same steps as a run over
that part alone, as long as both begin with the same buffers. So it accepts the longest
part that a run over that part alone accepts as a whole, and with the slots of that run.
-/

namespace SymbolRegex

namespace Automaton

variable {a : Automaton} {fragment : Fragment} {input : List Input} {s : Scratch} {pos k n : Nat}
  {best result : Option Acceptance} {accepted : Acceptance}

/-- What a run over the first `k` symbols accepts as a whole, from `pos` on. -/
def wholeFrom (a : Automaton) (fragment : Fragment) (pos : Nat) (input : List Input) (s : Scratch)
    (k : Nat) : Option Acceptance :=
  (a.runFrom fragment .whole pos (input.take k) s none).1

theorem wholeFrom_zero (a : Automaton) (fragment : Fragment) (pos : Nat) (input : List Input)
    (s : Scratch) : a.wholeFrom fragment pos input s 0 =
      (s.current.find? (·.node = fragment.stop)).map fun t => (pos, t.slots) := by
  rw [wholeFrom, List.take_zero, runFrom, accept, List.isEmpty_nil, if_pos rfl]
  cases s.current.find? (·.node = fragment.stop) <;> rfl

theorem wholeFrom_succ (a : Automaton) (fragment : Fragment) (pos : Nat) (x : Input)
    (input : List Input) (s : Scratch) (k : Nat) :
    a.wholeFrom fragment pos (x :: input) s (k + 1) =
      if s.current.isEmpty then none
      else a.wholeFrom fragment (pos + 1) input (a.step pos x s) k := by
  rw [wholeFrom, List.take_succ_cons, runFrom, accept, List.isEmpty_cons,
    if_neg Bool.false_ne_true]
  split <;> rfl

theorem fst_of_wholeFrom_eq_some (le : k ≤ input.length)
    (h : a.wholeFrom fragment pos input s k = some accepted) : accepted.1 = pos + k := by
  induction k generalizing pos input s with
  | zero =>
    rw [wholeFrom_zero, Option.map_eq_some_iff] at h
    obtain ⟨t, -, rfl⟩ := h
    rfl
  | succ k ih =>
    cases input with
    | nil => exact absurd le (Nat.not_succ_le_zero k)
    | cons x input =>
      rw [wholeFrom_succ] at h
      split at h
      · cases h
      · rw [ih (Nat.le_of_succ_le_succ le) h]
        omega

/-- The last of `n` values that is there, or the one that was there before. -/
inductive Last (g : Nat → Option Acceptance) (n : Nat) (best : Option Acceptance) :
    Option Acceptance → Prop where

  | found {k : Nat} {accepted : Acceptance} : k < n → g k = some accepted →
      (∀ j, k < j → j < n → g j = none) → Last g n best (some accepted)

  | kept : (∀ j < n, g j = none) → Last g n best best

theorem Last.succ {g : Nat → Option Acceptance}
    (h : Last (fun k => g (k + 1)) n ((g 0).or best) result) : Last g (n + 1) best result := by
  have later {k : Nat} (none : ∀ j, k ≤ j → j < n → g (j + 1) = none) (j : Nat) (hj : k < j)
      (lt : j < n + 1) : g j = Option.none := by
    obtain ⟨j, rfl⟩ := Nat.exists_eq_succ_of_ne_zero (Nat.ne_zero_of_lt hj)
    exact none j (Nat.le_of_lt_succ hj) (Nat.lt_of_succ_lt_succ lt)
  cases h with
  | found lt hk none => exact .found (Nat.succ_lt_succ lt) hk (later none)
  | kept none =>
    cases first : g 0 with
    | some accepted => exact .found (Nat.succ_pos n) first (later fun j _ => none j)
    | none =>
      refine .kept fun j lt => ?_
      rcases Nat.eq_zero_or_pos j with rfl | hj
      · exact first
      · exact later (fun j _ => none j) j hj lt

/-- A run for a part accepts what the last of the runs for the wholes accepts. -/
theorem last_runFrom (hpos : 0 < pos) : Last (a.wholeFrom fragment pos input s) (input.length + 1)
    best (a.runFrom fragment .leading pos input s best).1 := by
  induction input generalizing pos s best with
  | nil =>
    rw [runFrom, accept, if_pos (decide_eq_true hpos)]
    apply Last.succ
    rw [wholeFrom_zero]
    cases s.current.find? (·.node = fragment.stop) <;>
      exact .kept fun j lt => absurd lt (Nat.not_lt_zero j)
  | cons x input ih =>
    have first : accept fragment .leading pos (x :: input).isEmpty s.current best =
        (a.wholeFrom fragment pos (x :: input) s 0).or best := by
      rw [accept, if_pos (decide_eq_true hpos), wholeFrom_zero]
      cases s.current.find? (·.node = fragment.stop) <;> rfl
    rw [runFrom, first]
    apply Last.succ
    simp only [wholeFrom_succ]
    split
    · exact .kept fun _ _ => rfl
    · exact ih (Nat.succ_pos pos)

theorem exists_run_eq (a : Automaton) (fragment : Fragment) (s : Scratch) : ∃ s', ∀ input extent,
    a.run fragment input extent s = a.runFrom fragment extent 0 input s' none :=
  ⟨_, fun _ _ => rfl⟩

theorem last_run (a : Automaton) (fragment : Fragment) (input : List Input) (s : Scratch) :
    Last (fun k => (a.run fragment (input.take (k + 1)) .whole s).1) input.length none
      (a.run fragment input .leading s).1 := by
  obtain ⟨s', run⟩ := exists_run_eq a fragment s
  simp only [run]
  show Last (fun k => a.wholeFrom fragment 0 input s' (k + 1)) _ _ _
  cases input with
  | nil => exact .kept fun j lt => absurd lt (Nat.not_lt_zero j)
  | cons x input =>
    have first : accept fragment .leading 0 (x :: input).isEmpty s'.current none = none := rfl
    simp only [wholeFrom_succ]
    rw [runFrom, first]
    split
    · exact .kept fun _ _ => rfl
    · exact last_runFrom Nat.one_pos

theorem fst_of_run_take_eq_some (le : k ≤ input.length)
    (h : (a.run fragment (input.take k) .whole s).1 = some accepted) : accepted.1 = k := by
  obtain ⟨s', run⟩ := exists_run_eq a fragment s
  rw [run] at h
  exact (fst_of_wholeFrom_eq_some le h).trans (Nat.zero_add k)

/-- A run accepts the longest part at the start of an input, other than the empty one, that a run
with the same buffers accepts as a whole when it is the input, and with the same slots; it accepts
nothing if there is no such part. -/
theorem run_leading_iff_whole (a : Automaton) (fragment : Fragment) (input : List Input)
    (s : Scratch) :
    let whole := fun k => (a.run fragment (input.take k) .whole s).1
    (∀ k slots, (a.run fragment input .leading s).1 = some (k, slots) ↔
      IsGreatest {k | 1 ≤ k ∧ k ≤ input.length ∧ (whole k).isSome = true} k ∧
        whole k = some (k, slots)) ∧
    ((a.run fragment input .leading s).1 = none ↔
      ∀ k, 1 ≤ k → k ≤ input.length → whole k = none) := by
  intro whole
  have last := last_run a fragment input s
  generalize (a.run fragment input .leading s).1 = result at last ⊢
  cases last with
  | @found k accepted lt hk none =>
    have hk : whole (k + 1) = some accepted := hk
    have greatest :
        IsGreatest {k | 1 ≤ k ∧ k ≤ input.length ∧ (whole k).isSome = true} (k + 1) := by
      refine ⟨⟨Nat.succ_pos k, lt, by rw [hk]; rfl⟩, fun j ⟨hj, le, there⟩ => ?_⟩
      by_contra later
      obtain ⟨j, rfl⟩ := Nat.exists_eq_succ_of_ne_zero (Nat.ne_zero_of_lt hj)
      have : whole (j + 1) = Option.none := none j (by omega) le
      rw [this] at there
      cases there
    constructor
    · intro j slots
      constructor
      · rintro ⟨⟩
        obtain rfl : j = k + 1 := fst_of_run_take_eq_some lt hk
        exact ⟨greatest, hk⟩
      · rintro ⟨greatest', hj⟩
        obtain rfl := greatest'.unique greatest
        exact hk.symm.trans hj
    · refine iff_of_false (Option.some_ne_none _) fun nothing => ?_
      rw [nothing (k + 1) (Nat.succ_pos k) lt] at hk
      cases hk
  | kept none =>
    have nothing (k : Nat) (hk : 1 ≤ k) (le : k ≤ input.length) : whole k = Option.none := by
      obtain ⟨k, rfl⟩ := Nat.exists_eq_succ_of_ne_zero (Nat.ne_zero_of_lt hk)
      exact none k le
    refine ⟨fun k slots => iff_of_false (fun h => nomatch h) ?_, iff_of_true rfl nothing⟩
    rintro ⟨⟨⟨hk, le, -⟩, -⟩, h⟩
    rw [nothing k hk le] at h
    cases h

end Automaton

end SymbolRegex
