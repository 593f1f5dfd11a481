import Mathlib.Data.List.Induction
import SymbolRegex.Engine.Match
import SymbolRegex.Proofs.Fragments

/-! # The runs of a call

A call runs one pattern after another with the same buffers. Whatever it yields has a
path that supports it, and it misses nothing as long as its steps have new numbers. When
the numbers come round to zero, a run that begins takes the nodes that no run has come to
for claimed, its own first node among them, and accepts nothing.
-/

namespace SymbolRegex

open Automaton

/-- When the number of a step comes round to zero, the nodes that were never stamped are taken. -/
theorem Claims.not_free_advance {c : Claims} {n : Nat} (used : c.generation.toNat + 1 = UInt32.size)
    (unstamped : c.stamps[n]? = some 0) : c.advance.free n = false := by
  have zero : c.generation + 1 = 0 := by
    apply UInt32.toNat_inj.1
    rw [UInt32.toNat_add]
    exact (congrArg (· % UInt32.size) used).trans (Nat.mod_self _)
  simp [free, advance, unstamped, zero]

namespace Automaton

/-! ## Runs that take all their steps -/

variable {a : Automaton} {fragment : Fragment} {input w rest : List Input} {extent : Extent}
  {done : List Traced} {best : Option Acceptance} {f : Frontier} {slots : Slots} {s : Scratch}
  {p : List Step} {n : Nat}

theorem generation_spread (a : Automaton) (pos : Nat) (f : Frontier) (stack : List Thread) :
    (a.spread pos f stack).claims.generation = f.claims.generation :=
  spread_keeps (P := fun c => c.generation = f.claims.generation) (fun _ _ h => h) a pos stack rfl

theorem toNat_generation_runFrom (wf : a.WellFormed) (hstart : fragment.start < a.nodeCount)
    (split : input = w ++ rest) (h : Rounds a fragment.start w done) (shows : Shows a slots done f)
    (room : f.claims.Room rest.length) (path : Path a fragment.start input p n) (extent : Extent)
    (best : Option Acceptance) :
    (a.runFrom fragment extent w.length rest f.scratch best).2.claims.generation.toNat =
      f.claims.generation.toNat + rest.length := by
  induction rest generalizing w done f best with
  | nil => rfl
  | cons x rest ih =>
    rw [runFrom]
    split_ifs with dead
    · -- what the path has consumed so far has left a thread on its way
      obtain ⟨q, m, hq⟩ := (split ▸ path).exists_start
      obtain ⟨d, hd, -⟩ := h.reaches hq
      have none := shows.threads
      rw [Array.isEmpty_iff.1 (show f.threads.isEmpty = true from dead)] at none
      obtain rfl := List.map_eq_nil_iff.1 none.symm
      exact absurd hd List.not_mem_nil
    · have room : f.claims.Room (rest.length + 1) := room
      obtain ⟨done', h', shows'⟩ := h.advance wf hstart shows room.fresh x
      have next := ih (w := w ++ [x]) (by rw [split]; simp) h' shows'
        (room_spread _ _ room.advance)
      rw [List.length_append, List.length_singleton] at next
      rw [step_scratch, next, advance, generation_spread, room.toNat_advance, List.length_cons]
      omega

theorem toNat_generation_run (wf : a.WellFormed) (hstart : fragment.start < a.nodeCount)
    (extent : Extent) (ready : a.Ready (input.length + 1) s)
    (path : Path a fragment.start input p n) :
    (a.run fragment input extent s).2.claims.generation.toNat =
      s.claims.generation.toNat + (input.length + 1) := by
  obtain ⟨done, h, shows⟩ := rounds_enter wf hstart ready.size ready.room.fresh
    (Array.replicate fragment.slotCount.toNat {})
  have := toNat_generation_runFrom wf hstart (List.nil_append input).symm h shows
    (room_spread _ _ ready.room.advance) path extent none
  rw [run_eq ready.stack]
  rw [enter, generation_spread, ready.room.toNat_advance] at this
  exact this.trans (by omega)

theorem run_eq_none (idle : s.stack = []) (taken : s.claims.advance.free fragment.start = false) :
    (a.run fragment input extent s).1 = none := by
  rw [run_eq idle, enter, spread_cons_of_taken (by simp [taken]), spread_nil]
  cases input <;> cases extent <;> simp [runFrom, accept, Frontier.scratch]

end Automaton

namespace Program

variable {a : Automaton} {input : List Input} {extent : Extent} {fragments : List Fragment}
  {i k : Nat} {s : Scratch} {m : Match}

/-- Some path supports a match of its pattern, where patterns are numbered from `i` on. -/
def Yields (a : Automaton) (fragments : List Fragment) (input : List Input) (extent : Extent)
    (i : Nat) (m : Match) : Prop :=
  ∃ j fragment accepted, fragments[j]? = some fragment ∧ m = toMatch (i + j) accepted ∧
    a.Supports fragment input extent accepted

theorem Yields.cons {fragment : Fragment} (h : Yields a fragments input extent (i + 1) m) :
    Yields a (fragment :: fragments) input extent i m := by
  obtain ⟨j, c, accepted, hj, rfl, supports⟩ := h
  exact ⟨j + 1, c, accepted, hj, by rw [Nat.add_assoc, Nat.add_comm 1 j], supports⟩

theorem allFrom_cons (fragment : Fragment) : allFrom a input extent i s (fragment :: fragments) =
    ((a.run fragment input extent s).1.map (toMatch i)).toList ++
      allFrom a input extent (i + 1) (a.run fragment input extent s).2 fragments := rfl

theorem yields_of_mem_allFrom (wf : a.WellFormed) (idle : s.stack = [])
    (h : m ∈ allFrom a input extent i s fragments) : Yields a fragments input extent i m := by
  induction fragments generalizing i s with
  | nil => exact absurd h List.not_mem_nil
  | cons fragment fragments ih =>
    obtain ⟨supports, remains⟩ := supports_run wf idle fragment input extent
    rcases List.mem_append.1 h with h | h
    · rw [Option.mem_toList, Option.map_eq_some_iff] at h
      obtain ⟨accepted, hrun, rfl⟩ := h
      exact ⟨0, fragment, accepted, rfl, rfl, supports _ hrun⟩
    · exact (ih remains.stack h).cons

theorem yields_of_findFrom (wf : a.WellFormed) (idle : s.stack = [])
    (h : findFrom a input extent i s fragments = some m) :
    Yields a fragments input extent i m := by
  rw [← head?_allFrom] at h
  exact yields_of_mem_allFrom wf idle (List.mem_of_head? h)

def stepsUpTo (fragments : List Fragment) (input : List Input) : Nat :=
  fragments.length * (input.length + 1)

theorem stepsUpTo_cons (fragment : Fragment) (fragments : List Fragment) (input : List Input) :
    stepsUpTo (fragment :: fragments) input = stepsUpTo fragments input + (input.length + 1) :=
  Nat.succ_mul ..

theorem findFrom_eq_some (wf : a.WellFormed) (hstart : ∀ c ∈ fragments, c.start < a.nodeCount)
    (ready : a.Ready (stepsUpTo fragments input) s)
    (h : findFrom a input extent i s fragments = some m) :
    (∃ j fragment n slots, fragments[j]? = some fragment ∧ m = toMatch (i + j) (n, slots) ∧
      IsGreatest (a.lengths fragment input extent) n) ∧
    ∀ j c, i + j < m.pattern → fragments[j]? = some c → a.lengths c input extent = ∅ := by
  induction fragments generalizing i s with
  | nil => cases h
  | cons fragment fragments ih =>
    rw [stepsUpTo_cons] at ready
    obtain ⟨outcome, ready⟩ :=
      outcome_run wf (hstart fragment List.mem_cons_self) input extent ready
    unfold findFrom at h
    split at h
    · next accepted s' hrun =>
      rw [hrun] at outcome
      obtain rfl := Option.some_inj.1 h
      refine ⟨⟨0, fragment, accepted.1, accepted.2, rfl, rfl, outcome.1⟩, fun j c hj => ?_⟩
      exact absurd hj (Nat.not_lt.2 (Nat.le_add_right i j))
    · next s' hrun =>
      rw [hrun] at outcome ready
      obtain ⟨⟨j, c, n, slots, hj, rfl, greatest⟩, before⟩ :=
        ih (fun c hc => hstart c (List.mem_cons_of_mem _ hc)) ready h
      refine ⟨⟨j + 1, c, n, slots, hj, by rw [Nat.add_assoc, Nat.add_comm 1 j], greatest⟩,
        fun j c hj hc => ?_⟩
      cases j with
      | zero => exact Option.some_inj.1 hc ▸ outcome
      | succ j => exact before j c (by omega) hc

theorem findFrom_eq_none (wf : a.WellFormed) (hstart : ∀ c ∈ fragments, c.start < a.nodeCount)
    (ready : a.Ready (stepsUpTo fragments input) s)
    (h : findFrom a input extent i s fragments = none) :
    ∀ c ∈ fragments, a.lengths c input extent = ∅ := by
  induction fragments generalizing i s with
  | nil => exact fun _ h => absurd h List.not_mem_nil
  | cons fragment fragments ih =>
    rw [stepsUpTo_cons] at ready
    obtain ⟨outcome, ready⟩ :=
      outcome_run wf (hstart fragment List.mem_cons_self) input extent ready
    unfold findFrom at h
    split at h
    · cases h
    · next s' hrun =>
      rw [hrun] at outcome ready
      intro c hc
      rcases List.mem_cons.1 hc with rfl | hc
      · exact outcome
      · exact ih (fun c hc => hstart c (List.mem_cons_of_mem _ hc)) ready h c hc

/-! ## Numbers that come round -/

section Left

def left (a : Automaton) (input : List Input) (extent : Extent) (s : Scratch)
    (fragments : List Fragment) : Scratch :=
  fragments.foldl (fun s c => (a.run c input extent s).2) s

theorem allFrom_append (xs ys : List Fragment) : allFrom a input extent i s (xs ++ ys) =
    allFrom a input extent i s xs ++
      allFrom a input extent (i + xs.length) (left a input extent s xs) ys := by
  induction xs generalizing i s with
  | nil => rfl
  | cons c xs ih =>
    rw [List.cons_append, allFrom_cons, allFrom_cons, ih, List.append_assoc, List.length_cons,
      Nat.add_assoc, Nat.add_comm 1]
    rfl

theorem remains_left (wf : a.WellFormed) (idle : s.stack = []) (input : List Input)
    (extent : Extent) {n : Nat} (apart : ∀ c ∈ fragments, ∀ u p, ¬ Path a c.start u p n) :
    (left a input extent s fragments).stack = [] ∧
      (left a input extent s fragments).claims.stamps[n]? = s.claims.stamps[n]? := by
  induction fragments generalizing s with
  | nil => exact ⟨idle, rfl⟩
  | cons c fragments ih =>
    obtain ⟨hc, apart⟩ := List.forall_mem_cons.1 apart
    obtain ⟨-, remains⟩ := supports_run wf idle c input extent
    obtain ⟨stack, stamps⟩ := ih remains.stack apart
    exact ⟨stack, stamps.trans (remains.stamps n hc)⟩

/-- Some path consumes all of the input, though it need not come to the end of the fragment. -/
def Lives (a : Automaton) (c : Fragment) (input : List Input) : Prop :=
  ∃ p n, Path a c.start input p n

/-- Fragments that live on to the end of the input take as many steps as they can. -/
theorem toNat_generation_left (wf : a.WellFormed) (hstart : ∀ c ∈ fragments, c.start < a.nodeCount)
    (lives : ∀ c ∈ fragments, Lives a c input) (extent : Extent)
    (ready : a.Ready (stepsUpTo fragments input) s) :
    (left a input extent s fragments).claims.generation.toNat =
      s.claims.generation.toNat + stepsUpTo fragments input := by
  induction fragments generalizing s with
  | nil => simp [left, stepsUpTo]
  | cons c fragments ih =>
    obtain ⟨hc, hstart⟩ := List.forall_mem_cons.1 hstart
    obtain ⟨⟨p, n, path⟩, lives⟩ := List.forall_mem_cons.1 lives
    rw [stepsUpTo_cons] at ready ⊢
    have steps := toNat_generation_run wf hc extent (ready.mono (Nat.le_add_left _ _)) path
    have rest := ih hstart lives (outcome_run wf hc input extent ready).2
    rw [steps] at rest
    exact rest.trans (by omega)

theorem Owns.path_within {base : Nat} {b : BoundPattern} (owns : Owns a base b) (wf : a.WellFormed)
    {u : List Input} {p : List Step} {n : Nat} (path : Path a base u p n) :
    base ≤ n ∧ n < base + 2 + (plan b).size := by
  induction p using List.reverseRecOn generalizing u n with
  | nil =>
    obtain ⟨-, rfl⟩ := path_nil_iff.1 path
    omega
  | append_singleton p s ih =>
    have harc := path.mem_arcs wf (List.mem_map_of_mem (List.mem_append_right p List.mem_cons_self))
    obtain ⟨u, v, rfl, hp, -, -, rfl⟩ := path_concat_iff.1 path
    obtain ⟨ge, lt⟩ := ih hp
    have := ((realizes_plan b).enclosed (ends_base base) _ (owns.inside _ harc ge lt)).2
    unfold Plan.Inner at this
    omega

/-- Paths from the patterns before do not come to the first node of a pattern that is added. -/
theorem apart_add {bounds : List BoundPattern} {program : Program} (laid : Laid bounds program)
    (b : BoundPattern) : ∀ c ∈ program.fragments, ∀ u p,
      ¬ Path (program.add b).automaton c.start u p program.automaton.nodeCount := by
  intro c hc u p path
  obtain ⟨b', base, rfl, owns⟩ := laid.exists_owns hc
  have grown := owns.grows (grows_add laid.wellFormed b) fun arc harc => by
    have := ((realizes_plan b).enclosed (ends_base _) arc harc).1
    unfold Plan.Inner at this
    omega
  have := (Owns.path_within grown (laid.add b).wellFormed path).2
  have := owns.le
  omega

/-- Behind patterns whose runs use up the numbers of the steps, the last one is missed. -/
theorem pattern_lt_of_mem_all {bounds : List BoundPattern} {b : BoundPattern} {m : Match}
    (steps : bounds.length * (input.length + 1) + 1 = UInt32.size)
    (lives : ∀ i < bounds.length, ∀ c, (ofPatterns (bounds ++ [b])).fragments[i]? = some c →
      Lives (ofPatterns (bounds ++ [b])).automaton c input)
    (h : m ∈ (ofPatterns (bounds ++ [b])).all input extent) : m.pattern < bounds.length := by
  have made : ofPatterns (bounds ++ [b]) = (ofPatterns bounds).add b := by
    rw [ofPatterns, List.foldl_append]
    rfl
  have laid := laid_ofPatterns bounds
  rw [made] at lives h
  generalize ofPatterns bounds = program at laid lives h
  have grown := grows_add laid.wellFormed b
  have wf := grown.wellFormed
  have lives : ∀ c ∈ program.fragments, Lives (program.add b).automaton c input := by
    intro c hc
    obtain ⟨i, hi⟩ := List.mem_iff_getElem?.1 hc
    have lt := (List.getElem?_eq_some_iff.1 hi).1
    refine lives i (laid.length ▸ lt) c ?_
    rw [add, List.getElem?_append_left lt]
    exact hi
  have count := grown.nodeCount
  have hstart : ∀ c ∈ program.fragments, c.start < (program.add b).automaton.nodeCount := by
    intro c hc
    have := laid.start_lt c hc
    omega
  have ready : (program.add b).automaton.Ready (stepsUpTo program.fragments input)
      (.new (program.add b).automaton.nodeCount) :=
    ready_new _ (by rw [stepsUpTo, laid.length]; omega)
  have used := toNat_generation_left wf hstart lives extent ready
  obtain ⟨stack, stamps⟩ := remains_left wf ready.stack input extent (apart_add laid b)
  have split : (program.add b).fragments = program.fragments ++
    [⟨program.automaton.nodeCount, program.automaton.nodeCount + 1, b.slotCount⟩] := rfl
  rw [all, split, allFrom_append] at h
  rcases List.mem_append.1 h with h | h
  · obtain ⟨j, c, accepted, hj, rfl, -⟩ := yields_of_mem_allFrom wf rfl h
    have := (List.getElem?_eq_some_iff.1 hj).1
    simp only [toMatch]
    rw [← laid.length]
    omega
  -- no path has led to the first node of the last pattern, so it still has the stamp zero, which
  -- is the number that the first step of its run comes round to
  · rw [allFrom_cons, run_eq_none stack] at h
    · simp [allFrom] at h
    · apply Claims.not_free_advance
      · rw [used, stepsUpTo, laid.length]
        exact (congrArg (· + 1) (Nat.zero_add _)).trans steps
      · rw [stamps]
        exact Array.getElem?_replicate.trans (if_pos (by omega))

end Left

end Program

end SymbolRegex
