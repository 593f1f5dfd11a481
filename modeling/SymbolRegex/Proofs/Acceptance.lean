import Mathlib.Data.List.Nodup
import SymbolRegex.Proofs.Soundness

/-! # What a run accepts

A run whose steps have new numbers accepts the longest part of the input, of those
whose lengths are allowed, that some path consumes from the start of the fragment to
its end. The slots that it gives are those of the path that is tried first among the
simple ones.
-/

namespace SymbolRegex

namespace Automaton

/-- A path from end to end of a fragment that comes to no node again without consuming a symbol. -/
structure Crosses (a : Automaton) (fragment : Fragment) (w : List Input) (p : List Step) :
    Prop where
  path : Path a fragment.start w p fragment.stop
  simple : Simple p

/-- The first of these paths, when they are compared by the first arcs in which they differ. -/
structure FirstBy (a : Automaton) (before : Step → Step → Prop) (fragment : Fragment)
    (w : List Input) (p : List Step) : Prop extends a.Crosses fragment w p where
  first : ∀ q, a.Crosses fragment w q → p = q ∨ List.Lex before p q

/-- The first `n` symbols of an input lead through a fragment. -/
def Leads (a : Automaton) (fragment : Fragment) (input : List Input) (n : Nat) : Prop :=
  ∃ p, Path a fragment.start (input.take n) p fragment.stop

def lengths (a : Automaton) (fragment : Fragment) (input : List Input) (extent : Extent) :
    Set Nat :=
  {n | extent.Allows input.length n ∧ a.Leads fragment input n}

/-- What is to be accepted when the given lengths are possible. -/
def Outcome (a : Automaton) (fragment : Fragment) (input : List Input) (lengths : Set Nat) :
    Option Acceptance → Prop
  | none => lengths = ∅
  | some (n, slots) => IsGreatest lengths n ∧ ∃ p, a.FirstBy Step.Sooner fragment (input.take n) p ∧
      slots = markAll 0 (p.map (·.arc)) (Array.replicate fragment.slotCount.toNat {})

variable {a : Automaton} {fragment : Fragment} {input w rest : List Input} {extent : Extent}
  {done : List Traced} {best : Option Acceptance} {f : Frontier}
  {claims : Claims} {s : Scratch} {n k : Nat}

theorem Rounds.firstBy (h : Rounds a fragment.start w done) {d : Traced} (hd : d ∈ done)
    (hn : d.node = fragment.stop) : a.FirstBy Step.Sooner fragment w d.path where
  path := hn ▸ h.exploring.path d (List.mem_append_left _ hd)
  simple := h.exploring.simple d hd
  first q hq := by
    obtain ⟨d', hd', hn', hle⟩ := h.reaches hq.path
    have nodup : (done.map (·.node)).Nodup := List.pairwise_map.2 h.exploring.distinct
    obtain rfl := List.inj_on_of_nodup_map nodup hd hd' (hn.trans hn'.symm)
    exact hle hq.simple

theorem Rounds.leads_iff (h : Rounds a fragment.start (input.take w.length) done) :
    a.Leads fragment input w.length ↔ ∃ d ∈ done, d.node = fragment.stop := by
  constructor
  · rintro ⟨p, hp⟩
    obtain ⟨d, hd, hn, -⟩ := h.reaches hp
    exact ⟨d, hd, hn⟩
  · rintro ⟨d, hd, hn⟩
    exact ⟨d.path, hn ▸ h.exploring.path d (List.mem_append_left _ hd)⟩

def lengthsBelow (a : Automaton) (fragment : Fragment) (input : List Input) (extent : Extent)
    (bound : Nat) : Set Nat :=
  {n | n ∈ a.lengths fragment input extent ∧ n < bound}

theorem lengthsBelow_succ_of_not {n : Nat}
    (h : ¬ (extent.Allows input.length n ∧ a.Leads fragment input n)) :
    a.lengthsBelow fragment input extent (n + 1) = a.lengthsBelow fragment input extent n := by
  ext m
  refine and_congr_right fun hm => ⟨fun lt => ?_, fun lt => by omega⟩
  have : m ≠ n := by rintro rfl; exact h hm
  omega

theorem outcome_accept (split : input = w ++ rest) (h : Rounds a fragment.start w done)
    (shows : Shows a (Array.replicate fragment.slotCount.toNat {}) done f)
    (hbest : a.Outcome fragment input (a.lengthsBelow fragment input extent w.length) best) :
    a.Outcome fragment input (a.lengthsBelow fragment input extent (w.length + 1))
      (accept fragment extent w.length rest.isEmpty f.threads best) := by
  have take : input.take w.length = w := by rw [split, List.take_left]
  have leads : a.Leads fragment input w.length ↔ ∃ d ∈ done, d.node = fragment.stop :=
    Rounds.leads_iff (take.symm ▸ h)
  by_cases allowed : extent.Allows input.length w.length
  · rw [accept_of_allows split allowed]
    cases hfind : f.threads.find? (·.node = fragment.stop) with
    | none =>
      have hno : ¬ a.Leads fragment input w.length := by
        rw [leads]
        rintro ⟨d, hd, hn⟩
        have := Array.find?_eq_none.1 hfind (d.thread (Array.replicate fragment.slotCount.toNat {}))
          (Array.mem_toList_iff.1 (shows.threads ▸ List.mem_map_of_mem hd))
        simp [Traced.thread, hn] at this
      rw [lengthsBelow_succ_of_not fun h => hno h.2]
      exact hbest
    | some t =>
      have mem := Array.mem_toList_iff.2 (Array.mem_of_find?_eq_some hfind)
      rw [shows.threads] at mem
      obtain ⟨d, hd, rfl⟩ := List.mem_map.1 mem
      have hn := Array.find?_some hfind
      rw [decide_eq_true_eq] at hn
      refine ⟨⟨⟨⟨allowed, leads.2 ⟨d, hd, hn⟩⟩, Nat.lt_succ_self _⟩, ?_⟩, d.path, ?_, rfl⟩
      · intro m hm
        exact Nat.le_of_lt_succ hm.2
      · rw [take]
        exact Rounds.firstBy h hd hn
  · rw [accept_of_not_allows split allowed, lengthsBelow_succ_of_not fun h => allowed h.1]
    exact hbest

theorem lengthsBelow_of_length : a.lengthsBelow fragment input extent (input.length + 1) =
    a.lengths fragment input extent := by
  ext n
  exact and_iff_left_of_imp fun hn => Nat.lt_succ_of_le hn.1.le

/-- Nothing longer is accepted once no thread is left: the path would have one on its way. -/
theorem lengthsBelow_of_dead (split : input = w ++ rest) (h : Rounds a fragment.start w []) :
    a.lengthsBelow fragment input extent (w.length + 1) = a.lengths fragment input extent := by
  ext n
  apply and_iff_left_of_imp
  intro hn
  by_contra hlt
  obtain ⟨p, hp⟩ := hn.2
  have long : input.take n = w ++ rest.take (n - w.length) := by
    rw [split, List.take_append, List.take_of_length_le (by omega)]
  rw [long] at hp
  obtain ⟨q, k, path⟩ := hp.exists_start
  obtain ⟨d, hd, -⟩ := h.reaches path
  exact List.not_mem_nil hd

/-! ## Runs with new numbers -/

/-- The buffers of a call in which the numbers of the next `n` steps are new. -/
structure Ready (a : Automaton) (n : Nat) (s : Scratch) : Prop where
  stack : s.stack = []
  size : s.claims.stamps.size = a.nodeCount
  room : s.claims.Room n

theorem ready_new (a : Automaton) (h : k < UInt32.size) : a.Ready k (.new a.nodeCount) where
  stack := rfl
  size := Array.size_replicate
  room := Claims.room_new h

theorem Ready.mono (h : a.Ready n s) (le : k ≤ n) : a.Ready k s :=
  ⟨h.stack, h.size, h.room.mono le⟩

theorem room_spread (pos : Nat) (stack : List Thread) (h : f.claims.Room k) :
    (a.spread pos f stack).claims.Room k :=
  spread_keeps (fun c n (h : c.Room k) => h.claim n) a pos stack h

theorem outcome_runFrom (wf : a.WellFormed) (hstart : fragment.start < a.nodeCount)
    (split : input = w ++ rest) (h : Rounds a fragment.start w done)
    (shows : Shows a (Array.replicate fragment.slotCount.toNat {}) done f)
    (room : f.claims.Room (k + rest.length))
    (hbest : a.Outcome fragment input (a.lengthsBelow fragment input extent w.length) best) :
    a.Outcome fragment input (a.lengths fragment input extent)
        (a.runFrom fragment extent w.length rest f.scratch best).1 ∧
      (a.runFrom fragment extent w.length rest f.scratch best).2.claims.Room k := by
  induction rest generalizing w done f best with
  | nil =>
    have hacc := outcome_accept split h shows hbest
    have all : input.length = w.length := by rw [split, List.append_nil]
    rw [← all, lengthsBelow_of_length, all] at hacc
    exact ⟨hacc, room⟩
  | cons x rest ih =>
    have hacc := outcome_accept split h shows hbest
    rw [runFrom]
    split_ifs with hempty
    · have none := shows.threads
      rw [Array.isEmpty_iff.1 (show f.threads.isEmpty = true from hempty)] at none
      obtain rfl := List.map_eq_nil_iff.1 none.symm
      rw [lengthsBelow_of_dead split h] at hacc
      exact ⟨hacc, room.mono (Nat.le_add_right _ _)⟩
    · have room : f.claims.Room (k + rest.length + 1) := room
      obtain ⟨done', h', shows'⟩ := h.advance wf hstart shows room.fresh x
      have := ih (w := w ++ [x]) (by rw [split]; simp) h' shows' (room_spread _ _ room.advance)
        (by rw [List.length_append, List.length_singleton]; exact hacc)
      rwa [List.length_append, List.length_singleton, ← step_scratch] at this

/-- A run accepts the greatest length that is allowed and leads through the fragment. It takes a
step at its start and one for each symbol at the most. -/
theorem outcome_run (wf : a.WellFormed) (hstart : fragment.start < a.nodeCount)
    (input : List Input) (extent : Extent) (ready : a.Ready (k + (input.length + 1)) s) :
    a.Outcome fragment input (a.lengths fragment input extent)
        (a.run fragment input extent s).1 ∧
      a.Ready k (a.run fragment input extent s).2 := by
  have room : s.claims.Room (k + input.length + 1) := ready.room
  obtain ⟨done, h, shows⟩ := rounds_enter wf hstart ready.size room.fresh
    (Array.replicate fragment.slotCount.toNat {})
  have remains := (supports_run wf ready.stack fragment input extent).2
  rw [run_eq ready.stack] at remains ⊢
  have nothing : a.Outcome fragment input (a.lengthsBelow fragment input extent 0) none :=
    Set.eq_empty_of_forall_notMem fun n hn => absurd hn.2 (Nat.not_lt_zero n)
  obtain ⟨outcome, room⟩ := outcome_runFrom wf hstart (List.nil_append input).symm h shows
    (room_spread _ _ room.advance) nothing
  exact ⟨outcome, remains.stack, remains.size.trans ready.size, room⟩

end Automaton

end SymbolRegex
