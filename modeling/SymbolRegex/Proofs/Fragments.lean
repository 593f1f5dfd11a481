import SymbolRegex.Proofs.Acceptance
import SymbolRegex.Proofs.Realization

/-! # Fragments of a program

The patterns of a program are laid out one behind the other. No arc leads from the
nodes of one fragment to those of another, so the paths through a fragment are the
derivations of its pattern, and the slots of a path report the occurrences.
-/

namespace SymbolRegex

open Automaton

/-- A pattern is laid out from the node `base` on, and nothing else leaves its nodes. -/
structure Owns (a : Automaton) (base : Nat) (b : BoundPattern) : Prop where
  le : base + 2 + (plan b).size ≤ a.nodeCount
  present : (plan b).arcs base (base + 1) (base + 2) ⊆ a.arcs.toList
  inside : ∀ arc ∈ a.arcs.toList, base ≤ arc.source → arc.source < base + 2 + (plan b).size →
    arc ∈ (plan b).arcs base (base + 1) (base + 2)

structure Laid (bounds : List BoundPattern) (p : Program) : Prop where
  wellFormed : p.automaton.WellFormed
  length : p.fragments.length = bounds.length
  owned : ∀ {i : Nat} {b : BoundPattern}, bounds[i]? = some b → ∃ base,
    p.fragments[i]? = some ⟨base, base + 1, b.slotCount⟩ ∧ Owns p.automaton base b

variable {a : Automaton} {base : Nat} {b : BoundPattern} {bounds : List BoundPattern}
  {program : Program}

theorem laid_nil : Laid [] {} where
  wellFormed := wellFormed_empty
  length := rfl
  owned h := by simp at h

theorem grows_add (wf : program.automaton.WellFormed) (b : BoundPattern) :
    Grows program.automaton (2 + (plan b).size) ((plan b).arcs program.automaton.nodeCount
      (program.automaton.nodeCount + 1) (program.automaton.nodeCount + 2))
      (program.add b).automaton := by
  have ends := wf.grows_addNode.trans wf.addNode.grows_addNode
  have count := ends.nodeCount
  have grown := ends.trans (Plan.builds_wire b ends.wellFormed program.automaton.nodeCount
    (program.automaton.nodeCount + 1) (by omega) (by omega))
  rwa [count] at grown

theorem Owns.grows (owns : Owns a base b) {a' : Automaton} {count : Nat} {new : List Arc}
    (grown : Grows a count new a') (apart : ∀ arc ∈ new, a.nodeCount ≤ arc.source) :
    Owns a' base b where
  le := by
    have := owns.le
    have := grown.nodeCount
    omega
  present arc harc := by
    rw [grown.arcs]
    exact List.mem_append_left _ (owns.present harc)
  inside arc harc ge lt := by
    rw [grown.arcs] at harc
    rcases List.mem_append.1 harc with harc | harc
    · exact owns.inside arc harc ge lt
    · have := apart arc harc
      have := owns.le
      omega

theorem owns_add (wf : program.automaton.WellFormed) (b : BoundPattern) :
    Owns (program.add b).automaton program.automaton.nodeCount b := by
  have grown := grows_add wf b
  refine ⟨by have := grown.nodeCount; omega, ?_, ?_⟩
  · rw [grown.arcs]
    exact fun arc harc => List.mem_append_right _ harc
  · intro arc harc ge _
    rw [grown.arcs] at harc
    apply (List.mem_append.1 harc).resolve_left
    intro harc
    have := wf.source_lt arc (Array.mem_toList_iff.1 harc)
    omega

theorem Laid.add (h : Laid bounds program) (b : BoundPattern) :
    Laid (bounds ++ [b]) (program.add b) := by
  have grown := grows_add h.wellFormed b
  constructor
  case wellFormed => exact grown.wellFormed
  case length =>
    rw [Program.add, List.length_append, List.length_append, h.length]
    rfl
  case owned =>
    intro i c hi
    rcases Nat.lt_or_ge i bounds.length with lt | ge
    · rw [List.getElem?_append_left lt] at hi
      obtain ⟨base, hfragment, owns⟩ := h.owned hi
      refine ⟨base, ?_, owns.grows grown fun arc harc => ?_⟩
      · rw [Program.add, List.getElem?_append_left (h.length ▸ lt)]
        exact hfragment
      · have := ((realizes_plan b).enclosed (ends_base _) arc harc).1
        unfold Plan.Inner at this
        omega
    · have hlen : bounds.length = i := by
        have := (List.getElem?_eq_some_iff.1 hi).1
        rw [List.length_append, List.length_singleton] at this
        omega
      subst hlen
      rw [List.getElem?_concat_length, Option.some_inj] at hi
      subst hi
      refine ⟨program.automaton.nodeCount, ?_, owns_add h.wellFormed b⟩
      rw [Program.add, ← h.length, List.getElem?_concat_length]

theorem laid_ofPatterns (bounds : List BoundPattern) : Laid bounds (.ofPatterns bounds) := by
  induction bounds using List.reverseRecOn with
  | nil => exact laid_nil
  | append_singleton bounds b ih =>
    rw [Program.ofPatterns, List.foldl_append]
    exact ih.add b

theorem Laid.exists_owns (h : Laid bounds program) {c : Fragment} (hc : c ∈ program.fragments) :
    ∃ b base, c = ⟨base, base + 1, b.slotCount⟩ ∧ Owns program.automaton base b := by
  obtain ⟨i, hi⟩ := List.mem_iff_getElem?.1 hc
  have lt := (List.getElem?_eq_some_iff.1 hi).1
  rw [h.length] at lt
  obtain ⟨base, hbase, owns⟩ := h.owned (List.getElem?_eq_getElem lt)
  exact ⟨_, base, Option.some_inj.1 (hi.symm.trans hbase), owns⟩

theorem Laid.start_lt (h : Laid bounds program) :
    ∀ c ∈ program.fragments, c.start < program.automaton.nodeCount := by
  intro c hc
  obtain ⟨b, base, rfl, owns⟩ := h.exists_owns hc
  have := owns.le
  dsimp only
  omega

/-! ## Derivations -/

variable {w : List Input} {p : List Step} {os : List ActionSpan}

/-- A path through a fragment is a derivation, and passes the markers of what occurs in it. -/
theorem Owns.derives (owns : Owns a base b) (wf : a.WellFormed)
    (path : Path a base w p (base + 1)) : ∃ os, Pattern.Derives Fits b 0 w os ∧
      Marked os (passed 0 (p.map (·.arc))) := by
  have sub := path.walk.stays ((plan b).arcs base (base + 1) (base + 2))
    (fun n => base ≤ n ∧ n < base + 2 + (plan b).size) (path.mem_arcs wf)
    (fun arc harc hn => owns.inside arc harc hn.1 hn.2)
    (fun arc harc => by
      have := ((realizes_plan b).enclosed (ends_base base) arc harc).2
      unfold Plan.Inner at this; omega)
    (by omega)
  exact (realizes_plan b).sound (ends_base base) sub path.walk 0

theorem Owns.exists_path (owns : Owns a base b) (wf : a.WellFormed) {k : Nat}
    (h : Pattern.Derives Fits b k w os) : ∃ p, Path a base w p (base + 1) := by
  obtain ⟨as, sub, walk⟩ := (realizes_plan b).complete (ends_base base) h
  obtain ⟨p, path, -⟩ := walk.exists_path wf (List.Subset.trans sub owns.present)
  exact ⟨p, path⟩

theorem Owns.leads_iff (owns : Owns a base b) (wf : a.WellFormed) {input : List Input} {n : Nat} :
    a.Leads ⟨base, base + 1, b.slotCount⟩ input n ↔ input.take n ∈ b.language Fits := by
  rw [Pattern.mem_language_iff 0]
  constructor
  · rintro ⟨p, path⟩
    obtain ⟨os, h, -⟩ := owns.derives wf path
    exact ⟨os, h⟩
  · rintro ⟨os, h⟩
    exact owns.exists_path wf h

/-! ## Reports -/

theorem mem_spans_iff {slots : Slots} {s : ActionSpan} : s ∈ slots.spans ↔ ∃ slot,
    slots[s.action]? = some slot ∧ slot.enter = some s.enter ∧ slot.leave = some s.leave := by
  simp only [Slots.spans, List.mem_filterMap, Prod.exists, List.mem_zipIdx_iff_getElem?,
    Array.getElem?_toList, bind, pure, Option.bind_eq_some_iff, Option.some_inj]
  constructor
  · rintro ⟨slot, i, hslot, x, hx, y, hy, rfl⟩
    exact ⟨slot, hslot, hx, hy⟩
  · rintro ⟨slot, hslot, hx, hy⟩
    exact ⟨slot, s.action, hslot, s.enter, hx, s.leave, hy, rfl⟩

theorem spans_ascending (slots : Slots) : (slots.spans.map (·.action)).Pairwise (· < ·) := by
  apply List.pairwise_map.2
  refine List.pairwise_filterMap.2 ((zipIdx_pairwise slots.toList).imp ?_)
  rintro ⟨slot, i⟩ ⟨slot', j⟩ lt s hs s' hs'
  simp only [bind, pure, Option.bind_eq_some_iff, Option.some_inj] at hs hs'
  obtain ⟨x, -, y, -, rfl⟩ := hs
  obtain ⟨x', -, y', -, rfl⟩ := hs'
  exact lt

section Slots

variable {as : List Arc} {count i x : Nat} {slot : Slot}

theorem getElem?_fresh (h : (markAll 0 as (Array.replicate count {}))[i]? = some slot) :
    (Array.replicate count ({} : Slot))[i]? = some {} := by
  rw [markAll_eq] at h
  obtain ⟨old, hold, -⟩ := Option.map_eq_some_iff.1 h
  rw [Array.getElem?_replicate] at hold ⊢
  split_ifs at hold ⊢
  rfl

theorem Automaton.Marked.enter_iff (marked : Marked os (passed 0 as))
    (h : (markAll 0 as (Array.replicate count {}))[i]? = some slot) :
    slot.enter = some x ↔ IsLeast {x | ∃ o ∈ os, o.action = i ∧ o.enter = x} x := by
  rw [enter_markAll_iff (getElem?_fresh h) h]
  simp only [(marked i _).1]

theorem Automaton.Marked.leave_iff (marked : Marked os (passed 0 as))
    (h : (markAll 0 as (Array.replicate count {}))[i]? = some slot) :
    slot.leave = some x ↔ IsGreatest {x | ∃ o ∈ os, o.action = i ∧ o.leave = x} x := by
  rw [leave_markAll_iff (getElem?_fresh h) h]
  simp only [(marked i _).2]

theorem Automaton.Marked.exists_span (marked : Marked os (passed 0 as)) {o : ActionSpan}
    (ho : o ∈ os) (lt : o.action < count) :
    ∃ s ∈ Slots.spans (markAll 0 as (Array.replicate count {})), s.action = o.action := by
  obtain ⟨slot, hslot⟩ : ∃ slot,
      (markAll 0 as (Array.replicate count {}))[o.action]? = some slot := by
    rw [markAll_eq, Array.getElem?_replicate, if_pos lt]
    exact ⟨_, rfl⟩
  obtain ⟨x, hx⟩ := exists_enter_markAll hslot ((marked _ _).1.2 ⟨o, ho, rfl, rfl⟩)
  obtain ⟨y, hy⟩ := exists_leave_markAll hslot ((marked _ _).2.2 ⟨o, ho, rfl, rfl⟩)
  exact ⟨⟨o.action, x, y⟩, mem_spans_iff.2 ⟨slot, hslot, hx, hy⟩, rfl⟩

/-- The slots of a path report what occurs in the derivation. -/
theorem reports_spans (count : Nat) (marked : Marked os (passed 0 as)) :
    Reports count os (Slots.spans (markAll 0 as (Array.replicate count {}))) := by
  constructor
  case ascending => exact spans_ascending _
  case occurs_iff =>
    intro i
    rw [List.mem_map, List.mem_map]
    constructor
    · rintro ⟨s, hs, rfl⟩
      obtain ⟨slot, hslot, henter, -⟩ := mem_spans_iff.1 hs
      obtain ⟨o, ho, hi, -⟩ := ((marked.enter_iff hslot).1 henter).1
      obtain ⟨lt, -⟩ := Array.getElem?_eq_some_iff.1 (getElem?_fresh hslot)
      exact ⟨by rwa [Array.size_replicate] at lt, o, ho, hi⟩
    · rintro ⟨lt, o, ho, rfl⟩
      exact marked.exists_span ho lt
  case enter =>
    intro s hs
    obtain ⟨slot, hslot, henter, -⟩ := mem_spans_iff.1 hs
    exact (marked.enter_iff hslot).1 henter
  case leave =>
    intro s hs
    obtain ⟨slot, hslot, -, hleave⟩ := mem_spans_iff.1 hs
    exact (marked.leave_iff hslot).1 hleave

end Slots

end SymbolRegex
