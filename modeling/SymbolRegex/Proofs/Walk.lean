import Mathlib.Order.Bounds.Basic
import Mathlib.Data.List.Infix
import SymbolRegex.Automaton.Simulation

/-! # Walks along arcs

A walk follows arcs from one node to another and consumes a word. Passing the
markers on its arcs leaves in each slot the first entry and the last exit of an
action.
-/

namespace SymbolRegex

def ArcLabel.Takes : ArcLabel → List Input → Prop
  | epsilon, w => w = []
  | symbols set, w => ∃ x, w = [x] ∧ x.accepts set = true

def Arc.after (arc : Arc) (pos : Nat) : Nat :=
  match arc.label with
  | .epsilon => pos
  | .symbols _ => pos + 1

theorem Arc.le_after (arc : Arc) (pos : Nat) : pos ≤ arc.after pos := by
  unfold Arc.after; split <;> omega

theorem Arc.after_eq {arc : Arc} {u : List Input} (h : arc.label.Takes u) (pos : Nat) :
    arc.after pos = pos + u.length := by
  unfold Arc.after
  split <;> rename_i e <;> rw [e] at h
  · rw [h]; rfl
  · obtain ⟨x, rfl, -⟩ := h; rfl

/-- Arcs that lead from one node to another and consume a word. -/
inductive Walk : Nat → List Input → List Arc → Nat → Prop where

  | nil (n : Nat) : Walk n [] [] n

  | cons {arc : Arc} {u w : List Input} {arcs : List Arc} {m : Nat} : arc.label.Takes u →
      Walk arc.target w arcs m → Walk arc.source (u ++ w) (arc :: arcs) m

variable {n m k : Nat} {u v w : List Input} {arc : Arc} {as bs : List Arc}

theorem walk_nil_iff : Walk n w [] m ↔ w = [] ∧ n = m := by
  constructor
  · intro h; cases h; exact ⟨rfl, rfl⟩
  · rintro ⟨rfl, rfl⟩; exact .nil _

theorem walk_cons_iff : Walk n w (arc :: as) m ↔
    arc.source = n ∧ ∃ u v, w = u ++ v ∧ arc.label.Takes u ∧ Walk arc.target v as m := by
  constructor
  · intro h; cases h with | cons ht h => exact ⟨rfl, _, _, rfl, ht, h⟩
  · rintro ⟨rfl, u, v, rfl, ht, h⟩; exact .cons ht h

theorem walk_append_iff : Walk n w (as ++ bs) m ↔
    ∃ u v k, w = u ++ v ∧ Walk n u as k ∧ Walk k v bs m := by
  induction as generalizing n w with
  | nil =>
    constructor
    · intro h; exact ⟨[], w, n, rfl, .nil n, h⟩
    · rintro ⟨u, v, k, rfl, hu, h⟩
      obtain ⟨rfl, rfl⟩ := walk_nil_iff.1 hu
      exact h
  | cons arc as ih =>
    rw [List.cons_append, walk_cons_iff]
    constructor
    · rintro ⟨rfl, u, v, rfl, ht, h⟩
      obtain ⟨v, v', k, rfl, hv, h⟩ := ih.1 h
      exact ⟨u ++ v, v', k, by simp, .cons ht hv, h⟩
    · rintro ⟨u, v, k, rfl, hu, h⟩
      obtain ⟨rfl, u, u', rfl, ht, hu⟩ := walk_cons_iff.1 hu
      exact ⟨rfl, u, u' ++ v, by simp, ht, ih.2 ⟨u', v, k, rfl, hu, h⟩⟩

theorem Walk.append (h : Walk n u as k) (h' : Walk k v bs m) : Walk n (u ++ v) (as ++ bs) m :=
  walk_append_iff.2 ⟨u, v, k, rfl, h, h'⟩

theorem Walk.single (arc : Arc) (h : arc.label.Takes u) : Walk arc.source u [arc] arc.target := by
  simpa using Walk.cons h (.nil arc.target)

theorem Walk.epsilon (n m : Nat) (markers : List Marker) :
    Walk n [] [⟨.epsilon, markers, n, m⟩] m :=
  .single ⟨.epsilon, markers, n, m⟩ rfl

theorem Walk.unique (h : Walk n w as m) (h' : Walk n v as k) : m = k ∧ w.length = v.length := by
  induction h generalizing v with
  | nil =>
    obtain ⟨rfl, rfl⟩ := walk_nil_iff.1 h'
    exact ⟨rfl, rfl⟩
  | cons ht _ ih =>
    obtain ⟨-, u', v', rfl, ht', h'⟩ := walk_cons_iff.1 h'
    obtain ⟨rfl, hl⟩ := ih h'
    have := (Arc.after_eq ht 0).symm.trans (Arc.after_eq ht' 0)
    exact ⟨rfl, by simp only [List.length_append]; omega⟩

theorem Walk.end_eq {n' m' : Nat} (h : Walk n w as m) (h' : Walk n' v as m') (ne : as ≠ []) :
    m = m' := by
  cases as with
  | nil => exact absurd rfl ne
  | cons arc as =>
    obtain ⟨rfl, -⟩ := walk_cons_iff.1 h
    obtain ⟨rfl, -⟩ := walk_cons_iff.1 h'
    exact (h.unique h').1

/-- Two walks with the same word, one of which continues the other: the rest is silent. -/
theorem Walk.silent_rest (h : Walk n w as k) (h' : Walk n w (as ++ bs) m) : Walk k [] bs m := by
  obtain ⟨u, v, k', rfl, hu, hv⟩ := walk_append_iff.1 h'
  obtain ⟨rfl, hl⟩ := h.unique hu
  have : v = [] := by simpa using hl
  exact this ▸ hv

theorem Walk.split_word (h : Walk n (u ++ v) as m) :
    ∃ bs cs k, as = bs ++ cs ∧ Walk n u bs k ∧ Walk k v cs m := by
  generalize hw : u ++ v = w at h
  induction h generalizing u with
  | nil n =>
    obtain ⟨rfl, rfl⟩ := List.append_eq_nil_iff.1 hw
    exact ⟨[], [], n, rfl, .nil n, .nil n⟩
  | @cons arc u' w as m ht h ih =>
    -- the word is split before its first symbol, or after the part that the arc takes
    cases u with
    | nil =>
      rw [List.nil_append] at hw
      exact ⟨[], arc :: as, arc.source, rfl, .nil _, hw ▸ .cons ht h⟩
    | cons x u =>
      obtain ⟨u₂, hu, rfl⟩ : ∃ u₂, x :: u = u' ++ u₂ ∧ w = u₂ ++ v := by
        cases hlab : arc.label with
        | epsilon =>
          rw [hlab] at ht
          subst ht
          exact ⟨x :: u, rfl, hw.symm⟩
        | symbols set =>
          rw [hlab] at ht
          obtain ⟨y, rfl, -⟩ := ht
          obtain ⟨rfl, rfl⟩ := List.cons_eq_cons.1 hw
          exact ⟨u, rfl, rfl⟩
      obtain ⟨bs, cs, k, rfl, hb, hc⟩ := ih rfl
      exact ⟨arc :: bs, cs, k, rfl, hu ▸ .cons ht hb, hc⟩

/-- A walk stays in a part of the arcs when nothing else leaves the nodes that the part leads
to. -/
theorem Walk.stays {all : List Arc} (part : List Arc) (S : Nat → Prop) (h : Walk n w as m)
    (sub : as ⊆ all) (inside : ∀ arc ∈ all, S arc.source → arc ∈ part)
    (next : ∀ arc ∈ part, S arc.target) (hn : S n) : as ⊆ part := by
  induction h with
  | nil => exact List.nil_subset _
  | @cons arc u w as m _ _ ih =>
    have harc := inside arc (sub List.mem_cons_self) hn
    have rest := ih (fun _ h => sub (List.mem_cons_of_mem _ h)) (next arc harc)
    exact List.cons_subset.2 ⟨harc, rest⟩

/-- A walk that leaves some nodes goes through the gate by which alone they can be left. -/
theorem Walk.gate {all : List Arc} (part : List Arc) (S : Nat → Prop) (g : Nat)
    (h : Walk n w as m) (sub : as ⊆ all)
    (inside : ∀ arc ∈ all, S arc.source → arc ∈ part ∧ (arc.target = g ∨ S arc.target))
    (hn : S n) (hm : ¬ S m) : ∃ u v bs cs, w = u ++ v ∧ as = bs ++ cs ∧
      Walk n u bs g ∧ bs ⊆ part ∧ Walk g v cs m := by
  induction h with
  | nil => exact absurd hn hm
  | @cons arc u w as m ht h ih =>
    obtain ⟨harc, rfl | htarget⟩ := inside arc (sub List.mem_cons_self) hn
    · have first : [arc] ⊆ part := List.cons_subset.2 ⟨harc, List.nil_subset _⟩
      exact ⟨u, w, [arc], as, rfl, rfl, .single arc ht, first, h⟩
    · obtain ⟨v, v', bs, cs, rfl, rfl, hb, hsub, hc⟩ :=
        ih (fun _ h => sub (List.mem_cons_of_mem _ h)) htarget hm
      exact ⟨u ++ v, v', arc :: bs, cs, by simp, rfl, .cons ht hb,
        List.cons_subset.2 ⟨harc, hsub⟩, hc⟩

/-! ## Passing markers -/

/-- The slots after passing the markers of some arcs, of which the first is taken at `pos`. -/
def markAll (pos : Nat) : List Arc → Slots → Slots
  | [], slots => slots
  | arc :: as, slots => markAll (arc.after pos) as (arc.mark pos (arc.after pos) slots)

theorem Walk.markAll_append (h : Walk n u as k) (pos : Nat) (bs : List Arc) (slots : Slots) :
    markAll pos (as ++ bs) slots = markAll (pos + u.length) bs (markAll pos as slots) := by
  induction h generalizing pos slots with
  | nil => rfl
  | @cons arc u w as m ht _ ih =>
    rw [List.cons_append, markAll, markAll, ih, Arc.after_eq ht, List.length_append, Nat.add_assoc]

/-- The markers of some arcs, with the positions at which they are passed. -/
def passed (pos : Nat) : List Arc → List (Marker × Nat)
  | [] => []
  | arc :: as =>
    arc.markers.map (fun m => (m, if m.entering then pos else arc.after pos)) ++
      passed (arc.after pos) as

theorem Walk.passed_append (h : Walk n u as k) (pos : Nat) (bs : List Arc) :
    passed pos (as ++ bs) = passed pos as ++ passed (pos + u.length) bs := by
  induction h generalizing pos with
  | nil => rfl
  | cons ht _ ih =>
    rw [List.cons_append, passed, passed, ih, Arc.after_eq ht, List.length_append, Nat.add_assoc,
      List.append_assoc]

theorem le_of_mem_passed {pos : Nat} {e : Marker × Nat} (h : e ∈ passed pos as) : pos ≤ e.2 := by
  induction as generalizing pos with
  | nil => exact absurd h List.not_mem_nil
  | cons arc as ih =>
    have hle := arc.le_after pos
    rcases List.mem_append.1 h with h | h
    · obtain ⟨m, -, rfl⟩ := List.mem_map.1 h
      split <;> omega
    · have := ih h; omega

theorem passed_pairwise (pos : Nat) (as : List Arc) :
    (passed pos as).Pairwise fun e e' => e.1.entering = e'.1.entering → e.2 ≤ e'.2 := by
  induction as generalizing pos with
  | nil => exact .nil
  | cons arc as ih =>
    have hle := arc.le_after pos
    refine List.pairwise_append.2 ⟨?_, ih _, ?_⟩
    · refine List.pairwise_map.2 (List.pairwise_of_forall ?_)
      rintro m m' e
      simp only at e
      simp [e]
    · intro e he e' he' _
      obtain ⟨m, -, rfl⟩ := List.mem_map.1 he
      have := le_of_mem_passed he'
      split <;> omega

def Slot.passAll (i : Nat) (s : Slot) (es : List (Marker × Nat)) : Slot :=
  es.foldl (fun s e => if e.1.action = i then s.pass e.1.entering e.2 e.2 else s) s

theorem Arc.mark_eq (arc : Arc) (before after : Nat) (slots : Slots) (i : Nat) :
    (arc.mark before after slots)[i]? = slots[i]?.map fun s => s.passAll i
      (arc.markers.map fun m => (m, if m.entering then before else after)) := by
  unfold Arc.mark
  induction arc.markers generalizing slots with
  | nil => simp [Slot.passAll]
  | cons m ms ih =>
    rw [List.foldl_cons, ih, Array.getElem?_modify]
    by_cases e : m.action = i <;> cases he : m.entering <;> cases slots[i]? <;>
      simp [Slot.passAll, Slot.pass, e, he]

theorem markAll_eq (pos : Nat) (as : List Arc) (slots : Slots) (i : Nat) :
    (markAll pos as slots)[i]? = slots[i]?.map fun s => s.passAll i (passed pos as) := by
  induction as generalizing pos slots with
  | nil => simp [markAll, passed, Slot.passAll]
  | cons arc as ih =>
    rw [markAll, ih, Arc.mark_eq, Option.map_map, passed]
    simp [Slot.passAll, Function.comp_def, List.foldl_append]

def positions (entering : Bool) (i : Nat) (es : List (Marker × Nat)) : List Nat :=
  (es.filter fun e => e.1 = ⟨entering, i⟩).map (·.2)

@[simp] theorem mem_positions {entering : Bool} {i y : Nat} {es : List (Marker × Nat)} :
    y ∈ positions entering i es ↔ (⟨entering, i⟩, y) ∈ es := by
  simp [positions]

theorem positions_pairwise {es : List (Marker × Nat)}
    (sorted : es.Pairwise fun e e' => e.1.entering = e'.1.entering → e.2 ≤ e'.2)
    (entering : Bool) (i : Nat) : (positions entering i es).Pairwise (· ≤ ·) := by
  refine List.pairwise_map.2 ((sorted.filter _).imp_of_mem fun {e e'} he he' h => h ?_)
  have h₁ : e.1 = ⟨entering, i⟩ := by simpa using (List.mem_filter.1 he).2
  have h₂ : e'.1 = ⟨entering, i⟩ := by simpa using (List.mem_filter.1 he').2
  rw [h₁, h₂]

theorem Slot.enter_passAll (i : Nat) (s : Slot) (es : List (Marker × Nat)) :
    (s.passAll i es).enter = s.enter.or (positions true i es).head? := by
  induction es generalizing s with
  | nil => simp [passAll, positions]
  | cons e es ih =>
    obtain ⟨⟨entering, j⟩, x⟩ := e
    apply (ih _).trans
    by_cases hj : j = i <;> cases entering <;> simp [pass, positions, hj]

theorem Slot.leave_passAll (i : Nat) (s : Slot) (es : List (Marker × Nat)) :
    (s.passAll i es).leave = (positions false i es).getLast?.or s.leave := by
  induction es generalizing s with
  | nil => simp [passAll, positions]
  | cons e es ih =>
    obtain ⟨⟨entering, j⟩, x⟩ := e
    apply (ih _).trans
    by_cases hj : j = i <;> cases entering <;> simp [pass, positions, hj, List.getLast?_cons]

theorem head?_eq_some_iff_isLeast {l : List Nat} (sorted : l.Pairwise (· ≤ ·)) {x : Nat} :
    l.head? = some x ↔ IsLeast {y | y ∈ l} x := by
  cases l with
  | nil => simp [IsLeast]
  | cons a l =>
    have least : IsLeast {y | y ∈ a :: l} a := by
      refine ⟨List.mem_cons_self, fun y hy => ?_⟩
      rcases List.mem_cons.1 hy with rfl | hy
      · exact Nat.le_refl _
      · exact List.rel_of_pairwise_cons sorted hy
    constructor
    · rintro ⟨⟩; exact least
    · intro h; rw [h.unique least, List.head?_cons]

theorem getLast?_eq_some_iff_isGreatest {l : List Nat} (sorted : l.Pairwise (· ≤ ·)) {x : Nat} :
    l.getLast? = some x ↔ IsGreatest {y | y ∈ l} x := by
  rcases List.eq_nil_or_concat' l with rfl | ⟨l, a, rfl⟩
  · simp [IsGreatest]
  · have greatest : IsGreatest {y | y ∈ l ++ [a]} a := by
      refine ⟨by simp, fun y hy => ?_⟩
      rcases List.mem_append.1 hy with hy | hy
      · exact (List.pairwise_append.1 sorted).2.2 y hy a List.mem_cons_self
      · exact (List.mem_singleton.1 hy).le
    rw [List.getLast?_concat, Option.some_inj]
    exact ⟨fun h => h ▸ greatest, fun h => greatest.unique h⟩

/-- After a walk, the slot of an action holds the least position at which it was entered. -/
theorem enter_markAll_iff {pos i x : Nat} {s : Slot} {slots : Slots} (fresh : slots[i]? = some {})
    (h : (markAll pos as slots)[i]? = some s) :
    s.enter = some x ↔ IsLeast {y | (⟨true, i⟩, y) ∈ passed pos as} x := by
  rw [markAll_eq, fresh, Option.map_some, Option.some_inj] at h
  have sorted := positions_pairwise (passed_pairwise pos as) true i
  simpa [← h, Slot.enter_passAll] using head?_eq_some_iff_isLeast sorted

theorem leave_markAll_iff {pos i x : Nat} {s : Slot} {slots : Slots} (fresh : slots[i]? = some {})
    (h : (markAll pos as slots)[i]? = some s) :
    s.leave = some x ↔ IsGreatest {y | (⟨false, i⟩, y) ∈ passed pos as} x := by
  rw [markAll_eq, fresh, Option.map_some, Option.some_inj] at h
  have sorted := positions_pairwise (passed_pairwise pos as) false i
  simpa [← h, Slot.leave_passAll] using getLast?_eq_some_iff_isGreatest sorted

theorem exists_enter_markAll {pos i y : Nat} {s : Slot} {slots : Slots}
    (h : (markAll pos as slots)[i]? = some s) (hy : (⟨true, i⟩, y) ∈ passed pos as) :
    ∃ x, s.enter = some x := by
  rw [markAll_eq] at h
  obtain ⟨old, -, rfl⟩ := Option.map_eq_some_iff.1 h
  have ne := List.ne_nil_of_mem (mem_positions.2 hy)
  rw [Slot.enter_passAll, List.head?_eq_some_head ne]
  cases old.enter <;> exact ⟨_, rfl⟩

theorem exists_leave_markAll {pos i y : Nat} {s : Slot} {slots : Slots}
    (h : (markAll pos as slots)[i]? = some s) (hy : (⟨false, i⟩, y) ∈ passed pos as) :
    ∃ x, s.leave = some x := by
  rw [markAll_eq] at h
  obtain ⟨old, -, rfl⟩ := Option.map_eq_some_iff.1 h
  have ne := List.ne_nil_of_mem (mem_positions.2 hy)
  rw [Slot.leave_passAll, List.getLast?_eq_some_getLast ne]
  exact ⟨_, rfl⟩

end SymbolRegex
