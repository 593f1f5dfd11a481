import SymbolRegex.Proofs.Matching

/-! # Priorities

Of the paths that accept the same part of an input, a run reports the first, where a
symbol is taken before anything silent at every node. By the places of their arcs
alone another path may come before it, and does so exactly when it leaves silently
where the reported path takes a symbol by an arc that was made later.
-/

namespace SymbolRegex

theorem lex_append_iff {α : Type} {r : α → α → Prop} (irrefl : ∀ x, ¬ r x x) (c p q : List α) :
    List.Lex r (c ++ p) (c ++ q) ↔ List.Lex r p q := by
  constructor
  · intro h
    induction c with
    | nil => exact h
    | cons x c ih =>
      rcases List.cons_lex_cons_iff.1 h with h | ⟨-, h⟩
      · exact absurd h (irrefl x)
      · exact ih h
  · intro h
    exact .append_left r h c

/-- A silent walk that rises all the way comes back to no node. -/
theorem Walk.rises {n m : Nat} {as : List Arc} (f : Nat → Nat) (h : Walk n [] as m)
    (rise : ∀ arc ∈ as, arc.label = .epsilon → f arc.source < f arc.target) :
    as = [] ∨ f n < f m := by
  induction as generalizing n with
  | nil => exact Or.inl rfl
  | cons arc as ih =>
    obtain ⟨rfl, u, v, huv, htake, walk⟩ := walk_cons_iff.1 h
    obtain ⟨rfl, rfl⟩ := List.append_eq_nil_iff.1 huv.symm
    have silent : arc.label = .epsilon := by
      cases hl : arc.label with
      | epsilon => rfl
      | symbols set => rw [hl] at htake; obtain ⟨x, hx, -⟩ := htake; cases hx
    have first := rise arc List.mem_cons_self silent
    rcases ih walk fun arc h => rise arc (List.mem_cons_of_mem _ h) with rfl | lt
    · obtain ⟨-, rfl⟩ := walk_nil_iff.1 walk
      exact Or.inr first
    · exact Or.inr (first.trans lt)

theorem simple_of_rising {p : List Step} (f : Nat → Nat)
    (rise : ∀ s ∈ p, s.Silent → f s.arc.source < f s.arc.target) : Simple p := by
  rintro x l y n rfl walk
  have rises := walk.rises f fun arc harc silent => by
    obtain ⟨s, hs, rfl⟩ := List.mem_map.1 harc
    exact rise s (by simp [hs]) silent
  rcases rises with h | h
  · exact List.map_eq_nil_iff.1 h
  · exact absurd h (Nat.lt_irrefl _)

namespace Automaton

variable {a : Automaton} {fragment : Fragment} {w : List Input} {p : List Step}

/-- Another path leaves a path silently where it takes a symbol, by an arc that was made earlier. -/
def Overtaken (a : Automaton) (fragment : Fragment) (w : List Input) (p : List Step) : Prop :=
  ∃ c s t p' q', p = c ++ s :: p' ∧ a.Crosses fragment w (c ++ t :: q') ∧ ¬ s.Silent ∧ t.Silent ∧
    t.Earlier s

theorem Crosses.source_eq {c p' q' : List Step} {s t : Step}
    (h : a.Crosses fragment w (c ++ s :: p')) (h' : a.Crosses fragment w (c ++ t :: q')) :
    s.arc.source = t.arc.source := by
  have walk := h.path.walk
  have walk' := h'.path.walk
  rw [List.map_append] at walk walk'
  obtain ⟨u, v, k, -, hc, hs⟩ := walk_append_iff.1 walk
  obtain ⟨u', v', k', -, hc', ht⟩ := walk_append_iff.1 walk'
  obtain ⟨rfl, -⟩ := hc.unique hc'
  exact (walk_cons_iff.1 hs).1.trans (walk_cons_iff.1 ht).1.symm

theorem Crosses.arc_eq {c p' q' : List Step} {s t : Step}
    (h : a.Crosses fragment w (c ++ s :: p')) (h' : a.Crosses fragment w (c ++ t :: q'))
    (rank : s.rank = t.rank) : s.arc = t.arc := by
  have hs := h.path.listed s (by simp)
  have ht := h'.path.listed t (by simp)
  rw [h.source_eq h', rank, ht, Option.some_inj] at hs
  exact hs.symm

/-- The path that is reported is the first by the places of its arcs as well, unless it is
overtaken. -/
theorem FirstBy.earlier_iff (h : a.FirstBy Step.Sooner fragment w p) :
    a.FirstBy Step.Earlier fragment w p ↔ ¬ a.Overtaken fragment w p := by
  constructor
  · rintro first ⟨c, s, t, p', q', rfl, hq, hs, ht, lt⟩
    rcases first.first _ hq with e | lex
    · obtain ⟨rfl, -⟩ := List.cons_eq_cons.1 (List.append_cancel_left e)
      exact hs ht
    · rw [lex_append_iff fun s => Nat.lt_irrefl s.rank, List.cons_lex_cons_iff] at lex
      rcases lex with lt' | ⟨rfl, -⟩
      · exact Nat.lt_asymm lt lt'
      · exact hs ht
  · intro alone
    refine ⟨h.toCrosses, fun q hq => (h.first q hq).imp_right fun lex => ?_⟩
    by_cases hpre : p <+: q
    · obtain ⟨r, rfl⟩ := hpre
      rw [hq.simple.eq_of_append h.path hq.path, List.append_nil] at lex
      exact absurd lex (List.lex_irrefl (fun _ h => h.ne rfl) p)
    · obtain ⟨c, s, t, p', q', rfl, rfl, sooner⟩ := Ahead.exists_append ⟨lex, hpre⟩
      have earlier : s.Earlier t := by
        rcases sooner with ⟨hs, ht⟩ | ⟨-, lt⟩
        · by_contra not
          rcases Nat.lt_or_eq_of_le (Nat.le_of_not_lt not) with lt | rank
          · exact alone ⟨c, s, t, p', q', rfl, hq, hs, ht, lt⟩
          · apply hs
            rw [Step.Silent, h.toCrosses.arc_eq hq rank.symm]
            exact ht
        · exact lt
      exact .append_left _ (.rel earlier) c

end Automaton

namespace Engine

open Automaton

/-- A run whose steps have new numbers reports the slots of the first path that accepts as much as
it does, where symbols go before anything silent. That path is also the first by the places of its
arcs alone, as long as none overtakes it. -/
theorem run_firstBy (ops : List Operation) (bound : (after ops).isBound = true) {i : Nat}
    {fragment : Fragment} (hfragment : (after ops).fragment? i = some fragment)
    (input : List Input) (extent : Extent) {s : Scratch}
    (ready : (after ops).program.automaton.Ready (input.length + 1) s) {n : Nat} {slots : Slots}
    (hrun : ((after ops).program.automaton.run fragment input extent s).1 = some (n, slots)) :
    ∃ p, (after ops).program.automaton.FirstBy Step.Sooner fragment (input.take n) p ∧
      slots = markAll 0 (p.map (·.arc)) (Array.replicate fragment.slotCount.toNat {}) ∧
      ((after ops).program.automaton.FirstBy Step.Earlier fragment (input.take n) p ↔
        ¬ (after ops).program.automaton.Overtaken fragment (input.take n) p) := by
  obtain ⟨bounds, h⟩ := exists_compiled ops bound
  have hstart := h.laid.start_lt fragment (List.mem_of_getElem? hfragment)
  rw [← Nat.zero_add (input.length + 1)] at ready
  have outcome := (outcome_run h.laid.wellFormed hstart input extent ready).1
  rw [hrun] at outcome
  obtain ⟨-, p, first, hslots⟩ := outcome
  exact ⟨p, first, hslots, first.earlier_iff⟩

theorem run_firstBy_tagged : (after tagged).isBound = true ∧
    (after tagged).program.automaton.Ready 3 (.new 3) ∧
    ∃ p, (after tagged).program.automaton.FirstBy Step.Sooner ⟨0, 1, 2⟩
      ((after tagged).symbolInput ["a", "x"]) p := by
  have bound : (after tagged).isBound = true := rfl
  have hrun : ((after tagged).program.automaton.run ⟨0, 1, 2⟩
      ((after tagged).symbolInput ["a", "x"]) .whole (.new 3)).1 =
        some (2, #[⟨some 0, some 1⟩, ⟨some 1, some 2⟩]) := by cbv
  have ready : (after tagged).program.automaton.Ready 3 (.new 3) := ready_new _ (by decide)
  have hfragment : (after tagged).fragment? 0 = some ⟨0, 1, 2⟩ := rfl
  obtain ⟨p, first, -⟩ := run_firstBy tagged bound hfragment
    ((after tagged).symbolInput ["a", "x"]) .whole ready hrun
  exact ⟨bound, ready, p, first⟩

/-- The calls for a choice of some number of `a` under one action and a single one under another. -/
def alternatives : List Operation :=
  [.add (.choice [.oneOrMore (.action 0 (.leaf (.literal "a"))), .action 1 (.leaf (.literal "a"))]),
    .bind]

theorem enter_of_first_step {w : List Input} {p : List Step} {s : Step} {slot : Slot}
    (path : Path (after alternatives).program.automaton 0 w (s :: p) 1)
    (hs : s.arc = ⟨.epsilon, [], 0, 2⟩)
    (hslot : (markAll 0 ((s :: p).map (·.arc)) (Array.replicate 2 {}))[0]? = some slot) :
    ∃ x, slot.enter = some x := by
  obtain ⟨-, u, v, -, -, walk⟩ := walk_cons_iff.1 path.walk
  dsimp only at walk
  rw [hs] at walk
  cases p with
  | nil => exact absurd (walk_nil_iff.1 walk).2 (by decide)
  | cons t p =>
    obtain ⟨source, -⟩ := walk_cons_iff.1 walk
    dsimp only at source
    have listed := path.listed t (by simp)
    rw [source] at listed
    have mem : t.arc ∈ [⟨.symbols (.singleton 2 0), [⟨true, 0⟩, ⟨false, 0⟩], 2, 3⟩] :=
      List.mem_of_getElem? listed
    apply exists_enter_markAll (y := 0) hslot
    simp [passed, hs, List.mem_singleton.1 mem, Arc.after]

theorem crosses_first_alternative : (after alternatives).program.automaton.Crosses ⟨0, 1, 2⟩
    ((after alternatives).symbolInput ["a"])
    [⟨0, ⟨.epsilon, [], 0, 2⟩⟩, ⟨0, ⟨.symbols (.singleton 2 0), [⟨true, 0⟩, ⟨false, 0⟩], 2, 3⟩⟩,
      ⟨1, ⟨.epsilon, [], 3, 1⟩⟩] := by
  refine ⟨⟨?_, ?_⟩, simple_of_rising (fun n => if n = 0 ∨ n = 3 then 0 else 1) ?_⟩
  · intro s hs
    simp only [List.mem_cons, List.not_mem_nil, or_false] at hs
    rcases hs with rfl | rfl | rfl <;> rfl
  · have takes : (ArcLabel.symbols (.singleton 2 0)).Takes [.symbol 0] := ⟨_, rfl, by decide⟩
    have body := Walk.single ⟨_, [⟨true, 0⟩, ⟨false, 0⟩], 2, 3⟩ takes
    exact (Walk.epsilon 0 2 []).append (body.append (.epsilon 3 1 []))
  · intro s hs silent
    simp only [List.mem_cons, List.not_mem_nil, or_false] at hs
    rcases hs with rfl | rfl | rfl
    · decide
    · cases silent
    · decide

/-- Both alternatives match one `a`, and the first by way of earlier arcs, but the slots that are
reported are those of the second. -/
theorem run_not_firstBy_earlier : (after alternatives).fragment? 0 = some ⟨0, 1, 2⟩ ∧
    ∃ slots, ((after alternatives).program.automaton.run ⟨0, 1, 2⟩
        ((after alternatives).symbolInput ["a"]) .whole (.new 4)).1 = some (1, slots) ∧
      ¬ ∃ p, (after alternatives).program.automaton.FirstBy Step.Earlier ⟨0, 1, 2⟩
          (((after alternatives).symbolInput ["a"]).take 1) p ∧
        slots = markAll 0 (p.map (·.arc)) (Array.replicate 2 {}) := by
  refine ⟨rfl, #[{}, ⟨some 0, some 1⟩], by cbv, ?_⟩
  rintro ⟨p, first, hslots⟩
  -- no arc stands before the one by which the first alternative begins
  obtain ⟨s, p, rfl, hs⟩ : ∃ s p', p = s :: p' ∧ s.arc = ⟨.epsilon, [], 0, 2⟩ := by
    rcases first.first _ crosses_first_alternative with rfl | lex
    · exact ⟨_, _, rfl, rfl⟩
    · cases lex with
      | nil => exact absurd (path_nil_iff.1 first.path).2 (by decide)
      | rel lt => exact absurd lt (Nat.not_lt_zero _)
      | cons _ => exact ⟨_, _, rfl, rfl⟩
  have hslot : (markAll 0 ((s :: p).map (·.arc)) (Array.replicate 2 {}))[0]? =
      some ⟨none, none⟩ := by
    rw [← hslots]; rfl
  obtain ⟨x, hx⟩ := enter_of_first_step first.path hs hslot
  cases hx

end Engine

end SymbolRegex
