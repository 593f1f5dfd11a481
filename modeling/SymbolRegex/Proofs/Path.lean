import Mathlib.Data.List.Lex
import SymbolRegex.Proofs.Layout
import SymbolRegex.Proofs.Walk

/-! # Paths and their order

A path is a walk that knows the place of each of its arcs among the arcs at its
source. Paths are compared by the first arcs in which they differ: by their places,
or in the order in which threads take them, which is by their places too but for
symbols before anything silent.
-/

namespace SymbolRegex

/-- An arc that is taken, with its place among the arcs at its source. -/
structure Step where
  rank : Nat
  arc : Arc

namespace Step

def Silent (s : Step) : Prop := s.arc.label = .epsilon

def Earlier (s t : Step) : Prop := s.rank < t.rank

/-- At one node, the arc that threads take first: one with a symbol before a silent one, and among
arcs of the same kind the earlier one. -/
def Sooner (s t : Step) : Prop :=
  (¬ s.Silent ∧ t.Silent) ∨ ((s.Silent ↔ t.Silent) ∧ s.Earlier t)

theorem Sooner.trans {s t r : Step} (h : s.Sooner t) (h' : t.Sooner r) : s.Sooner r := by
  unfold Sooner Earlier at *
  have := @Nat.lt_trans s.rank t.rank r.rank
  tauto

theorem Sooner.ne {s t : Step} (h : s.Sooner t) : s ≠ t := by
  rintro rfl
  unfold Sooner Earlier at h
  have := Nat.lt_irrefl s.rank
  tauto

end Step

structure Path (a : Automaton) (n : Nat) (w : List Input) (path : List Step) (m : Nat) : Prop where
  listed : ∀ s ∈ path, (a.outgoing s.arc.source)[s.rank]? = some s.arc
  walk : Walk n w (path.map (·.arc)) m

/-- A path that comes to no node again without consuming a symbol. -/
def Simple (path : List Step) : Prop :=
  ∀ x l y n, path = x ++ l ++ y → Walk n [] (l.map (·.arc)) n → l = []

variable {a : Automaton} {n m k : Nat} {w : List Input} {s t : Step} {p q r : List Step}

theorem path_nil_iff : Path a n w [] m ↔ w = [] ∧ n = m := by
  constructor
  · intro h; exact walk_nil_iff.1 h.walk
  · rintro ⟨rfl, rfl⟩; exact ⟨fun _ h => absurd h List.not_mem_nil, .nil _⟩

theorem path_concat_iff : Path a n w (p ++ [s]) m ↔ ∃ u v, w = u ++ v ∧
    Path a n u p s.arc.source ∧ (a.outgoing s.arc.source)[s.rank]? = some s.arc ∧
      s.arc.label.Takes v ∧ s.arc.target = m := by
  constructor
  · rintro ⟨listed, walk⟩
    rw [List.map_append, List.map_singleton] at walk
    obtain ⟨u, v, k, rfl, hu, hv⟩ := walk_append_iff.1 walk
    obtain ⟨rfl, v, v', rfl, ht, hv'⟩ := walk_cons_iff.1 hv
    obtain ⟨rfl, rfl⟩ := walk_nil_iff.1 hv'
    exact ⟨u, v, by simp, ⟨fun s h => listed s (List.mem_append_left _ h), hu⟩,
      listed s (List.mem_append_right _ List.mem_cons_self), ht, rfl⟩
  · rintro ⟨u, v, rfl, ⟨listed, walk⟩, hs, ht, rfl⟩
    refine ⟨fun t h => ?_, ?_⟩
    · rcases List.mem_append.1 h with h | h
      · exact listed t h
      · rwa [List.mem_singleton.1 h]
    · rw [List.map_append, List.map_singleton]
      exact walk.append (.single s.arc ht)

theorem Automaton.WellFormed.source_eq (wf : a.WellFormed)
    (h : (a.outgoing n)[k]? = some s.arc) : s.arc.source = n := by
  have := List.mem_of_getElem? h
  rw [wf.outgoing_eq] at this
  simpa using (List.mem_filter.1 this).2

theorem Path.mem_arcs (wf : a.WellFormed) (h : Path a n w p m) :
    p.map (·.arc) ⊆ a.arcs.toList := by
  intro arc harc
  obtain ⟨s, hs, rfl⟩ := List.mem_map.1 harc
  have := List.mem_of_getElem? (h.listed s hs)
  rw [wf.outgoing_eq] at this
  exact List.mem_of_mem_filter this

theorem Walk.exists_path (wf : a.WellFormed) {as : List Arc} (h : Walk n w as m)
    (sub : as ⊆ a.arcs.toList) : ∃ p, Path a n w p m ∧ p.map (·.arc) = as := by
  have listed : ∀ arc ∈ as, ∃ s : Step, s.arc = arc ∧
      (a.outgoing s.arc.source)[s.rank]? = some s.arc := by
    intro arc harc
    have : arc ∈ a.outgoing arc.source := by
      rw [wf.outgoing_eq]
      exact List.mem_filter.2 ⟨sub harc, by simp⟩
    obtain ⟨i, hi⟩ := List.mem_iff_getElem?.1 this
    exact ⟨⟨i, arc⟩, rfl, hi⟩
  obtain ⟨p, hp, hlisted⟩ : ∃ p : List Step, p.map (·.arc) = as ∧
      ∀ s ∈ p, (a.outgoing s.arc.source)[s.rank]? = some s.arc := by
    clear h sub
    induction as with
    | nil => exact ⟨[], rfl, fun _ h => absurd h List.not_mem_nil⟩
    | cons arc as ih =>
      obtain ⟨s, hs, hls⟩ := listed arc List.mem_cons_self
      obtain ⟨p, hp, hlp⟩ := ih fun arc h => listed arc (List.mem_cons_of_mem _ h)
      refine ⟨s :: p, by rw [List.map_cons, hs, hp], fun t ht => ?_⟩
      rcases List.mem_cons.1 ht with rfl | ht
      · exact hls
      · exact hlp t ht
  exact ⟨p, ⟨hlisted, hp ▸ h⟩, hp⟩

theorem Path.exists_start {u v : List Input} (h : Path a n (u ++ v) p m) :
    ∃ q k, Path a n u q k := by
  obtain ⟨as, bs, k, has, walk, -⟩ := h.walk.split_word
  obtain ⟨q, r, rfl, rfl, -⟩ := List.map_eq_append_iff.1 has
  exact ⟨q, k, fun s hs => h.listed s (List.mem_append_left _ hs), walk⟩

theorem Path.lt_nodeCount (wf : a.WellFormed) (hn : n < a.nodeCount) (h : Path a n w p m) :
    m < a.nodeCount := by
  rcases List.eq_nil_or_concat' p with rfl | ⟨p, s, rfl⟩
  · obtain ⟨-, rfl⟩ := path_nil_iff.1 h
    exact hn
  · have hs := h.mem_arcs wf (List.mem_map_of_mem (List.mem_append_right p List.mem_cons_self))
    obtain ⟨u, v, rfl, -, -, -, rfl⟩ := path_concat_iff.1 h
    exact wf.target_lt _ (Array.mem_toList_iff.1 hs)

theorem Path.end_eq {n' m' : Nat} {u : List Input} (h : Path a n w (p ++ q) m) (ne : q ≠ [])
    (walk : Walk n' u (q.map (·.arc)) m') : m' = m := by
  have := h.walk
  rw [List.map_append] at this
  obtain ⟨v, v', k, rfl, -, hq⟩ := walk_append_iff.1 this
  exact walk.end_eq hq fun h => ne (List.map_eq_nil_iff.1 h)

theorem Walk.of_concat (h : Walk n [] ((p ++ [s]).map (·.arc)) m) :
    Walk n [] (p.map (·.arc)) s.arc.source ∧ s.arc.label.Takes [] := by
  rw [List.map_append, List.map_singleton] at h
  obtain ⟨u, v, k, huv, hu, hv⟩ := walk_append_iff.1 h
  obtain ⟨rfl, rfl⟩ := List.append_eq_nil_iff.1 huv.symm
  obtain ⟨rfl, v, v', hvv, ht, -⟩ := walk_cons_iff.1 hv
  obtain ⟨rfl, -⟩ := List.append_eq_nil_iff.1 hvv.symm
  exact ⟨hu, ht⟩

theorem exists_eq_concat {x l : List Step} (h : p ++ [s] = x ++ l) (ne : l ≠ []) :
    ∃ l', l = l' ++ [s] ∧ p = x ++ l' := by
  obtain ⟨l', t, rfl⟩ := (List.eq_nil_or_concat' l).resolve_left ne
  rw [← List.append_assoc] at h
  obtain ⟨hp, ht⟩ := List.append_inj' h rfl
  exact ⟨l', by rw [ht], hp⟩

theorem simple_nil : Simple [] := by
  intro x l y n h _
  have := congrArg List.length h
  simp only [List.length_nil, List.length_append] at this
  exact List.length_eq_zero_iff.1 (by omega)

theorem Simple.of_append (h : Simple (p ++ q)) : Simple p := by
  intro x l y n e walk
  exact h x l (y ++ q) n (by rw [e, List.append_assoc]) walk

/-- A path is simple if it is so up to its last arc, and no silent end of it is closed. -/
theorem simple_of_dropLast (h : Simple p.dropLast)
    (last : ∀ x l n, p = x ++ l → Walk n [] (l.map (·.arc)) n → l = []) : Simple p := by
  intro x l y n e walk
  rcases List.eq_nil_or_concat' y with rfl | ⟨y, s, rfl⟩
  · exact last x l n (by simpa using e) walk
  · refine h x l y n ?_ walk
    rw [e, ← List.append_assoc, List.dropLast_concat]

/-- Of two paths that consume the same word and end at the same node, neither continues the other if
it is simple. -/
theorem Simple.eq_of_append (h : Simple (p ++ q)) (hp : Path a n w p m)
    (hpq : Path a n w (p ++ q) m) : q = [] := by
  have walk := hpq.walk
  rw [List.map_append] at walk
  exact h p q [] m (List.append_nil _).symm (hp.walk.silent_rest walk)

/-! ## The order in which paths are tried -/

/-- One path is the other or is tried before it. -/
def NoLater (p q : List Step) : Prop := p = q ∨ List.Lex Step.Sooner p q

/-- Two paths part, and the first is tried before the second from there on. -/
def Ahead (p q : List Step) : Prop := List.Lex Step.Sooner p q ∧ ¬ p <+: q

theorem NoLater.trans (h : NoLater p q) (h' : NoLater q r) : NoLater p r := by
  rcases h with rfl | h
  · exact h'
  · rcases h' with rfl | h'
    · exact Or.inr h
    · exact Or.inr (List.lex_trans Step.Sooner.trans h h')

theorem NoLater.append_right (h : NoLater p q) (r : List Step) : NoLater p (q ++ r) := by
  rcases h with rfl | h
  · cases r with
    | nil => exact Or.inl (List.append_nil _).symm
    | cons s r =>
      have : List.Lex Step.Sooner (p ++ []) (p ++ s :: r) := .append_left _ .nil p
      exact Or.inr (by rwa [List.append_nil] at this)
  · exact Or.inr (.append_right _ r h)

theorem Ahead.noLater (h : Ahead p q) : NoLater p q := Or.inr h.1

theorem Ahead.append (h : Ahead p q) (x y : List Step) : Ahead (p ++ x) (q ++ y) := by
  obtain ⟨lex, parts⟩ := h
  induction lex with
  | nil => exact absurd (List.nil_prefix) parts
  | @rel s p t q hst =>
    refine ⟨.rel hst, fun h => ?_⟩
    rw [List.cons_append, List.cons_append, List.cons_prefix_cons] at h
    exact hst.ne h.1
  | @cons s p q lex ih =>
    obtain ⟨lex, parts⟩ := ih fun h => parts (List.cons_prefix_cons.2 ⟨rfl, h⟩)
    exact ⟨.cons lex, fun h => parts (List.cons_prefix_cons.1 h).2⟩

theorem ahead_append_cons (r : List Step) (h : s.Sooner t) : Ahead (r ++ s :: p) (r ++ t :: q) := by
  refine ⟨.append_left _ (.rel h) r, fun hp => ?_⟩
  rw [List.prefix_append_right_inj, List.cons_prefix_cons] at hp
  exact h.ne hp.1

theorem Ahead.exists_append (h : Ahead p q) :
    ∃ c s t p' q', p = c ++ s :: p' ∧ q = c ++ t :: q' ∧ s.Sooner t := by
  obtain ⟨lex, parts⟩ := h
  induction lex with
  | nil => exact absurd (List.nil_prefix) parts
  | @rel s p t q hst => exact ⟨[], s, t, p, q, rfl, rfl, hst⟩
  | @cons s p q lex ih =>
    obtain ⟨c, s', t', p', q', rfl, rfl, hst⟩ :=
      ih fun h => parts (List.cons_prefix_cons.2 ⟨rfl, h⟩)
    exact ⟨s :: c, s', t', p', q', rfl, rfl, hst⟩

end SymbolRegex
