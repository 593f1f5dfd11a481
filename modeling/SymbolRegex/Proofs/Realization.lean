import SymbolRegex.Proofs.Layout
import SymbolRegex.Proofs.Occurrence
import SymbolRegex.Proofs.Walk

/-! # Walks through wired patterns

The arcs of a plan neither enter its start nor leave its end, so plans that share
their ends do not interfere. The walks from end to end are exactly the derivations
of the pattern, and the markers on a walk are those of the occurrences of actions.
-/

namespace SymbolRegex.Automaton

def Fits (set : OrdinalSet) (x : Input) : Prop := x.accepts set = true

def Marked (os : List ActionSpan) (es : List (Marker × Nat)) : Prop :=
  ∀ i x, ((⟨true, i⟩, x) ∈ es ↔ ∃ o ∈ os, o.action = i ∧ o.enter = x) ∧
    ((⟨false, i⟩, x) ∈ es ↔ ∃ o ∈ os, o.action = i ∧ o.leave = x)

theorem marked_nil : Marked [] [] := fun _ _ => by simp

theorem Marked.append {os os' : List ActionSpan} {es es' : List (Marker × Nat)}
    (h : Marked os es) (h' : Marked os' es') : Marked (os ++ os') (es ++ es') := by
  intro i x
  simp only [List.mem_append, (h i x).1, (h i x).2, (h' i x).1, (h' i x).2, or_and_right,
    exists_or, and_self]

/-- Two nodes that can be the ends of a plan whose nodes are numbered from `fresh` on. -/
structure Ends (start stop fresh : Nat) : Prop where
  ne : start ≠ stop
  start_lt : start < fresh
  stop_lt : stop < fresh

theorem ends_base (base : Nat) : Ends base (base + 1) (base + 2) :=
  ⟨by omega, by omega, by omega⟩

namespace Plan

def Inner (p : Plan) (fresh n : Nat) : Prop := fresh ≤ n ∧ n < fresh + p.size

/-- No arc of a plan enters its start or leaves its end, and none touches other nodes than its own
and its ends. -/
def Enclosed (p : Plan) : Prop :=
  ∀ ⦃s t f : Nat⦄, Ends s t f → ∀ arc ∈ p.arcs s t f,
    (arc.source = s ∨ p.Inner f arc.source) ∧ (arc.target = t ∨ p.Inner f arc.target)

theorem enclosed_single (label : ArcLabel) : (single label).Enclosed := by
  intro s t f _ arc h
  obtain rfl := List.mem_singleton.1 h
  exact ⟨Or.inl rfl, Or.inl rfl⟩

theorem enclosed_nothing : nothing.Enclosed := fun _ _ _ _ _ h => absurd h List.not_mem_nil

variable {p q : Plan}

theorem Enclosed.beside (hp : p.Enclosed) (hq : q.Enclosed) : (p.beside q).Enclosed := by
  intro s t f ends arc h
  have ends' : Ends s t (f + p.size) :=
    ⟨ends.ne, by have := ends.start_lt; omega, by have := ends.stop_lt; omega⟩
  rcases List.mem_append.1 h with h | h
  · have := hp ends arc h
    unfold Inner Plan.beside at *; dsimp only; omega
  · have := hq ends' arc h
    unfold Inner Plan.beside at *; dsimp only; omega

theorem Enclosed.before (hp : p.Enclosed) (hq : q.Enclosed) : (p.before q).Enclosed := by
  intro s t f ends arc h
  have hs := ends.start_lt
  have ht := ends.stop_lt
  rcases List.mem_append.1 h with h | h
  · have := hp ⟨by omega, by omega, by omega⟩ arc h
    unfold Inner Plan.before at *; dsimp only; omega
  · have := hq ⟨by omega, by omega, by omega⟩ arc h
    unfold Inner Plan.before at *; dsimp only; omega

theorem Enclosed.loop (hp : p.Enclosed) : p.loop.Enclosed := by
  intro s t f ends arc h
  have hs := ends.start_lt
  have ht := ends.stop_lt
  simp only [Plan.loop, List.cons_append, List.mem_cons, List.mem_append, List.not_mem_nil,
    or_false] at h
  rcases h with rfl | h | rfl | rfl
  · unfold Inner Plan.loop; dsimp only; omega
  · have := hp ⟨by omega, by omega, by omega⟩ arc h
    unfold Inner Plan.loop at *; dsimp only; omega
  · unfold Inner Plan.loop; dsimp only; omega
  · unfold Inner Plan.loop; dsimp only; omega

theorem Enclosed.mark (hp : p.Enclosed) (i : Nat) : (p.mark i).Enclosed := by
  intro s t f ends arc h
  obtain ⟨old, hold, rfl⟩ := List.mem_map.1 h
  exact hp ends old hold

variable {s t f : Nat} {as : List Arc} {w : List Input}

theorem Enclosed.walk_stop (hp : p.Enclosed) (ends : Ends s t f) {m : Nat}
    (sub : as ⊆ p.arcs s t f) (h : Walk t w as m) : as = [] ∧ w = [] := by
  cases as with
  | nil => exact ⟨rfl, (walk_nil_iff.1 h).1⟩
  | cons arc as =>
    have := (hp ends arc (sub List.mem_cons_self)).1
    have hs := (walk_cons_iff.1 h).1
    have := ends.ne
    have := ends.stop_lt
    unfold Inner at *
    omega

theorem Enclosed.walk_subset (hp : p.Enclosed) (ends : Ends s t f) {all : List Arc} {n m : Nat}
    (apart : ∀ arc ∈ all, arc ∉ p.arcs s t f → arc.source ≠ t ∧ ¬ p.Inner f arc.source)
    (sub : as ⊆ all) (walk : Walk n w as m) (hn : n = t ∨ p.Inner f n) : as ⊆ p.arcs s t f := by
  refine walk.stays (p.arcs s t f) (fun n => n = t ∨ p.Inner f n) sub (fun arc h hs => ?_)
    (fun arc h => (hp ends arc h).2) hn
  by_contra out
  obtain ⟨hne, hni⟩ := apart arc h out
  exact hs.elim hne hni

/-- A plan realizes derivations: the walks from end to end are those of derived words, and the
markers on them are those of the occurrences in a derivation. -/
structure Realizes (p : Plan) (D : Nat → List Input → List ActionSpan → Prop) : Prop where
  enclosed : p.Enclosed
  sound : ∀ ⦃s t f as w⦄, Ends s t f → as ⊆ p.arcs s t f → Walk s w as t →
    ∀ k, ∃ os, D k w os ∧ Marked os (passed k as)
  complete : ∀ ⦃s t f k w os⦄, Ends s t f → D k w os → ∃ as ⊆ p.arcs s t f, Walk s w as t

variable {D D' : Nat → List Input → List ActionSpan → Prop}

theorem Realizes.congr (hp : p.Realizes D) (h : ∀ k w os, D k w os ↔ D' k w os) :
    p.Realizes D' where
  enclosed := hp.enclosed
  sound s t f as w ends sub walk k := by
    obtain ⟨os, hd, hm⟩ := hp.sound ends sub walk k
    exact ⟨os, (h k w os).1 hd, hm⟩
  complete s t f k w os ends hd := hp.complete ends ((h k w os).2 hd)

theorem realizes_single (label : ArcLabel) :
    (single label).Realizes fun _ w os => label.Takes w ∧ os = [] where
  enclosed := enclosed_single label
  sound s t f as w ends sub walk k := by
    cases as with
    | nil => exact absurd (walk_nil_iff.1 walk).2 ends.ne
    | cons arc as =>
      obtain ⟨harc, hsub⟩ := List.cons_subset.1 sub
      obtain rfl := List.mem_singleton.1 harc
      obtain ⟨-, u, v, rfl, ht, walk⟩ := walk_cons_iff.1 walk
      obtain ⟨rfl, rfl⟩ := (enclosed_single label).walk_stop ends hsub walk
      exact ⟨[], ⟨by simpa using ht, rfl⟩, marked_nil⟩
  complete s t f k w os _ h :=
    ⟨_, List.Subset.refl _, .single ⟨label, [], s, t⟩ h.1⟩

theorem realizes_nothing : nothing.Realizes fun _ _ _ => False where
  enclosed := enclosed_nothing
  sound s t f as w ends sub walk k := by
    obtain rfl := List.subset_nil.1 sub
    exact absurd (walk_nil_iff.1 walk).2 ends.ne
  complete _ _ _ _ _ _ _ h := h.elim

theorem Realizes.beside (hp : p.Realizes D) (hq : q.Realizes D') :
    (p.beside q).Realizes fun k w os => D k w os ∨ D' k w os where
  enclosed := hp.enclosed.beside hq.enclosed
  sound s t f as w ends sub walk k := by
    have hs := ends.start_lt
    have ht := ends.stop_lt
    have hne := ends.ne
    have ends' : Ends s t (f + p.size) := ⟨hne, by omega, by omega⟩
    cases as with
    | nil => exact absurd (walk_nil_iff.1 walk).2 ends.ne
    | cons arc as =>
      obtain ⟨harc, sub⟩ := List.cons_subset.1 sub
      obtain ⟨-, u, v, rfl, htake, rest⟩ := walk_cons_iff.1 walk
      -- the first arc decides on a side, which the walk cannot leave but at the end
      rcases List.mem_append.1 harc with harc | harc
      · have sub := hp.enclosed.walk_subset ends (fun arc h out => by
          have := hq.enclosed ends' arc ((List.mem_append.1 h).resolve_left out)
          unfold Inner at *; omega) sub rest (hp.enclosed ends arc harc).2
        obtain ⟨os, hd, hm⟩ := hp.sound ends (List.cons_subset.2 ⟨harc, sub⟩) walk k
        exact ⟨os, Or.inl hd, hm⟩
      · have sub := hq.enclosed.walk_subset ends' (fun arc h out => by
          have := hp.enclosed ends arc ((List.mem_append.1 h).resolve_right out)
          unfold Inner at *; omega) sub rest (hq.enclosed ends' arc harc).2
        obtain ⟨os, hd, hm⟩ := hq.sound ends' (List.cons_subset.2 ⟨harc, sub⟩) walk k
        exact ⟨os, Or.inr hd, hm⟩
  complete s t f k w os ends h := by
    have hs := ends.start_lt
    have ht := ends.stop_lt
    rcases h with h | h
    · obtain ⟨as, sub, walk⟩ := hp.complete ends h
      exact ⟨as, List.subset_append_of_subset_left _ sub, walk⟩
    · obtain ⟨as, sub, walk⟩ := hq.complete (f := f + p.size) ⟨ends.ne, by omega, by omega⟩ h
      exact ⟨as, List.subset_append_of_subset_right _ sub, walk⟩

theorem Realizes.before (hp : p.Realizes D) (hq : q.Realizes D') :
    (p.before q).Realizes fun k w os => ∃ u v os₁ os₂, w = u ++ v ∧ os = os₁ ++ os₂ ∧
      D k u os₁ ∧ D' (k + u.length) v os₂ where
  enclosed := hp.enclosed.before hq.enclosed
  sound s t f as w ends sub walk k := by
    have hs := ends.start_lt
    have ht := ends.stop_lt
    have hne := ends.ne
    have endsp : Ends s f (f + 1) := ⟨by omega, by omega, by omega⟩
    have endsq : Ends f t (f + 1 + p.size) := ⟨by omega, by omega, by omega⟩
    obtain ⟨u, v, bs, cs, rfl, rfl, hb, subb, hc⟩ := walk.gate (p.arcs s f (f + 1))
      (fun n => n = s ∨ p.Inner (f + 1) n) f sub
      (fun arc h hn => by
        have harc := (List.mem_append.1 h).resolve_right fun h => by
          have := hq.enclosed endsq arc h
          unfold Inner at *; omega
        exact ⟨harc, (hp.enclosed endsp arc harc).2.imp_right Or.inr⟩)
      (Or.inl rfl) (by unfold Inner; omega)
    have subc := hc.stays (q.arcs f t (f + 1 + p.size))
      (fun n => n = f ∨ n = t ∨ q.Inner (f + 1 + p.size) n)
      (fun _ h => sub (List.mem_append_right _ h))
      (fun arc h hn => (List.mem_append.1 h).resolve_left fun h => by
        have := hp.enclosed endsp arc h
        unfold Inner at *; omega)
      (fun arc h => Or.inr (hq.enclosed endsq arc h).2) (Or.inl rfl)
    obtain ⟨os₁, hd, hm⟩ := hp.sound endsp subb hb k
    obtain ⟨os₂, hd', hm'⟩ := hq.sound endsq subc hc (k + u.length)
    refine ⟨os₁ ++ os₂, ⟨u, v, os₁, os₂, rfl, rfl, hd, hd'⟩, ?_⟩
    rw [hb.passed_append]
    exact hm.append hm'
  complete s t f k w os ends h := by
    have hs := ends.start_lt
    have ht := ends.stop_lt
    obtain ⟨u, v, os₁, os₂, rfl, rfl, hd, hd'⟩ := h
    obtain ⟨as, sub, walk⟩ := hp.complete (s := s) (t := f) (f := f + 1)
      ⟨by omega, by omega, by omega⟩ hd
    obtain ⟨bs, sub', walk'⟩ := hq.complete (s := f) (t := t) (f := f + 1 + p.size)
      ⟨by omega, by omega, by omega⟩ hd'
    exact ⟨as ++ bs, List.append_subset.2 ⟨List.subset_append_of_subset_left _ sub,
      List.subset_append_of_subset_right _ sub'⟩, walk.append walk'⟩

/-! ### Marked plans -/

theorem exists_map_of_subset_map {α β : Type} {f : α → β} {l : List α} {xs : List β}
    (sub : xs ⊆ l.map f) : ∃ ys ⊆ l, xs = ys.map f := by
  induction xs with
  | nil => exact ⟨[], List.nil_subset _, rfl⟩
  | cons x xs ih =>
    obtain ⟨hx, hsub⟩ := List.cons_subset.1 sub
    obtain ⟨y, hy, rfl⟩ := List.mem_map.1 hx
    obtain ⟨ys, hys, rfl⟩ := ih hsub
    exact ⟨y :: ys, List.cons_subset.2 ⟨hy, hys⟩, rfl⟩

theorem walk_map_markArc_iff {i n m : Nat} :
    Walk n w (as.map (markArc s t i)) m ↔ Walk n w as m := by
  induction as generalizing n w with
  | nil => exact Iff.rfl
  | cons arc as ih =>
    rw [List.map_cons, walk_cons_iff, walk_cons_iff]
    simp only [ih]
    exact Iff.rfl

/-- Marking an action adds its entry before the first arc of a walk to the end of the plan, and its
exit behind the last one. -/
theorem Enclosed.mem_passed_mark (hp : p.Enclosed) (ends : Ends s t f) {i n k : Nat}
    (sub : as ⊆ p.arcs s t f) (walk : Walk n w as t) (hn : n ≠ t) (e : Marker × Nat) :
    e ∈ passed k (as.map (markArc s t i)) ↔ e ∈ passed k as ∨
      (n = s ∧ e = (⟨true, i⟩, k)) ∨ e = (⟨false, i⟩, k + w.length) := by
  induction walk generalizing k with
  | nil => exact absurd rfl hn
  | @cons arc u w as t htake walk ih =>
    obtain ⟨harc, sub⟩ := List.cons_subset.1 sub
    have hafter : (markArc s t i arc).after k = k + u.length := Arc.after_eq htake k
    rw [List.map_cons, passed, passed, List.mem_append, List.mem_append, hafter,
      Arc.after_eq htake k, List.length_append, ← Nat.add_assoc]
    have first : (e ∈ (markArc s t i arc).markers.map
        fun m => (m, if m.entering then k else k + u.length)) ↔
        (e ∈ arc.markers.map fun m => (m, if m.entering then k else k + u.length)) ∨
          (arc.source = s ∧ e = (⟨true, i⟩, k)) ∨
          (arc.target = t ∧ e = (⟨false, i⟩, k + u.length)) := by
      simp only [markArc, actionMarkers, List.map_append, List.mem_append]
      by_cases h₁ : arc.source = s <;> by_cases h₂ : arc.target = t <;> simp [h₁, h₂]
    rw [first]
    by_cases last : arc.target = t
    · -- nothing leaves the end, so that this is the last arc
      obtain ⟨rfl, rfl⟩ := hp.walk_stop ends sub (last ▸ walk)
      simp only [last, passed, List.map_nil, List.not_mem_nil, List.length_nil, Nat.add_zero,
        true_and, or_false]
    · have inner : arc.target ≠ s := by
        have := (hp ends arc harc).2
        have := ends.start_lt
        unfold Inner at *; omega
      rw [ih ends sub last]
      simp only [last, inner, false_and, false_or, or_false]
      tauto

theorem Realizes.mark (hp : p.Realizes D) (i : Nat) :
    (p.mark i).Realizes fun k w os => ∃ os', os = ⟨i, k, k + w.length⟩ :: os' ∧ D k w os' where
  enclosed := hp.enclosed.mark i
  sound s t f as w ends sub walk k := by
    obtain ⟨bs, hsub, rfl⟩ := exists_map_of_subset_map sub
    have walk := walk_map_markArc_iff.1 walk
    obtain ⟨os, hd, hm⟩ := hp.sound ends hsub walk k
    refine ⟨_, ⟨os, rfl, hd⟩, fun j x => ?_⟩
    rw [hp.enclosed.mem_passed_mark ends hsub walk ends.ne,
      hp.enclosed.mem_passed_mark ends hsub walk ends.ne, (hm j x).1, (hm j x).2]
    simp only [List.exists_mem_cons_iff, Prod.mk.injEq, Marker.mk.injEq]
    constructor
    · simp [or_comm, eq_comm]
    · simp [or_comm, eq_comm]
  complete s t f k w os ends h := by
    obtain ⟨os', -, h⟩ := h
    obtain ⟨as, sub, walk⟩ := hp.complete ends h
    exact ⟨_, List.map_subset _ sub, walk_map_markArc_iff.2 walk⟩

/-! ### Loops -/

open Pattern

variable {accepts : OrdinalSet → Input → Prop} {b : BoundPattern}

theorem mem_loop {arc : Arc} : arc ∈ p.loop.arcs s t f ↔ arc = ⟨.epsilon, [], s, f⟩ ∨
    arc ∈ p.arcs f (f + 1) (f + 2) ∨ arc = ⟨.epsilon, [], f + 1, f⟩ ∨
      arc = ⟨.epsilon, [], f + 1, t⟩ := by
  simp [Plan.loop]

/-- A walk from the entry of a loop to the end of the plan runs through the body one or more
times. -/
theorem Realizes.rounds (hp : p.Realizes (Derives accepts b)) (ends : Ends s t f)
    {as : List Arc} {w : List Input} (k : Nat) (sub : as ⊆ p.loop.arcs s t f)
    (walk : Walk f w as t) :
    ∃ n os, Derives accepts (sequence (List.replicate (n + 1) b)) k w os ∧
      Marked os (passed k as) := by
  have hs := ends.start_lt
  have ht := ends.stop_lt
  have body := ends_base f
  obtain ⟨u, v, bs, cs, rfl, rfl, hb, subb, hc⟩ := walk.gate (p.arcs f (f + 1) (f + 2))
    (fun n => n = f ∨ p.Inner (f + 2) n) (f + 1) sub
    (fun arc h hn => by
      rcases mem_loop.1 h with rfl | h | rfl | rfl
      · unfold Inner at hn; dsimp only at hn; omega
      · exact ⟨h, (hp.enclosed body arc h).2.imp_right Or.inr⟩
      · unfold Inner at hn; dsimp only at hn; omega
      · unfold Inner at hn; dsimp only at hn; omega)
    (Or.inl rfl) (by unfold Inner; omega)
  have subc : cs ⊆ p.loop.arcs s t f := fun _ h => sub (List.mem_append_right _ h)
  obtain ⟨os, hd, hm⟩ := hp.sound body subb hb k
  cases cs with
  | nil => have := (walk_nil_iff.1 hc).2; omega
  | cons arc cs =>
    obtain ⟨hexit, u', v, rfl, htake, rest⟩ := walk_cons_iff.1 hc
    obtain ⟨harc, subr⟩ := List.cons_subset.1 subc
    rcases mem_loop.1 harc with rfl | h | rfl | rfl
    · dsimp only at hexit; omega
    · have := (hp.enclosed body arc h).1
      unfold Inner at this; omega
    · obtain rfl : u' = [] := htake
      obtain ⟨n, os', hd', hm'⟩ := Realizes.rounds hp ends (k + u.length) subr rest
      refine ⟨n + 1, os ++ os', .cons hd hd', ?_⟩
      rw [hb.passed_append]
      exact hm.append hm'
    · obtain rfl : u' = [] := htake
      obtain ⟨rfl, rfl⟩ := hp.enclosed.loop.walk_stop ends subr rest
      refine ⟨0, os ++ [], .cons hd .nil, ?_⟩
      rw [hb.passed_append]
      exact hm.append marked_nil
termination_by as.length
decreasing_by simp_all; omega

theorem Realizes.exists_walk_rounds (hp : p.Realizes (Derives accepts b)) (s t f : Nat) {n k : Nat}
    {w : List Input} {os : List ActionSpan}
    (h : Derives accepts (sequence (List.replicate (n + 1) b)) k w os) :
    ∃ as ⊆ p.loop.arcs s t f, Walk f w as t := by
  have inside : p.arcs f (f + 1) (f + 2) ⊆ p.loop.arcs s t f :=
    fun arc harc => mem_loop.2 (Or.inr (Or.inl harc))
  induction n generalizing k w os with
  | zero =>
    obtain ⟨u, v, _, _, rfl, rfl, hd, h⟩ := derives_cons_iff.1 h
    obtain ⟨rfl, -⟩ := derives_nil_iff.1 h
    obtain ⟨as, sub, walk⟩ := hp.complete (ends_base f) hd
    have leave : Walk (f + 1) [] [⟨.epsilon, [], f + 1, t⟩] t := .epsilon _ _ _
    have last : ⟨.epsilon, [], f + 1, t⟩ ∈ p.loop.arcs s t f := by simp [mem_loop]
    exact ⟨as ++ [⟨.epsilon, [], f + 1, t⟩], List.append_subset.2
      ⟨List.Subset.trans sub inside, List.cons_subset.2 ⟨last, List.nil_subset _⟩⟩,
      walk.append leave⟩
  | succ n ih =>
    obtain ⟨u, v, _, _, rfl, rfl, hd, h⟩ := derives_cons_iff.1 h
    obtain ⟨as, sub, walk⟩ := hp.complete (ends_base f) hd
    obtain ⟨bs, sub', walk'⟩ := ih h
    have again : Walk (f + 1) [] [⟨.epsilon, [], f + 1, f⟩] f := .epsilon _ _ _
    have back : ⟨.epsilon, [], f + 1, f⟩ ∈ p.loop.arcs s t f := by simp [mem_loop]
    exact ⟨as ++ (⟨.epsilon, [], f + 1, f⟩ :: bs), List.append_subset.2
      ⟨List.Subset.trans sub inside, List.cons_subset.2 ⟨back, sub'⟩⟩,
      walk.append (again.append walk')⟩

theorem Realizes.loop (hp : p.Realizes (Derives accepts b)) :
    p.loop.Realizes (Derives accepts (oneOrMore b)) where
  enclosed := hp.enclosed.loop
  sound s t f as w ends sub walk k := by
    have hs := ends.start_lt
    have ht := ends.stop_lt
    cases as with
    | nil => exact absurd (walk_nil_iff.1 walk).2 ends.ne
    | cons arc as =>
      obtain ⟨harc, subr⟩ := List.cons_subset.1 sub
      obtain ⟨hstart, u, v, rfl, htake, rest⟩ := walk_cons_iff.1 walk
      rcases mem_loop.1 harc with rfl | h | rfl | rfl
      · obtain rfl : u = [] := htake
        obtain ⟨n, os, hd, hm⟩ := hp.rounds ends k subr rest
        exact ⟨os, .oneOrMore hd, hm⟩
      · have := (hp.enclosed (ends_base f) arc h).1
        unfold Inner at this; omega
      · dsimp only at hstart; omega
      · dsimp only at hstart; omega
  complete s t f k w os ends h := by
    obtain ⟨n, h⟩ := derives_oneOrMore_iff.1 h
    obtain ⟨as, sub, walk⟩ := hp.exists_walk_rounds s t f h
    have enter : Walk s [] [⟨.epsilon, [], s, f⟩] f := .epsilon _ _ _
    exact ⟨⟨.epsilon, [], s, f⟩ :: as, List.cons_subset.2 ⟨mem_loop.2 (Or.inl rfl), sub⟩,
      enter.append walk⟩

/-! ### The plans of patterns -/

theorem Realizes.optional (hp : p.Realizes (Derives accepts b)) :
    (p.beside skip).Realizes (Derives accepts (optional b)) :=
  (hp.beside (realizes_single .epsilon)).congr fun _ _ _ => derives_optional_iff.symm

theorem realizes_chain {ps : List Plan} {bs : List BoundPattern}
    (h : List.Forall₂ (fun p b => p.Realizes (Derives accepts b)) ps bs) :
    (chain ps).Realizes (Derives accepts (sequence bs)) := by
  induction h with
  | nil =>
    exact (realizes_single .epsilon).congr fun k w os => derives_nil_iff.symm
  | @cons p b ps bs hp hps ih =>
    cases hps with
    | nil =>
      refine hp.congr fun k w os => ⟨fun h => ?_, fun h => ?_⟩
      · simpa using Derives.cons h .nil
      · obtain ⟨u, v, os₁, os₂, rfl, rfl, hp, hnil⟩ := derives_cons_iff.1 h
        obtain ⟨rfl, rfl⟩ := derives_nil_iff.1 hnil
        simpa using hp
    | cons => exact (hp.before ih).congr fun k w os => derives_cons_iff.symm

theorem realizes_branch {ps : List Plan} {bs : List BoundPattern}
    (h : List.Forall₂ (fun p b => p.Realizes (Derives accepts b)) ps bs) :
    (branch ps).Realizes (Derives accepts (choice bs)) := by
  induction h with
  | nil => exact realizes_nothing.congr fun k w os => by simp [derives_choice_iff]
  | cons hp hps ih =>
    apply (hp.beside ih).congr
    intro k w os
    rw [derives_choice_iff, derives_choice_iff, List.exists_mem_cons_iff]

/-- A row of copies, those from number `lower` on optional, derives what some number of rounds
derives. -/
theorem derives_copies_iff (lower copy more : Nat) {k : Nat} {os : List ActionSpan} :
    Derives accepts (sequence (copies b (optional b) lower copy more)) k w os ↔
      ∃ n, min (lower - copy) more ≤ n ∧ n ≤ more ∧
        Derives accepts (sequence (List.replicate n b)) k w os := by
  induction more generalizing copy k w os with
  | zero =>
    constructor
    · intro h; exact ⟨0, by omega, Nat.le_refl _, h⟩
    · rintro ⟨n, -, hn, h⟩
      obtain rfl := Nat.le_zero.1 hn
      exact h
  | succ more ih =>
    rw [copies, derives_cons_iff]
    constructor
    · rintro ⟨u, v, os₁, os₂, rfl, rfl, hb, h⟩
      obtain ⟨n, hl, hn, h⟩ := (ih _).1 h
      split at hb
      · cases hb with
        | skip => exact ⟨n, by omega, by omega, h⟩
        | take hb => exact ⟨n + 1, by omega, by omega, .cons hb h⟩
      · exact ⟨n + 1, by omega, by omega, .cons hb h⟩
    · rintro ⟨n, hl, hn, h⟩
      cases n with
      | zero =>
        rw [if_pos (by omega)]
        exact ⟨[], w, [], os, rfl, rfl, .skip, (ih _).2 ⟨0, by omega, by omega, h⟩⟩
      | succ n =>
        obtain ⟨u, v, os₁, os₂, rfl, rfl, hb, h⟩ := derives_cons_iff.1 h
        refine ⟨u, v, os₁, os₂, rfl, rfl, ?_, (ih _).2 ⟨n, by omega, by omega, h⟩⟩
        split
        · exact .take hb
        · exact hb

theorem forall₂_copies (hp : p.Realizes (Derives accepts b)) (lower copy more : Nat) :
    List.Forall₂ (fun p b => p.Realizes (Derives accepts b))
      (copies p (p.beside skip) lower copy more) (copies b (optional b) lower copy more) := by
  induction more generalizing copy with
  | zero => exact .nil
  | succ more ih =>
    refine .cons ?_ (ih (copy + 1))
    split
    · exact hp.optional
    · exact hp

end Plan

open Plan Pattern

mutual

/-- The walks through the plan of a pattern are the derivations of the pattern. -/
theorem realizes_plan : ∀ b : BoundPattern,
    (plan b).Realizes (Derives Fits b)
  | .leaf set => by
    apply (realizes_single (.symbols set)).congr
    intro k w os
    rw [derives_leaf_iff]
    exact Iff.rfl
  | .sequence bs => realizes_chain (realizes_plans bs)
  | .choice bs => realizes_branch (realizes_plans bs)
  | .optional b => (realizes_plan b).optional
  | .counted b lower upper => by
    apply (realizes_chain (forall₂_copies (realizes_plan b) lower 0 upper)).congr
    intro k w os
    rw [derives_copies_iff]
    exact derives_counted_iff.symm
  | .oneOrMore b => (realizes_plan b).loop
  | .zeroOrMore b =>
    ((realizes_plan b).loop.beside (realizes_single .epsilon)).congr fun _ _ _ =>
      derives_zeroOrMore_iff_oneOrMore.symm
  | .action i b => ((realizes_plan b).mark i).congr fun _ _ _ => derives_action_iff.symm

theorem realizes_plans : ∀ bs : List BoundPattern,
    List.Forall₂ (fun p b => p.Realizes (Derives Fits b))
      (plans bs) bs
  | [] => .nil
  | b :: bs => .cons (realizes_plan b) (realizes_plans bs)

end

end SymbolRegex.Automaton
