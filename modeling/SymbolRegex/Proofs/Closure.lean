import Mathlib.Data.List.Nodup
import Mathlib.Data.List.Perm.Subperm
import Mathlib.Logic.Function.Iterate
import SymbolRegex.Proofs.Exploration

/-! # The silent closure

Adding a thread to a step adds a thread at every node that silent arcs lead to from
there, unless an earlier thread of the step has come there before. The loop that does
so works off a stack, on which a node may stand several times; it ends, and it lists
the nodes as a depth-first search does that follows the arcs in their order.
-/

namespace SymbolRegex

open Automaton

variable {a : Automaton} {n m pos : Nat} {seen : List Nat} {slots : Slots} {f : Frontier}
  {t e : Traced} {waiting listed : List Traced}

/-! ## Silent paths -/

/-- A path from one node to another along silent arcs, each with its place among the arcs that are
listed at the node where it is taken. -/
inductive SilentPath (a : Automaton) (n : Nat) : List Step → Nat → Prop where

  | nil : SilentPath a n [] n

  | concat {path : List Step} {m : Nat} {s : Step} : SilentPath a n path m →
      (a.outgoing m)[s.rank]? = some s.arc → s.Silent →
      SilentPath a n (path ++ [s]) s.arc.target

theorem SilentPath.mem_of_closed {path : List Step} {nodes : List Nat} (h : SilentPath a n path m)
    (closed : ∀ m ∈ nodes, ∀ s : Step, (a.outgoing m)[s.rank]? = some s.arc → s.Silent →
      s.arc.target ∈ nodes) (hn : n ∈ nodes) : m ∈ nodes := by
  induction h with
  | nil => exact hn
  | concat _ hs silent ih => exact closed _ ih _ hs silent

namespace Traced

/-- The thread that a thread at `pos` turns into along a silent path. -/
def arrival (pos : Nat) (slots : Slots) (t : Traced) : Thread :=
  ⟨t.node, t.path.foldl (fun slots s => s.arc.mark pos pos slots) slots⟩

theorem arrival_follow (pos : Nat) (slots : Slots) (t : Traced) (s : Step) :
    (t.follow s).arrival pos slots =
      ⟨s.arc.target, s.arc.mark pos pos (t.arrival pos slots).slots⟩ := by
  rw [follow, arrival, List.foldl_concat]
  rfl

theorem silentSteps_arrival (a : Automaton) (pos : Nat) (slots : Slots) (t : Traced) :
    a.silentSteps pos (t.arrival pos slots) = (t.next a []).map (arrival pos slots) := by
  show (a.outgoing t.node).filterMap _ = _
  conv_lhs => rw [← List.zipIdx_map_fst 0 (a.outgoing t.node), List.filterMap_map]
  rw [next, List.map_filterMap]
  apply List.filterMap_congr
  rintro ⟨arc, rank⟩ _
  cases hl : arc.label <;> simp [ArcLabel.takes, arrival_follow, hl]

theorem mem_next_nil_iff : e ∈ t.next a [] ↔ ∃ s : Step,
    (a.outgoing t.node)[s.rank]? = some s.arc ∧ s.Silent ∧ e = t.follow s := by
  simp only [mem_next_iff]
  apply exists_congr
  intro s
  rw [Step.Silent]
  cases s.arc.label <;> simp [ArcLabel.Takes]

theorem node_lt_of_mem_next_nil (wf : a.WellFormed) (h : e ∈ t.next a []) :
    e.node < a.nodeCount := by
  obtain ⟨s, hs, -, rfl⟩ := mem_next_nil_iff.1 h
  have := List.mem_of_getElem? hs
  rw [wf.outgoing_eq] at this
  exact wf.target_lt _ (Array.mem_toList_iff.1 (List.mem_of_mem_filter this))

end Traced

/-! ## Depth-first listings -/

/-- The listing of a depth-first search from some waiting nodes. A node that was seen is passed
over. Any other is listed, then all that its silent arcs lead to, and then what waits behind it. -/
inductive Preorder (a : Automaton) : List Nat → List Traced → List Traced → Prop where

  | nil {seen : List Nat} : Preorder a seen [] []

  | pass {seen : List Nat} {t : Traced} {rest listed : List Traced} : t.node ∈ seen →
      Preorder a seen rest listed → Preorder a seen (t :: rest) listed

  | enter {seen : List Nat} {t : Traced} {rest below behind : List Traced} : t.node ∉ seen →
      Preorder a (seen ++ [t.node]) (t.next a []) below →
      Preorder a (seen ++ (t :: below).map (·.node)) rest behind →
      Preorder a seen (t :: rest) (t :: below ++ behind)

namespace Preorder

theorem exists_append {xs ys : List Traced} (h : Preorder a seen (xs ++ ys) listed) :
    ∃ first last, listed = first ++ last ∧ Preorder a seen xs first ∧
      Preorder a (seen ++ first.map (·.node)) ys last := by
  generalize hw : xs ++ ys = waiting at h
  induction h generalizing xs with
  | @nil seen =>
    obtain ⟨rfl, rfl⟩ := List.append_eq_nil_iff.1 hw
    exact ⟨[], [], rfl, .nil, .nil⟩
  | @pass seen t rest listed mem h ih =>
    cases xs with
    | nil =>
      obtain rfl := hw
      exact ⟨[], listed, rfl, .nil, by simpa using .pass mem h⟩
    | cons x xs =>
      obtain ⟨rfl, hrest⟩ := List.cons_eq_cons.1 hw
      obtain ⟨first, last, rfl, hx, hy⟩ := ih hrest
      exact ⟨first, last, rfl, .pass mem hx, hy⟩
  | @enter seen t rest below behind new hb h _ ih =>
    cases xs with
    | nil =>
      obtain rfl := hw
      exact ⟨[], _, rfl, .nil, by simpa using .enter new hb h⟩
    | cons x xs =>
      obtain ⟨rfl, hrest⟩ := List.cons_eq_cons.1 hw
      obtain ⟨first, last, rfl, hx, hy⟩ := ih hrest
      refine ⟨x :: below ++ first, last, (List.append_assoc _ _ _).symm, .enter new hb hx, ?_⟩
      rwa [List.map_append, ← List.append_assoc]

theorem nodup (h : Preorder a seen waiting listed) (hs : seen.Nodup) :
    (seen ++ listed.map (·.node)).Nodup := by
  induction h with
  | nil => rwa [List.map_nil, List.append_nil]
  | pass _ _ ih => exact ih hs
  | @enter seen t rest below behind new _ _ ihb ih =>
    have entered : (seen ++ [t.node]).Nodup := by
      refine List.nodup_append.2 ⟨hs, List.pairwise_singleton _ _, fun x hx y hy e => new ?_⟩
      rwa [← List.mem_singleton.1 hy, ← e]
    have first := ihb entered
    rw [List.append_assoc, List.singleton_append, ← List.map_cons] at first
    have all := ih first
    rwa [List.append_assoc, ← List.map_append] at all

theorem covers (h : Preorder a seen waiting listed) :
    ∀ t ∈ waiting, t.node ∈ seen ++ listed.map (·.node) := by
  induction h with
  | nil => exact fun _ h => absurd h List.not_mem_nil
  | pass mem _ ih =>
    exact List.forall_mem_cons.2 ⟨List.mem_append_left _ mem, ih⟩
  | enter _ _ _ _ ih =>
    refine List.forall_mem_cons.2 ⟨by simp, fun t ht => ?_⟩
    have := ih t ht
    rwa [List.append_assoc, ← List.map_append] at this

theorem closed (h : Preorder a seen waiting listed) :
    ∀ t ∈ listed, ∀ e ∈ t.next a [], e.node ∈ seen ++ listed.map (·.node) := by
  induction h with
  | nil => exact fun _ h => absurd h List.not_mem_nil
  | pass _ _ ih => exact ih
  | @enter seen t rest below behind _ hb _ ihb ih =>
    have sub : (seen ++ [t.node]) ++ below.map (·.node) ⊆
        seen ++ (t :: below ++ behind).map (·.node) := by
      intro x
      simp only [List.mem_append, List.map_append, List.map_cons, List.mem_cons]
      tauto
    intro d hd e he
    rcases List.mem_append.1 hd with hd | hd
    · rcases List.mem_cons.1 hd with rfl | hd
      · exact sub (hb.covers e he)
      · exact sub (ihb d hd e he)
    · have := ih d hd e he
      rwa [List.append_assoc, ← List.map_append] at this

theorem silentPath (h : Preorder a seen waiting listed)
    (hw : ∀ t ∈ waiting, SilentPath a n t.path t.node) :
    ∀ t ∈ listed, SilentPath a n t.path t.node := by
  induction h with
  | nil => exact hw
  | pass _ _ ih => exact ih (List.forall_mem_cons.1 hw).2
  | @enter seen t rest below behind _ _ _ ihb ih =>
    obtain ⟨ht, hrest⟩ := List.forall_mem_cons.1 hw
    have next : ∀ e ∈ t.next a [], SilentPath a n e.path e.node := by
      intro e he
      obtain ⟨s, hs, silent, rfl⟩ := Traced.mem_next_nil_iff.1 he
      exact ht.concat hs silent
    exact List.forall_mem_append.2 ⟨List.forall_mem_cons.2 ⟨ht, ihb next⟩, ih hrest⟩

end Preorder

namespace Automaton

/-! ## Turns of the loop -/

/-- One turn of the loop: the top of the stack claims its node, if that is free, and leaves what it
turns into in its place. -/
def turn (a : Automaton) (pos : Nat) : Frontier × List Thread → Frontier × List Thread
  | (f, []) => (f, [])
  | (f, t :: rest) =>
    if f.claims.free t.node then
      (⟨f.claims.claim t.node, f.threads.push t⟩, a.silentSteps pos t ++ rest)
    else (f, rest)

/-- The stack gets empty after a turn for each thread that waits on it and for each that a new
thread turns into. -/
theorem iterate_turn (a : Automaton) (pos : Nat) (f : Frontier) (stack : List Thread) :
    ∃ new, (a.spread pos f stack).threads.toList = f.threads.toList ++ new ∧
      (a.turn pos)^[stack.length + (new.flatMap (a.silentSteps pos)).length] (f, stack) =
        (a.spread pos f stack, []) := by
  induction f, stack using spread.induct a pos with
  | case1 f => exact ⟨[], by simp [spread_nil]⟩
  | case2 f t rest free ih =>
    obtain ⟨new, threads, turns⟩ := ih
    rw [spread_cons_of_free free]
    refine ⟨t :: new, by simp [threads], ?_⟩
    have count : (t :: rest).length + ((t :: new).flatMap (a.silentSteps pos)).length =
        (a.silentSteps pos t ++ rest).length + (new.flatMap (a.silentSteps pos)).length + 1 := by
      simp only [List.length_cons, List.flatMap_cons, List.length_append]
      omega
    rw [count, Function.iterate_succ_apply, turn, if_pos free, turns]
  | case3 f t rest taken ih =>
    obtain ⟨new, threads, turns⟩ := ih
    rw [spread_cons_of_taken taken]
    refine ⟨new, threads, ?_⟩
    rw [List.length_cons, Nat.add_right_comm, Function.iterate_succ_apply, turn, if_neg taken,
      turns]

theorem outgoing_eq_filterMap (wf : a.WellFormed) (n : Nat) :
    a.outgoing n = (a.arcsAt Arc.source n).filterMap (a.arcs[·]?) := by
  have listed : (a.node n).outgoing = a.arcsAt Arc.source n :=
    congrArg Node.outgoing (wf.node_eq n)
  rw [← listed, outgoing, node]
  cases a.nodes[n]? <;> rfl

theorem length_flatMap_outgoing_le (wf : a.WellFormed) {ns : List Nat} (distinct : ns.Nodup) :
    (ns.flatMap a.outgoing).length ≤ a.arcCount := by
  have nodup : (ns.flatMap (a.arcsAt Arc.source)).Nodup := by
    refine List.nodup_flatMap.2 ⟨fun n _ => List.nodup_range.filter _, distinct.imp ?_⟩
    intro n m ne id hn hm
    obtain ⟨arc, harc, hn⟩ := Option.any_eq_true _ _ |>.1 (List.mem_filter.1 hn).2
    obtain ⟨arc', harc', hm⟩ := Option.any_eq_true _ _ |>.1 (List.mem_filter.1 hm).2
    obtain rfl := Option.some_inj.1 (harc.symm.trans harc')
    exact ne ((of_decide_eq_true hn).symm.trans (of_decide_eq_true hm))
  have sub : ns.flatMap (a.arcsAt Arc.source) ⊆ List.range a.arcCount := by
    intro id hid
    obtain ⟨n, -, hid⟩ := List.mem_flatMap.1 hid
    exact (List.mem_filter.1 hid).1
  have outgoing : ns.flatMap a.outgoing =
      (ns.flatMap (a.arcsAt Arc.source)).filterMap (a.arcs[·]?) := by
    rw [List.filterMap_flatMap]
    exact List.flatMap_congr fun n _ => outgoing_eq_filterMap wf n
  calc (ns.flatMap a.outgoing).length
      ≤ (ns.flatMap (a.arcsAt Arc.source)).length := outgoing ▸ List.length_filterMap_le _ _
    _ ≤ (List.range a.arcCount).length := (nodup.subperm sub).length_le
    _ = a.arcCount := List.length_range

theorem map_node_silentSteps (a : Automaton) (pos : Nat) (t : Thread) :
    (a.silentSteps pos t).map (·.node) = (a.outgoing t.node).filterMap fun arc =>
      if arc.label = .epsilon then some arc.target else none := by
  rw [silentSteps, List.map_filterMap]
  apply List.filterMap_congr
  intro arc _
  cases arc.label <;> simp

/-- Threads at different nodes turn into no more threads than there are arcs. -/
theorem length_flatMap_silentSteps_le (wf : a.WellFormed) (pos : Nat) {ts : List Thread}
    (distinct : (ts.map (·.node)).Nodup) :
    (ts.flatMap (a.silentSteps pos)).length ≤ a.arcCount := by
  have targets : (ts.flatMap (a.silentSteps pos)).map (·.node) =
      ((ts.map (·.node)).flatMap a.outgoing).filterMap fun arc =>
        if arc.label = .epsilon then some arc.target else none := by
    rw [List.map_flatMap, List.filterMap_flatMap, List.flatMap_map]
    exact List.flatMap_congr fun t _ => map_node_silentSteps a pos t
  calc (ts.flatMap (a.silentSteps pos)).length
      = ((ts.flatMap (a.silentSteps pos)).map (·.node)).length := (List.length_map _).symm
    _ ≤ ((ts.map (·.node)).flatMap a.outgoing).length := targets ▸ List.length_filterMap_le _ _
    _ ≤ a.arcCount := length_flatMap_outgoing_le wf distinct

/-! ## What a step claims -/

def Frontier.nodes (f : Frontier) : List Nat := f.threads.toList.map (·.node)

structure Frontier.Exact (a : Automaton) (f : Frontier) : Prop where
  size : f.claims.stamps.size = a.nodeCount
  free_iff : ∀ n, f.claims.free n = true ↔ n < a.nodeCount ∧ n ∉ f.nodes

theorem Frontier.nodes_push (f : Frontier) (c : Claims) (t : Thread) :
    (⟨c, f.threads.push t⟩ : Frontier).nodes = f.nodes ++ [t.node] := by
  simp [nodes]

theorem Frontier.exact_advance {claims : Claims} (size : claims.stamps.size = a.nodeCount)
    (fresh : claims.advance.Fresh) : Exact a ⟨claims.advance, #[]⟩ where
  size := size
  free_iff n := by
    have size : claims.advance.stamps.size = a.nodeCount := size
    simp [fresh.free_eq, size, nodes]

theorem Frontier.Exact.push (h : f.Exact a) (t : Thread) :
    Exact a ⟨f.claims.claim t.node, f.threads.push t⟩ where
  size := Array.size_setIfInBounds.trans h.size
  free_iff n := by
    rw [Claims.free_claim, Bool.and_eq_true, h.free_iff, decide_eq_true_iff, nodes_push,
      List.mem_append, List.mem_singleton, not_or, and_assoc]

/-- The loop lists what waits on its stack as a depth-first search does. -/
theorem Frontier.Exact.spread (wf : a.WellFormed) (exact : f.Exact a)
    (within : ∀ t ∈ waiting, t.node < a.nodeCount) (pos : Nat) (slots : Slots) :
    ∃ listed, Preorder a f.nodes waiting listed ∧
      (a.spread pos f (waiting.map (Traced.arrival pos slots))).threads.toList =
        f.threads.toList ++ listed.map (Traced.arrival pos slots) ∧
      (a.spread pos f (waiting.map (Traced.arrival pos slots))).Exact a := by
  generalize hs : waiting.map (Traced.arrival pos slots) = stack
  induction f, stack using spread.induct a pos generalizing waiting with
  | case1 f =>
    obtain rfl := List.map_eq_nil_iff.1 hs
    rw [spread_nil]
    exact ⟨[], .nil, (List.append_nil _).symm, exact⟩
  | case2 f t stack free ih =>
    obtain ⟨e, rest, rfl, rfl, rfl⟩ := List.map_eq_cons_iff.1 hs
    have new : e.node ∉ f.nodes := ((exact.free_iff e.node).1 free).2
    have next : ∀ d ∈ e.next a [], d.node < a.nodeCount :=
      fun _ hd => Traced.node_lt_of_mem_next_nil wf hd
    obtain ⟨-, hrest⟩ := List.forall_mem_cons.1 within
    obtain ⟨listed, preorder, threads, exact'⟩ := ih (exact.push (e.arrival pos slots))
      (List.forall_mem_append.2 ⟨next, hrest⟩)
      (by rw [List.map_append, Traced.silentSteps_arrival])
    -- what lies below the new thread is listed before what waits behind it
    obtain ⟨below, behind, rfl, hbelow, hbehind⟩ := preorder.exists_append
    rw [Frontier.nodes_push] at hbelow hbehind
    rw [List.append_assoc, List.singleton_append] at hbehind
    rw [spread_cons_of_free free]
    refine ⟨e :: below ++ behind, .enter new hbelow hbehind, ?_, exact'⟩
    rw [threads, Array.toList_push, List.append_assoc]
    rfl
  | case3 f t stack taken ih =>
    obtain ⟨e, rest, rfl, rfl, rfl⟩ := List.map_eq_cons_iff.1 hs
    obtain ⟨he, hrest⟩ := List.forall_mem_cons.1 within
    have mem : e.node ∈ f.nodes := by
      by_contra new
      exact taken ((exact.free_iff e.node).2 ⟨he, new⟩)
    obtain ⟨listed, preorder, threads, exact'⟩ := ih exact hrest rfl
    rw [spread_cons_of_taken taken]
    exact ⟨listed, .pass mem preorder, threads, exact'⟩

/-! ## The threads of a step -/

/-- What the threads of a step and the stack are after some nodes have been added one after
another. -/
inductive Added (a : Automaton) (claims : Claims) : List Nat → Frontier × List Thread → Prop where

  | none : Added a claims [] (⟨claims.advance, #[]⟩, [])

  | add {roots : List Nat} {w : Frontier × List Thread} {t : Thread} (pos : Nat) :
      Added a claims roots w → t.node < a.nodeCount →
      Added a claims (roots ++ [t.node]) (a.addThread pos w t)

/-- There is one thread at each node that silent paths lead to from the given ones. -/
structure Closes (a : Automaton) (roots : List Nat) (f : Frontier) : Prop extends f.Exact a where
  nodup : f.nodes.Nodup
  mem_iff : ∀ n, n ∈ f.nodes ↔ ∃ m ∈ roots, ∃ path, SilentPath a m path n

/-- Behind the threads that were there come those of a depth-first search from the node of a thread,
each with the slots that the markers along its path make of those of the thread. -/
structure Appends (a : Automaton) (pos : Nat) (f : Frontier) (t : Thread) (listed : List Traced)
    (f' : Frontier) : Prop where
  preorder : Preorder a f.nodes [⟨t.node, []⟩] listed
  silentPath : ∀ d ∈ listed, SilentPath a t.node d.path d.node
  threads : f'.threads.toList = f.threads.toList ++ listed.map (Traced.arrival pos t.slots)

section

variable {f' : Frontier} {claims : Claims} {roots : List Nat} {t : Thread}

theorem Appends.nodes_eq (h : Appends a pos f t listed f') :
    f'.nodes = f.nodes ++ listed.map (·.node) := by
  rw [Frontier.nodes, h.threads, List.map_append, List.map_map]
  rfl

theorem Frontier.Exact.append (wf : a.WellFormed) (exact : f.Exact a)
    (ht : t.node < a.nodeCount) (pos : Nat) :
    ∃ listed, Appends a pos f t listed (a.spread pos f [t]) ∧ (a.spread pos f [t]).Exact a := by
  have within : ∀ d ∈ [(⟨t.node, []⟩ : Traced)], d.node < a.nodeCount :=
    List.forall_mem_singleton.2 ht
  obtain ⟨listed, preorder, threads, exact'⟩ := exact.spread wf within pos t.slots
  have silentPath := preorder.silentPath (List.forall_mem_singleton.2 .nil)
  exact ⟨listed, ⟨preorder, silentPath, threads⟩, exact'⟩

theorem closes_advance (size : claims.stamps.size = a.nodeCount) (fresh : claims.advance.Fresh) :
    Closes a [] ⟨claims.advance, #[]⟩ where
  toExact := Frontier.exact_advance size fresh
  nodup := List.nodup_nil
  mem_iff n := by simp [Frontier.nodes]

theorem Closes.target_mem (h : Closes a roots f) (hm : m ∈ f.nodes) {s : Step}
    (hs : (a.outgoing m)[s.rank]? = some s.arc) (silent : s.Silent) : s.arc.target ∈ f.nodes := by
  obtain ⟨root, hroot, path, hpath⟩ := (h.mem_iff m).1 hm
  exact (h.mem_iff _).2 ⟨root, hroot, _, hpath.concat hs silent⟩

theorem Appends.target_mem (h : Appends a pos f t listed f') (closes : Closes a roots f)
    (hm : m ∈ f'.nodes) {s : Step} (hs : (a.outgoing m)[s.rank]? = some s.arc)
    (silent : s.Silent) : s.arc.target ∈ f'.nodes := by
  rw [h.nodes_eq] at hm ⊢
  rcases List.mem_append.1 hm with hm | hm
  · exact List.mem_append_left _ (closes.target_mem hm hs silent)
  · obtain ⟨d, hd, rfl⟩ := List.mem_map.1 hm
    exact h.preorder.closed d hd _ (Traced.mem_next_nil_iff.2 ⟨s, hs, silent, rfl⟩)

theorem Closes.append (wf : a.WellFormed) (h : Closes a roots f) (ht : t.node < a.nodeCount)
    (pos : Nat) : Closes a (roots ++ [t.node]) (a.spread pos f [t]) := by
  obtain ⟨listed, appends, exact'⟩ := h.toExact.append wf ht pos
  have nodes := appends.nodes_eq
  have old : f.nodes ⊆ (a.spread pos f [t]).nodes := nodes ▸ List.subset_append_left _ _
  constructor
  case toExact => exact exact'
  case nodup =>
    rw [nodes]
    exact appends.preorder.nodup h.nodup
  case mem_iff =>
    intro n
    constructor
    · intro hn
      rw [nodes] at hn
      rcases List.mem_append.1 hn with hn | hn
      · obtain ⟨m, hm, hpath⟩ := (h.mem_iff n).1 hn
        exact ⟨m, List.mem_append_left _ hm, hpath⟩
      · obtain ⟨d, hd, rfl⟩ := List.mem_map.1 hn
        exact ⟨t.node, by simp, d.path, appends.silentPath d hd⟩
    · rintro ⟨m, hm, path, hpath⟩
      apply hpath.mem_of_closed fun _ hm _ => appends.target_mem h hm
      rcases List.mem_append.1 hm with hm | hm
      · exact old ((h.mem_iff m).2 ⟨m, hm, [], .nil⟩)
      · rw [nodes, List.mem_singleton.1 hm]
        exact appends.preorder.covers _ List.mem_cons_self

theorem Added.closes (wf : a.WellFormed) (size : claims.stamps.size = a.nodeCount)
    (fresh : claims.advance.Fresh) {w : Frontier × List Thread} (h : Added a claims roots w) :
    w.2 = [] ∧ Closes a roots w.1 := by
  induction h with
  | none => exact ⟨rfl, closes_advance size fresh⟩
  | @add roots w t pos _ ht ih =>
    obtain ⟨f, stack⟩ := w
    obtain ⟨rfl, closes⟩ := ih
    exact ⟨rfl, closes.append wf ht pos⟩

theorem exists_iterate_turn (wf : a.WellFormed) (distinct : (a.spread pos f [t]).nodes.Nodup) :
    ∃ k ≤ a.arcCount + 1, (a.turn pos)^[k] (f, [t]) = (a.spread pos f [t], []) := by
  obtain ⟨new, threads, turns⟩ := iterate_turn a pos f [t]
  refine ⟨_, ?_, turns⟩
  have distinct : (new.map (·.node)).Nodup := by
    rw [Frontier.nodes, threads, List.map_append] at distinct
    exact (List.nodup_append.1 distinct).2.1
  rw [List.length_singleton, Nat.add_comm]
  exact Nat.add_le_add_right (length_flatMap_silentSteps_le wf pos distinct) 1

/-- Whatever has been added to a step that began with no claims, the loop that adds a thread ends
with an empty stack, after a turn for each arc and one more at the most. It appends what silent
paths lead to and changes nothing else, and then there is one thread at each node that silent paths
lead to from any node that has been added. -/
theorem addThread_closure (wf : a.WellFormed) (size : claims.stamps.size = a.nodeCount)
    (fresh : claims.advance.Fresh) {w : Frontier × List Thread} (h : Added a claims roots w)
    (ht : t.node < a.nodeCount) (pos : Nat) :
    (∃ k ≤ a.arcCount + 1, (a.turn pos)^[k] (w.1, t :: w.2) = a.addThread pos w t) ∧
      (a.addThread pos w t).2 = [] ∧
      (∃ listed, Appends a pos w.1 t listed (a.addThread pos w t).1) ∧
      Closes a (roots ++ [t.node]) (a.addThread pos w t).1 := by
  obtain ⟨empty, closes⟩ := h.closes wf size fresh
  obtain ⟨f, stack⟩ := w
  obtain rfl : stack = [] := empty
  have closes' := closes.append wf ht pos
  obtain ⟨listed, appends, -⟩ := closes.toExact.append wf ht pos
  exact ⟨exists_iterate_turn wf closes'.nodup, rfl, ⟨listed, appends⟩, closes'⟩

end

def silentLoop : Automaton :=
  let nodes := addNode (addNode (addNode {}))
  let loop := ((nodes.addArc 0 0 .epsilon).addArc 0 1 .epsilon).addArc 1 0 .epsilon
  (loop.addArc 1 2 .epsilon).markAction 0 0 2 0

theorem wellFormed_silentLoop : silentLoop.WellFormed :=
  ⟨by decide, by decide, by decide⟩

def loopEnd : Frontier × List Thread :=
  silentLoop.addThread 5 (⟨(Claims.new 3).advance, #[]⟩, []) ⟨2, #[{}]⟩

theorem addThread_closure_silentLoop : silentLoop.WellFormed ∧
    (Claims.new 3).stamps.size = silentLoop.nodeCount ∧ (Claims.new 3).advance.Fresh ∧
    Added silentLoop (Claims.new 3) [2] loopEnd ∧ 0 < silentLoop.nodeCount ∧
    (∃ k ≤ silentLoop.arcCount + 1, (silentLoop.turn 5)^[k] (loopEnd.1, ⟨0, #[{}]⟩ :: loopEnd.2) =
      silentLoop.addThread 5 loopEnd ⟨0, #[{}]⟩) ∧
    (silentLoop.addThread 5 loopEnd ⟨0, #[{}]⟩).2 = [] ∧
    (∃ listed, Appends silentLoop 5 loopEnd.1 ⟨0, #[{}]⟩ listed
      (silentLoop.addThread 5 loopEnd ⟨0, #[{}]⟩).1) ∧
    Closes silentLoop [2, 0] (silentLoop.addThread 5 loopEnd ⟨0, #[{}]⟩).1 := by
  have size : (Claims.new 3).stamps.size = silentLoop.nodeCount := by decide
  have fresh : (Claims.new 3).advance.Fresh :=
    (Claims.room_new (n := 1) (by decide)).fresh
  have last : (⟨2, #[{}]⟩ : Thread).node < silentLoop.nodeCount := by decide
  have added : Added silentLoop (Claims.new 3) [2] loopEnd := .add 5 .none last
  have lt : 0 < silentLoop.nodeCount := by decide
  exact ⟨wellFormed_silentLoop, size, fresh, added, lt,
    addThread_closure wellFormed_silentLoop size fresh added lt 5⟩

end Automaton

end SymbolRegex
