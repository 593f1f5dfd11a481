import SymbolRegex.Proofs.Flattening
import SymbolRegex.Proofs.Realization

/-! # What wiring leaves alone

Wiring a pattern between two nodes changes nothing that is there but the ends of the
lists at these two. Its arcs lead from the first of them, through nodes of their own,
to the second, and carry markers of its own actions only. So patterns that share an
automaton, or even both their ends, do not leak into each other.
-/

namespace SymbolRegex.Automaton

/-! ## The actions on the arcs of a plan -/

namespace Plan

/-- The arcs of a plan, wherever it is laid out, are marked for some of the given actions only. -/
def MarkedFor (actions : List Nat) (p : Plan) : Prop :=
  ∀ start stop fresh, ∀ arc ∈ p.arcs start stop fresh, ∀ m ∈ arc.markers, m.action ∈ actions

variable {p q : Plan} {ps : List Plan} {actions actions' : List Nat}

theorem MarkedFor.mono (h : p.MarkedFor actions) (sub : actions ⊆ actions') :
    p.MarkedFor actions' :=
  fun start stop fresh arc harc m hm => sub (h start stop fresh arc harc m hm)

theorem markedFor_single (label : ArcLabel) (actions : List Nat) :
    (single label).MarkedFor actions := by
  intro start stop fresh arc h
  obtain rfl := List.mem_singleton.1 h
  exact fun _ hm => absurd hm List.not_mem_nil

theorem markedFor_nothing (actions : List Nat) : nothing.MarkedFor actions :=
  fun _ _ _ _ h => absurd h List.not_mem_nil

theorem MarkedFor.beside (hp : p.MarkedFor actions) (hq : q.MarkedFor actions) :
    (p.beside q).MarkedFor actions := by
  intro start stop fresh
  exact List.forall_mem_append.2 ⟨hp _ _ _, hq _ _ _⟩

theorem MarkedFor.before (hp : p.MarkedFor actions) (hq : q.MarkedFor actions) :
    (p.before q).MarkedFor actions := by
  intro start stop fresh
  exact List.forall_mem_append.2 ⟨hp _ _ _, hq _ _ _⟩

theorem MarkedFor.orSkip (hp : p.MarkedFor actions) : (p.beside skip).MarkedFor actions :=
  hp.beside (markedFor_single .epsilon actions)

theorem MarkedFor.loop (hp : p.MarkedFor actions) : p.loop.MarkedFor actions := by
  intro start stop fresh arc h
  rcases mem_loop.1 h with rfl | h | rfl | rfl
  · exact fun _ hm => absurd hm List.not_mem_nil
  · exact hp _ _ _ arc h
  · exact fun _ hm => absurd hm List.not_mem_nil
  · exact fun _ hm => absurd hm List.not_mem_nil

theorem action_eq_of_mem_actionMarkers {start stop i : Nat} {arc : Arc} {m : Marker}
    (h : m ∈ actionMarkers start stop i arc) : m.action = i := by
  simp only [actionMarkers, List.mem_append, List.mem_ite_nil_right, List.mem_singleton] at h
  rcases h with ⟨-, rfl⟩ | ⟨-, rfl⟩ <;> rfl

theorem MarkedFor.mark (hp : p.MarkedFor actions) (i : Nat) :
    (p.mark i).MarkedFor (i :: actions) := by
  intro start stop fresh arc h m hm
  obtain ⟨old, hold, rfl⟩ := List.mem_map.1 h
  rcases List.mem_append.1 hm with hm | hm
  · exact List.mem_cons_of_mem i (hp start stop fresh old hold m hm)
  · rw [action_eq_of_mem_actionMarkers hm]
    exact List.mem_cons_self

theorem markedFor_chain (h : ∀ p ∈ ps, p.MarkedFor actions) : (chain ps).MarkedFor actions := by
  induction ps with
  | nil => exact markedFor_single .epsilon actions
  | cons p ps ih =>
    obtain ⟨hp, hps⟩ := List.forall_mem_cons.1 h
    cases ps with
    | nil => exact hp
    | cons q ps => exact hp.before (ih hps)

theorem markedFor_branch (h : ∀ p ∈ ps, p.MarkedFor actions) : (branch ps).MarkedFor actions := by
  induction ps with
  | nil => exact markedFor_nothing actions
  | cons p ps ih =>
    obtain ⟨hp, hps⟩ := List.forall_mem_cons.1 h
    exact hp.beside (ih hps)

theorem markedFor_copies (hp : p.MarkedFor actions) (hq : q.MarkedFor actions)
    (lower copy more : Nat) : ∀ r ∈ copies p q lower copy more, r.MarkedFor actions := by
  induction more generalizing copy with
  | zero => exact fun _ h => absurd h List.not_mem_nil
  | succ more ih =>
    apply List.forall_mem_cons.2 ⟨?_, ih (copy + 1)⟩
    split
    · exact hq
    · exact hp

mutual

/-- What a pattern is wired with is marked for actions of the pattern only. -/
theorem markedFor_plan : ∀ b : BoundPattern, (plan b).MarkedFor b.actions
  | .leaf set => markedFor_single (.symbols set) _
  | .sequence bs => markedFor_chain (markedFor_plans bs)
  | .choice bs => markedFor_branch (markedFor_plans bs)
  | .optional b => (markedFor_plan b).orSkip
  | .counted b lower upper =>
    markedFor_chain (markedFor_copies (markedFor_plan b) (markedFor_plan b).orSkip lower 0 upper)
  | .oneOrMore b => (markedFor_plan b).loop
  | .zeroOrMore b => (markedFor_plan b).loop.orSkip
  | .action i b => (markedFor_plan b).mark i

theorem markedFor_plans : ∀ bs : List BoundPattern,
    ∀ p ∈ plans bs, p.MarkedFor (Pattern.allActions bs)
  | [] => fun _ h => absurd h List.not_mem_nil
  | b :: bs => by
    apply List.forall_mem_cons.2 ⟨(markedFor_plan b).mono ?_, fun p hp => ?_⟩
    · exact Pattern.actions_subset_allActions List.mem_cons_self
    · rw [Pattern.allActions_cons]
      exact (markedFor_plans bs p hp).mono (List.subset_append_right _ _)

end

end Plan

/-! ## The frame of a pattern -/

/-- An automaton is extended between two nodes by a part of its own, which knows the given actions
only. -/
structure Attached (a : Automaton) (start stop : Nat) (actions : List Nat) (count : Nat)
    (new : List Arc) (a' : Automaton) : Prop extends Extends a count new a' where
  /-- The lists of all other nodes stay as they are. -/
  others : ∀ n < a.nodeCount, n ≠ start → n ≠ stop → a'.nodes[n]? = a.nodes[n]?
  source : ∀ arc ∈ new, arc.source = start ∨ a.nodeCount ≤ arc.source
  target : ∀ arc ∈ new, arc.target = stop ∨ a.nodeCount ≤ arc.target
  source_ne : ∀ arc ∈ new, arc.source ≠ stop
  target_ne : ∀ arc ∈ new, arc.target ≠ start
  markers : ∀ arc ∈ new, ∀ m ∈ arc.markers, m.action ∈ actions
  wellFormed : a.WellFormed → a'.WellFormed

variable {a a' : Automaton} {start stop count : Nat} {new : List Arc} {actions : List Nat}

theorem Extends.attached (h : Extends a count new a') (ends : Ends start stop a.nodeCount)
    (source : ∀ arc ∈ new, arc.source = start ∨ a.nodeCount ≤ arc.source)
    (target : ∀ arc ∈ new, arc.target = stop ∨ a.nodeCount ≤ arc.target)
    (markers : ∀ arc ∈ new, ∀ m ∈ arc.markers, m.action ∈ actions) :
    Attached a start stop actions count new a' where
  toExtends := h
  others n hn hs ht := by
    have source : ∀ arc ∈ new, arc.source ≠ n := by
      intro arc harc
      have := source arc harc
      omega
    have target : ∀ arc ∈ new, arc.target ≠ n := by
      intro arc harc
      have := target arc harc
      omega
    have outgoing := h.outgoing n
    have incoming := h.incoming n
    rw [numbersAt_eq_nil source, List.append_nil] at outgoing
    rw [numbersAt_eq_nil target, List.append_nil] at incoming
    have lt : n < a'.nodeCount := by
      have := h.nodeCount
      omega
    rw [getElem?_nodes hn, getElem?_nodes lt]
    exact congrArg some (congrArg₂ Node.mk outgoing incoming)
  source := source
  target := target
  source_ne arc harc := by
    have := source arc harc
    have := ends.ne
    have := ends.stop_lt
    omega
  target_ne arc harc := by
    have := target arc harc
    have := ends.ne
    have := ends.start_lt
    omega
  markers := markers
  wellFormed := h.wellFormed

/-! ## Numbers of 32 bits -/

/-- The numbers that are read back where the given ones are kept in 32 bits. -/
def kept32 (ids : List Nat) : List Nat := ids.map fun id => (UInt32.ofNat id).toNat

/-- An automaton whose numbers are kept in 32 bits. Its arcs lead from and to the same nodes, and
each node lists exactly its own arcs, in the order in which they were made. -/
structure Held32 (a : Automaton) : Prop where
  source : ∀ arc ∈ a.arcs, (UInt32.ofNat arc.source).toNat = arc.source
  target : ∀ arc ∈ a.arcs, (UInt32.ofNat arc.target).toNat = arc.target
  outgoing : ∀ n < a.nodeCount, kept32 (a.node n).outgoing = a.arcsAt Arc.source n
  incoming : ∀ n < a.nodeCount, kept32 (a.node n).incoming = a.arcsAt Arc.target n

theorem kept32_eq_self {ids : List Nat} {k : Nat} (h : Numbered32 k) (lt : ∀ id ∈ ids, id < k) :
    kept32 ids = ids :=
  (List.map_congr_left fun id hid => h.exact id (lt id hid)).trans (List.map_id' ids)

theorem kept32_append (ids ids' : List Nat) : kept32 (ids ++ ids') = kept32 ids ++ kept32 ids' :=
  List.map_append

theorem lt_arcCount_of_mem_arcsAt {endOf : Arc → Nat} {n id : Nat} (h : id ∈ a.arcsAt endOf n) :
    id < a.arcCount :=
  List.mem_range.1 (List.mem_of_mem_filter h)

theorem WellFormed.held32 (wf : a.WellFormed) (nodes : Numbered32 a.nodeCount)
    (arcs : Numbered32 a.arcCount) : a.Held32 where
  source arc harc := nodes.exact _ (wf.source_lt arc harc)
  target arc harc := nodes.exact _ (wf.target_lt arc harc)
  outgoing n _ := by
    rw [wf.node_eq]
    exact kept32_eq_self arcs fun _ => lt_arcCount_of_mem_arcsAt
  incoming n _ := by
    rw [wf.node_eq]
    exact kept32_eq_self arcs fun _ => lt_arcCount_of_mem_arcsAt

/-- Whatever an automaton holds already, wiring a pattern between two of its nodes only appends the
nodes and arcs of the plan, as long as 32 bits number them all. Nodes list the new arcs behind the
others, in the order in which they are made; the new arcs touch no old nodes but the two ends,
neither enter the first nor leave the second, and carry markers of the actions of the pattern only.
-/
theorem wire_attaches (a : Automaton) (p : BoundPattern) {start stop : Nat}
    (hstart : start < a.nodeCount) (hstop : stop < a.nodeCount) (ne : start ≠ stop)
    (nodes : Numbered32 (wire p start stop a).nodeCount)
    (arcs : Numbered32 (wire p start stop a).arcCount) :
    Attached a start stop p.actions (plan p).size ((plan p).arcs start stop a.nodeCount)
      (wire p start stop a) ∧ (a.WellFormed → (wire p start stop a).Held32) := by
  have ends : Ends start stop a.nodeCount := ⟨ne, hstart, hstop⟩
  have enclosed := (realizes_plan p).enclosed ends
  have extended := Plan.describes_wire p a start stop hstart hstop
  refine ⟨extended.attached ends ?source ?target ?markers, fun wf => ?held⟩
  case source =>
    intro arc harc
    exact (enclosed arc harc).1.imp_right And.left
  case target =>
    intro arc harc
    exact (enclosed arc harc).2.imp_right And.left
  case markers => exact Plan.markedFor_plan p start stop a.nodeCount
  case held => exact (extended.wellFormed wf).held32 nodes arcs

def taggedLoop : Automaton :=
  wire (.action 0 (.zeroOrMore (.leaf (.singleton 2 0)))) 0 1 (addNode (addNode {}))

def taggedCopies : BoundPattern := .action 1 (.counted (.action 2 (.leaf (.singleton 2 1))) 0 2)

theorem wire_attaches_taggedLoop : 0 < taggedLoop.nodeCount ∧ 1 < taggedLoop.nodeCount ∧
    Numbered32 (wire taggedCopies 0 1 taggedLoop).nodeCount ∧
    Numbered32 (wire taggedCopies 0 1 taggedLoop).arcCount ∧ taggedLoop.WellFormed ∧
    Attached taggedLoop 0 1 [1, 2] (plan taggedCopies).size
      ((plan taggedCopies).arcs 0 1 taggedLoop.nodeCount) (wire taggedCopies 0 1 taggedLoop) ∧
    (wire taggedCopies 0 1 taggedLoop).Held32 := by
  have nodes : Numbered32 (wire taggedCopies 0 1 taggedLoop).nodeCount :=
    numbered32_iff.2 (by decide)
  have arcs : Numbered32 (wire taggedCopies 0 1 taggedLoop).arcCount :=
    numbered32_iff.2 (by decide)
  have wf : taggedLoop.WellFormed :=
    (Plan.builds_wire _ wellFormed_empty.addNode.addNode 0 1 (by decide) (by decide)).wellFormed
  obtain ⟨attached, held⟩ :=
    wire_attaches taggedLoop taggedCopies (by decide) (by decide) (by decide) nodes arcs
  exact ⟨by decide, by decide, nodes, arcs, wf, attached, held wf⟩

/-! ### More arcs than numbers -/

def alternatives (k : Nat) : BoundPattern := .choice (List.replicate k (.leaf (.full 1)))

theorem arcs_plan_alternatives (k start stop fresh : Nat) :
    (plan (alternatives k)).arcs start stop fresh =
      List.replicate k ⟨.symbols (.full 1), [], start, stop⟩ := by
  change (Plan.branch (plans (List.replicate k (.leaf (.full 1))))).arcs start stop fresh = _
  induction k generalizing fresh with
  | zero => rfl
  | succ k ih => exact congrArg (List.cons _) (ih fresh)

theorem numbersAt_replicate (endOf : Arc → Nat) (first k : Nat) (arc : Arc) :
    numbersAt endOf (endOf arc) first (List.replicate k arc) = List.range' first k := by
  rw [numbersAt, List.filter_eq_self.2, List.zipIdx_map_snd, List.length_replicate]
  rintro ⟨new, id⟩ mem
  obtain rfl := List.eq_of_mem_replicate (List.fst_mem_of_mem_zipIdx mem)
  exact decide_eq_true rfl

theorem outgoing_wire_alternatives (k : Nat) :
    ((wire (alternatives k) 0 1 (addNode (addNode {}))).node 0).outgoing = List.range k := by
  have extended := Plan.describes_wire (alternatives k) (addNode (addNode {})) 0 1 (by decide)
    (by decide)
  have numbers := numbersAt_replicate Arc.source 0 k ⟨.symbols (.full 1), [], 0, 1⟩
  rw [extended.outgoing, arcs_plan_alternatives, List.range_eq_range']
  exact (List.nil_append _).trans numbers

theorem kept32_range_size : kept32 (List.range UInt32.size) = List.range UInt32.size :=
  kept32_eq_self (numbered32_iff.2 le_rfl) fun _ => List.mem_range.1

/-- Of one arc too many, the node that it leaves lists the first one again. -/
theorem wire_lists_first_again :
    let a := addNode (addNode {})
    let a' := wire (alternatives (UInt32.size + 1)) 0 1 a
    a.WellFormed ∧ 0 < a.nodeCount ∧ 1 < a.nodeCount ∧
      a'.arcsAt Arc.source 0 = List.range UInt32.size ++ [UInt32.size] ∧
      kept32 (a'.node 0).outgoing = List.range UInt32.size ++ [0] ∧ ¬ a'.Held32 := by
  intro a a'
  have wf : a.WellFormed := wellFormed_empty.addNode.addNode
  have extended : Extends a _ _ a' :=
    Plan.describes_wire (alternatives (UInt32.size + 1)) a 0 1 (by decide) (by decide)
  have listed : (a'.node 0).outgoing = List.range UInt32.size ++ [UInt32.size] :=
    (outgoing_wire_alternatives _).trans List.range_succ
  have own : a'.arcsAt Arc.source 0 = List.range UInt32.size ++ [UInt32.size] := by
    rw [← listed, (extended.wellFormed wf).node_eq]
  have kept : kept32 (a'.node 0).outgoing = List.range UInt32.size ++ [0] := by
    have again : kept32 [UInt32.size] = [0] := by decide
    rw [listed, kept32_append, kept32_range_size, again]
  refine ⟨wf, by decide, by decide, own, kept, fun held => ?_⟩
  have lt : 0 < a'.nodeCount := by
    rw [extended.nodeCount]
    exact Nat.lt_of_lt_of_le (by decide) (Nat.le_add_right _ _)
  have same := kept.symm.trans ((held.outgoing 0 lt).trans own)
  exact absurd (List.append_cancel_left same) (by decide)

end SymbolRegex.Automaton
