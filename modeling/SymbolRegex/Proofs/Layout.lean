import Mathlib.Data.List.Infix
import SymbolRegex.Automaton.Construction

/-! # The layout of automata

Wiring a pattern only adds to an automaton, and what it adds is laid out by a plan:
how many nodes it makes, and which arcs between the given ends and those nodes.
Every node keeps listing exactly its own arcs, in the order in which they were
made.
-/

namespace SymbolRegex.Automaton

/-- The numbers of the arcs that have the given end at a node. -/
def arcsAt (a : Automaton) (endOf : Arc → Nat) (n : Nat) : List Nat :=
  (List.range a.arcs.size).filter fun id => a.arcs[id]?.any (endOf · = n)

/-- Every node lists its own arcs in the order in which they were made, and all arcs have both
their ends in the automaton. -/
structure WellFormed (a : Automaton) : Prop where
  listed : ∀ n < a.nodeCount,
    a.nodes[n]? = some ⟨a.arcsAt Arc.source n, a.arcsAt Arc.target n⟩
  source_lt : ∀ arc ∈ a.arcs, arc.source < a.nodeCount
  target_lt : ∀ arc ∈ a.arcs, arc.target < a.nodeCount

theorem wellFormed_empty : WellFormed {} where
  listed n h := by simp [nodeCount] at h
  source_lt arc h := by simp at h
  target_lt arc h := by simp at h

variable {a a' a'' : Automaton} {n first count count' : Nat} {new new' : List Arc}

/-! ## The numbers of arcs -/

/-- The numbers of those arcs that have the given end at a node, where the arcs are numbered from
`first` on. -/
def numbersAt (endOf : Arc → Nat) (n first : Nat) (arcs : List Arc) : List Nat :=
  ((arcs.zipIdx first).filter (endOf ·.1 = n)).map (·.2)

theorem numbersAt_append (endOf : Arc → Nat) (n first : Nat) (new new' : List Arc) :
    numbersAt endOf n first (new ++ new') =
      numbersAt endOf n first new ++ numbersAt endOf n (first + new.length) new' := by
  rw [numbersAt, List.zipIdx_append, List.filter_append, List.map_append]
  rfl

theorem numbersAt_singleton (endOf : Arc → Nat) (n first : Nat) (arc : Arc) :
    numbersAt endOf n first [arc] = if endOf arc = n then [first] else [] := by
  by_cases h : endOf arc = n <;> simp [numbersAt, h]

theorem numbersAt_eq_nil {endOf : Arc → Nat} (h : ∀ arc ∈ new, endOf arc ≠ n) :
    numbersAt endOf n first new = [] := by
  rw [numbersAt, List.map_eq_nil_iff, List.filter_eq_nil_iff]
  rintro ⟨arc, id⟩ mem
  simpa using h arc (List.fst_mem_of_mem_zipIdx mem)

theorem numbersAt_map (endOf : Arc → Nat) (change : Arc → Arc)
    (keep : ∀ arc, endOf (change arc) = endOf arc) (n first : Nat) (new : List Arc) :
    numbersAt endOf n first (new.map change) = numbersAt endOf n first new := by
  rw [numbersAt, List.zipIdx_map, List.filter_map, List.map_map]
  simp [numbersAt, Function.comp_def, keep]

theorem arcsAt_eq (a : Automaton) (endOf : Arc → Nat) (n : Nat) :
    a.arcsAt endOf n = numbersAt endOf n 0 a.arcs.toList := by
  have numbers : List.range a.arcs.size = a.arcs.toList.zipIdx.map (·.2) := by
    rw [List.zipIdx_map_snd, List.range_eq_range', Array.length_toList]
  rw [arcsAt, numbersAt, numbers, List.filter_map]
  congr 1
  apply List.filter_congr
  rintro ⟨arc, id⟩ mem
  have found := List.mem_zipIdx_iff_getElem?.1 mem
  rw [Array.getElem?_toList] at found
  simp [found]

theorem filterMap_range_getElem? {α : Type} (l : List α) :
    (List.range l.length).filterMap (l[·]?) = l := by
  induction l with
  | nil => rfl
  | cons x l ih =>
    rw [List.length_cons, List.range_succ_eq_map, List.filterMap_cons, List.filterMap_map]
    simpa using ih

/-- The arcs that leave a node, in order of priority, are those with that source. -/
theorem WellFormed.outgoing_eq (wf : a.WellFormed) (n : Nat) :
    a.outgoing n = a.arcs.toList.filter (·.source = n) := by
  unfold outgoing
  by_cases hn : n < a.nodeCount
  · rw [wf.listed n hn]
    conv_rhs => rw [← filterMap_range_getElem? a.arcs.toList, List.filter_filterMap]
    simp only [arcsAt, List.filterMap_filter, Array.length_toList, Array.getElem?_toList]
    apply List.filterMap_congr
    intro id _
    cases a.arcs[id]? <;> simp [Option.filter]
  · rw [show a.nodes[n]? = none from Array.getElem?_eq_none (Nat.le_of_not_lt hn)]
    refine (List.filter_eq_nil_iff.2 fun arc h => ?_).symm
    have := wf.source_lt arc (Array.mem_toList_iff.1 h)
    simp only [decide_eq_true_eq]
    omega

/-! ## What is added -/

/-- A node as it is, or without arcs as long as it has not been made. -/
def node (a : Automaton) (n : Nat) : Node := a.nodes[n]?.getD {}

theorem node_of_le (h : a.nodeCount ≤ n) : a.node n = {} := by
  rw [node, Array.getElem?_eq_none h]
  rfl

theorem getElem?_nodes (h : n < a.nodeCount) : a.nodes[n]? = some (a.node n) := by
  rw [node, Array.getElem?_eq_getElem h]
  rfl

/-- An automaton is extended by some nodes and by the given arcs. These are listed at both their
ends in the order in which they are made, behind what is listed there. -/
structure Extends (a : Automaton) (count : Nat) (new : List Arc) (a' : Automaton) : Prop where
  nodeCount : a'.nodeCount = a.nodeCount + count
  arcs : a'.arcs.toList = a.arcs.toList ++ new
  outgoing : ∀ n, (a'.node n).outgoing =
    (a.node n).outgoing ++ numbersAt Arc.source n a.arcCount new
  incoming : ∀ n, (a'.node n).incoming =
    (a.node n).incoming ++ numbersAt Arc.target n a.arcCount new
  source_lt : ∀ arc ∈ new, arc.source < a'.nodeCount
  target_lt : ∀ arc ∈ new, arc.target < a'.nodeCount

theorem extends_self (a : Automaton) : Extends a 0 [] a where
  nodeCount := rfl
  arcs := (List.append_nil _).symm
  outgoing _ := (List.append_nil _).symm
  incoming _ := (List.append_nil _).symm
  source_lt _ h := absurd h List.not_mem_nil
  target_lt _ h := absurd h List.not_mem_nil

theorem arcCount_eq_of_append (h : a'.arcs.toList = a.arcs.toList ++ new) :
    a'.arcCount = a.arcCount + new.length := by
  rw [Automaton.arcCount, Automaton.arcCount, ← Array.length_toList, h, List.length_append,
    Array.length_toList]

theorem Extends.arcCount (h : Extends a count new a') :
    a'.arcCount = a.arcCount + new.length :=
  arcCount_eq_of_append h.arcs

theorem Extends.trans (h : Extends a count new a') (h' : Extends a' count' new' a'') :
    Extends a (count + count') (new ++ new') a'' where
  nodeCount := by rw [h'.nodeCount, h.nodeCount, Nat.add_assoc]
  arcs := by rw [h'.arcs, h.arcs, List.append_assoc]
  outgoing n := by
    rw [h'.outgoing, h.outgoing, h.arcCount, numbersAt_append, List.append_assoc]
  incoming n := by
    rw [h'.incoming, h.incoming, h.arcCount, numbersAt_append, List.append_assoc]
  source_lt := by
    have := h'.nodeCount
    apply List.forall_mem_append.2 ⟨fun arc harc => ?_, h'.source_lt⟩
    exact (h.source_lt arc harc).trans_le (by omega)
  target_lt := by
    have := h'.nodeCount
    apply List.forall_mem_append.2 ⟨fun arc harc => ?_, h'.target_lt⟩
    exact (h.target_lt arc harc).trans_le (by omega)

theorem node_addNode (a : Automaton) (n : Nat) : a.addNode.node n = a.node n := by
  simp only [node, addNode, Array.getElem?_push]
  split
  · next h => rw [Array.getElem?_eq_none h.ge]; rfl
  · rfl

theorem extends_addNode (a : Automaton) : Extends a 1 [] a.addNode where
  nodeCount := nodeCount_addNode a
  arcs := (List.append_nil _).symm
  outgoing n := by rw [node_addNode]; exact (List.append_nil _).symm
  incoming n := by rw [node_addNode]; exact (List.append_nil _).symm
  source_lt _ h := absurd h List.not_mem_nil
  target_lt _ h := absurd h List.not_mem_nil

theorem node_addArc {source target : Nat} (hs : source < a.nodeCount) (ht : target < a.nodeCount)
    (label : ArcLabel) (n : Nat) : (a.addArc source target label).node n =
      ⟨(a.node n).outgoing ++ if source = n then [a.arcCount] else [],
        (a.node n).incoming ++ if target = n then [a.arcCount] else []⟩ := by
  simp only [node, addArc, arcCount, Array.getElem?_modify]
  rcases Nat.lt_or_ge n a.nodeCount with lt | ge
  · rw [getElem?_nodes lt]
    by_cases h₁ : source = n <;> by_cases h₂ : target = n <;> simp [h₁, h₂]
  · rw [Array.getElem?_eq_none ge, if_neg (hs.trans_le ge).ne, if_neg (ht.trans_le ge).ne]
    simp [(hs.trans_le ge).ne, (ht.trans_le ge).ne]

theorem extends_addArc (source target : Nat) (hs : source < a.nodeCount)
    (ht : target < a.nodeCount) (label : ArcLabel) :
    Extends a 0 [⟨label, [], source, target⟩] (a.addArc source target label) where
  nodeCount := nodeCount_addArc a source target label
  arcs := Array.toList_push
  outgoing n := by rw [node_addArc hs ht, numbersAt_singleton]
  incoming n := by rw [node_addArc hs ht, numbersAt_singleton]
  source_lt arc h := by
    obtain rfl := List.mem_singleton.1 h
    rwa [nodeCount_addArc]
  target_lt arc h := by
    obtain rfl := List.mem_singleton.1 h
    rwa [nodeCount_addArc]

/-- Marking the new arcs leaves the others and all lists alone. -/
theorem Extends.markAction (h : Extends a count new a') (start stop action : Nat) :
    Extends a count (new.map (markArc start stop action))
      (a'.markAction a.arcCount start stop action) where
  nodeCount := h.nodeCount
  arcs := by
    ext1 id
    rw [Array.getElem?_toList, getElem?_markAction, ← Array.getElem?_toList, h.arcs]
    by_cases old : a.arcCount ≤ id
    · rw [List.getElem?_append_right old, List.getElem?_append_right old, List.getElem?_map]
      simp [old]
    · have lt := Nat.lt_of_not_le old
      rw [List.getElem?_append_left lt, List.getElem?_append_left lt]
      simp [old]
  outgoing n := by
    rw [numbersAt_map Arc.source (markArc start stop action) fun _ => rfl]
    exact h.outgoing n
  incoming n := by
    rw [numbersAt_map Arc.target (markArc start stop action) fun _ => rfl]
    exact h.incoming n
  source_lt arc harc := by
    obtain ⟨old, hold, rfl⟩ := List.mem_map.1 harc
    exact h.source_lt old hold
  target_lt arc harc := by
    obtain ⟨old, hold, rfl⟩ := List.mem_map.1 harc
    exact h.target_lt old hold

/-! ## Well-formed automata that grow -/

theorem WellFormed.node_eq (wf : a.WellFormed) (n : Nat) :
    a.node n = ⟨a.arcsAt Arc.source n, a.arcsAt Arc.target n⟩ := by
  rcases Nat.lt_or_ge n a.nodeCount with lt | ge
  · rw [node, wf.listed n lt]
    rfl
  · have none {endOf : Arc → Nat} (h : ∀ arc ∈ a.arcs, endOf arc < a.nodeCount) :
        a.arcsAt endOf n = [] := by
      rw [arcsAt_eq]
      apply numbersAt_eq_nil
      intro arc harc
      exact ((h arc (Array.mem_toList_iff.1 harc)).trans_le ge).ne
    rw [node_of_le ge, none wf.source_lt, none wf.target_lt]

theorem Extends.wellFormed (h : Extends a count new a') (wf : a.WellFormed) : a'.WellFormed where
  listed n lt := by
    have arcsAt (endOf : Arc → Nat) : a'.arcsAt endOf n =
        a.arcsAt endOf n ++ numbersAt endOf n a.arcCount new := by
      rw [arcsAt_eq, arcsAt_eq, h.arcs, numbersAt_append, Nat.zero_add, Array.length_toList]
      rfl
    have source := h.outgoing n
    have target := h.incoming n
    rw [wf.node_eq, ← arcsAt] at source target
    rw [getElem?_nodes lt, ← source, ← target]
  source_lt arc harc := by
    rw [← Array.mem_toList_iff, h.arcs, List.mem_append] at harc
    have := h.nodeCount
    rcases harc with harc | harc
    · exact (wf.source_lt arc (Array.mem_toList_iff.1 harc)).trans_le (by omega)
    · exact h.source_lt arc harc
  target_lt arc harc := by
    rw [← Array.mem_toList_iff, h.arcs, List.mem_append] at harc
    have := h.nodeCount
    rcases harc with harc | harc
    · exact (wf.target_lt arc (Array.mem_toList_iff.1 harc)).trans_le (by omega)
    · exact h.target_lt arc harc

structure Grows (a : Automaton) (count : Nat) (new : List Arc) (a' : Automaton) : Prop where
  wellFormed : a'.WellFormed
  nodeCount : a'.nodeCount = a.nodeCount + count
  arcs : a'.arcs.toList = a.arcs.toList ++ new

theorem Extends.grows (h : Extends a count new a') (wf : a.WellFormed) : Grows a count new a' :=
  ⟨h.wellFormed wf, h.nodeCount, h.arcs⟩

theorem Grows.arcCount (h : Grows a count new a') : a'.arcCount = a.arcCount + new.length :=
  arcCount_eq_of_append h.arcs

theorem Grows.trans (h : Grows a count new a') (h' : Grows a' count' new' a'') :
    Grows a (count + count') (new ++ new') a'' where
  wellFormed := h'.wellFormed
  nodeCount := by rw [h'.nodeCount, h.nodeCount, Nat.add_assoc]
  arcs := by rw [h'.arcs, h.arcs, List.append_assoc]

theorem WellFormed.grows_addNode (wf : a.WellFormed) : Grows a 1 [] a.addNode :=
  (extends_addNode a).grows wf

theorem WellFormed.addNode (wf : a.WellFormed) : a.addNode.WellFormed :=
  wf.grows_addNode.wellFormed

/-! ## Plans -/

/-- How many nodes a wiring makes, and its arcs, given the ends and the first new node. -/
structure Plan where
  size : Nat
  arcs (start stop fresh : Nat) : List Arc

/-- What a wiring adds to any automaton is laid out by the plan. -/
def Plan.Describes (plan : Plan) (wiring : Wiring) : Prop :=
  ∀ (a : Automaton) (start stop : Nat), start < a.nodeCount → stop < a.nodeCount →
    Extends a plan.size (plan.arcs start stop a.nodeCount) (wiring start stop a)

def Plan.Builds (plan : Plan) (wiring : Wiring) : Prop :=
  ∀ ⦃a : Automaton⦄, a.WellFormed → ∀ start stop : Nat, start < a.nodeCount → stop < a.nodeCount →
    Grows a plan.size (plan.arcs start stop a.nodeCount) (wiring start stop a)

namespace Plan

def single (label : ArcLabel) : Plan := ⟨0, fun start stop _ => [⟨label, [], start, stop⟩]⟩

def skip : Plan := single .epsilon

def nothing : Plan := ⟨0, fun _ _ _ => []⟩

/-- Two plans that share both ends. -/
def beside (p q : Plan) : Plan where
  size := p.size + q.size
  arcs start stop fresh := p.arcs start stop fresh ++ q.arcs start stop (fresh + p.size)

/-- Two plans in a row, which meet at a new node. -/
def before (p q : Plan) : Plan where
  size := 1 + p.size + q.size
  arcs start stop fresh :=
    p.arcs start fresh (fresh + 1) ++ q.arcs fresh stop (fresh + 1 + p.size)

def loop (p : Plan) : Plan where
  size := 2 + p.size
  arcs start stop entry :=
    ⟨.epsilon, [], start, entry⟩ :: p.arcs entry (entry + 1) (entry + 2) ++
      [⟨.epsilon, [], entry + 1, entry⟩, ⟨.epsilon, [], entry + 1, stop⟩]

def mark (action : Nat) (p : Plan) : Plan where
  size := p.size
  arcs start stop fresh := (p.arcs start stop fresh).map (markArc start stop action)

def chain : List Plan → Plan
  | [] => skip
  | [p] => p
  | p :: q :: ps => p.before (chain (q :: ps))

def branch : List Plan → Plan
  | [] => nothing
  | p :: ps => p.beside (branch ps)

end Plan

/-- The items that copies of a body come to, of which the first is number `copy`: those from number
`lower` on may be skipped. -/
def copies {α : Type} (must may : α) (lower : Nat) : Nat → Nat → List α
  | _, 0 => []
  | copy, more + 1 => (if lower ≤ copy then may else must) :: copies must may lower (copy + 1) more

mutual

def plan : BoundPattern → Plan
  | .leaf set => .single (.symbols set)
  | .sequence ps => .chain (plans ps)
  | .choice ps => .branch (plans ps)
  | .optional p => (plan p).beside .skip
  | .counted p lower upper => .chain (copies (plan p) ((plan p).beside .skip) lower 0 upper)
  | .oneOrMore p => (plan p).loop
  | .zeroOrMore p => (plan p).loop.beside .skip
  | .action i p => (plan p).mark i

def plans : List BoundPattern → List Plan
  | [] => []
  | p :: ps => plan p :: plans ps

end

namespace Plan

variable {p q : Plan} {wp wq : Wiring}

theorem describes_single (label : ArcLabel) :
    (single label).Describes fun start stop a => a.addArc start stop label :=
  fun _ start stop hs ht => extends_addArc start stop hs ht label

theorem describes_nothing : nothing.Describes fun _ _ a => a := fun a _ _ _ _ => extends_self a

theorem Describes.beside (hp : p.Describes wp) (hq : q.Describes wq) :
    (p.beside q).Describes fun start stop a => wq start stop (wp start stop a) := by
  intro a start stop hs ht
  have first := hp a start stop hs ht
  have count := first.nodeCount
  have both := first.trans (hq (wp start stop a) start stop (by omega) (by omega))
  rwa [count] at both

theorem Describes.before (hp : p.Describes wp) (hq : q.Describes wq) :
    (p.before q).Describes fun start stop a =>
      wq a.nodeCount stop (wp start a.nodeCount a.addNode) := by
  intro a start stop hs ht
  have count := nodeCount_addNode a
  have first := hp a.addNode start a.nodeCount (by omega) (by omega)
  have count' := first.nodeCount
  have last := hq (wp start a.nodeCount a.addNode) a.nodeCount stop (by omega) (by omega)
  have all := ((extends_addNode a).trans first).trans last
  rwa [count', count] at all

theorem Describes.loop (hp : p.Describes wp) : p.loop.Describes (wireLoop wp false) := by
  intro a start stop hs ht
  have nodes := (extends_addNode a).trans (extends_addNode a.addNode)
  have h₁ := nodes.nodeCount
  have enter := nodes.trans (extends_addArc start a.nodeCount (by omega) (by omega) .epsilon)
  have h₂ := enter.nodeCount
  have body := enter.trans (hp _ a.nodeCount (a.nodeCount + 1) (by omega) (by omega))
  have h₃ := body.nodeCount
  have again := body.trans (extends_addArc (a.nodeCount + 1) a.nodeCount (by omega) (by omega)
    .epsilon)
  have h₄ := again.nodeCount
  have leave := again.trans (extends_addArc (a.nodeCount + 1) stop (by omega) (by omega) .epsilon)
  rw [h₂] at leave
  simpa [Plan.loop, wireLoop] using leave

theorem wireLoop_true (wp : Wiring) : wireLoop wp true = fun start stop a =>
    (wireLoop wp false start stop a).addArc start stop .epsilon := rfl

theorem Describes.mark (hp : p.Describes wp) (i : Nat) : (p.mark i).Describes fun start stop a =>
    (wp start stop a).markAction a.arcCount start stop i :=
  fun a start stop hs ht => (hp a start stop hs ht).markAction start stop i

theorem describes_wireCopies (hp : p.Describes wp) (lower copy more : Nat) :
    (chain (copies p (p.beside skip) lower copy (more + 1))).Describes
      (wireCopies wp lower copy (more + 1)) := by
  have item (copy : Nat) : (if lower ≤ copy then p.beside skip else p).Describes
      fun start stop a => if lower ≤ copy then (wp start stop a).addArc start stop .epsilon
        else wp start stop a := by
    split
    · exact hp.beside (describes_single .epsilon)
    · exact hp
  induction more generalizing copy with
  | zero => exact item copy
  | succ more ih => exact (item copy).before (ih (copy + 1))

mutual

/-- What wiring a pattern adds is laid out by the plan of the pattern. -/
theorem describes_wire : ∀ p : BoundPattern, (plan p).Describes (wire p)
  | .leaf set => describes_single (.symbols set)
  | .sequence ps => describes_wireSequence ps
  | .choice ps => describes_wireChoice ps
  | .optional p => (describes_wire p).beside (describes_single .epsilon)
  | .counted p lower upper => by
    unfold plan wire
    cases upper with
    | zero => exact describes_single .epsilon
    | succ upper => exact describes_wireCopies (describes_wire p) lower 0 upper
  | .oneOrMore p => (describes_wire p).loop
  | .zeroOrMore p => by
    rw [plan, wire, wireLoop_true]
    exact (describes_wire p).loop.beside (describes_single .epsilon)
  | .action i p => (describes_wire p).mark i

theorem describes_wireSequence : ∀ ps : List BoundPattern,
    (chain (plans ps)).Describes (wireSequence ps)
  | [] => describes_single .epsilon
  | [p] => describes_wire p
  | p :: q :: ps => (describes_wire p).before (describes_wireSequence (q :: ps))

theorem describes_wireChoice : ∀ ps : List BoundPattern,
    (branch (plans ps)).Describes (wireChoice ps)
  | [] => describes_nothing
  | p :: ps => (describes_wire p).beside (describes_wireChoice ps)

end

theorem builds_wire (p : BoundPattern) : (plan p).Builds (wire p) :=
  fun a wf start stop hs ht => (describes_wire p a start stop hs ht).grows wf

end Plan

end SymbolRegex.Automaton
