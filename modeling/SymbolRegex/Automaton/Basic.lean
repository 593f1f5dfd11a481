import SymbolRegex.Alphabet.OrdinalSet

/-! # Automata

Nodes and arcs live in two arrays that only grow; a node lists its arcs in the
order in which they were made, which is their order of priority. An arc consumes
one symbol out of a set or nothing at all, and carries the markers of the actions
that taking it enters or leaves.
-/

namespace SymbolRegex

/-- So many numbers, from zero on, are each kept as they are in 32 bits, and so kept apart. -/
structure Numbered32 (count : Nat) : Prop where
  exact : ∀ n < count, (UInt32.ofNat n).toNat = n
  distinct : ∀ m < count, ∀ n < count, UInt32.ofNat m = UInt32.ofNat n → m = n

/-- The first number that does not fit is kept as zero. -/
theorem numbered32_iff {count : Nat} : Numbered32 count ↔ count ≤ UInt32.size := by
  constructor
  · refine fun h => Nat.le_of_not_lt fun lt => ?_
    have zero := h.distinct UInt32.size (by omega) 0 (by omega) (by decide)
    cases zero
  · intro le
    have exact (n : Nat) (h : n < count) : (UInt32.ofNat n).toNat = n :=
      UInt32.toNat_ofNat_of_lt' (Nat.lt_of_lt_of_le h le)
    refine ⟨exact, fun m hm n hn same => ?_⟩
    rw [← exact m hm, ← exact n hn, same]

/-- The number of a node. It is what 32 bits keep of it as long as the nodes are `Numbered32`. -/
abbrev NodeId := Nat

/-- The number of an arc. It is what 32 bits keep of it as long as the arcs are `Numbered32`. -/
abbrev ArcId := Nat

inductive ArcLabel where
  | epsilon
  | symbols (set : OrdinalSet)
deriving DecidableEq, Repr

/-- Taking the arc enters the part of an action, or leaves it. -/
structure Marker where
  entering : Bool
  action : Nat
deriving DecidableEq, Repr

structure Arc where
  label : ArcLabel
  markers : List Marker := []
  source : Nat
  target : Nat
deriving DecidableEq, Repr

/-- The arcs at a node, in the order in which they were made. -/
structure Node where
  outgoing : List ArcId := []
  incoming : List ArcId := []
deriving DecidableEq, Repr

structure Automaton where
  nodes : Array Node := #[]
  arcs : Array Arc := #[]
deriving DecidableEq, Repr

namespace Automaton

def nodeCount (a : Automaton) : Nat := a.nodes.size

def arcCount (a : Automaton) : Nat := a.arcs.size

/-- Make a node; the new node is the one numbered `a.nodeCount`. -/
def addNode (a : Automaton) : Automaton := { a with nodes := a.nodes.push {} }

/-- Make an arc and list it at both its ends. -/
def addArc (a : Automaton) (source target : NodeId) (label : ArcLabel) : Automaton :=
  let id := a.arcs.size
  let nodes := a.nodes.modify source fun n => { n with outgoing := n.outgoing ++ [id] }
  { nodes := nodes.modify target fun n => { n with incoming := n.incoming ++ [id] }
    arcs := a.arcs.push { label, source, target } }

/-- The arcs that leave a node, in order of priority. -/
def outgoing (a : Automaton) (n : NodeId) : List Arc :=
  match a.nodes[n]? with
  | none => []
  | some node => node.outgoing.filterMap (a.arcs[·]?)

def actionMarkers (start stop : NodeId) (action : Nat) (arc : Arc) : List Marker :=
  (if arc.source = start then [⟨true, action⟩] else []) ++
    (if arc.target = stop then [⟨false, action⟩] else [])

def markArc (start stop : NodeId) (action : Nat) (arc : Arc) : Arc :=
  { arc with markers := arc.markers ++ actionMarkers start stop action arc }

def modifyArcs (change : Arc → Arc) (ids : List ArcId) (arcs : Array Arc) : Array Arc :=
  ids.foldl (fun arcs id => arcs.modify id change) arcs

/-- Mark the arcs from number `first` on that leave `start` or reach `stop`. -/
def markAction (a : Automaton) (first : ArcId) (start stop : NodeId) (action : Nat) : Automaton :=
  let ids := List.range' first (a.arcs.size - first)
  { a with arcs := modifyArcs (markArc start stop action) ids a.arcs }

@[simp] theorem size_modifyArcs (change : Arc → Arc) (ids : List ArcId) (arcs : Array Arc) :
    (modifyArcs change ids arcs).size = arcs.size := by
  induction ids generalizing arcs with
  | nil => rfl
  | cons i rest ih => exact (ih _).trans Array.size_modify

theorem getElem?_modifyArcs (change : Arc → Arc) {ids : List ArcId} (nodup : ids.Nodup)
    (arcs : Array Arc) (id : ArcId) : (modifyArcs change ids arcs)[id]? =
      arcs[id]?.map fun arc => if id ∈ ids then change arc else arc := by
  induction ids generalizing arcs with
  | nil => simp [modifyArcs]
  | cons i rest ih =>
    obtain ⟨fresh, nodup⟩ := List.nodup_cons.1 nodup
    refine (ih nodup _).trans ?_
    rw [Array.getElem?_modify]
    by_cases e : i = id
    · subst e; simp [fresh, Function.comp_def]
    · simp [e, Ne.symm e]

theorem getElem?_markAction (a : Automaton) (start stop : NodeId) (action first id : Nat) :
    (a.markAction first start stop action).arcs[id]? =
      a.arcs[id]?.map fun arc => if first ≤ id then markArc start stop action arc else arc := by
  simp only [markAction, getElem?_modifyArcs _ List.nodup_range']
  by_cases h : id < a.arcs.size
  · have e : id ∈ List.range' first (a.arcs.size - first) ↔ first ≤ id := by
      rw [List.mem_range'_1]; omega
    simp only [e]
  · simp [Array.getElem?_eq_none (Nat.le_of_not_lt h)]

@[simp] theorem nodeCount_addNode (a : Automaton) : a.addNode.nodeCount = a.nodeCount + 1 := by
  simp [nodeCount, addNode]

@[simp] theorem nodeCount_addArc (a : Automaton) (source target : NodeId) (label : ArcLabel) :
    (a.addArc source target label).nodeCount = a.nodeCount := by
  simp [nodeCount, addArc]

end Automaton

def writeNode (n : NodeId) : String := s!"n{n}"

def Marker.write (m : Marker) : String := (if m.entering then "+" else "-") ++ toString m.action

def ArcLabel.write : ArcLabel → String
  | epsilon => "eps"
  | symbols set => set.writeRuns

def Arc.write (arc : Arc) : String :=
  writeNode arc.source ++ " -> " ++ writeNode arc.target ++ " " ++ arc.label.write ++
    String.join (arc.markers.map (" " ++ ·.write)) ++ "\n"

def Automaton.write (a : Automaton) : String := String.join (a.arcs.toList.map Arc.write)

end SymbolRegex
