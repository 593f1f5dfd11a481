import Mathlib.Algebra.Order.BigOperators.Group.List
import Mathlib.Tactic.Ring
import SymbolRegex.Proofs.Compiling
import SymbolRegex.Proofs.Matching
import SymbolRegex.Proofs.Registering
import SymbolRegex.Proofs.RoundTrip

/-! # The size of automata

How many nodes and arcs a pattern is wired with can be read off the pattern: a
counted repetition takes its body as many times as its upper bound, and all else
adds up. A count is limited but the nesting of counts is not, so the numbers of
nodes and arcs fit into 32 bits for patterns of little nesting only.
-/

namespace SymbolRegex

open Automaton

namespace Pattern

variable {α : Type}

mutual

def nodesMade : Pattern α → Nat
  | leaf _ => 0
  | sequence ps => (ps.length - 1) + allNodesMade ps
  | choice ps => allNodesMade ps
  | optional p => nodesMade p
  | counted p _ upper => (upper - 1) + upper * nodesMade p
  | oneOrMore p => 2 + nodesMade p
  | zeroOrMore p => 2 + nodesMade p
  | action _ p => nodesMade p

def allNodesMade : List (Pattern α) → Nat
  | [] => 0
  | p :: ps => nodesMade p + allNodesMade ps

end

mutual

def arcsMade : Pattern α → Nat
  | leaf _ => 1
  | sequence ps => if ps.isEmpty then 1 else allArcsMade ps
  | choice ps => allArcsMade ps
  | optional p => arcsMade p + 1
  | counted p lower upper => if upper = 0 then 1 else upper * arcsMade p + (upper - lower)
  | oneOrMore p => arcsMade p + 3
  | zeroOrMore p => arcsMade p + 4
  | action _ p => arcsMade p

def allArcsMade : List (Pattern α) → Nat
  | [] => 0
  | p :: ps => arcsMade p + allArcsMade ps

end

end Pattern

/-! ## Counting what plans make -/

namespace Automaton.Plan

variable {p q : Plan} {nodes arcs nodes' arcs' : Nat}

/-- Wherever it is laid out, a plan makes the given numbers of nodes and arcs. -/
structure Makes (p : Plan) (nodes arcs : Nat) : Prop where
  size : p.size = nodes
  length : ∀ start stop fresh, (p.arcs start stop fresh).length = arcs

theorem makes_single (label : ArcLabel) : (single label).Makes 0 1 := ⟨rfl, fun _ _ _ => rfl⟩

theorem makes_nothing : nothing.Makes 0 0 := ⟨rfl, fun _ _ _ => rfl⟩

theorem Makes.beside (hp : p.Makes nodes arcs) (hq : q.Makes nodes' arcs') :
    (p.beside q).Makes (nodes + nodes') (arcs + arcs') where
  size := by rw [Plan.beside, hp.size, hq.size]
  length start stop fresh := by rw [Plan.beside, List.length_append, hp.length, hq.length]

theorem Makes.orSkip (hp : p.Makes nodes arcs) : (p.beside skip).Makes nodes (arcs + 1) :=
  hp.beside (makes_single .epsilon)

theorem Makes.before (hp : p.Makes nodes arcs) (hq : q.Makes nodes' arcs') :
    (p.before q).Makes (1 + nodes + nodes') (arcs + arcs') where
  size := by rw [Plan.before, hp.size, hq.size]
  length start stop fresh := by rw [Plan.before, List.length_append, hp.length, hq.length]

theorem Makes.loop (hp : p.Makes nodes arcs) : p.loop.Makes (2 + nodes) (arcs + 3) where
  size := by rw [Plan.loop, hp.size]
  length start stop fresh := by simp [Plan.loop, hp.length]

theorem Makes.mark (hp : p.Makes nodes arcs) (i : Nat) : (p.mark i).Makes nodes arcs where
  size := hp.size
  length start stop fresh := by rw [Plan.mark, List.length_map, hp.length]

theorem Makes.copies (hp : p.Makes nodes arcs) (lower copy more : Nat) :
    (chain (copies p (p.beside skip) lower copy (more + 1))).Makes (more + (more + 1) * nodes)
      ((more + 1) * arcs + (copy + (more + 1) - max lower copy)) := by
  have item (copy : Nat) : (if lower ≤ copy then p.beside skip else p).Makes nodes
      (arcs + (copy + 1 - max lower copy)) := by
    split
    · next le =>
      rw [Nat.max_eq_right le, Nat.add_sub_cancel_left]
      exact hp.orSkip
    · next lt =>
      rw [Nat.max_eq_left (by omega), Nat.sub_eq_zero_of_le (by omega)]
      exact hp
  induction more generalizing copy with
  | zero => simpa [Automaton.copies, chain] using item copy
  | succ more ih =>
    have row := (item copy).before (ih (copy + 1))
    -- the skips of the first copy and of the copies behind it
    have skips : (copy + 1 - max lower copy) + (copy + 1 + (more + 1) - max lower (copy + 1)) =
        copy + (more + 1 + 1) - max lower copy := by omega
    refine ⟨row.size.trans ?_, fun start stop fresh => (row.length start stop fresh).trans ?_⟩
    · ring
    · rw [← skips]
      ring

end Automaton.Plan

namespace Pattern

variable {α ε : Type} {f : α → Except ε OrdinalSet}

mutual

/-- A pattern makes what it is counted to make, whatever its leaves are bound to. -/
theorem makes_plan : ∀ (p : Pattern α) {b : BoundPattern}, p.mapLeaves f = .ok b →
    (plan b).Makes p.nodesMade p.arcsMade
  | .leaf _, _, h => by
    obtain ⟨set, -, rfl⟩ := map_eq_ok_iff.1 h
    exact Plan.makes_single (.symbols set)
  | .sequence ps, _, h => by
    obtain ⟨bs, hbs, rfl⟩ := map_eq_ok_iff.1 h
    exact makes_chain ps hbs
  | .choice ps, _, h => by
    obtain ⟨bs, hbs, rfl⟩ := map_eq_ok_iff.1 h
    exact makes_branch ps hbs
  | .optional p, _, h => by
    obtain ⟨b, hb, rfl⟩ := map_eq_ok_iff.1 h
    exact (makes_plan p hb).orSkip
  | .counted p lower upper, _, h => by
    obtain ⟨b, hb, rfl⟩ := map_eq_ok_iff.1 h
    cases upper with
    | zero =>
      rw [nodesMade, arcsMade, Nat.zero_mul, if_pos rfl]
      exact Plan.makes_single .epsilon
    | succ more =>
      have row := (makes_plan p hb).copies lower 0 more
      rw [Nat.zero_add, Nat.max_zero] at row
      exact row
  | .oneOrMore p, _, h => by
    obtain ⟨b, hb, rfl⟩ := map_eq_ok_iff.1 h
    exact (makes_plan p hb).loop
  | .zeroOrMore p, _, h => by
    obtain ⟨b, hb, rfl⟩ := map_eq_ok_iff.1 h
    exact (makes_plan p hb).loop.orSkip
  | .action i p, _, h => by
    obtain ⟨b, hb, rfl⟩ := map_eq_ok_iff.1 h
    exact (makes_plan p hb).mark i

theorem makes_chain : ∀ (ps : List (Pattern α)) {bs : List BoundPattern},
    mapAllLeaves f ps = .ok bs →
    (Plan.chain (plans bs)).Makes (sequence ps).nodesMade (sequence ps).arcsMade
  | [], _, h => by
    obtain rfl := Except.ok.inj h
    exact Plan.makes_single .epsilon
  | [p], _, h => by
    obtain ⟨b, hb, h⟩ := bind_eq_ok_iff.1 h
    obtain rfl := Except.ok.inj h
    simpa [nodesMade, allNodesMade, arcsMade, allArcsMade, plans, Plan.chain] using makes_plan p hb
  | p :: q :: ps, _, h => by
    obtain ⟨b, hb, h⟩ := bind_eq_ok_iff.1 h
    obtain ⟨bs, hbs, h⟩ := bind_eq_ok_iff.1 h
    obtain rfl := Except.ok.inj h
    have rest := makes_chain (q :: ps) hbs
    obtain ⟨c, hc, hbs⟩ := bind_eq_ok_iff.1 hbs
    obtain ⟨cs, hcs, hbs⟩ := bind_eq_ok_iff.1 hbs
    obtain rfl := Except.ok.inj hbs
    have row := (makes_plan p hb).before rest
    refine ⟨row.size.trans ?_, fun start stop fresh => (row.length start stop fresh).trans ?_⟩
    · simp only [nodesMade, allNodesMade, List.length_cons]
      omega
    · simp [arcsMade, allArcsMade]

theorem makes_branch : ∀ (ps : List (Pattern α)) {bs : List BoundPattern},
    mapAllLeaves f ps = .ok bs →
    (Plan.branch (plans bs)).Makes (allNodesMade ps) (allArcsMade ps)
  | [], _, h => by
    obtain rfl := Except.ok.inj h
    exact Plan.makes_nothing
  | p :: ps, _, h => by
    obtain ⟨b, hb, h⟩ := bind_eq_ok_iff.1 h
    obtain ⟨bs, hbs, h⟩ := bind_eq_ok_iff.1 h
    obtain rfl := Except.ok.inj h
    exact (makes_plan p hb).beside (makes_branch ps hbs)

end

end Pattern

/-! ## Counting what programs hold -/

/-- How many nodes patterns are wired with, the ends of each among them. -/
def nodesWired (ps : List TextPattern) : Nat := (ps.map fun p => p.nodesMade + 2).sum

def arcsWired (ps : List TextPattern) : Nat := (ps.map (·.arcsMade)).sum

theorem nodesWired_cons (p : TextPattern) (ps : List TextPattern) :
    nodesWired (p :: ps) = (p.nodesMade + 2) + nodesWired ps := rfl

theorem arcsWired_cons (p : TextPattern) (ps : List TextPattern) :
    arcsWired (p :: ps) = p.arcsMade + arcsWired ps := rfl

theorem Program.counts_add {program : Program} (wf : program.automaton.WellFormed)
    {a : Alphabet} {p : TextPattern} {b : BoundPattern} (h : a.bindPattern p = .ok b) :
    (program.add b).automaton.nodeCount = program.automaton.nodeCount + (p.nodesMade + 2) ∧
      (program.add b).automaton.arcCount = program.automaton.arcCount + p.arcsMade := by
  have made := p.makes_plan h
  have grown := grows_add wf b
  rw [grown.nodeCount, grown.arcCount, made.size, made.length, Nat.add_comm 2]
  exact ⟨rfl, rfl⟩

theorem Program.counts_ofPatterns {a : Alphabet} {ps : List TextPattern}
    {bounds : List BoundPattern}
    (h : List.Forall₂ (fun p b => a.bindPattern p = .ok b) ps bounds) :
    (ofPatterns bounds).automaton.nodeCount = nodesWired ps ∧
      (ofPatterns bounds).automaton.arcCount = arcsWired ps := by
  suffices counts : ∀ program : Program, program.automaton.WellFormed →
      (bounds.foldl add program).automaton.nodeCount =
        program.automaton.nodeCount + nodesWired ps ∧
      (bounds.foldl add program).automaton.arcCount =
        program.automaton.arcCount + arcsWired ps by
    obtain ⟨nodes, arcs⟩ := counts {} wellFormed_empty
    exact ⟨nodes.trans (Nat.zero_add _), arcs.trans (Nat.zero_add _)⟩
  induction h with
  | nil => exact fun _ _ => ⟨rfl, rfl⟩
  | @cons p b ps bounds hb _ ih =>
    intro program wf
    obtain ⟨nodes, arcs⟩ := ih (program.add b) (grows_add wf b).wellFormed
    obtain ⟨nodes', arcs'⟩ := counts_add wf hb
    rw [List.foldl_cons, nodes, arcs, nodes', arcs', nodesWired_cons, arcsWired_cons]
    exact ⟨Nat.add_assoc .., Nat.add_assoc ..⟩

theorem Engine.Compiled.counts {e : Engine} {bounds : List BoundPattern} (h : Compiled e bounds) :
    e.program.automaton.nodeCount = nodesWired e.patterns ∧
      e.program.automaton.arcCount = arcsWired e.patterns := by
  rw [h.program_eq]
  exact Program.counts_ofPatterns (forall₂_of_bindAll h.bound)

/-! ## Patterns of limited counts -/

namespace Pattern

variable {α : Type}

mutual

def size : Pattern α → Nat
  | leaf _ => 1
  | sequence ps => allSizes ps + 1
  | choice ps => allSizes ps + 1
  | optional p => size p + 1
  | counted p _ _ => size p + 1
  | oneOrMore p => size p + 1
  | zeroOrMore p => size p + 1
  | action _ p => size p + 1

def allSizes : List (Pattern α) → Nat
  | [] => 0
  | p :: ps => size p + allSizes ps

end

mutual

/-- How deep counted repetitions stand inside each other. -/
def nesting : Pattern α → Nat
  | leaf _ => 0
  | sequence ps => maxNesting ps
  | choice ps => maxNesting ps
  | optional p => nesting p
  | counted p _ _ => nesting p + 1
  | oneOrMore p => nesting p
  | zeroOrMore p => nesting p
  | action _ p => nesting p

def maxNesting : List (Pattern α) → Nat
  | [] => 0
  | p :: ps => max (nesting p) (maxNesting ps)

end

inductive Limited : Pattern α → Prop where

  | leaf {l : α} : Limited (leaf l)

  | sequence {ps : List (Pattern α)} : (∀ p ∈ ps, Limited p) → Limited (sequence ps)

  | choice {ps : List (Pattern α)} : (∀ p ∈ ps, Limited p) → Limited (choice ps)

  | optional {p : Pattern α} : Limited p → Limited (optional p)

  | counted {p : Pattern α} {lower upper : Nat} : upper ≤ maxCount → Limited p →
      Limited (counted p lower upper)

  | oneOrMore {p : Pattern α} : Limited p → Limited (oneOrMore p)

  | zeroOrMore {p : Pattern α} : Limited p → Limited (zeroOrMore p)

  | action {i : Nat} {p : Pattern α} : Limited p → Limited (action i p)

theorem limited_ofSequence {ps : List (Pattern α)} (h : ∀ p ∈ ps, p.Limited) :
    (ofSequence ps).Limited := by
  unfold ofSequence
  split
  · exact h _ (List.mem_singleton_self _)
  · exact .sequence h

theorem limited_ofChoice {ps : List (Pattern α)} (h : ∀ p ∈ ps, p.Limited) :
    (ofChoice ps).Limited := by
  unfold ofChoice
  split
  · exact h _ (List.mem_singleton_self _)
  · exact .choice h

theorem nesting_le_maxNesting {p : Pattern α} {ps : List (Pattern α)} (h : p ∈ ps) :
    p.nesting ≤ maxNesting ps := by
  induction ps with
  | nil => cases h
  | cons q ps ih =>
    rw [maxNesting]
    rcases List.mem_cons.1 h with rfl | h
    · exact Nat.le_max_left _ _
    · exact (ih h).trans (Nat.le_max_right _ _)

/-- A pattern is wired with so many nodes at most, its ends among them, and so many arcs. -/
structure Within (p : Pattern α) (bound : Nat) : Prop where
  nodes : p.nodesMade + 2 ≤ bound
  arcs : p.arcsMade ≤ bound

theorem all_within {ps : List (Pattern α)} {c : Nat}
    (h : ∀ p ∈ ps, p.Within (4 * (p.size * c))) :
    allNodesMade ps + 2 * ps.length ≤ 4 * (allSizes ps * c) ∧
      allArcsMade ps ≤ 4 * (allSizes ps * c) := by
  induction ps with
  | nil => simp [allNodesMade, allArcsMade]
  | cons p ps ih =>
    rw [List.forall_mem_cons] at h
    obtain ⟨nodes, arcs⟩ := h.1
    obtain ⟨nodes', arcs'⟩ := ih h.2
    rw [allNodesMade, allArcsMade, allSizes, List.length_cons, Nat.add_mul]
    omega

theorem Within.operator {p q : Pattern α} {c : Nat} (h : p.Within (4 * (p.size * c)))
    (hc : 0 < c) (size : q.size = p.size + 1) (nodes : q.nodesMade ≤ p.nodesMade + 2)
    (arcs : q.arcsMade ≤ p.arcsMade + 4) : q.Within (4 * (q.size * c)) := by
  have := h.nodes
  have := h.arcs
  rw [size, Nat.add_mul]
  constructor <;> omega

/-- Each level of nesting multiplies the size of a pattern by the highest count. -/
theorem Limited.within {p : Pattern α} (h : p.Limited) {depth : Nat} (hd : p.nesting ≤ depth) :
    p.Within (4 * (p.size * maxCount ^ depth)) := by
  have pos (depth : Nat) : 0 < maxCount ^ depth := Nat.pow_pos (by decide)
  induction h generalizing depth with
  | leaf =>
    have := pos depth
    rw [size, Nat.one_mul]
    constructor
    · rw [nodesMade]
      omega
    · rw [arcsMade]
      omega
  | sequence _ ih =>
    have := pos depth
    obtain ⟨nodes, arcs⟩ := all_within fun p hp => ih p hp ((nesting_le_maxNesting hp).trans hd)
    rw [size, Nat.add_mul]
    constructor
    · rw [nodesMade]
      omega
    · rw [arcsMade]
      split <;> omega
  | choice _ ih =>
    have := pos depth
    obtain ⟨nodes, arcs⟩ := all_within fun p hp => ih p hp ((nesting_le_maxNesting hp).trans hd)
    rw [size, Nat.add_mul]
    constructor
    · rw [nodesMade]
      omega
    · rw [arcsMade]
      omega
  | @counted p lower upper limited _ ih =>
    cases depth with
    | zero => cases hd
    | succ depth =>
      have := pos depth
      have body := ih (Nat.le_of_succ_le_succ hd)
      have nodes : upper * (p.nodesMade + 2) ≤ _ := Nat.mul_le_mul limited body.nodes
      have arcs : upper * p.arcsMade ≤ _ := Nat.mul_le_mul limited body.arcs
      have bound : 4 * ((p.size + 1) * maxCount ^ (depth + 1)) =
          maxCount * (4 * (p.size * maxCount ^ depth)) + maxCount * (4 * maxCount ^ depth) := by
        ring
      have room : maxCount ≤ maxCount * (4 * maxCount ^ depth) :=
        Nat.le_mul_of_pos_right _ (by omega)
      have two : 2 ≤ maxCount := by decide
      rw [size, bound]
      -- the ends of a body outnumber the nodes between its copies, and the room covers the skips
      constructor
      · rw [nodesMade]
        rw [Nat.mul_add] at nodes
        omega
      · rw [arcsMade]
        split <;> omega
  | optional _ ih => exact (ih hd).operator (pos _) rfl (Nat.le_add_right _ _) (Nat.le_add_right _ 3)
  | oneOrMore _ ih =>
    exact (ih hd).operator (pos _) rfl (Nat.add_comm _ _).le (Nat.le_add_right _ 1)
  | zeroOrMore _ ih => exact (ih hd).operator (pos _) rfl (Nat.add_comm _ _).le le_rfl
  | action _ ih => exact (ih hd).operator (pos _) rfl (Nat.le_add_right _ _) (Nat.le_add_right _ _)

end Pattern

/-- Some source is read as the pattern. -/
def TextPattern.IsRead (p : TextPattern) : Prop :=
  ∃ mode sets source names, (readPattern mode sets source).output? = some ⟨p, names⟩

namespace Phrase

open Pattern

variable {mode : Mode} {sets : SetTable}

theorem Repetition.limited {q : Repetition} {p : TextPattern} (h : p.Limited) :
    (q.pattern p).Limited := by
  cases q with
  | plus => exact .oneOrMore h
  | star => exact .zeroOrMore h
  | question => exact .optional h
  | exactly _ _ _ valid | between _ _ _ _ _ valid => exact .counted valid.limited h

mutual

theorem Choice.limited : ∀ (c : Choice mode sets) (n : Nat), ∀ p ∈ c.branches n, p.Limited
  | .single s, n => by
    rw [Choice.branches, List.forall_mem_singleton]
    exact limited_ofSequence (s.limited n)
  | .more s bar rest, n => by
    rw [Choice.branches, List.forall_mem_cons]
    exact ⟨limited_ofSequence (s.limited n), rest.limited _⟩

theorem Sequence.limited : ∀ (s : Sequence mode sets) (n : Nat), ∀ p ∈ s.items n, p.Limited
  | .single t, n => by
    rw [Sequence.items, List.forall_mem_singleton]
    exact t.limited n
  | .more t rest, n => by
    rw [Sequence.items, List.forall_mem_cons]
    exact ⟨t.limited n, rest.limited _⟩

theorem Term.limited : ∀ (t : Term mode sets) (n : Nat), (t.pattern n).Limited
  | .mk label? a repetition?, n => by
    have body (n : Nat) :
        (repetition?.elim (a.pattern n) (Repetition.pattern (a.pattern n))).Limited := by
      cases repetition? with
      | none => exact a.limited n
      | some q => exact q.limited (a.limited n)
    cases label? with
    | none => exact body n
    | some l => exact .action (body (n + 1))

theorem Atom.limited : ∀ (a : Atom mode sets) (n : Nat), (a.pattern n).Limited
  | .group _ c _, n => limited_ofChoice (c.limited n)
  | .string _ _, _ => by
    refine limited_ofSequence ?_
    rw [List.forall_mem_map]
    exact fun _ _ => .leaf
  | .symbol _, _ | .set _, _ | .any _, _ | .charClass _ _, _ => .leaf

end

end Phrase

/-- Every count of a pattern that was read is one that may be written. -/
theorem TextPattern.IsRead.limited {p : TextPattern} (h : p.IsRead) : p.Limited := by
  obtain ⟨mode, sets, source, names, h⟩ := h
  rw [readPattern, Reading.output?_eq_some_iff] at h
  obtain ⟨c, -, hc⟩ := (Parser.whole_eq_ok_iff rfl).1 h
  have hp : p = Pattern.ofChoice (c.branches 0) := congrArg Parser.Output.pattern hc
  rw [hp]
  exact Pattern.limited_ofChoice (c.limited 0)

/-- A bound on the nodes and the arcs of patterns, from their sizes and nesting. -/
def wiringBound (ps : List TextPattern) : Nat :=
  (ps.map fun p => 4 * (p.size * Pattern.maxCount ^ p.nesting)).sum

theorem wired_le {ps : List TextPattern} (h : ∀ p ∈ ps, p.Limited) :
    nodesWired ps ≤ wiringBound ps ∧ arcsWired ps ≤ wiringBound ps :=
  ⟨List.sum_le_sum fun p hp => ((h p hp).within le_rfl).nodes,
    List.sum_le_sum fun p hp => ((h p hp).within le_rfl).arcs⟩

/-! ## Repetitions inside each other -/

/-- Any symbol, counted ten times over and over. -/
def tens : Nat → TextPattern
  | 0 => .leaf .any
  | n + 1 => .counted (tens n) 10 10

theorem nodesMade_tens (n : Nat) : (tens n).nodesMade + 1 = 10 ^ n := by
  induction n with
  | zero => rfl
  | succ n ih =>
    rw [tens, Pattern.nodesMade, Nat.pow_succ, ← ih]
    omega

theorem arcsMade_tens (n : Nat) : (tens n).arcsMade = 10 ^ n := by
  induction n with
  | zero => rfl
  | succ n ih =>
    rw [tens, Pattern.arcsMade, if_neg (by decide), ih, Nat.pow_succ]
    omega

theorem writable_tens (n : Nat) : (tens n).Writable := by
  induction n with
  | zero => exact .leaf trivial
  | succ n ih => exact .counted ⟨le_rfl, by decide, by decide⟩ ih

theorem leaves_tens (n : Nat) : (tens n).leaves = [.any] := by
  induction n with
  | zero => rfl
  | succ n ih => exact ih

theorem actions_tens (n : Nat) : (tens n).actions = [] := by
  induction n with
  | zero => rfl
  | succ n ih => exact ih

theorem flatten_tens (n : Nat) : (tens n).flatten = tens n := by
  induction n with
  | zero => rfl
  | succ n ih => rw [tens, Pattern.flatten, ih]

theorem readPattern_tens (n : Nat) :
    readPattern .symbol {} (tens n).write = ⟨[], some ⟨tens n, []⟩⟩ := by
  have h := readPattern_of_writable (writable_tens n) (by rw [actions_tens]; rfl)
  rwa [flatten_tens, actions_tens] at h

namespace Engine

theorem patterns_after_tens (n : Nat) : (after [.add (tens n)]).patterns = [tens n] := by
  simp [after, perform, add, setUp_eq, registerAll, TextPattern.symbols, leaves_tens, Leaf.symbols]

theorem isBound_after_tens (n : Nat) : (after [.add (tens n), .bind]).isBound = true := by
  refine (isBound_after_bind_iff [.add (tens n)]).2 ?_
  rw [patterns_after_tens, List.forall_mem_singleton, TextPattern.ranges, leaves_tens]
  exact fun r hr => absurd hr List.not_mem_nil

theorem patterns_after_bind_tens (n : Nat) :
    (after [.add (tens n), .bind]).patterns = [tens n] :=
  (kept_after_bind [.add (tens n)]).2.trans (patterns_after_tens n)

theorem counts_after_tens (n : Nat) :
    (after [.add (tens n), .bind]).program.automaton.nodeCount = 10 ^ n + 1 ∧
      (after [.add (tens n), .bind]).program.automaton.arcCount = 10 ^ n := by
  obtain ⟨bounds, compiled⟩ := exists_compiled _ (isBound_after_tens n)
  obtain ⟨nodes, arcs⟩ := compiled.counts
  rw [nodes, arcs, patterns_after_bind_tens, nodesWired_cons, arcsWired_cons, arcsMade_tens,
    ← nodesMade_tens n]
  exact ⟨rfl, rfl⟩

/-- A bound engine holds the nodes and arcs that its patterns are wired with. In 32 bits their
numbers are exact and distinct exactly as long as there are no more than 32 bits can tell apart,
which patterns that were read keep to if they are small or of little nesting. -/
theorem numbered32_iff_wired (ops : List Operation) (bound : (after ops).isBound = true) :
    let e := after ops
    let a := e.program.automaton
    (a.nodeCount = nodesWired e.patterns ∧ a.arcCount = arcsWired e.patterns) ∧
      (Numbered32 a.nodeCount ↔ nodesWired e.patterns ≤ UInt32.size) ∧
      (Numbered32 a.arcCount ↔ arcsWired e.patterns ≤ UInt32.size) ∧
      ((∀ p ∈ e.patterns, p.IsRead) → wiringBound e.patterns < UInt32.size →
        a.nodeCount < UInt32.size ∧ a.arcCount < UInt32.size) := by
  intro e a
  obtain ⟨bounds, compiled⟩ := exists_compiled ops bound
  obtain ⟨nodes, arcs⟩ := compiled.counts
  refine ⟨⟨nodes, arcs⟩, ?_, ?_, fun read small => ?_⟩
  · rw [← nodes, numbered32_iff]
  · rw [← arcs, numbered32_iff]
  · obtain ⟨nodes', arcs'⟩ := wired_le fun p hp => (read p hp).limited
    exact ⟨nodes.trans_lt (nodes'.trans_lt small), arcs.trans_lt (arcs'.trans_lt small)⟩

/-- The source `(.{10}){10}` over symbols. -/
theorem numbered32_iff_wired_tens :
    let e := after [.add (tens 2), .bind]
    let a := e.program.automaton
    e.isBound = true ∧ (∀ p ∈ e.patterns, p.IsRead) ∧ wiringBound e.patterns = 1200 ∧
      (a.nodeCount = 101 ∧ a.arcCount = 100) ∧
      (a.nodeCount < UInt32.size ∧ a.arcCount < UInt32.size) ∧
      Numbered32 a.nodeCount ∧ Numbered32 a.arcCount := by
  intro e a
  have patterns : e.patterns = [tens 2] := patterns_after_bind_tens 2
  have read : ∀ p ∈ e.patterns, p.IsRead := by
    rw [patterns, List.forall_mem_singleton]
    exact ⟨.symbol, {}, _, [], congrArg Reading.output? (readPattern_tens 2)⟩
  have bound : wiringBound e.patterns = 1200 := by rw [patterns]; rfl
  obtain ⟨counts, nodes_iff, arcs_iff, fits⟩ :=
    numbered32_iff_wired [.add (tens 2), .bind] (isBound_after_tens 2)
  obtain ⟨nodes, arcs⟩ := fits read (bound ▸ by decide)
  refine ⟨isBound_after_tens 2, read, bound, ?_, ⟨nodes, arcs⟩, nodes_iff.2 ?_, arcs_iff.2 ?_⟩
  · exact counts_after_tens 2
  · exact counts.1 ▸ nodes.le
  · exact counts.2 ▸ arcs.le

/-- Ten counts inside each other are read and bound, and make more nodes and arcs than 32 bits can
tell apart. -/
theorem not_numbered32_tens :
    let source := "(((((((((.\x7b10\x7d)\x7b10\x7d)\x7b10\x7d)\x7b10\x7d)\x7b10\x7d)\x7b10\x7d)\x7b10\x7d" ++
      ")\x7b10\x7d)\x7b10\x7d)\x7b10\x7d"
    let e := after [.add (tens 10), .bind]
    let a := e.program.automaton
    readPattern .symbol {} source = ⟨[], some ⟨tens 10, []⟩⟩ ∧ e.isBound = true ∧
      a.nodeCount = 10000000001 ∧ a.arcCount = 10000000000 ∧
      ¬ a.nodeCount < UInt32.size ∧ ¬ a.arcCount < UInt32.size ∧
      ¬ Numbered32 a.nodeCount ∧ ¬ Numbered32 a.arcCount := by
  intro source e a
  have written : (tens 10).write = source := by decide +kernel
  obtain ⟨nodes, arcs⟩ := counts_after_tens 10
  have nodes : a.nodeCount = 10000000001 := nodes
  have arcs : a.arcCount = 10000000000 := arcs
  rw [nodes, arcs, numbered32_iff, numbered32_iff, ← written]
  exact ⟨readPattern_tens 10, isBound_after_tens 10, rfl, rfl, by decide, by decide, by decide,
    by decide⟩

end Engine

end SymbolRegex
