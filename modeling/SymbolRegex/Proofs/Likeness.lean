import Mathlib.Data.List.Forall2
import Mathlib.Data.List.Induction
import SymbolRegex.Proofs.Matching

/-! # Automata that run alike

A run depends on an automaton only up to the names of its nodes and up to what its
labels accept, and on earlier runs only up to which nodes pass for claimed. Two automata
whose related nodes list related arcs in the same order therefore run in lock step, as
long as related nodes are claimed in both or in neither: the same threads in the same
order at related nodes, with the same slots.
-/

namespace SymbolRegex

open Automaton

variable {N : Nat → Nat → Prop} {S : OrdinalSet → OrdinalSet → Prop}

/-! ## Likeness -/

inductive ArcLabel.Alike (S : OrdinalSet → OrdinalSet → Prop) : ArcLabel → ArcLabel → Prop where

  | epsilon : Alike S .epsilon .epsilon

  | symbols {s s' : OrdinalSet} : S s s' → Alike S (.symbols s) (.symbols s')

structure Arc.Alike (N : Nat → Nat → Prop) (S : OrdinalSet → OrdinalSet → Prop) (arc arc' : Arc) :
    Prop where
  label : arc.label.Alike S arc'.label
  markers : arc.markers = arc'.markers
  source : N arc.source arc'.source
  target : N arc.target arc'.target

def Input.Alike (S : OrdinalSet → OrdinalSet → Prop) (x x' : Input) : Prop :=
  ∀ ⦃s s'⦄, S s s' → x.accepts s = x'.accepts s'

structure Thread.Alike (N : Nat → Nat → Prop) (t t' : Thread) : Prop where
  node : N t.node t'.node
  slots : t.slots = t'.slots

/-- Automata that list related arcs, in the same order, at related nodes. -/
structure Automaton.Alike (N : Nat → Nat → Prop) (S : OrdinalSet → OrdinalSet → Prop)
    (a a' : Automaton) : Prop where
  biUnique : Relator.BiUnique N
  outgoing : ∀ {n n'}, N n n' → List.Forall₂ (Arc.Alike N S) (a.outgoing n) (a'.outgoing n')

theorem Arc.Alike.follow {arc arc' : Arc} {t t' : Thread} (harc : arc.Alike N S arc')
    (ht : t.Alike N t') (i j : Nat) :
    Thread.Alike N ⟨arc.target, arc.mark i j t.slots⟩ ⟨arc'.target, arc'.mark i j t'.slots⟩ where
  node := harc.target
  slots := by rw [Arc.mark, Arc.mark, harc.markers, ht.slots]

theorem eq_iff_of_biUnique (h : Relator.BiUnique N) {n n' m m' : Nat} (hn : N n n') (hm : N m m') :
    n = m ↔ n' = m' := by
  constructor
  · rintro rfl
    exact h.2 hn hm
  · rintro rfl
    exact h.1 hn hm

/-! ## Related claims -/

/-- A relation between the claims of two runs, with so many steps to go, that is kept by every step
and by claiming related nodes, and under which related nodes are free in both runs or in neither. -/
structure Claims.Lockstep (N : Nat → Nat → Prop) (Q : Nat → Claims → Claims → Prop) : Prop where
  weaken : ∀ {k c c'}, Q (k + 1) c c' → Q k c c'
  advance : ∀ {k c c'}, Q (k + 1) c c' → Q k c.advance c'.advance
  claim : ∀ {k c c' n n'}, Q k c c' → N n n' → Q k (c.claim n) (c'.claim n')
  free : ∀ {k c c' n n'}, Q (k + 1) c c' → N n n' → c.advance.free n = c'.advance.free n'

namespace Claims

/-- Steps with the same number, and the same stamps at related nodes. -/
structure Same (N : Nat → Nat → Prop) (c c' : Claims) : Prop where
  generation : c.generation = c'.generation
  stamps : ∀ {n n'}, N n n' → c.stamps[n]? = c'.stamps[n']?

theorem lockstep_same (unique : Relator.BiUnique N) : Lockstep N fun _ => Same N where
  weaken h := h
  advance h := ⟨congrArg (· + 1) h.generation, h.stamps⟩
  claim {k c c' n n'} h hn := by
    refine ⟨h.generation, fun {m m'} hm => ?_⟩
    have same := eq_iff_of_biUnique unique hn hm
    have inside : n < c.stamps.size ↔ n' < c'.stamps.size := by
      rw [← Nat.not_le, ← Nat.not_le, ← Array.getElem?_eq_none_iff, ← Array.getElem?_eq_none_iff,
        h.stamps hn]
    simp only [Claims.claim, Array.getElem?_setIfInBounds, same, inside, h.generation, h.stamps hm]
  free h hn := by
    rw [Claims.free, Claims.free, advance, advance, h.generation, h.stamps hn]

structure BothRoom (count count' k : Nat) (c c' : Claims) : Prop where
  room : c.Room k
  room' : c'.Room k
  size : c.stamps.size = count
  size' : c'.stamps.size = count'

theorem lockstep_bothRoom {count count' : Nat} (lt : ∀ {n n'}, N n n' → n < count ∧ n' < count') :
    Lockstep N (BothRoom count count') where
  weaken h := ⟨h.room.mono (Nat.le_succ _), h.room'.mono (Nat.le_succ _), h.size, h.size'⟩
  advance h := ⟨h.room.advance, h.room'.advance, h.size, h.size'⟩
  claim h _ := ⟨h.room.claim _, h.room'.claim _, Array.size_setIfInBounds.trans h.size,
    Array.size_setIfInBounds.trans h.size'⟩
  free {k c c' n n'} h hn := by
    obtain ⟨lt, lt'⟩ := lt hn
    have size : c.advance.stamps.size = count := h.size
    have size' : c'.advance.stamps.size = count' := h.size'
    rw [h.room.fresh.free_eq, h.room'.fresh.free_eq, size, size', decide_eq_true lt,
      decide_eq_true lt']

end Claims

variable {Q : Nat → Claims → Claims → Prop}

structure Automaton.Frontier.Alike (N : Nat → Nat → Prop) (Q : Nat → Claims → Claims → Prop)
    (k : Nat) (f f' : Frontier) : Prop where
  claims : Q k f.claims f'.claims
  free : ∀ {n n'}, N n n' → f.claims.free n = f'.claims.free n'
  threads : List.Forall₂ (Thread.Alike N) f.threads.toList f'.threads.toList

namespace Automaton.Alike

variable {a a' : Automaton} {f f' : Frontier} {t t' : Thread} {x x' : Input} {k : Nat}

theorem silentSteps (h : Alike N S a a') (ht : t.Alike N t') (pos : Nat) :
    List.Forall₂ (Thread.Alike N) (a.silentSteps pos t) (a'.silentSteps pos t') := by
  refine List.rel_filterMap ?_ (h.outgoing ht.node)
  rintro ⟨label, markers, source, target⟩ ⟨label', markers', source', target'⟩ harc
  cases harc.label with
  | epsilon => exact .some (harc.follow ht pos pos)
  | symbols => exact .none

theorem symbolSteps (h : Alike N S a a') (ht : t.Alike N t') (hx : x.Alike S x') (pos : Nat) :
    List.Forall₂ (Thread.Alike N) (a.symbolSteps pos x t) (a'.symbolSteps pos x' t') := by
  refine List.rel_filterMap ?_ (h.outgoing ht.node)
  rintro ⟨label, markers, source, target⟩ ⟨label', markers', source', target'⟩ harc
  cases harc.label with
  | epsilon => exact .none
  | symbols hs =>
    dsimp only
    rw [hx hs]
    split
    · exact .some (harc.follow ht pos (pos + 1))
    · exact .none

theorem spread (h : Alike N S a a') (lockstep : Claims.Lockstep N Q) {pos : Nat}
    {stack stack' : List Thread} (hf : f.Alike N Q k f')
    (hs : List.Forall₂ (Thread.Alike N) stack stack') :
    Frontier.Alike N Q k (a.spread pos f stack) (a'.spread pos f' stack') := by
  induction f, stack using spread.induct a pos generalizing f' stack' with
  | case1 f =>
    obtain rfl := List.forall₂_nil_left_iff.1 hs
    rwa [spread_nil, spread_nil]
  | case2 f t rest free ih =>
    obtain ⟨t', rest', ht, hrest, rfl⟩ := List.forall₂_cons_left_iff.1 hs
    rw [spread_cons_of_free free, spread_cons_of_free (hf.free ht.node ▸ free)]
    refine ih ⟨lockstep.claim hf.claims ht.node, fun {n n'} hn => ?_, ?_⟩
      (List.rel_append (h.silentSteps ht pos) hrest)
    · have same : n ≠ t.node ↔ n' ≠ t'.node :=
        not_congr (eq_iff_of_biUnique h.biUnique hn ht.node)
      rw [Claims.free_claim, Claims.free_claim, hf.free hn, decide_eq_decide.2 same]
    · simpa using List.rel_append hf.threads (.cons ht .nil)
  | case3 f t rest taken ih =>
    obtain ⟨t', rest', ht, hrest, rfl⟩ := List.forall₂_cons_left_iff.1 hs
    rw [spread_cons_of_taken taken, spread_cons_of_taken (hf.free ht.node ▸ taken)]
    exact ih hf hrest

theorem none (lockstep : Claims.Lockstep N Q) {claims claims' : Claims}
    (h : Q (k + 1) claims claims') :
    Frontier.Alike N Q k ⟨claims.advance, #[]⟩ ⟨claims'.advance, #[]⟩ where
  claims := lockstep.advance h
  free hn := lockstep.free h hn
  threads := .nil

theorem advance (h : Alike N S a a') (lockstep : Claims.Lockstep N Q)
    (hf : f.Alike N Q (k + 1) f') (hx : x.Alike S x') (pos : Nat) :
    Frontier.Alike N Q k (a.advance pos x f) (a'.advance pos x' f') :=
  h.spread lockstep (none lockstep hf.claims)
    (List.rel_flatMap hf.threads fun _ _ ht => h.symbolSteps ht hx pos)

theorem accept (h : Alike N S a a') (hf : f.Alike N Q k f') {start stop start' stop' : Nat}
    {count : UInt32} (hstop : N stop stop') (extent : Extent) (pos : Nat) (atEnd : Bool)
    (best : Option Acceptance) :
    Automaton.accept ⟨start, stop, count⟩ extent pos atEnd f.threads best =
      Automaton.accept ⟨start', stop', count⟩ extent pos atEnd f'.threads best := by
  have found {ts ts' : List Thread} (hts : List.Forall₂ (Thread.Alike N) ts ts') :
      Option.Rel (Thread.Alike N) (ts.find? (·.node = stop)) (ts'.find? (·.node = stop')) := by
    induction hts with
    | nil => exact .none
    | @cons t t' ts ts' ht _ ih =>
      have same := eq_iff_of_biUnique h.biUnique ht.node hstop
      by_cases e : t.node = stop
      · simpa [e, same.1 e] using Option.Rel.some ht
      · simpa [e, mt same.2 e] using ih
  have last := found hf.threads
  rw [Array.find?_toList, Array.find?_toList] at last
  unfold Automaton.accept
  dsimp only
  generalize f.threads.find? (·.node = stop) = r at last ⊢
  generalize f'.threads.find? (·.node = stop') = r' at last ⊢
  cases last with
  | some ht => simp only [ht.slots]
  | none => rfl

theorem runFrom (h : Alike N S a a') (lockstep : Claims.Lockstep N Q)
    {start stop start' stop' : Nat} {count : UInt32} (hstop : N stop stop')
    {input input' : List Input} (hi : List.Forall₂ (Input.Alike S) input input') (extent : Extent)
    (pos : Nat) (hf : f.Alike N Q (k + input.length) f') (best : Option Acceptance) :
    (a.runFrom ⟨start, stop, count⟩ extent pos input f.scratch best).1 =
        (a'.runFrom ⟨start', stop', count⟩ extent pos input' f'.scratch best).1 ∧
      Q k (a.runFrom ⟨start, stop, count⟩ extent pos input f.scratch best).2.claims
        (a'.runFrom ⟨start', stop', count⟩ extent pos input' f'.scratch best).2.claims := by
  induction hi generalizing pos f f' best with
  | nil => exact ⟨h.accept hf hstop extent pos true best, hf.claims⟩
  | @cons x x' input input' hx _ ih =>
    have size : f.threads.size = f'.threads.size := hf.threads.length_eq
    have dead : f.scratch.current.isEmpty = f'.scratch.current.isEmpty := by
      show f.threads.isEmpty = f'.threads.isEmpty
      rw [Array.isEmpty, size, Array.isEmpty]
    have best' : Automaton.accept ⟨start, stop, count⟩ extent pos false f.scratch.current best =
      Automaton.accept ⟨start', stop', count⟩ extent pos false f'.scratch.current best :=
        h.accept hf hstop extent pos false best
    have weaken : ∀ j, Q (k + j) f.claims f'.claims → Q k f.claims f'.claims := by
      intro j hj
      induction j with
      | zero => exact hj
      | succ j ih => exact ih (lockstep.weaken hj)
    rw [Automaton.runFrom, Automaton.runFrom]
    simp only [List.isEmpty_cons, best', dead, step_scratch]
    split
    · exact ⟨rfl, weaken _ hf.claims⟩
    · exact ih _ (h.advance lockstep hf hx _) _

/-- Automata that are alike run alike when earlier runs have left related claims. -/
theorem run (h : Alike N S a a') (lockstep : Claims.Lockstep N Q) {start stop start' stop' : Nat}
    (hstart : N start start') (hstop : N stop stop') (count : UInt32) {input input' : List Input}
    (hi : List.Forall₂ (Input.Alike S) input input') (extent : Extent) {s s' : Scratch}
    (idle : s.stack = []) (idle' : s'.stack = [])
    (claims : Q (k + (input.length + 1)) s.claims s'.claims) :
    (a.run ⟨start, stop, count⟩ input extent s).1 =
        (a'.run ⟨start', stop', count⟩ input' extent s').1 ∧
      Q k (a.run ⟨start, stop, count⟩ input extent s).2.claims
        (a'.run ⟨start', stop', count⟩ input' extent s').2.claims := by
  have threads : List.Forall₂ (Thread.Alike N) [⟨start, Array.replicate count.toNat {}⟩]
      [⟨start', Array.replicate count.toNat {}⟩] := .cons ⟨hstart, rfl⟩ .nil
  rw [run_eq idle, run_eq idle']
  exact h.runFrom lockstep hstop hi extent 0 (h.spread lockstep (none lockstep claims) threads) _

end Automaton.Alike

/-! ## Plans -/

/-- Plans that make as many nodes, and related arcs wherever they are laid out. -/
structure Automaton.Plan.Alike (S : OrdinalSet → OrdinalSet → Prop) (p p' : Plan) : Prop where
  size : p.size = p'.size
  arcs : ∀ {N : Nat → Nat → Prop}, Relator.BiUnique N → ∀ {s t f s' t' f' : Nat}, N s s' → N t t' →
    (∀ k < p.size, N (f + k) (f' + k)) →
      List.Forall₂ (Arc.Alike N S) (p.arcs s t f) (p'.arcs s' t' f')

namespace Automaton.Plan

variable {p p' q q' : Plan}

theorem alike_single {label label' : ArcLabel} (h : label.Alike S label') :
    (single label).Alike S (single label') where
  size := rfl
  arcs := by
    intro N hN s t f s' t' f' hs ht _
    exact .cons ⟨h, rfl, hs, ht⟩ .nil

theorem alike_nothing : nothing.Alike S nothing where
  size := rfl
  arcs := by
    intros
    exact .nil

theorem Alike.beside (hp : p.Alike S p') (hq : q.Alike S q') :
    (p.beside q).Alike S (p'.beside q') where
  size := by rw [Plan.beside, Plan.beside, hp.size, hq.size]
  arcs := by
    intro N hN s t f s' t' f' hs ht hf
    dsimp only [Plan.beside] at hf ⊢
    refine List.rel_append (hp.arcs hN hs ht fun k hk => hf k (by omega))
      (hq.arcs hN hs ht fun k hk => ?_)
    rw [← hp.size, Nat.add_assoc, Nat.add_assoc]
    exact hf _ (by omega)

theorem Alike.before (hp : p.Alike S p') (hq : q.Alike S q') :
    (p.before q).Alike S (p'.before q') where
  size := by rw [Plan.before, Plan.before, hp.size, hq.size]
  arcs := by
    intro N hN s t f s' t' f' hs ht hf
    dsimp only [Plan.before] at hf ⊢
    have meet : N f f' := hf 0 (by omega)
    refine List.rel_append (hp.arcs hN hs meet fun k hk => ?_) (hq.arcs hN meet ht fun k hk => ?_)
    · rw [Nat.add_assoc, Nat.add_assoc]
      exact hf _ (by omega)
    · rw [← hp.size, Nat.add_assoc, Nat.add_assoc, Nat.add_assoc, Nat.add_assoc]
      exact hf _ (by omega)

theorem Alike.loop (hp : p.Alike S p') : p.loop.Alike S p'.loop where
  size := by rw [Plan.loop, Plan.loop, hp.size]
  arcs := by
    intro N hN s t f s' t' f' hs ht hf
    dsimp only [Plan.loop] at hf ⊢
    have entry : N f f' := hf 0 (by omega)
    have exit : N (f + 1) (f' + 1) := hf 1 (by omega)
    have body : List.Forall₂ (Arc.Alike N S) (p.arcs f (f + 1) (f + 2))
        (p'.arcs f' (f' + 1) (f' + 2)) := hp.arcs hN entry exit fun k hk => by
      rw [Nat.add_assoc, Nat.add_assoc]
      exact hf _ (by omega)
    refine List.rel_append (.cons ⟨.epsilon, rfl, hs, entry⟩ body) ?_
    exact .cons ⟨.epsilon, rfl, exit, entry⟩ (.cons ⟨.epsilon, rfl, exit, ht⟩ .nil)

theorem Alike.mark (hp : p.Alike S p') (i : Nat) : (p.mark i).Alike S (p'.mark i) where
  size := hp.size
  arcs := by
    intro N hN s t f s' t' f' hs ht hf
    dsimp only [Plan.mark] at hf ⊢
    rw [List.forall₂_map_left_iff, List.forall₂_map_right_iff]
    refine (hp.arcs hN hs ht hf).imp fun arc arc' harc => ⟨harc.label, ?_, harc.source, harc.target⟩
    have source := eq_iff_of_biUnique hN harc.source hs
    have target := eq_iff_of_biUnique hN harc.target ht
    simp only [markArc, actionMarkers, harc.markers, source, target]

theorem alike_chain {ps ps' : List Plan} (h : List.Forall₂ (Alike S) ps ps') :
    (chain ps).Alike S (chain ps') := by
  induction h with
  | nil => exact alike_single .epsilon
  | cons hp hps ih =>
    cases hps with
    | nil => exact hp
    | cons => exact hp.before ih

theorem alike_branch {ps ps' : List Plan} (h : List.Forall₂ (Alike S) ps ps') :
    (branch ps).Alike S (branch ps') := by
  induction h with
  | nil => exact alike_nothing
  | cons hp _ ih => exact hp.beside ih

theorem alike_copies (hp : p.Alike S p') (hq : q.Alike S q') (lower copy more : Nat) :
    List.Forall₂ (Alike S) (copies p q lower copy more) (copies p' q' lower copy more) := by
  induction more generalizing copy with
  | zero => exact .nil
  | succ more ih =>
    refine .cons ?_ (ih (copy + 1))
    split
    · exact hq
    · exact hp

theorem Alike.orSkip (hp : p.Alike S p') : (p.beside skip).Alike S (p'.beside skip) :=
  hp.beside (alike_single .epsilon)

end Automaton.Plan

/-- Bound patterns that are wired alike and have as many actions. -/
structure Copies (S : OrdinalSet → OrdinalSet → Prop) (b b' : BoundPattern) : Prop where
  plan : (plan b).Alike S (plan b')
  slotCount : b.slotCount = b'.slotCount

namespace Pattern

variable {α ε ε' : Type} {f : α → Except ε OrdinalSet} {f' : α → Except ε' OrdinalSet}

mutual

/-- Patterns whose leaves are bound to related sets are wired alike. -/
theorem exists_alike : ∀ (p : Pattern α) {b : BoundPattern},
    (∀ l ∈ p.leaves, ∀ set, f l = .ok set → ∃ set', f' l = .ok set' ∧ S set set') →
    p.mapLeaves f = .ok b → ∃ b', p.mapLeaves f' = .ok b' ∧ (plan b).Alike S (plan b')
  | .leaf l, _, same, h => by
    obtain ⟨set, hset, rfl⟩ := map_eq_ok_iff.1 h
    obtain ⟨set', hset', hS⟩ := same l (by simp [leaves]) set hset
    exact ⟨_, map_eq_ok_iff.2 ⟨set', hset', rfl⟩, Plan.alike_single (.symbols hS)⟩
  | .sequence ps, _, same, h => by
    obtain ⟨bs, hbs, rfl⟩ := map_eq_ok_iff.1 h
    obtain ⟨bs', hbs', all⟩ := exists_all_alike ps same hbs
    exact ⟨_, map_eq_ok_iff.2 ⟨bs', hbs', rfl⟩, Plan.alike_chain all⟩
  | .choice ps, _, same, h => by
    obtain ⟨bs, hbs, rfl⟩ := map_eq_ok_iff.1 h
    obtain ⟨bs', hbs', all⟩ := exists_all_alike ps same hbs
    exact ⟨_, map_eq_ok_iff.2 ⟨bs', hbs', rfl⟩, Plan.alike_branch all⟩
  | .optional p, _, same, h => by
    obtain ⟨b, hb, rfl⟩ := map_eq_ok_iff.1 h
    obtain ⟨b', hb', alike⟩ := exists_alike p same hb
    exact ⟨_, map_eq_ok_iff.2 ⟨b', hb', rfl⟩, alike.orSkip⟩
  | .counted p lower upper, _, same, h => by
    obtain ⟨b, hb, rfl⟩ := map_eq_ok_iff.1 h
    obtain ⟨b', hb', alike⟩ := exists_alike p same hb
    exact ⟨_, map_eq_ok_iff.2 ⟨b', hb', rfl⟩,
      Plan.alike_chain (Plan.alike_copies alike alike.orSkip _ _ _)⟩
  | .oneOrMore p, _, same, h => by
    obtain ⟨b, hb, rfl⟩ := map_eq_ok_iff.1 h
    obtain ⟨b', hb', alike⟩ := exists_alike p same hb
    exact ⟨_, map_eq_ok_iff.2 ⟨b', hb', rfl⟩, alike.loop⟩
  | .zeroOrMore p, _, same, h => by
    obtain ⟨b, hb, rfl⟩ := map_eq_ok_iff.1 h
    obtain ⟨b', hb', alike⟩ := exists_alike p same hb
    exact ⟨_, map_eq_ok_iff.2 ⟨b', hb', rfl⟩, alike.loop.orSkip⟩
  | .action i p, _, same, h => by
    obtain ⟨b, hb, rfl⟩ := map_eq_ok_iff.1 h
    obtain ⟨b', hb', alike⟩ := exists_alike p same hb
    exact ⟨_, map_eq_ok_iff.2 ⟨b', hb', rfl⟩, alike.mark i⟩

theorem exists_all_alike : ∀ (ps : List (Pattern α)) {bs : List BoundPattern},
    (∀ l ∈ allLeaves ps, ∀ set, f l = .ok set → ∃ set', f' l = .ok set' ∧ S set set') →
    mapAllLeaves f ps = .ok bs → ∃ bs', mapAllLeaves f' ps = .ok bs' ∧
      List.Forall₂ (Plan.Alike S) (plans bs) (plans bs')
  | [], _, _, h => by
    obtain rfl := Except.ok.inj h
    exact ⟨[], rfl, .nil⟩
  | p :: ps, _, same, h => by
    simp only [allLeaves, List.forall_mem_append] at same
    obtain ⟨b, hb, h⟩ := bind_eq_ok_iff.1 h
    obtain ⟨bs, hbs, h⟩ := bind_eq_ok_iff.1 h
    obtain rfl := Except.ok.inj h
    obtain ⟨b', hb', alike⟩ := exists_alike p same.1 hb
    obtain ⟨bs', hbs', all⟩ := exists_all_alike ps same.2 hbs
    exact ⟨b' :: bs', bind_eq_ok_iff.2 ⟨b', hb', bind_eq_ok_iff.2 ⟨bs', hbs', rfl⟩⟩,
      .cons alike all⟩

end

theorem copies_mapLeaves {p : Pattern α} {b : BoundPattern}
    (same : ∀ l ∈ p.leaves, ∀ set, f l = .ok set → ∃ set', f' l = .ok set' ∧ S set set')
    (h : p.mapLeaves f = .ok b) : ∃ b', p.mapLeaves f' = .ok b' ∧ Copies S b b' := by
  obtain ⟨b', hb', alike⟩ := exists_alike p same h
  have actions := (actions_mapLeaves p h).trans (actions_mapLeaves p hb').symm
  exact ⟨b', hb', alike, slotCount_congr actions⟩

end Pattern

/-! ## Programs -/

namespace Program

variable {a a' : Automaton} {bounds bounds' : List BoundPattern} {input input' : List Input}
  {extent : Extent}

theorem allFrom_alike (h : a.Alike (· = ·) S a') (hi : List.Forall₂ (Input.Alike S) input input')
    {s s' : Scratch} (idle : s.stack = []) (idle' : s'.stack = [])
    (claims : s.claims.Same (· = ·) s'.claims) (wf : a.WellFormed) (wf' : a'.WellFormed) (i : Nat)
    (fragments : List Fragment) :
    allFrom a input extent i s fragments = allFrom a' input' extent i s' fragments := by
  induction fragments generalizing i s s' with
  | nil => rfl
  | cons fragment fragments ih =>
    obtain ⟨same, claims⟩ := h.run (k := 0) (Claims.lockstep_same h.biUnique)
      (Eq.refl fragment.start) (Eq.refl fragment.stop) fragment.slotCount hi extent idle idle'
      claims
    have remains := (supports_run wf idle fragment input extent).2
    have remains' := (supports_run wf' idle' fragment input' extent).2
    rw [allFrom_cons, allFrom_cons, ih remains.stack remains'.stack claims]
    exact congrArg (fun r => (Option.map (toMatch i) r).toList ++ _) same

structure Alike (S : OrdinalSet → OrdinalSet → Prop) (p p' : Program) : Prop where
  wellFormed : p.automaton.WellFormed
  wellFormed' : p'.automaton.WellFormed
  nodeCount : p.automaton.nodeCount = p'.automaton.nodeCount
  arcs : List.Forall₂ (Arc.Alike (· = ·) S) p.automaton.arcs.toList p'.automaton.arcs.toList
  fragments : p.fragments = p'.fragments

theorem Alike.add {p p' : Program} (h : p.Alike S p') {b b' : BoundPattern}
    (copies : Copies S b b') : (p.add b).Alike S (p'.add b') := by
  have grown := grows_add h.wellFormed b
  have grown' := grows_add h.wellFormed' b'
  constructor
  case wellFormed => exact grown.wellFormed
  case wellFormed' => exact grown'.wellFormed
  case nodeCount => rw [grown.nodeCount, grown'.nodeCount, h.nodeCount, copies.plan.size]
  case arcs =>
    rw [grown.arcs, grown'.arcs, h.nodeCount]
    exact List.rel_append h.arcs
      (copies.plan.arcs ⟨fun _ _ _ h h' => h.trans h'.symm, fun _ _ _ h h' => h.symm.trans h'⟩ rfl
        rfl fun _ _ => rfl)
  case fragments => rw [Program.add, Program.add, h.fragments, h.nodeCount, copies.slotCount]

theorem alike_ofPatterns (copies : List.Forall₂ (Copies S) bounds bounds') :
    (ofPatterns bounds).Alike S (ofPatterns bounds') := by
  suffices added : ∀ {p p' : Program}, p.Alike S p' →
      (bounds.foldl add p).Alike S (bounds'.foldl add p') from
    added ⟨wellFormed_empty, wellFormed_empty, rfl, .nil, rfl⟩
  induction copies with
  | nil => exact fun h => h
  | cons hb _ ih => exact fun h => ih (h.add hb)

theorem Alike.automaton {p p' : Program} (h : p.Alike S p') :
    p.automaton.Alike (· = ·) S p'.automaton where
  biUnique := ⟨fun _ _ _ h h' => h.trans h'.symm, fun _ _ _ h h' => h.symm.trans h'⟩
  outgoing := by
    rintro n _ rfl
    rw [h.wellFormed.outgoing_eq, h.wellFormed'.outgoing_eq]
    refine List.rel_filter (fun arc arc' harc => ?_) h.arcs
    simp only [decide_eq_true_eq, harc.source]

/-- Programs of patterns that are wired alike take the same steps, and find the same. -/
theorem all_congr (copies : List.Forall₂ (Copies S) bounds bounds')
    (alike : List.Forall₂ (Input.Alike S) input input') :
    (ofPatterns bounds).all input extent = (ofPatterns bounds').all input' extent := by
  have h := alike_ofPatterns copies
  have claims : (Claims.new (ofPatterns bounds).automaton.nodeCount).Same (· = ·)
      (Claims.new (ofPatterns bounds').automaton.nodeCount) :=
    ⟨rfl, by rintro n _ rfl; rw [h.nodeCount]⟩
  rw [all, all, ← h.fragments]
  exact allFrom_alike h.automaton alike rfl rfl claims h.wellFormed h.wellFormed' 0 _

end Program

end SymbolRegex
