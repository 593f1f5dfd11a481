import Mathlib.Data.List.Forall2
import Mathlib.Data.List.Induction
import SymbolRegex.Proofs.Likeness
import SymbolRegex.Proofs.Registering

/-! # Patterns on their own

Whatever else a program holds, the nodes of a pattern list the arcs of its plan in
the order in which they are made. So its run is that of a program with no other
pattern, and does not depend on what the runs before it have claimed as long as every
step has a new number.
-/

namespace SymbolRegex

open Automaton

variable {S : OrdinalSet → OrdinalSet → Prop} {a a' : Automaton} {base base' : Nat}
  {b b' : BoundPattern} {bounds bounds' : List BoundPattern} {program : Program}
  {input input' : List Input} {extent : Extent}

/-! ## Reserved nodes -/

/-- The nodes from `base` on belong to a pattern: they list the arcs of its plan and no others. -/
structure Reserves (a : Automaton) (base : Nat) (b : BoundPattern) : Prop where
  le : base + 2 + (plan b).size ≤ a.nodeCount
  outgoing : ∀ n, base ≤ n → n < base + 2 + (plan b).size →
    a.outgoing n = ((plan b).arcs base (base + 1) (base + 2)).filter (·.source = n)

def Houses (a : Automaton) (b : BoundPattern) (c : Fragment) : Prop :=
  ∃ base, c = ⟨base, base + 1, b.slotCount⟩ ∧ Reserves a base b

theorem Reserves.grows (h : Reserves a base b) (wf : a.WellFormed) {count : Nat} {new : List Arc}
    (grown : Grows a count new a') (apart : ∀ arc ∈ new, a.nodeCount ≤ arc.source) :
    Reserves a' base b where
  le := by
    have := h.le
    have := grown.nodeCount
    omega
  outgoing n ge lt := by
    have none : new.filter (·.source = n) = [] := by
      rw [List.filter_eq_nil_iff]
      intro arc harc
      have := apart arc harc
      have := h.le
      simp only [decide_eq_true_eq]
      omega
    rw [grown.wellFormed.outgoing_eq, grown.arcs, List.filter_append, none, List.append_nil,
      ← wf.outgoing_eq]
    exact h.outgoing n ge lt

theorem reserves_add (wf : program.automaton.WellFormed) (b : BoundPattern) :
    Reserves (program.add b).automaton program.automaton.nodeCount b := by
  have grown := grows_add wf b
  refine ⟨by have := grown.nodeCount; omega, fun n ge _ => ?_⟩
  have old : program.automaton.arcs.toList.filter (·.source = n) = [] := by
    rw [List.filter_eq_nil_iff]
    intro arc harc
    have := wf.source_lt arc (Array.mem_toList_iff.1 harc)
    simp only [decide_eq_true_eq]
    omega
  rw [grown.wellFormed.outgoing_eq, grown.arcs, List.filter_append, old, List.nil_append]

theorem houses_ofPatterns (bounds : List BoundPattern) :
    let p := Program.ofPatterns bounds
    List.Forall₂ (Houses p.automaton) bounds p.fragments := by
  intro p
  induction bounds using List.reverseRecOn with
  | nil => exact .nil
  | append_singleton bounds b ih =>
    have wf := (laid_ofPatterns bounds).wellFormed
    have made : Program.ofPatterns (bounds ++ [b]) = (Program.ofPatterns bounds).add b := by
      rw [Program.ofPatterns, List.foldl_append]
      rfl
    simp only [p, made]
    refine List.rel_append (ih.imp ?_) (.cons ⟨_, rfl, reserves_add wf b⟩ .nil)
    rintro b' c ⟨base, rfl, h⟩
    refine ⟨base, rfl, h.grows wf (grows_add wf b) fun arc harc => ?_⟩
    have := ((realizes_plan b).enclosed (ends_base _) arc harc).1
    unfold Plan.Inner at this
    omega

/-- Nodes in the same place of two fragments. -/
def Twins (base base' size n n' : Nat) : Prop := ∃ k < size, n = base + k ∧ n' = base' + k

theorem twins_biUnique (base base' size : Nat) : Relator.BiUnique (Twins base base' size) := by
  constructor
  · rintro n m n' ⟨k, -, rfl, rfl⟩ ⟨j, -, rfl, e⟩
    omega
  · rintro n n' m' ⟨k, -, rfl, rfl⟩ ⟨j, -, e, rfl⟩
    omega

/-- Automata are alike where they house patterns that are wired alike. -/
theorem Reserves.alike (h : Reserves a base b) (h' : Reserves a' base' b')
    (copies : Copies S b b') : a.Alike (Twins base base' (2 + (plan b).size)) S a' where
  biUnique := twins_biUnique _ _ _
  outgoing := by
    intro n n' hn
    have unique := twins_biUnique base base' (2 + (plan b).size)
    have arcs : List.Forall₂ (Arc.Alike (Twins base base' (2 + (plan b).size)) S)
        ((plan b).arcs base (base + 1) (base + 2)) ((plan b').arcs base' (base' + 1) (base' + 2)) :=
      copies.plan.arcs unique ⟨0, by omega, rfl, rfl⟩ ⟨1, by omega, rfl, rfl⟩
        fun k hk => ⟨2 + k, by omega, by omega, by omega⟩
    obtain ⟨k, hk, rfl, rfl⟩ := id hn
    have := copies.plan.size
    rw [h.outgoing _ (by omega) (by omega), h'.outgoing _ (by omega) (by omega)]
    refine List.rel_filter (fun arc arc' harc => ?_) arcs
    simp only [decide_eq_true_eq]
    exact eq_iff_of_biUnique unique harc.source hn

theorem Reserves.lt_of_twins (h : Reserves a base b) (h' : Reserves a' base' b')
    (copies : Copies S b b') {n n' : Nat} (hn : Twins base base' (2 + (plan b).size) n n') :
    n < a.nodeCount ∧ n' < a'.nodeCount := by
  obtain ⟨k, hk, rfl, rfl⟩ := hn
  have := h.le
  have := h'.le
  have := copies.plan.size
  omega

theorem Houses.run_eq {c c' : Fragment} (h : Houses a b c) (h' : Houses a' b' c')
    (copies : Copies S b b') (alike : List.Forall₂ (Input.Alike S) input input') (extent : Extent)
    {s s' : Scratch} (ready : a.Ready (input.length + 1) s)
    (ready' : a'.Ready (input.length + 1) s') :
    (a.run c input extent s).1 = (a'.run c' input' extent s').1 := by
  obtain ⟨base, rfl, h⟩ := h
  obtain ⟨base', rfl, h'⟩ := h'
  have lockstep := Claims.lockstep_bothRoom (h.lt_of_twins h' copies)
  rw [copies.slotCount]
  exact ((h.alike h' copies).run (k := 0) lockstep ⟨0, by omega, rfl, rfl⟩ ⟨1, by omega, rfl, rfl⟩ _
    alike extent ready.stack ready'.stack
    ⟨by rw [Nat.zero_add]; exact ready.room, by rw [Nat.zero_add]; exact ready'.room, ready.size,
      ready'.size⟩).1

namespace Pattern

variable {α ε : Type}

mutual

theorem mapLeaves_ok : ∀ p : Pattern α, p.mapLeaves (Except.ok : α → Except ε α) = .ok p
  | .leaf _ => rfl
  | .sequence ps => congrArg (sequence <$> ·) (mapAllLeaves_ok ps)
  | .choice ps => congrArg (choice <$> ·) (mapAllLeaves_ok ps)
  | .optional p => congrArg (optional <$> ·) (mapLeaves_ok p)
  | .counted p lower upper => congrArg ((counted · lower upper) <$> ·) (mapLeaves_ok p)
  | .oneOrMore p => congrArg (oneOrMore <$> ·) (mapLeaves_ok p)
  | .zeroOrMore p => congrArg (zeroOrMore <$> ·) (mapLeaves_ok p)
  | .action i p => congrArg (action i <$> ·) (mapLeaves_ok p)

theorem mapAllLeaves_ok : ∀ ps : List (Pattern α),
    mapAllLeaves (Except.ok : α → Except ε α) ps = .ok ps
  | [] => rfl
  | p :: ps => bind_eq_ok_iff.2 ⟨p, mapLeaves_ok p, bind_eq_ok_iff.2 ⟨ps, mapAllLeaves_ok ps, rfl⟩⟩

end

end Pattern

theorem copies_self (b : BoundPattern) : Copies (· = ·) b b := by
  let ok : OrdinalSet → Except Unit OrdinalSet := .ok
  have self : b.mapLeaves ok = .ok b := Pattern.mapLeaves_ok b
  obtain ⟨b', hb', copies⟩ : ∃ b', b.mapLeaves ok = .ok b' ∧ Copies (· = ·) b b' :=
    Pattern.copies_mapLeaves (fun _ _ set h => ⟨set, h, rfl⟩) self
  rw [self] at hb'
  obtain rfl := Except.ok.inj hb'
  exact copies

theorem alike_self (input : List Input) : List.Forall₂ (Input.Alike (· = ·)) input input := by
  rw [List.forall₂_same]
  rintro x - s _ rfl
  rfl

/-! ## Runs of a pattern alone -/

namespace Program

/-- What a pattern accepts in a program of its own. -/
def solo (input : List Input) (extent : Extent) (b : BoundPattern) : Option Acceptance :=
  let p := ofPatterns [b]
  (p.automaton.run ⟨0, 1, b.slotCount⟩ input extent (.new p.automaton.nodeCount)).1

def report (i : Nat) (accepted : List (Option Acceptance)) : List Match :=
  (accepted.zipIdx i).flatMap fun (accepted?, i) => (accepted?.map (toMatch i)).toList

theorem report_cons (i : Nat) (accepted? : Option Acceptance) (rest : List (Option Acceptance)) :
    report i (accepted? :: rest) = (accepted?.map (toMatch i)).toList ++ report (i + 1) rest := by
  rw [report, List.zipIdx_cons, List.flatMap_cons]
  rfl

theorem houses_singleton (b : BoundPattern) :
    Houses (ofPatterns [b]).automaton b ⟨0, 1, b.slotCount⟩ :=
  ⟨0, rfl, @reserves_add {} wellFormed_empty b⟩

theorem Houses.run_eq_solo {c : Fragment} (h : Houses a b c) {s : Scratch}
    (ready : a.Ready (input.length + 1) s) : (a.run c input extent s).1 = solo input extent b := by
  have := ready.room.lt
  exact h.run_eq (houses_singleton b) (copies_self b) (alike_self input) extent ready
    (ready_new _ (by omega))

theorem allFrom_eq_report {fragments : List Fragment} {i : Nat} {s : Scratch}
    (wf : a.WellFormed) (h : List.Forall₂ (Houses a) bounds fragments)
    (ready : a.Ready (stepsUpTo fragments input) s) :
    allFrom a input extent i s fragments = report i (bounds.map (solo input extent)) := by
  induction h generalizing i s with
  | nil => rfl
  | @cons b c bounds fragments hc _ ih =>
    have hstart : c.start < a.nodeCount := by
      obtain ⟨base, rfl, h⟩ := hc
      have := h.le
      dsimp only
      omega
    rw [stepsUpTo_cons] at ready
    have outcome := outcome_run wf hstart input extent ready
    rw [allFrom_cons, List.map_cons, report_cons, ih outcome.2,
      Houses.run_eq_solo hc (ready.mono (Nat.le_add_left _ _))]

/-- The matches of a program are those that its patterns have on their own. -/
theorem all_ofPatterns (bounds : List BoundPattern) (input : List Input) (extent : Extent)
    (room : bounds.length * (input.length + 1) < UInt32.size) :
    (ofPatterns bounds).all input extent = report 0 (bounds.map (solo input extent)) := by
  have houses := houses_ofPatterns bounds
  refine allFrom_eq_report (laid_ofPatterns bounds).wellFormed houses (ready_new _ ?_)
  rwa [stepsUpTo, ← houses.length_eq]

end Program

/-! ## Engines with one pattern -/

namespace Engine

/-- A new engine over the symbols of an alphabet that is bound with one pattern. -/
def alone (a : Alphabet) (p : TextPattern) : Engine :=
  after (a.texts.map .register ++ [.add p, .bind])

theorem exists_after_registers {texts : List String} (nodup : texts.Nodup)
    (room : texts.length < Alphabet.capacity) :
    ∃ a, after (texts.map .register) = { alphabet := a } ∧ a.texts = texts ∧
      a.frozen = false := by
  induction texts using List.reverseRecOn with
  | nil => exact ⟨{}, rfl, rfl, rfl⟩
  | append_singleton texts text ih =>
    rw [List.length_append, List.length_singleton] at room
    obtain ⟨a, registers, rfl, thawed⟩ := ih nodup.of_append_left (by omega)
    have new : text ∉ a.texts := fun h =>
      (List.nodup_append.1 nodup).2.2 text h text (List.mem_singleton_self text) rfl
    obtain ⟨a', registered, texts, thawed⟩ := Alphabet.exists_register_of_room thawed new room
    refine ⟨a', ?_, texts, thawed⟩
    rw [List.map_append, List.map_singleton, after_concat, registers, perform_register, registered]

/-- Alone with the alphabet of a bound engine, a pattern is bound as it is there. -/
theorem alone_eq {a : Alphabet} {p : TextPattern} (frozen : a.frozen = true)
    (room : a.size < Alphabet.capacity) (known : p.symbols ⊆ a.texts)
    (hb : a.bindPattern p = .ok b) :
    alone a p = { alphabet := a, patterns := [p], stage := .bound (.ofPatterns [b]) } := by
  obtain ⟨fresh, registers, texts, thawed⟩ := exists_after_registers a.nodup room
  have closed : fresh.freeze = a := Alphabet.eq_of_texts texts frozen.symm
  have calls : a.texts.map Operation.register ++ [.add p, .bind] =
      a.texts.map .register ++ [.add p] ++ [.bind] := by simp
  have added : perform { alphabet := fresh } (.add p) =
      { alphabet := fresh, patterns := [p] } := by
    have known : fresh.registerAll p.symbols = (fresh, none) :=
      Alphabet.registerAll_of_subset (texts ▸ known)
    simp [perform, add, setUp_eq, registerAll, known]
  have bound : bindAll a [p] = .ok [b] := by simp [bindAll, hb]
  show after _ = _
  rw [calls, after_concat, after_concat, registers, added]
  simp [perform, bind, closed, bound]

variable {e : Engine} {ps : List TextPattern} {i : Nat}

def aloneMatches (a : Alphabet) (text : String) (extent : Extent) (p : TextPattern) (i : Nat) :
    List Match :=
  ((alone a p).matchText text extent).toList.map ({ · with pattern := i })

theorem report_eq_alone (frozen : e.alphabet.frozen = true) (supplied : e.Supplied)
    (h : List.Forall₂ (fun p b => e.alphabet.bindPattern p = .ok b) ps bounds)
    (sub : ps ⊆ e.patterns) (text : String) (extent : Extent)
    (room : ps.length * ((e.charInput text).length + 1) < UInt32.size) :
    Program.report i (bounds.map (Program.solo (e.charInput text) extent)) =
      (ps.zipIdx i).flatMap fun (p, i) => aloneMatches e.alphabet text extent p i := by
  induction h generalizing i with
  | nil => rfl
  | @cons p b ps bounds hb _ ih =>
    obtain ⟨mem, sub⟩ := List.cons_subset.1 sub
    rw [List.length_cons, Nat.succ_mul] at room
    have found : aloneMatches e.alphabet text extent p i =
        ((Program.solo (e.charInput text) extent b).map (Program.toMatch i)).toList := by
      rw [aloneMatches, alone_eq frozen supplied.room (supplied.known p mem) hb, matchText,
        Program.find_eq_head?]
      show List.map _ ((Program.all (.ofPatterns [b]) (e.charInput text) extent).head?.toList) = _
      rw [Program.all_ofPatterns _ _ _ (by rw [List.length_singleton]; omega)]
      cases h : Program.solo (e.charInput text) extent b <;>
        simp [Program.report, h, Program.toMatch]
    rw [List.map_cons, Program.report_cons, List.zipIdx_cons, List.flatMap_cons,
      ih sub (by omega), ← found]

/-- The patterns of a bound engine do not influence each other: the matches of a text are those that
each pattern has in an engine of its own over the same alphabet, in the order of the patterns, and
the first of them is the one that is found when only one is wanted. -/
theorem allTextMatches_eq_alone (ops : List Operation) (bound : (after ops).isBound = true)
    (text : String) (extent : Extent) (room : (after ops).RoomFor text.toList.length) :
    (∀ p ∈ (after ops).patterns, (alone (after ops).alphabet p).isBound = true ∧
      (alone (after ops).alphabet p).alphabet = (after ops).alphabet ∧
      (alone (after ops).alphabet p).patterns = [p]) ∧
    (after ops).allTextMatches text extent = (after ops).patterns.zipIdx.flatMap (fun (p, i) =>
      ((alone (after ops).alphabet p).matchText text extent).toList.map ({ · with pattern := i })) ∧
    (after ops).matchText text extent = ((after ops).allTextMatches text extent).head? := by
  obtain ⟨bounds, h⟩ := exists_compiled ops bound
  have supplied := supplied_after ops
  generalize after ops = e at h supplied room
  have all := forall₂_of_bindAll h.bound
  refine ⟨fun p hp => ?_, ?_, (head?_allTextMatches ..).symm⟩
  · obtain ⟨b, hb⟩ := exists_bindAll_iff.1 ⟨bounds, h.bound⟩ p hp
    rw [alone_eq h.frozen supplied.room (supplied.known p hp) hb]
    exact ⟨rfl, rfl, rfl⟩
  · have room : e.patterns.length * ((e.charInput text).length + 1) < UInt32.size := by
      rw [charInput, symbolInput, List.length_map, List.length_map]
      exact room.steps
    rw [allTextMatches, h.program_eq, Program.all_ofPatterns _ _ _ (all.length_eq ▸ room)]
    exact report_eq_alone h.frozen supplied all (List.Subset.refl _) text extent room

def overlapping : List Operation :=
  [.add (.action 0 (.leaf (.literal "a"))), .add (.oneOrMore (.leaf .any)), .bind]

theorem allTextMatches_eq_alone_overlapping : (after overlapping).isBound = true ∧
    (after overlapping).RoomFor 2 ∧ (after overlapping).patterns.zipIdx.flatMap (fun (p, i) =>
      ((alone (after overlapping).alphabet p).matchText "ab" .leading).toList.map
        ({ · with pattern := i })) = [⟨0, 1, [⟨0, 0, 1⟩]⟩, ⟨1, 2, []⟩] := by
  have bound : (after overlapping).isBound = true := rfl
  have room : (after overlapping).RoomFor 2 :=
    ⟨numbered32_iff.2 (by decide +kernel), numbered32_iff.2 (by decide +kernel), by decide⟩
  obtain ⟨-, all, -⟩ := allTextMatches_eq_alone overlapping bound "ab" .leading room
  refine ⟨bound, room, all.symm.trans ?_⟩
  cbv

theorem exists_matchText_alone {a : Alphabet} (frozen : a.frozen = true)
    (room : a.size < Alphabet.capacity) (text : String)
    (short : text.toList.length + 1 < UInt32.size) :
    ∃ m, (alone a anything).matchText text .whole = some m := by
  let b : BoundPattern := .zeroOrMore (.leaf (.full a.width))
  have hb : a.bindPattern anything = .ok b := rfl
  rw [alone_eq frozen room (List.nil_subset _) hb]
  let e : Engine := ⟨a, [anything], .bound (.ofPatterns [b])⟩
  have compiled : e.Compiled [b] := ⟨frozen, by simp [e, bindAll, hb], rfl⟩
  have grown := @grows_add {} wellFormed_empty b
  have nodes : (Program.ofPatterns [b]).automaton.nodeCount = 4 := grown.nodeCount
  have arcs : (Program.ofPatterns [b]).automaton.arcCount = 5 := grown.arcCount
  have room : e.RoomFor (text.toList.map Char.toString).length := by
    constructor
    · rw [compiled.program_eq, nodes]
      exact numbered32_iff.2 (by decide)
    · rw [compiled.program_eq, arcs]
      exact numbered32_iff.2 (by decide)
    · rw [List.length_map]
      exact (Nat.one_mul _).trans_lt short
  rw [matchText, charInput, symbolInput]
  exact (compiled.exists_find_iff (reads_text a) room).2
    ⟨0, _, _, admits_whole_iff.2 ⟨rfl, rfl⟩, anything, rfl, mem_language_anything a _⟩

/-- The last pattern of a crowd that uses up the numbers matches a text when it is alone, and is
missed behind the others. -/
theorem allTextMatches_crowd {count n : Nat} (steps : count * (n + 1) + 1 = UInt32.size)
    (pos : 0 < count) : let e := after (crowded count)
    let text := String.ofList (List.replicate n 'a')
    e.isBound = true ∧ e.patterns[count]? = some anything ∧ e.allTextMatches text .whole = [] ∧
      ∃ m, (alone e.alphabet anything).matchText text .whole = some m := by
  intro e text
  obtain ⟨bound, patterns⟩ := after_crowded count
  obtain ⟨bounds, compiled⟩ := exists_compiled _ bound
  have none := compiled.all_crowd (reads_text _) patterns steps (fun s => eq_comm) (Eq.refl "z")
  have letter : 'a'.toString = "a" := rfl
  have symbols : text.toList.map Char.toString = List.replicate n "a" := by
    rw [String.toList_ofList, List.map_replicate, letter]
  have last : e.patterns[count]? = some anything := by
    rw [patterns]
    exact getElem?_crowd count
  refine ⟨bound, last, ?_, ?_⟩
  · rw [allTextMatches, charInput, symbols]
    exact none
  · apply exists_matchText_alone compiled.frozen (supplied_after _).room
    have := Nat.mul_le_mul_right (n + 1) pos
    rw [String.toList_ofList, List.length_replicate]
    omega

theorem allTextMatches_misses_crowd :
    let e := after (crowded 3855)
    let text := String.ofList (List.replicate 1114128 'a')
    e.isBound = true ∧ e.patterns[3855]? = some anything ∧ e.allTextMatches text .whole = [] ∧
      ∃ m, (alone e.alphabet anything).matchText text .whole = some m :=
  allTextMatches_crowd (by decide) (by decide)

end Engine

end SymbolRegex
