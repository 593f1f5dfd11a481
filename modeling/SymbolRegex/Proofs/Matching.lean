import Mathlib.Algebra.Module.Submodule.Lattice
import SymbolRegex.Proofs.Binding
import SymbolRegex.Proofs.Calls
import SymbolRegex.Proofs.Registering

/-! # What an engine matches

The first pattern that accepts something wins, with the greatest length that it
accepts. Input positions may stand for texts in several ways; the result is always
that of a word that the input stands for.
-/

namespace SymbolRegex

open Automaton

/-! ## Words that an input stands for -/

/-- An allowed part of the input, of the given length, stands for a word. -/
def Admits {τ : Type} (S : τ → String → Prop) (xs : List τ) (extent : Extent) (n : Nat)
    (w : List String) : Prop :=
  extent.Allows xs.length n ∧ List.Forall₂ S (xs.take n) w

theorem reads_text (a : Alphabet) : Reads a (fun s => .symbol (a.ordinal s)) (· = ·) :=
  fun _ _ h => h.fits_text

theorem reads_ordinal (a : Alphabet) : Reads a .symbol fun i s => a.ordinal s = i :=
  fun _ _ h => h.fits_ordinal

theorem reads_candidates (a : Alphabet) :
    Reads a (fun options : List String => .candidates (.ofList a.width (options.map a.ordinal)))
      fun options s => s ∈ options :=
  fun _ _ h => h.fits_candidates

namespace Engine

/-- A pattern of the engine, given by its index, matches a word. -/
def Recognizes (e : Engine) (i : Nat) (w : List String) : Prop :=
  ∃ p, e.patterns[i]? = some p ∧ w ∈ p.language (Leaf.Accepts e.alphabet)

/-- A match is that of a word: some derivation of the word from the pattern has the occurrences that
are reported. -/
structure Parses (e : Engine) (m : Match) (p : TextPattern) (w : List String)
    (os : List ActionSpan) : Prop where
  pattern : e.patterns[m.pattern]? = some p
  derives : p.Derives (Leaf.Accepts e.alphabet) 0 w os
  reports : Reports p.slotCount.toNat os m.actions

/-- There are numbers of 32 bits enough for the nodes and arcs of an engine, and for the steps of a
call over an input of the given length, in which each pattern takes one step to begin with and no
more than one for each symbol. -/
structure RoomFor (e : Engine) (length : Nat) : Prop where
  nodes : Numbered32 e.program.automaton.nodeCount
  arcs : Numbered32 e.program.automaton.arcCount
  steps : e.patterns.length * (length + 1) < UInt32.size

variable {e : Engine} {bounds : List BoundPattern} {τ : Type} {g : τ → Input}
  {S : τ → String → Prop} {xs : List τ} {extent : Extent} {m : Match}

theorem RoomFor.mono {n k : Nat} (h : e.RoomFor n) (le : k ≤ n) : e.RoomFor k where
  nodes := h.nodes
  arcs := h.arcs
  steps := Nat.lt_of_le_of_lt (Nat.mul_le_mul_left _ (Nat.succ_le_succ le)) h.steps

theorem Compiled.program_eq (h : Compiled e bounds) : e.program = .ofPatterns bounds := by
  rw [program, h.stage]

theorem Compiled.laid (h : Compiled e bounds) : Laid bounds e.program := by
  rw [h.program_eq]
  exact laid_ofPatterns bounds

theorem Compiled.exists_owns (h : Compiled e bounds) {i : Nat} {c : Fragment}
    (hc : e.program.fragments[i]? = some c) : ∃ p b base, e.patterns[i]? = some p ∧
      e.alphabet.bindPattern p = .ok b ∧ c = ⟨base, base + 1, b.slotCount⟩ ∧
      Owns e.program.automaton base b := by
  have all := forall₂_of_bindAll h.bound
  have lt := (List.getElem?_eq_some_iff.1 hc).1
  rw [h.laid.length] at lt
  obtain ⟨base, hbase, owns⟩ := h.laid.owned (List.getElem?_eq_getElem lt)
  rw [hc, Option.some_inj] at hbase
  have lt' : i < e.patterns.length := all.length_eq ▸ lt
  exact ⟨e.patterns[i], bounds[i], base, List.getElem?_eq_getElem lt', all.get lt' lt, hbase, owns⟩

theorem Compiled.exists_fragment (h : Compiled e bounds) {i : Nat} {p : TextPattern}
    (hp : e.patterns[i]? = some p) : ∃ c, e.program.fragments[i]? = some c := by
  have lt := (List.getElem?_eq_some_iff.1 hp).1
  rw [(forall₂_of_bindAll h.bound).length_eq, ← h.laid.length] at lt
  exact ⟨_, List.getElem?_eq_getElem lt⟩

/-- The lengths that the fragment of a pattern can accept are those of words that the pattern
recognizes. -/
theorem Compiled.mem_lengths_iff (h : Compiled e bounds) (reads : Reads e.alphabet g S)
    {i n : Nat} {c : Fragment} (hc : e.program.fragments[i]? = some c) :
    n ∈ e.program.automaton.lengths c (xs.map g) extent ↔
      ∃ w, Admits S xs extent n w ∧ e.Recognizes i w := by
  obtain ⟨p, b, base, hp, hb, rfl, owns⟩ := h.exists_owns hc
  rw [lengths, Set.mem_ofPred_eq, List.length_map, owns.leads_iff h.laid.wellFormed,
    ← List.map_take, Pattern.mem_language_iff 0]
  simp only [Alphabet.derives_bind_iff hb reads]
  constructor
  · rintro ⟨allows, os, w, hw, hd⟩
    exact ⟨w, ⟨allows, hw⟩, p, hp, (Pattern.mem_language_iff 0).2 ⟨os, hd⟩⟩
  · rintro ⟨w, ⟨allows, hw⟩, p', hp', hd⟩
    rw [hp, Option.some_inj] at hp'
    subst hp'
    obtain ⟨os, hd⟩ := (Pattern.mem_language_iff 0).1 hd
    exact ⟨allows, os, w, hw, hd⟩

theorem Compiled.yields_of_mem_all (h : Compiled e bounds) {input : List Input}
    (hm : m ∈ e.program.all input extent) :
    Program.Yields e.program.automaton e.program.fragments input extent 0 m :=
  Program.yields_of_mem_allFrom h.laid.wellFormed rfl hm

theorem Compiled.yields_of_find (h : Compiled e bounds) {input : List Input}
    (hm : e.program.find input extent = some m) :
    Program.Yields e.program.automaton e.program.fragments input extent 0 m :=
  Program.yields_of_findFrom h.laid.wellFormed rfl hm

/-- What a run yields is the match of a word that the input stands for. -/
theorem Compiled.parses_of_yields (h : Compiled e bounds) (reads : Reads e.alphabet g S)
    (yields : Program.Yields e.program.automaton e.program.fragments (xs.map g) extent 0 m) :
    ∃ w p os, Admits S xs extent m.length w ∧ e.Parses m p w os := by
  obtain ⟨j, c, ⟨n, slots⟩, hc, rfl, allows, path, hpath, hslots⟩ := yields
  obtain ⟨p, b, base, hp, hb, rfl, owns⟩ := h.exists_owns hc
  obtain ⟨os, hd, marked⟩ := owns.derives h.laid.wellFormed hpath
  rw [List.length_map] at allows
  rw [← List.map_take] at hd
  obtain ⟨w, hw, hd⟩ := (Alphabet.derives_bind_iff hb reads).1 hd
  refine ⟨w, p, os, ⟨allows, hw⟩, ?_, hd, ?_⟩
  · rw [Program.toMatch, Nat.zero_add]
    exact hp
  · dsimp only at hslots
    rw [Program.toMatch, hslots, Pattern.slotCount_congr (Pattern.actions_mapLeaves p hb)]
    exact reports_spans _ marked

theorem Compiled.ready (h : Compiled e bounds) (g : τ → Input) (room : e.RoomFor xs.length) :
    e.program.automaton.Ready (Program.stepsUpTo e.program.fragments (xs.map g))
      (.new e.program.automaton.nodeCount) := by
  apply ready_new
  rw [Program.stepsUpTo, h.laid.length, ← (forall₂_of_bindAll h.bound).length_eq, List.length_map]
  exact room.steps

/-- The winning pattern is the first that recognizes something, and its match is the longest. -/
theorem Compiled.find_eq_some (h : Compiled e bounds) (reads : Reads e.alphabet g S)
    (room : e.RoomFor xs.length) (hm : e.program.find (xs.map g) extent = some m) :
    IsLeast {i | ∃ n w, Admits S xs extent n w ∧ e.Recognizes i w} m.pattern ∧
      IsGreatest {n | ∃ w, Admits S xs extent n w ∧ e.Recognizes m.pattern w} m.length := by
  obtain ⟨⟨j, c, n, slots, hc, rfl, greatest⟩, before⟩ :=
    Program.findFrom_eq_some h.laid.wellFormed h.laid.start_lt (h.ready g room) hm
  simp only [Program.toMatch, Nat.zero_add] at before ⊢
  have longest := (h.mem_lengths_iff reads hc).1 greatest.1
  refine ⟨⟨⟨n, longest⟩, ?_⟩, longest, fun n' hn' =>
    greatest.2 ((h.mem_lengths_iff reads hc).2 hn')⟩
  rintro i ⟨n', w, admits, hr⟩
  by_contra lt
  obtain ⟨p, hp, -⟩ := id hr
  obtain ⟨c', hc'⟩ := h.exists_fragment hp
  have := (h.mem_lengths_iff reads hc').2 ⟨w, admits, hr⟩
  rw [before i c' (Nat.lt_of_not_le lt) hc'] at this
  exact this

theorem Compiled.exists_find_iff (h : Compiled e bounds) (reads : Reads e.alphabet g S)
    (room : e.RoomFor xs.length) : (∃ m, e.program.find (xs.map g) extent = some m) ↔
      ∃ i n w, Admits S xs extent n w ∧ e.Recognizes i w := by
  constructor
  · rintro ⟨m, hm⟩
    exact ⟨m.pattern, (h.find_eq_some reads room hm).1.1⟩
  · rintro ⟨i, n, w, admits, hr⟩
    rw [← Option.isSome_iff_exists, Option.isSome_iff_ne_none]
    intro none
    obtain ⟨p, hp, -⟩ := id hr
    obtain ⟨c, hc⟩ := h.exists_fragment hp
    have := (h.mem_lengths_iff reads hc).2 ⟨w, admits, hr⟩
    rw [Program.findFrom_eq_none h.laid.wellFormed h.laid.start_lt (h.ready g room) none c
      (List.mem_of_getElem? hc)] at this
    exact this

/-- Behind patterns that still wait for more when the numbers of the steps have been used up, the
last one matches nothing, whatever it recognizes. -/
theorem Compiled.pattern_lt_of_mem_all (h : Compiled e bounds) (reads : Reads e.alphabet g S)
    {ps : List TextPattern} {q : TextPattern} (patterns : e.patterns = ps ++ [q])
    (steps : ps.length * (xs.length + 1) + 1 = UInt32.size)
    (waiting : ∀ p ∈ ps, ∃ ys w, List.Forall₂ S (xs ++ ys) w ∧
      w ∈ p.language (Leaf.Accepts e.alphabet))
    (hm : m ∈ e.program.all (xs.map g) extent) : m.pattern < ps.length := by
  have length := (forall₂_of_bindAll h.bound).length_eq
  rw [patterns, List.length_append, List.length_singleton] at length
  obtain ⟨bs, b, rfl⟩ : ∃ bs b, bounds = bs ++ [b] := by
    refine (List.eq_nil_or_concat' bounds).resolve_left ?_
    rintro rfl
    cases length
  rw [List.length_append, List.length_singleton, Nat.succ_inj] at length
  have lives : ∀ i < bs.length, ∀ c, e.program.fragments[i]? = some c →
      Program.Lives e.program.automaton c (xs.map g) := by
    intro i lt c hc
    have lt : i < ps.length := length ▸ lt
    obtain ⟨ys, w, hw, mem⟩ := waiting ps[i] (List.getElem_mem lt)
    have hp : e.patterns[i]? = some ps[i] := by
      rw [patterns, List.getElem?_append_left lt, List.getElem?_eq_getElem lt]
    have all : (xs ++ ys).length ∈
        e.program.automaton.lengths c ((xs ++ ys).map g) .whole :=
      (h.mem_lengths_iff reads hc).2 ⟨w, ⟨rfl, by rwa [List.take_length]⟩, ps[i], hp, mem⟩
    obtain ⟨-, p, path⟩ := all
    rw [List.take_of_length_le (by rw [List.length_map]), List.map_append] at path
    obtain ⟨p, n, path⟩ := path.exists_start
    exact ⟨p, n, path⟩
  rw [h.program_eq] at hm lives
  rw [length]
  exact Program.pattern_lt_of_mem_all (by rwa [← length, List.length_map]) lives hm

/-! ## Words of symbols -/

theorem admits_leading_iff {w u : List String} {n : Nat} :
    Admits (· = ·) w .leading n u ↔ u ≠ [] ∧ u <+: w ∧ u.length = n := by
  rw [Admits, List.forall₂_eq_eq_eq]
  constructor
  · rintro ⟨⟨hpos, hle⟩, rfl⟩
    have length : (w.take n).length = n := List.length_take_of_le hle
    refine ⟨fun h => ?_, List.take_prefix n w, length⟩
    rw [h, List.length_nil] at length
    omega
  · rintro ⟨hne, ⟨v, rfl⟩, rfl⟩
    rw [List.length_append, List.take_left]
    exact ⟨⟨List.length_pos_iff.2 hne, Nat.le_add_right _ _⟩, rfl⟩

theorem admits_whole_iff {w u : List String} {n : Nat} :
    Admits (· = ·) w .whole n u ↔ n = w.length ∧ w = u := by
  rw [Admits, List.forall₂_eq_eq_eq]
  apply and_congr_right
  intro h
  obtain rfl := h
  rw [List.take_length]

theorem exists_admits_leading_iff {w : List String} {R : List String → Prop} :
    (∃ n u, Admits (· = ·) w .leading n u ∧ R u) ↔ ∃ u, u ≠ [] ∧ u <+: w ∧ R u := by
  simp only [admits_leading_iff]
  constructor
  · rintro ⟨n, u, ⟨hne, hpre, -⟩, hu⟩; exact ⟨u, hne, hpre, hu⟩
  · rintro ⟨u, hne, hpre, hu⟩; exact ⟨u.length, u, ⟨hne, hpre, rfl⟩, hu⟩

theorem exists_admits_whole_iff {w : List String} {R : List String → Prop} :
    (∃ n u, Admits (· = ·) w .whole n u ∧ R u) ↔ R w := by
  simp only [admits_whole_iff]
  constructor
  · rintro ⟨n, u, ⟨-, rfl⟩, hu⟩; exact hu
  · intro hw; exact ⟨w.length, w, ⟨rfl, rfl⟩, hw⟩

/-- A bound engine matches the whole of a word when some pattern recognizes it, and then with the
first such pattern; it matches a part at the start when some pattern recognizes a non-empty prefix,
and then with the first such pattern and its longest such prefix. -/
theorem matchSymbols_correct (ops : List Operation) (bound : (after ops).isBound = true)
    (w : List String) (room : (after ops).RoomFor w.length) :
    ((∃ m, (after ops).matchSymbols w .whole = some m) ↔ ∃ i, (after ops).Recognizes i w) ∧
    (∀ m, (after ops).matchSymbols w .whole = some m →
      IsLeast {i | (after ops).Recognizes i w} m.pattern ∧ m.length = w.length) ∧
    ((∃ m, (after ops).matchSymbols w .leading = some m) ↔
      ∃ i u, u ≠ [] ∧ u <+: w ∧ (after ops).Recognizes i u) ∧
    (∀ m, (after ops).matchSymbols w .leading = some m →
      IsLeast {i | ∃ u, u ≠ [] ∧ u <+: w ∧ (after ops).Recognizes i u} m.pattern ∧
      IsGreatest {n | ∃ u, u ≠ [] ∧ u <+: w ∧ u.length = n ∧ (after ops).Recognizes m.pattern u}
        m.length) := by
  obtain ⟨bounds, h⟩ := exists_compiled ops bound
  generalize after ops = e at h room
  have reads := reads_text e.alphabet
  refine ⟨?_, fun m hm => ?_, ?_, fun m hm => ?_⟩
  · apply (h.exists_find_iff reads room).trans
    simp only [exists_admits_whole_iff]
  · obtain ⟨least, ⟨u, admits, -⟩, -⟩ := h.find_eq_some reads room hm
    simp only [exists_admits_whole_iff] at least
    exact ⟨least, (admits_whole_iff.1 admits).1⟩
  · apply (h.exists_find_iff reads room).trans
    simp only [exists_admits_leading_iff]
  · obtain ⟨least, greatest⟩ := h.find_eq_some reads room hm
    simp only [exists_admits_leading_iff] at least
    simp only [admits_leading_iff, and_assoc] at greatest
    exact ⟨least, greatest⟩

/-- The calls for one pattern: `a`, and then any symbol but `b` or none, each under an action. -/
def tagged : List Operation :=
  [.register "c",
    .add (.sequence [.action 0 (.leaf (.literal "a")),
      .action 1 (.optional (.leaf (.set true [.literal "b"])))]),
    .bind]

theorem roomFor_tagged : (after tagged).RoomFor 2 where
  nodes := numbered32_iff.2 (by decide)
  arcs := numbered32_iff.2 (by decide)
  steps := by decide

theorem matchSymbols_correct_tagged : (after tagged).isBound = true ∧
    (after tagged).RoomFor 2 ∧
    ∃ m, (after tagged).matchSymbols ["a", "x"] .whole = some m ∧ m.pattern = 0 ∧ m.length = 2 := by
  have bound : (after tagged).isBound = true := rfl
  obtain ⟨exists_iff, whole, -, -⟩ := matchSymbols_correct tagged bound ["a", "x"] roomFor_tagged
  have recognizes : (after tagged).Recognizes 0 ["a", "x"] := by
    refine ⟨_, rfl, (Pattern.mem_language_iff 0).2 ⟨[⟨0, 0, 1⟩, ⟨1, 1, 2⟩], ?_⟩⟩
    have first : Leaf.Accepts (after tagged).alphabet (.literal "a") "a" := rfl
    have second : Leaf.Accepts (after tagged).alphabet (.set true [.literal "b"]) "x" := by
      simp [Leaf.Accepts, SetItem.Accepts]
    exact .cons (.action (.leaf first)) (.cons (.action (.take (.leaf second))) .nil)
  obtain ⟨m, hm⟩ := exists_iff.2 ⟨0, recognizes⟩
  obtain ⟨least, length⟩ := whole m hm
  exact ⟨bound, roomFor_tagged, m, hm, Nat.le_zero.1 (least.2 recognizes), length⟩

def anything : TextPattern := .zeroOrMore (.leaf .any)

def anythingToZ : TextPattern := .sequence [anything, .leaf (.literal "z")]

theorem mem_language_anything (a : Alphabet) (w : List String) :
    w ∈ anything.language (Leaf.Accepts a) := by
  have pieces : (w.map ([·])).flatten = w := List.flatMap_singleton' w
  exact Language.mem_kstar.2 ⟨_, pieces.symm, List.forall_mem_map.2 fun s _ => ⟨s, trivial, rfl⟩⟩

theorem mem_language_anythingToZ {a : Alphabet} {w : List String} :
    w ∈ anythingToZ.language (Leaf.Accepts a) ↔ ∃ u, w = u ++ ["z"] := by
  constructor
  · rintro ⟨u, -, v, ⟨_, ⟨s, (rfl : s = "z"), rfl⟩, _, rfl, rfl⟩, rfl⟩
    exact ⟨u, rfl⟩
  · rintro ⟨u, rfl⟩
    have last : ["z"] ∈ Pattern.language (Leaf.Accepts a) (.leaf (.literal "z")) := ⟨"z", rfl, rfl⟩
    exact Language.append_mem_mul (mem_language_anything a u)
      (Language.append_mem_mul last Language.nil_mem_one)

/-- A crowd of patterns that all wait for a `z`, and one behind them that takes anything. -/
def crowd (count : Nat) : List TextPattern := List.replicate count anythingToZ ++ [anything]

theorem forall_mem_crowd {P : TextPattern → Prop} {count : Nat} (first : P anythingToZ)
    (last : P anything) : ∀ p ∈ crowd count, P p := by
  refine List.forall_mem_append.2 ⟨fun p hp => ?_, List.forall_mem_singleton.2 last⟩
  rwa [List.eq_of_mem_replicate hp]

def crowded (count : Nat) : List Operation := (crowd count).map .add ++ [.bind]

theorem after_crowded (count : Nat) :
    (after (crowded count)).isBound = true ∧
      (after (crowded count)).patterns = crowd count := by
  have noRange {p : TextPattern} (h : p.ranges = []) : Ascending p.ranges := by
    rw [h]
    exact fun _ hr => absurd hr List.not_mem_nil
  exact after_adds_bind (s := {"z"}) (by decide) (forall_mem_crowd (by decide) (by decide))
    (forall_mem_crowd (noRange rfl) (noRange rfl))

theorem getElem?_crowd (count : Nat) : (crowd count)[count]? = some anything := by
  rw [crowd, List.getElem?_append_right (by simp)]
  simp

theorem recognizes_crowd {count : Nat} (patterns : e.patterns = crowd count) (w : List String) :
    e.Recognizes count w :=
  ⟨anything, patterns ▸ getElem?_crowd count, mem_language_anything _ w⟩

theorem forall₂_replicate_iff {n : Nat} {x : τ} {s : String} (h : ∀ t, S x t ↔ t = s)
    {w : List String} : List.Forall₂ S (List.replicate n x) w ↔ w = List.replicate n s := by
  induction n generalizing w with
  | zero => exact List.forall₂_nil_left_iff
  | succ n ih =>
    rw [List.replicate_succ, List.replicate_succ, List.forall₂_cons_left_iff]
    simp only [h, ih]
    constructor
    · rintro ⟨_, _, rfl, rfl, rfl⟩; rfl
    · rintro rfl; exact ⟨_, _, rfl, rfl, rfl⟩

/-- When the steps of the crowd over a word without `z` use up the numbers, nothing is found. -/
theorem Compiled.all_crowd (h : Compiled e bounds) (reads : Reads e.alphabet g S) {count n : Nat}
    {x z : τ} (patterns : e.patterns = crowd count) (steps : count * (n + 1) + 1 = UInt32.size)
    (hx : ∀ s, S x s ↔ s = "a") (hz : S z "z") :
    e.program.all ((List.replicate n x).map g) .whole = [] := by
  refine List.eq_nil_iff_forall_not_mem.2 fun m hm => ?_
  have lt := h.pattern_lt_of_mem_all reads patterns
    (by rwa [List.length_replicate, List.length_replicate]) (fun p hp => ?_) hm
  · obtain ⟨w, p, os, admits, parses⟩ := h.parses_of_yields reads (h.yields_of_mem_all hm)
    have hp := parses.pattern
    rw [patterns, crowd, List.getElem?_append_left lt] at hp
    obtain rfl := List.eq_of_mem_replicate (List.mem_of_getElem? hp)
    obtain ⟨u, rfl⟩ := mem_language_anythingToZ.1 (Pattern.mem_language_of_derives parses.derives)
    have word := admits.2
    rw [admits.1, List.take_length, forall₂_replicate_iff hx] at word
    have : "z" ∈ List.replicate n "a" := word ▸ List.mem_append_right u List.mem_cons_self
    exact absurd (List.eq_of_mem_replicate this) (by decide)
  · obtain rfl := List.eq_of_mem_replicate hp
    exact ⟨[z], List.replicate n "a" ++ ["z"],
      List.rel_append ((forall₂_replicate_iff hx).2 rfl) (.cons hz .nil),
      mem_language_anythingToZ.2 ⟨_, rfl⟩⟩

/-- The last of so many patterns recognizes so many symbols, but is not tried. -/
theorem matchSymbols_misses_crowd :
    let e := after (crowded 3855)
    e.isBound = true ∧ e.Recognizes 3855 (List.replicate 1114128 "a") ∧
      e.matchSymbols (List.replicate 1114128 "a") .whole = none := by
  intro e
  obtain ⟨bound, patterns⟩ := after_crowded 3855
  obtain ⟨bounds, compiled⟩ := exists_compiled _ bound
  have steps : 3855 * (1114128 + 1) + 1 = UInt32.size := by decide
  have none := compiled.all_crowd (reads_text _) patterns steps (fun s => eq_comm) (Eq.refl "z")
  refine ⟨bound, recognizes_crowd patterns _, ?_⟩
  rw [matchSymbols, Program.find_eq_head?]
  exact congrArg List.head? none

end Engine

end SymbolRegex
