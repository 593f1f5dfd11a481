import SymbolRegex.Proofs.Matching

/-! # Candidates

An input with several candidates at each position stands for all words that choose one
of them at each. One run over the sets of candidates finds what the first pattern finds
that matches some such word.
-/

namespace SymbolRegex.Engine

variable {e : Engine} {bounds : List BoundPattern} {candidates others : List (List String)}
  {extent : Extent} {n : Nat} {w : List String} {m : Match}

/-- A word chooses one candidate at each of the first positions, as many as are allowed. -/
def Chooses (candidates : List (List String)) (extent : Extent) (n : Nat) (w : List String) :
    Prop :=
  Admits (fun options s => s ∈ options) candidates extent n w

theorem forall₂_mem_mono {xs ys : List (List String)} (sub : List.Forall₂ (· ⊆ ·) xs ys)
    (h : List.Forall₂ (fun options s => s ∈ options) xs w) :
    List.Forall₂ (fun options s => s ∈ options) ys w := by
  induction sub generalizing w with
  | nil => exact h
  | cons hsub _ ih =>
    cases h with
    | cons hs h => exact .cons (hsub hs) (ih h)

theorem Chooses.mono (h : Chooses candidates extent n w)
    (sub : List.Forall₂ (· ⊆ ·) candidates others) : Chooses others extent n w := by
  obtain ⟨allows, hw⟩ := h
  exact ⟨sub.length_eq ▸ allows, forall₂_mem_mono (List.forall₂_take n sub) hw⟩

theorem candidateInput_congr (e : Engine)
    (same : List.Forall₂ (fun options options' => ∀ s, s ∈ options ↔ s ∈ options')
      candidates others) : e.candidateInput candidates = e.candidateInput others := by
  unfold candidateInput
  rw [← List.forall₂_eq_eq_eq, List.forall₂_map_left_iff, List.forall₂_map_right_iff]
  refine same.imp fun options options' h => congrArg Input.candidates ?_
  apply OrdinalSet.eq_of_contains
  · rw [OrdinalSet.width_ofList, OrdinalSet.width_ofList]
  · intro i
    have : i ∈ options.map e.alphabet.ordinal ↔ i ∈ options'.map e.alphabet.ordinal := by
      simp only [List.mem_map, h]
    simp only [OrdinalSet.contains_ofList, this]

/-- More candidates keep a match, and can only bring an earlier pattern to win. -/
theorem Compiled.matchCandidates_mono (h : Compiled e bounds)
    (room : e.RoomFor candidates.length) (sub : List.Forall₂ (· ⊆ ·) candidates others)
    (hm : e.matchCandidates candidates extent = some m) :
    ∃ m', e.matchCandidates others extent = some m' ∧ m'.pattern ≤ m.pattern := by
  have reads := reads_candidates e.alphabet
  obtain ⟨n, w, chooses, hr⟩ := (h.find_eq_some reads room hm).1.1
  have more := Chooses.mono chooses sub
  rw [sub.length_eq] at room
  obtain ⟨m', hm'⟩ := (h.exists_find_iff reads room).2 ⟨m.pattern, n, w, more, hr⟩
  exact ⟨m', hm', (h.find_eq_some reads room hm').1.2 ⟨n, w, more, hr⟩⟩

theorem Compiled.exists_recognizes_iff (h : Compiled e bounds) (room : e.RoomFor w.length) :
    (∃ i, e.Recognizes i w) ↔ ∃ m, e.matchSymbols w .whole = some m := by
  refine Iff.symm ((h.exists_find_iff (reads_text e.alphabet) room).trans ?_)
  simp only [exists_admits_whole_iff]

theorem Chooses.length_le (h : Chooses candidates extent n w) : w.length ≤ candidates.length := by
  rw [← h.2.length_eq]
  exact List.length_take_le' ..

/-- An input with candidates is matched when some choice is; the first pattern wins that recognizes
a choice, with the greatest length over all choices, and the spans are those of a choice. More
candidates never lose a match or let a later pattern win, and only the sets of candidates matter. -/
theorem matchCandidates_correct (ops : List Operation) (bound : (after ops).isBound = true)
    (candidates : List (List String)) (extent : Extent)
    (room : (after ops).RoomFor candidates.length) :
    ((∃ m, (after ops).matchCandidates candidates extent = some m) ↔
      ∃ n w, Chooses candidates extent n w ∧ ∃ m, (after ops).matchSymbols w .whole = some m) ∧
    (∀ m, (after ops).matchCandidates candidates extent = some m →
      IsLeast {i | ∃ n w, Chooses candidates extent n w ∧ (after ops).Recognizes i w} m.pattern ∧
      IsGreatest {n | ∃ w, Chooses candidates extent n w ∧ (after ops).Recognizes m.pattern w}
        m.length ∧
      ∃ w p os, Chooses candidates extent m.length w ∧ (after ops).Parses m p w os) ∧
    (∀ others, List.Forall₂ (· ⊆ ·) candidates others →
      ∀ m, (after ops).matchCandidates candidates extent = some m →
      ∃ m', (after ops).matchCandidates others extent = some m' ∧ m'.pattern ≤ m.pattern) ∧
    (∀ others, List.Forall₂ (fun options options' => ∀ s, s ∈ options ↔ s ∈ options')
        candidates others →
      (after ops).matchCandidates candidates extent =
        (after ops).matchCandidates others extent) := by
  obtain ⟨bounds, h⟩ := exists_compiled ops bound
  generalize after ops = e at h room
  have reads := reads_candidates e.alphabet
  refine ⟨?_, fun m hm => ?_, fun others sub m hm => h.matchCandidates_mono room sub hm,
    fun others same => congrArg (e.program.find · extent) (candidateInput_congr e same)⟩
  · have accepts {n : Nat} {w : List String} (chooses : Chooses candidates extent n w) :
        (∃ i, e.Recognizes i w) ↔ ∃ m, e.matchSymbols w .whole = some m :=
      h.exists_recognizes_iff (room.mono chooses.length_le)
    apply (h.exists_find_iff reads room).trans
    constructor
    · rintro ⟨i, n, w, chooses, hr⟩; exact ⟨n, w, chooses, (accepts chooses).1 ⟨i, hr⟩⟩
    · rintro ⟨n, w, chooses, hm⟩
      obtain ⟨i, hr⟩ := (accepts chooses).2 hm
      exact ⟨i, n, w, chooses, hr⟩
  · obtain ⟨least, greatest⟩ := h.find_eq_some reads room hm
    exact ⟨least, greatest, h.parses_of_yields reads (h.yields_of_find hm)⟩

theorem matchCandidates_correct_tagged : (after tagged).isBound = true ∧
    (after tagged).RoomFor 2 ∧
    ∃ m, (after tagged).matchCandidates [["b", "a"], ["b", "x"]] .whole = some m := by
  have bound : (after tagged).isBound = true := rfl
  obtain ⟨exists_iff, -⟩ :=
    matchCandidates_correct tagged bound [["b", "a"], ["b", "x"]] .whole roomFor_tagged
  refine ⟨bound, roomFor_tagged,
    exists_iff.2 ⟨2, ["a", "x"], ⟨rfl, ?_⟩, ⟨0, 2, [⟨0, 0, 1⟩, ⟨1, 1, 2⟩]⟩, by cbv⟩⟩
  exact .cons (by simp) (.cons (by simp) .nil)

/-- With one candidate at each position, the choice is recognized by the last of so many patterns,
which is not tried. -/
theorem matchCandidates_misses_crowd :
    let e := after (crowded 3855)
    let candidates := List.replicate 1114128 ["a"]
    e.isBound = true ∧ (∃ w, Chooses candidates .whole 1114128 w ∧ e.Recognizes 3855 w) ∧
      e.matchCandidates candidates .whole = none := by
  intro e candidates
  obtain ⟨bound, patterns⟩ := after_crowded 3855
  obtain ⟨bounds, compiled⟩ := exists_compiled _ bound
  have steps : 3855 * (1114128 + 1) + 1 = UInt32.size := by decide
  have only (s : String) : s ∈ ["a"] ↔ s = "a" := List.mem_singleton
  have none := compiled.all_crowd (reads_candidates _) patterns steps only
    (List.mem_singleton_self "z")
  have length : candidates.length = 1114128 := List.length_replicate
  have chooses : Chooses candidates .whole 1114128 (List.replicate 1114128 "a") := by
    refine ⟨length.symm, ?_⟩
    rw [List.take_of_length_le length.le]
    exact (forall₂_replicate_iff only).2 rfl
  refine ⟨bound, ⟨_, chooses, recognizes_crowd patterns _⟩, ?_⟩
  rw [matchCandidates, Program.find_eq_head?]
  exact congrArg List.head? none

end SymbolRegex.Engine
