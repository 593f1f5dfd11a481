import SymbolRegex.Proofs.Matching

/-! # Reported spans

Whatever the input is made of, the spans of a match are those of the occurrences in one
derivation of the word that is matched. They lie within the match, and what an action
spans that occurs once is what its body accepts.
-/

namespace SymbolRegex.Engine

open Automaton

/-- The spans of a match come from a derivation of the given word. -/
structure Explained (e : Engine) (m : Match) (w : List String) (p : TextPattern)
    (os : List ActionSpan) : Prop extends e.Parses m p w os where
  length : w.length = m.length
  within : ∀ s ∈ m.actions, s.enter ≤ s.leave ∧ s.leave ≤ m.length
  /-- An action that occurs once spans what a body of that action accepts. -/
  spans_once : ∀ s ∈ m.actions,
    (∀ o ∈ os, o.action = s.action → ∀ o' ∈ os, o'.action = s.action → o = o') →
    ∃ body, (s.action, body) ∈ p.parts ∧
      w.extract s.enter s.leave ∈ body.language (Leaf.Accepts e.alphabet)
  /-- An action that stands in the pattern once, not repeated, spans what its body accepts. -/
  spans_body : ∀ s ∈ m.actions, ∀ body, Pattern.OnlyAt s.action body p →
    w.extract s.enter s.leave ∈ body.language (Leaf.Accepts e.alphabet)

variable {e : Engine} {bounds : List BoundPattern} {m : Match} {w : List String}
  {p : TextPattern} {os : List ActionSpan} {τ : Type} {g : τ → Input} {S : τ → String → Prop}
  {xs : List τ} {extent : Extent}

/-- Each action that occurs in the derivation has a span. -/
structure Accounted (e : Engine) (m : Match) (w : List String) (p : TextPattern)
    (os : List ActionSpan) : Prop extends e.Explained m w p os where
  occurs_iff : ∀ i, i ∈ m.actions.map (·.action) ↔ i ∈ os.map (·.action)

theorem Parses.within (h : e.Parses m p w os) :
    ∀ s ∈ m.actions, s.enter ≤ s.leave ∧ s.leave ≤ w.length := by
  intro s hs
  obtain ⟨o, ho, hi, he⟩ := (h.reports.enter s hs).1
  obtain ⟨o', ho', hi', hl⟩ := (h.reports.leave s hs).1
  have first : s.enter ≤ o'.enter := (h.reports.enter s hs).2 ⟨o', ho', hi', rfl⟩
  obtain ⟨-, hle, hend⟩ := h.derives.bounds o' ho'
  exact ⟨first.trans (hl ▸ hle), by omega⟩

theorem Parses.explained (h : e.Parses m p w os) (length : w.length = m.length) :
    e.Explained m w p os where
  toParses := h
  length := length
  within s hs := length ▸ h.within s hs
  spans_once s hs once := h.reports.extract_mem h.derives hs once
  spans_body s hs body only := by
    obtain ⟨b, hb, hmem⟩ := h.reports.extract_mem h.derives hs (only.once h.derives)
    exact only.body_eq b hb ▸ hmem

/-- Numbers of 32 bits are enough for the nodes and arcs of an engine, and for the slots of each
pattern, of which there is one more than the highest index of an action. -/
structure InRange (e : Engine) : Prop where
  nodes : Numbered32 e.program.automaton.nodeCount
  arcs : Numbered32 e.program.automaton.arcCount
  slots : ∀ p ∈ e.patterns, ∀ i ∈ p.actions, i + 1 < UInt32.size

theorem Explained.accounted (h : e.Explained m w p os)
    (slotted : ∀ i ∈ p.actions, i + 1 < UInt32.size) : e.Accounted m w p os where
  toExplained := h
  occurs_iff i := by
    refine (h.reports.occurs_iff i).trans (and_iff_right_of_imp fun hi => ?_)
    obtain ⟨o, ho, rfl⟩ := List.mem_map.1 hi
    have mem := h.derives.mem_actions o ho
    exact Pattern.lt_slotCount mem (slotted _ mem)

theorem Compiled.explained (h : Compiled e bounds) (reads : Reads e.alphabet g S)
    (yields : Program.Yields e.program.automaton e.program.fragments (xs.map g) extent 0 m) :
    ∃ w p os, List.Forall₂ S (xs.take m.length) w ∧ e.Explained m w p os := by
  obtain ⟨w, p, os, ⟨allows, hw⟩, parses⟩ := h.parses_of_yields reads yields
  refine ⟨w, p, os, hw, parses.explained ?_⟩
  rw [← hw.length_eq]
  exact List.length_take_of_le allows.le

theorem Compiled.explained_symbols (h : Compiled e bounds) {symbols : List String}
    (yields : Program.Yields e.program.automaton e.program.fragments (e.symbolInput symbols) extent
      0 m) : ∃ p os, e.Explained m (symbols.take m.length) p os := by
  obtain ⟨w, p, os, hw, explained⟩ := h.explained (reads_text e.alphabet) yields
  rw [List.forall₂_eq_eq_eq] at hw
  exact ⟨p, os, hw ▸ explained⟩

/-- The spans of every match of a bound engine come from a derivation of the word that is matched:
the symbols themselves, some texts with the given ordinals, or some choice of candidates. -/
theorem exists_explained (ops : List Operation) (bound : (after ops).isBound = true)
    (range : (after ops).InRange)
    (extent : Extent) (m : Match) :
    (∀ symbols, (after ops).matchSymbols symbols extent = some m →
      ∃ p os, (after ops).Accounted m (symbols.take m.length) p os) ∧
    (∀ text, (after ops).matchText text extent = some m →
      ∃ p os, (after ops).Accounted m ((text.toList.map Char.toString).take m.length) p os) ∧
    (∀ text, m ∈ (after ops).allTextMatches text extent →
      ∃ p os, (after ops).Accounted m ((text.toList.map Char.toString).take m.length) p os) ∧
    (∀ ordinals, (after ops).matchOrdinals ordinals extent = some m →
      ∃ w p os, ordinals.take m.length = w.map (after ops).alphabet.ordinal ∧
        (after ops).Accounted m w p os) ∧
    (∀ candidates, (after ops).matchCandidates candidates extent = some m →
      ∃ w p os, List.Forall₂ (fun options s => s ∈ options) (candidates.take m.length) w ∧
        (after ops).Accounted m w p os) := by
  obtain ⟨bounds, h⟩ := exists_compiled ops bound
  generalize after ops = e at h range
  have accounted {w p os} (explained : e.Explained m w p os) : e.Accounted m w p os :=
    explained.accounted (range.slots p (List.mem_of_getElem? explained.pattern))
  refine ⟨fun symbols hm => ?_, fun text hm => ?_, fun text hm => ?_, fun ordinals hm => ?_,
    fun candidates hm => ?_⟩
  · obtain ⟨p, os, explained⟩ := h.explained_symbols (h.yields_of_find hm)
    exact ⟨p, os, accounted explained⟩
  · obtain ⟨p, os, explained⟩ := h.explained_symbols (h.yields_of_find hm)
    exact ⟨p, os, accounted explained⟩
  · obtain ⟨p, os, explained⟩ := h.explained_symbols (h.yields_of_mem_all hm)
    exact ⟨p, os, accounted explained⟩
  · obtain ⟨w, p, os, hw, explained⟩ :=
      h.explained (reads_ordinal e.alphabet) (h.yields_of_find hm)
    refine ⟨w, p, os, ?_, accounted explained⟩
    have := List.forall₂_map_right_iff.2 (hw.imp fun i s (e : _ = i) => e.symm)
    rwa [List.forall₂_eq_eq_eq] at this
  · obtain ⟨w, p, os, hw, explained⟩ :=
      h.explained (reads_candidates e.alphabet) (h.yields_of_find hm)
    exact ⟨w, p, os, hw, accounted explained⟩

theorem exists_explained_tagged : (after tagged).isBound = true ∧ (after tagged).InRange ∧
    ∃ p os, (after tagged).Accounted ⟨0, 2, [⟨0, 0, 1⟩, ⟨1, 1, 2⟩]⟩ ["a", "x"] p os := by
  have bound : (after tagged).isBound = true := rfl
  have slots : ∀ p ∈ (after tagged).patterns, ∀ i ∈ p.actions, i + 1 < UInt32.size := by decide
  have range : (after tagged).InRange := ⟨roomFor_tagged.nodes, roomFor_tagged.arcs, slots⟩
  have hm : (after tagged).matchSymbols ["a", "x"] .whole =
      some ⟨0, 2, [⟨0, 0, 1⟩, ⟨1, 1, 2⟩]⟩ := by cbv
  exact ⟨bound, range, (exists_explained tagged bound range .whole _).1 ["a", "x"] hm⟩

def repeated : List Operation :=
  [.add (.sequence [.action 0 (.leaf (.literal "a")), .action 0 (.leaf (.literal "b"))]), .bind]

/-- The calls for one pattern: `a` under an action with the last index of 32 bits. -/
def topmost : List Operation := [.add (.action 4294967295 (.leaf (.literal "a"))), .bind]

/-- Neither action is repeated, but the span of their index is that of both, which is what neither
body accepts. The last index is not reported at all. -/
theorem exists_unexplained :
    (after repeated).matchSymbols ["a", "b"] .whole = some ⟨0, 2, [⟨0, 0, 2⟩]⟩ ∧
    (∀ part ∈ ((after repeated).patterns.flatMap Pattern.parts),
      ["a", "b"].extract 0 2 ∉ part.2.language (Leaf.Accepts (after repeated).alphabet)) ∧
    (after topmost).matchSymbols ["a"] .whole = some ⟨0, 1, []⟩ ∧
    ∀ p ∈ (after topmost).patterns, ∀ w os,
      p.Derives (Leaf.Accepts (after topmost).alphabet) 0 w os → os ≠ [] := by
  refine ⟨by cbv, ?_, by cbv, ?_⟩
  · intro part hpart
    have bodies : part ∈ [(0, .leaf (.literal "a")), (0, .leaf (.literal "b"))] := hpart
    simp only [List.mem_cons, List.not_mem_nil, or_false] at bodies
    rcases bodies with rfl | rfl <;> rintro ⟨x, -, h⟩ <;> cases h
  · intro p hp w os h
    obtain rfl : p = .action 4294967295 (.leaf (.literal "a")) := List.mem_singleton.1 hp
    obtain ⟨os', rfl, -⟩ := Pattern.derives_action_iff.1 h
    exact List.cons_ne_nil _ _

end SymbolRegex.Engine
