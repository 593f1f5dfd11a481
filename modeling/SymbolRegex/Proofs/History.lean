import Mathlib.Data.List.Defs
import SymbolRegex.Engine.Match
import SymbolRegex.Proofs.Growth

/-! # Engines in use

An engine changes only by registering symbols, adding patterns and binding. Whatever
is called in whatever order, once an engine is bound its alphabet is closed and its
program is made of the patterns as they are bound to that alphabet.
-/

namespace SymbolRegex

namespace Engine

inductive Operation where
  | register (text : String)
  | registerBytes
  | add (pattern : TextPattern)
  | bind

/-- The engine after a call, whether or not it succeeds. -/
def perform (e : Engine) : Operation → Engine
  | .register text =>
    match e.register text with
    | .ok (_, e') => e'
    | .error _ => e
  | .registerBytes => e.registerBytes.1
  | .add p => (e.add p).1
  | .bind => e.bind.1

def after (ops : List Operation) : Engine := ops.foldl perform {}

/-- The engine is bound, and its patterns come to the given bound ones. -/
structure Compiled (e : Engine) (bounds : List BoundPattern) : Prop where
  frozen : e.alphabet.frozen = true
  bound : bindAll e.alphabet e.patterns = .ok bounds
  stage : e.stage = .bound (.ofPatterns bounds)

variable {e : Engine} {bounds : List BoundPattern}

theorem perform_register (e : Engine) (text : String) : e.perform (.register text) =
    match e.alphabet.register text with
    | .ok (_, alphabet) => { e with alphabet }
    | .error _ => e := by
  simp only [perform, register]
  generalize e.alphabet.register text = r
  cases r <;> rfl

structure Settled (e : Engine) : Prop where
  frozen : e.alphabet.frozen = true
  stage : e.stage ≠ .collecting

/-- No call changes an engine that is settled. -/
theorem Settled.perform_eq (h : e.Settled) (op : Operation) : e.perform op = e := by
  cases op with
  | register text =>
    rw [perform_register]
    split
    · next i a' ht => rw [Alphabet.eq_of_register_frozen h.frozen ht]
    · rfl
  | registerBytes =>
    have := Alphabet.registerAll_frozen h.frozen Alphabet.byteTexts
    simp only [perform, registerBytes, registerAll, this]
  | add p =>
    cases hs : e.stage with
    | collecting => exact absurd hs h.stage
    | bound | failed => simp only [perform, add, hs]
  | bind =>
    cases hs : e.stage with
    | collecting => exact absurd hs h.stage
    | bound | failed => simp only [perform, bind, hs]

theorem Compiled.settled (h : Compiled e bounds) : e.Settled where
  frozen := h.frozen
  stage := by rw [h.stage]; exact Stage.noConfusion

theorem isBound_eq (e : Engine) : e.isBound = true ↔ ∃ program, e.stage = .bound program := by
  unfold isBound
  split
  · next p hp => exact iff_of_true rfl ⟨p, hp⟩
  · next hn => exact iff_of_false Bool.false_ne_true fun ⟨p, hp⟩ => hn p hp

theorem stage_add (e : Engine) (p : TextPattern) : (e.add p).1.stage = e.stage := by
  unfold add
  split
  · rfl
  · rfl
  · have hr : (e.setUp p).1.stage = e.stage := rfl
    split
    · next e' fault h => rw [h] at hr; exact hr
    · next e' h => rw [h] at hr; exact hr

theorem stage_perform (e : Engine) {op : Operation} (h : op ≠ .bind) :
    (e.perform op).stage = e.stage := by
  cases op with
  | register text => rw [perform_register]; split <;> rfl
  | registerBytes => rfl
  | add p => exact stage_add e p
  | bind => exact absurd rfl h

theorem exists_compiled_bind (h : e.isBound = true → ∃ bounds, Compiled e bounds)
    (hbound : e.bind.1.isBound = true) : ∃ bounds, Compiled e.bind.1 bounds := by
  unfold bind at hbound ⊢
  split
  · next program hs => exact h ((isBound_eq e).2 ⟨program, hs⟩)
  · next hs =>
    rw [hs] at hbound
    exact h hbound
  · next hs =>
    rw [hs] at hbound
    dsimp only at hbound ⊢
    cases hb : bindAll e.alphabet.freeze e.patterns with
    | error faults => rw [hb] at hbound; cases hbound
    | ok bounds => exact ⟨bounds, rfl, hb, rfl⟩

theorem exists_compiled_perform (h : e.isBound = true → ∃ bounds, Compiled e bounds)
    (op : Operation) (hbound : (e.perform op).isBound = true) :
    ∃ bounds, Compiled (e.perform op) bounds := by
  by_cases hop : op = .bind
  · subst hop
    exact exists_compiled_bind h hbound
  · obtain ⟨program, hp⟩ := (isBound_eq _).1 hbound
    rw [stage_perform e hop] at hp
    obtain ⟨bounds, hc⟩ := h ((isBound_eq e).2 ⟨program, hp⟩)
    rw [hc.settled.perform_eq op]
    exact ⟨bounds, hc⟩

/-- Once an engine is bound, its program is made of its patterns. -/
theorem exists_compiled (ops : List Operation) (h : (after ops).isBound = true) :
    ∃ bounds, Compiled (after ops) bounds := by
  suffices preserved : ∀ e : Engine, (e.isBound = true → ∃ bounds, Compiled e bounds) →
      (ops.foldl perform e).isBound = true → ∃ bounds, Compiled (ops.foldl perform e) bounds from
    preserved {} (fun h => by cases h) h
  clear h
  induction ops with
  | nil => exact fun e he h => he h
  | cons op ops ih => exact fun e he h => ih _ (exists_compiled_perform he op) h

theorem forall₂_of_bindAll {a : Alphabet} {ps : List TextPattern} {bounds : List BoundPattern}
    (h : bindAll a ps = .ok bounds) :
    List.Forall₂ (fun p b => a.bindPattern p = .ok b) ps bounds := by
  induction ps generalizing bounds with
  | nil =>
    obtain rfl := Except.ok.inj h
    exact .nil
  | cons p ps ih =>
    unfold bindAll at h
    split at h
    · next b bs hb hbs =>
      obtain rfl := Except.ok.inj h
      exact .cons hb (ih hbs)
    · cases h
    · cases h
    · cases h

end Engine
end SymbolRegex
