import Mathlib.Data.List.Induction
import SymbolRegex.Proofs.History

/-! # The life of an engine

An engine takes symbols and patterns until it is asked to bind, and the first attempt
settles it. From then on no call changes it: an engine that is bound goes on matching,
one that has failed matches nothing, and neither takes another pattern.
-/

namespace SymbolRegex

namespace Engine

/-! ## Calls -/

inductive Query where
  | ordinals (ordinals : List Nat)
  | symbols (symbols : List String)
  | text (text : String)
  /-- With every pattern, not only with the first that accepts. -/
  | allOfText (text : String)
  | candidates (candidates : List (List String))

def find (e : Engine) (extent : Extent) : Query → List Match
  | .ordinals ordinals => (e.matchOrdinals ordinals extent).toList
  | .symbols symbols => (e.matchSymbols symbols extent).toList
  | .text text => (e.matchText text extent).toList
  | .allOfText text => e.allTextMatches text extent
  | .candidates candidates => (e.matchCandidates candidates extent).toList

inductive Call where
  | change (op : Operation)
  | ask (query : Query) (extent : Extent)

inductive Reply where
  | registered (result : Except RegistrationFault Nat)
  | registeredBytes (fault? : Option RegistrationFault)
  | added (result : Except AddFault Nat)
  | bound (succeeded : Bool)
  | found (found : List Match)

/-- The index that the pattern got, if one was added. -/
def Reply.index? : Reply → Option Nat
  | .added (.ok index) => some index
  | _ => none

theorem filterMap_index?_concat (rs : List Reply) (r : Reply) :
    (rs ++ [r]).filterMap Reply.index? = rs.filterMap Reply.index? ++ r.index?.toList := by
  cases hr : r.index? <;> simp [hr]

/-- The engine after a call. Matching leaves it alone. -/
def call (e : Engine) : Call → Engine
  | .change op => e.perform op
  | .ask _ _ => e

def reply (e : Engine) : Call → Reply
  | .change (.register text) => .registered ((e.register text).map (·.1))
  | .change .registerBytes => .registeredBytes e.registerBytes.2
  | .change (.add p) => .added (e.add p).2
  | .change .bind => .bound e.bind.1.isBound
  | .ask query extent => .found (e.find extent query)

/-- The diagnostics that a call offers to the queue it is given. What a queue makes of them, and
what it holds already, is nothing to the engine. -/
def offers (e : Engine) : Call → List Diagnostic
  | .change (.add p) =>
    match (e.add p).2 with
    | .ok _ => []
    | .error fault => fault.diagnostics
  | .change .bind => e.bind.2.map (·.diagnostic)
  | .change _ | .ask _ _ => []

def callAll (e : Engine) (calls : List Call) : Engine := calls.foldl call e

def replies (e : Engine) : List Call → List Reply
  | [] => []
  | c :: calls => e.reply c :: (e.call c).replies calls

variable {e : Engine} {op : Operation} {c : Call} {calls more : List Call} {rs : List Reply}

theorem callAll_append (e : Engine) (calls more : List Call) :
    e.callAll (calls ++ more) = (e.callAll calls).callAll more := List.foldl_append

theorem replies_append (e : Engine) (calls more : List Call) :
    e.replies (calls ++ more) = e.replies calls ++ (e.callAll calls).replies more := by
  induction calls generalizing e with
  | nil => rfl
  | cons c calls ih => exact congrArg (e.reply c :: ·) (ih (e.call c))

/-! ## What one call does -/

theorem call_of_ne_bind (e : Engine) (hc : c ≠ .change .bind) :
    ∃ alphabet added, e.call c = { e with alphabet, patterns := e.patterns ++ added } ∧
      e.alphabet.Grows alphabet ∧
      (e.reply c).index?.toList = List.range' e.patterns.length added.length := by
  have unchanged : e = { e with patterns := e.patterns ++ [] } := by simp
  match c with
  | .ask _ _ => exact ⟨e.alphabet, [], unchanged, .refl _, rfl⟩
  | .change .bind => exact absurd rfl hc
  | .change (.register text) =>
    rw [call, perform_register]
    cases hr : e.alphabet.register text with
    | error fault => exact ⟨e.alphabet, [], unchanged, .refl _, rfl⟩
    | ok r => exact ⟨r.2, [], by simp, Alphabet.grows_register hr, rfl⟩
  | .change .registerBytes =>
    have grows := Alphabet.grows_registerAll e.alphabet Alphabet.byteTexts
    exact ⟨_, [], by simp [call, perform, registerBytes, registerAll], grows, rfl⟩
  | .change (.add p) =>
    cases hs : e.stage with
    | bound | failed =>
      refine ⟨e.alphabet, [], ?_, .refl _, ?_⟩
      · simpa [call, perform, add, hs] using unchanged
      · simp [reply, add, hs, Reply.index?]
    | collecting =>
      have grows := Alphabet.grows_registerAll e.alphabet p.symbols
      cases hr : e.alphabet.registerAll p.symbols with
      | mk alphabet fault? =>
      rw [hr] at grows
      cases fault? with
      | some fault =>
        have hadd : e.add p = ({ e with alphabet }, .error (.registration fault)) := by
          simp [add, hs, setUp_eq, registerAll, hr]
        refine ⟨alphabet, [], ?_, grows, ?_⟩
        · simp [call, perform, hadd, hs]
        · simp [reply, hadd, Reply.index?]
      | none =>
        have hadd : e.add p =
            ({ e with alphabet, patterns := e.patterns ++ [p] }, .ok e.patterns.length) := by
          simp [add, hs, setUp_eq, registerAll, hr]
        refine ⟨alphabet, [p], ?_, grows, ?_⟩
        · simp [call, perform, hadd, hs]
        · simp [reply, hadd, Reply.index?]

/-- The first attempt to bind closes the alphabet and settles the engine. -/
theorem bind_of_collecting (h : e.stage = .collecting) : ∃ stage,
    e.bind.1 = { e with alphabet := e.alphabet.freeze, stage } ∧ stage ≠ .collecting := by
  simp only [bind, h]
  cases bindAll e.alphabet.freeze e.patterns with
  | ok bounds => exact ⟨_, rfl, Stage.noConfusion⟩
  | error faults => exact ⟨_, rfl, Stage.noConfusion⟩

theorem bind_of_ne_collecting (h : e.stage ≠ .collecting) : e.bind = (e, []) := by
  cases hs : e.stage with
  | collecting => exact absurd hs h
  | bound | failed => simp only [bind, hs]

/-! ## What many calls do -/

/-- The engine is as its history makes it: the calls and what they gave back. -/
structure Lived (e : Engine) (calls : List Call) (rs : List Reply) : Prop where
  frozen_iff : e.alphabet.frozen = true ↔ .change .bind ∈ calls
  settled_iff : e.stage ≠ .collecting ↔ .change .bind ∈ calls
  bound_iff : e.isBound = true ↔ .bound true ∈ rs
  failed_iff : e.stage = .failed ↔ .bound false ∈ rs
  indices : rs.filterMap Reply.index? = List.range e.patterns.length

theorem Lived.settled (h : e.Lived calls rs) (hs : e.stage ≠ .collecting) : e.Settled :=
  ⟨h.frozen_iff.2 (h.settled_iff.1 hs), hs⟩

theorem lived_new : Lived {} [] [] where
  frozen_iff := by simp
  settled_iff := by simp
  bound_iff := by simp [isBound]
  failed_iff := by simp
  indices := rfl

theorem bound_ne_reply (hc : c ≠ .change .bind) (b : Bool) : Reply.bound b ≠ e.reply c := by
  match c with
  | .change .bind => exact absurd rfl hc
  | .change (.register _) | .change .registerBytes | .change (.add _) | .ask _ _ =>
    exact Reply.noConfusion

theorem Lived.call_of_ne_bind (h : e.Lived calls rs) (hc : c ≠ .change .bind) :
    (e.call c).Lived (calls ++ [c]) (rs ++ [e.reply c]) := by
  obtain ⟨alphabet, added, he, grows, hi⟩ := e.call_of_ne_bind hc
  have hb : (e.call c).isBound = e.isBound := by rw [he]; rfl
  constructor
  case frozen_iff => simpa [he, hc.symm, grows.frozen] using h.frozen_iff
  case settled_iff => simpa [he, hc.symm] using h.settled_iff
  case bound_iff => simpa [hb, bound_ne_reply hc] using h.bound_iff
  case failed_iff => simpa [he, bound_ne_reply hc] using h.failed_iff
  case indices =>
    rw [filterMap_index?_concat, h.indices, hi, he, List.range_eq_range', List.length_append,
      List.range_eq_range', ← List.range'_append_1, Nat.zero_add]

theorem failed_iff_of_settled (h : e.stage ≠ .collecting) :
    e.stage = .failed ↔ e.isBound = false := by
  unfold isBound
  cases hs : e.stage with
  | collecting => exact absurd hs h
  | bound program => simp
  | failed => simp

theorem Lived.bind (h : e.Lived calls rs) :
    (e.call (.change .bind)).Lived (calls ++ [.change .bind])
      (rs ++ [e.reply (.change .bind)]) := by
  show Lived e.bind.1 _ (rs ++ [.bound e.bind.1.isBound])
  have hi (b : Bool) : (rs ++ [Reply.bound b]).filterMap Reply.index? =
      List.range e.patterns.length := by
    rw [filterMap_index?_concat, h.indices]
    exact List.append_nil _
  by_cases hs : e.stage = .collecting
  -- nothing was bound before, so this attempt is the one that decides
  · obtain ⟨stage, he, hstage⟩ := bind_of_collecting hs
    have settled : e.bind.1.stage ≠ .collecting := by rwa [he]
    have fresh (b : Bool) : Reply.bound b ∉ rs := by
      cases b with
      | true => rw [← h.bound_iff, isBound_eq, hs]; rintro ⟨_, ⟨⟩⟩
      | false => rw [← h.failed_iff, hs]; rintro ⟨⟩
    constructor
    case frozen_iff => simp [he, Alphabet.freeze]
    case settled_iff => simp [settled]
    case bound_iff =>
      rw [List.mem_append, or_iff_right (fresh true), List.mem_singleton, Reply.bound.injEq,
        eq_comm]
    case failed_iff =>
      rw [List.mem_append, or_iff_right (fresh false), List.mem_singleton, Reply.bound.injEq,
        failed_iff_of_settled settled, eq_comm]
    case indices => rw [hi, he]
  -- a later attempt gives again what the first one gave
  · have mem := h.settled_iff.1 hs
    rw [bind_of_ne_collecting hs]
    constructor
    case frozen_iff => simp [h.frozen_iff, mem]
    case settled_iff => simp [hs]
    case bound_iff =>
      rw [List.mem_append, ← h.bound_iff, List.mem_singleton, Reply.bound.injEq]
      exact (or_iff_left_of_imp Eq.symm).symm
    case failed_iff =>
      rw [List.mem_append, ← h.failed_iff, List.mem_singleton, Reply.bound.injEq]
      exact (or_iff_left_of_imp fun hb => (failed_iff_of_settled hs).2 hb.symm).symm
    case indices => exact hi e.isBound

/-- A new engine lives through any calls. -/
theorem lived (calls : List Call) : Lived (callAll {} calls) calls (replies {} calls) := by
  induction calls using List.reverseRecOn with
  | nil => exact lived_new
  | append_singleton calls c ih =>
    rw [callAll_append, replies_append]
    by_cases hc : c = .change .bind
    · subst hc
      exact ih.bind
    · exact ih.call_of_ne_bind hc

theorem Settled.callAll_eq (h : e.Settled) (calls : List Call) : e.callAll calls = e := by
  induction calls with
  | nil => rfl
  | cons c calls ih =>
    have : e.call c = e := by
      cases c with
      | change op => exact h.perform_eq op
      | ask _ _ => rfl
    show (e.call c).callAll calls = e
    rwa [this]

theorem grows_call (e : Engine) (c : Call) :
    e.alphabet.texts <+: (e.call c).alphabet.texts ∧ e.patterns <+: (e.call c).patterns := by
  by_cases hc : c = .change .bind
  · subst hc
    show _ <+: e.bind.1.alphabet.texts ∧ _ <+: e.bind.1.patterns
    by_cases hs : e.stage = .collecting
    · obtain ⟨stage, he, -⟩ := bind_of_collecting hs
      rw [he]
      exact ⟨List.prefix_rfl, List.prefix_rfl⟩
    · rw [bind_of_ne_collecting hs]
      exact ⟨List.prefix_rfl, List.prefix_rfl⟩
  · obtain ⟨alphabet, added, he, grows, -⟩ := e.call_of_ne_bind hc
    rw [he]
    exact ⟨grows.texts, List.prefix_append _ _⟩

theorem grows_callAll (e : Engine) (calls : List Call) :
    e.alphabet.texts <+: (e.callAll calls).alphabet.texts ∧
      e.patterns <+: (e.callAll calls).patterns := by
  induction calls generalizing e with
  | nil => exact ⟨List.prefix_rfl, List.prefix_rfl⟩
  | cons c calls ih =>
    obtain ⟨texts, patterns⟩ := e.grows_call c
    obtain ⟨texts', patterns'⟩ := ih (e.call c)
    exact ⟨texts.trans texts', patterns.trans patterns'⟩

/-! ## What an engine answers -/

/-- The engine finds nothing, and has no automaton to find it with. -/
structure Idle (e : Engine) : Prop where
  finds : ∀ extent query, e.find extent query = []
  nodes : e.program.automaton.nodeCount = 0
  arcs : e.program.automaton.arcCount = 0
  fragments : ∀ pattern, e.fragment? pattern = none

theorem program_of_not_bound (h : e.isBound = false) : e.program = {} := by
  unfold program
  split
  · next p hp => rw [(isBound_eq e).2 ⟨p, hp⟩] at h; cases h
  · rfl

theorem idle_of_not_bound (h : e.isBound = false) : e.Idle := by
  have none := program_of_not_bound h
  constructor
  case finds =>
    intro extent query
    cases query <;>
      simp [find, matchOrdinals, matchSymbols, matchText, allTextMatches, matchCandidates, none,
        Program.find, Program.findFrom, Program.all, Program.allFrom]
  case nodes => rw [none]; rfl
  case arcs => rw [none]; rfl
  case fragments => intro pattern; rw [fragment?, none]; rfl

theorem answers_of_bound (h : e.isBound = true) :
    e.reply (.change .bind) = .bound true ∧ e.offers (.change .bind) = [] ∧
      ∀ p, e.reply (.change (.add p)) = .added (.error (.alreadyBound p)) ∧
        ∃ d, e.offers (.change (.add p)) = [d] ∧ d.code = .lateRegistration := by
  obtain ⟨program, hs⟩ := (isBound_eq e).1 h
  refine ⟨?_, ?_, fun p => ⟨?_, ?_⟩⟩
  · simp [reply, bind, hs, h]
  · simp [offers, bind, hs]
  · simp [reply, add, hs]
  · simp [offers, add, hs, AddFault.diagnostics]
    rfl

/-- An engine that has failed refuses everything without a word. -/
theorem answers_of_failed (h : e.stage = .failed) :
    e.reply (.change .bind) = .bound false ∧ e.offers (.change .bind) = [] ∧
      ∀ p, e.reply (.change (.add p)) = .added (.error .alreadyFailed) ∧
        e.offers (.change (.add p)) = [] := by
  refine ⟨?_, ?_, fun p => ⟨?_, ?_⟩⟩
  · simp [reply, bind, h, isBound]
  · simp [offers, bind, h]
  · simp [reply, add, h]
  · simp [offers, add, h, AddFault.diagnostics]

/-- The first attempt to bind closes the alphabet and settles a new engine. Until then symbols and
patterns are only added, and patterns get the indices from 0 on; afterwards no call changes the
engine. While it is not bound it finds nothing and has no automaton. Once bound it stays so and
reports each further pattern; once it has failed it refuses everything and reports nothing. -/
theorem first_bind_settles (calls more : List Call) :
    let e := callAll {} calls
    let later := callAll {} (calls ++ more)
    (e.alphabet.frozen = true ↔ .change .bind ∈ calls) ∧
    (e.isBound = true ↔ .bound true ∈ replies {} calls) ∧
    (replies {} calls).filterMap Reply.index? = List.range e.patterns.length ∧
    e.alphabet.texts <+: later.alphabet.texts ∧ e.patterns <+: later.patterns ∧
    (.change .bind ∈ calls → later.alphabet = e.alphabet ∧ later.patterns = e.patterns) ∧
    (e.isBound = false → e.Idle) ∧
    (.bound true ∈ replies {} calls → later = e ∧
      later.reply (.change .bind) = .bound true ∧ later.offers (.change .bind) = [] ∧
      (∀ p, later.reply (.change (.add p)) = .added (.error (.alreadyBound p)) ∧
        ∃ d, later.offers (.change (.add p)) = [d] ∧ d.code = .lateRegistration) ∧
      ∀ extent query, later.find extent query = e.find extent query) ∧
    (.bound false ∈ replies {} calls → later = e ∧
      later.reply (.change .bind) = .bound false ∧ later.offers (.change .bind) = [] ∧
      (∀ p, later.reply (.change (.add p)) = .added (.error .alreadyFailed) ∧
        later.offers (.change (.add p)) = []) ∧
      ∀ extent query, later.find extent query = []) := by
  intro e later
  have life : e.Lived calls (replies {} calls) := lived calls
  have split : later = e.callAll more := callAll_append {} calls more
  have stays (settled : e.stage ≠ .collecting) : later = e := by
    rw [split]
    exact (life.settled settled).callAll_eq more
  obtain ⟨texts, patterns⟩ := e.grows_callAll more
  rw [← split] at texts patterns
  refine ⟨life.frozen_iff, life.bound_iff, life.indices, texts, patterns, fun hb => ?_,
    idle_of_not_bound, fun hb => ?_, fun hf => ?_⟩
  · have same := stays (life.settled_iff.2 hb)
    exact ⟨congrArg alphabet same, congrArg Engine.patterns same⟩
  · have bound := life.bound_iff.2 hb
    have settled : e.stage ≠ .collecting := by
      obtain ⟨program, hs⟩ := (isBound_eq e).1 bound
      rw [hs]
      exact Stage.noConfusion
    rw [stays settled]
    obtain ⟨hr, ho, hp⟩ := answers_of_bound bound
    exact ⟨rfl, hr, ho, hp, fun _ _ => rfl⟩
  · have failed := life.failed_iff.2 hf
    have settled : e.stage ≠ .collecting := by
      rw [failed]
      exact Stage.noConfusion
    rw [stays settled]
    obtain ⟨hr, ho, hp⟩ := answers_of_failed failed
    have idle := idle_of_not_bound ((failed_iff_of_settled settled).1 failed)
    exact ⟨rfl, hr, ho, hp, idle.finds⟩

def bindingOf (p : TextPattern) : List Call := [.change (.add p), .change .bind]

theorem first_bind_settles_ranges :
    let good := bindingOf (.leaf (.range "a" "b"))
    let bad := bindingOf (.leaf (.range "b" "a"))
    (.bound true ∈ replies {} good ∧
      callAll {} (good ++ [.change (.register "c"), .ask (.text "a") .whole]) = callAll {} good) ∧
    (.bound false ∈ replies {} bad ∧
      (callAll {} (bad ++ good)).reply (.change .bind) = .bound false) := by
  intro good bad
  have hgood : .bound true ∈ replies {} good := (lived good).bound_iff.1 rfl
  have hbad : .bound false ∈ replies {} bad := (lived bad).failed_iff.1 rfl
  obtain ⟨-, -, -, -, -, -, -, bound, -⟩ :=
    first_bind_settles good [.change (.register "c"), .ask (.text "a") .whole]
  obtain ⟨-, -, -, -, -, -, -, -, failed⟩ := first_bind_settles bad good
  exact ⟨⟨hgood, (bound hgood).1⟩, hbad, (failed hbad).2.1⟩

end Engine
end SymbolRegex
