import Mathlib.Data.List.Chain
import Mathlib.Data.List.Induction
import SymbolRegex.Diagnostic.Queue

/-! # What a queue keeps

A queue keeps what it is offered in order. It drops an offer that repeats the one kept
before, and every offer after the limit is reached, of which the first leaves a warning
behind that stays the last. An error that is dropped has one before it in the queue, so
nothing that was reported as an error leaves the queue without one.
-/

namespace SymbolRegex.Queue

inductive Operation where
  | add (d : Diagnostic)
  /-- Report an error, which the caller relies on to be known. -/
  | emit (d : Diagnostic) (error : d.isError = true)
  | flush

def perform (q : Queue) : Operation → Queue
  | .add d | .emit d _ => q.add d
  | .flush => q.flush

def after (config : QueueConfig) (ops : List Operation) : Queue := ops.foldl perform { config }

/-- What was offered since the queue was last emptied, after one more call. -/
def record (offers : List Diagnostic) : Operation → List Diagnostic
  | .add d | .emit d _ => offers ++ [d]
  | .flush => []

def offered (ops : List Operation) : List Diagnostic := ops.foldl record []

/-- What is left of the offers, which is all but the warning about the limit. -/
def kept (q : Queue) : List Diagnostic :=
  if q.limitNoted then q.diagnostics.dropLast else q.diagnostics

variable {config : QueueConfig} {offers : List Diagnostic} {q q' : Queue} {d : Diagnostic}

@[simp] theorem isError_limitWarning (limit : Nat) : (limitWarning limit).isError = false := rfl

theorem config_addAll (q : Queue) (ds : List Diagnostic) : (q.addAll ds).config = q.config := by
  induction ds generalizing q with
  | nil => rfl
  | cons d ds ih => rw [addAll_cons, ih, config_add]

/-- Emptying a queue makes it new, so it holds what came of the later offers. -/
theorem after_eq (config : QueueConfig) (ops : List Operation) :
    after config ops = ({ config } : Queue).addAll (offered ops) := by
  induction ops using List.reverseRecOn with
  | nil => rfl
  | append_singleton ops op ih =>
    have performed : after config (ops ++ [op]) = (after config ops).perform op :=
      List.foldl_concat _ _ op ops
    have recorded : offered (ops ++ [op]) = record (offered ops) op :=
      List.foldl_concat _ _ op ops
    rw [performed, recorded, ih]
    cases op with
    | add d => exact (addAll_append _ _ [d]).symm
    | emit d _ => exact (addAll_append _ _ [d]).symm
    | flush =>
      have := config_addAll { config } (offered ops)
      rw [perform, flush, this]
      rfl

/-! ## One offer -/

/-- What becomes of a queue that is offered a diagnostic. -/
inductive Adds (q : Queue) (d : Diagnostic) : Queue → Prop where

  | silenced : q.limitReached = true → q.limitNoted = true → Adds q d q

  | noted : q.limitReached = true → q.limitNoted = false → Adds q d { q with
      diagnostics := q.diagnostics ++ [limitWarning q.config.errorLimit], limitNoted := true }

  | repeated : q.limitReached = false → q.repeats d = true → Adds q d q

  | queued : q.limitReached = false → q.repeats d = false → Adds q d { q with
      diagnostics := q.diagnostics ++ [d]
      errorCount := if d.isError then q.errorCount + 1 else q.errorCount }

theorem adds_add (q : Queue) (d : Diagnostic) : Adds q d (q.add d) := by
  unfold add
  split
  · next reached =>
    split
    · next noted => exact .silenced reached noted
    · next noted => exact .noted reached (eq_false_of_ne_true noted)
  · next below =>
    have below := eq_false_of_ne_true below
    split
    · next repeated => exact .repeated below repeated
    · next fresh => exact .queued below (eq_false_of_ne_true fresh)

theorem limitReached_iff : q.limitReached = true ↔
    0 < q.config.errorLimit ∧ q.config.errorLimit ≤ q.errorCount := by
  simp [limitReached]

theorem limitReached_eq_false_iff : q.limitReached = false ↔
    0 < q.config.errorLimit → q.errorCount < q.config.errorLimit := by
  simp [limitReached]

theorem repeats_iff : q.repeats d = true ↔
    q.config.deduplicate = true ∧ q.diagnostics.getLast? = some d := by
  simp [repeats]

/-- A queue is as its offers make it. -/
structure Holds (config : QueueConfig) (offers : List Diagnostic) (q : Queue) : Prop where
  config_eq : q.config = config
  counted : q.errorCount = q.diagnostics.countP (·.isError)
  limited : 0 < config.errorLimit → q.errorCount ≤ config.errorLimit
  sublist : q.kept.Sublist offers
  split : q.diagnostics =
    q.kept ++ if q.limitNoted then [limitWarning config.errorLimit] else []
  /-- The limit is reached by an error, after which nothing is kept. -/
  reached : q.limitReached = true → ∃ d ∈ q.kept.getLast?, d.isError = true
  reached_of_noted : q.limitNoted = true → q.limitReached = true
  distinct : config.deduplicate = true → q.diagnostics.IsChain (· ≠ ·)

theorem holds_new (config : QueueConfig) : Holds config [] { config } where
  config_eq := rfl
  counted := rfl
  limited _ := Nat.zero_le _
  sublist := List.Sublist.refl _
  split := rfl
  reached h := by
    have := limitReached_iff.1 h
    dsimp only at this
    omega
  reached_of_noted h := by cases h
  distinct _ := .nil

namespace Holds

theorem limitNoted_eq_false (h : Holds config offers q) (below : q.limitReached = false) :
    q.limitNoted = false := by
  rw [← Bool.not_eq_true]
  intro noted
  rw [h.reached_of_noted noted] at below
  cases below

theorem kept_eq (h : Holds config offers q) (below : q.limitReached = false) :
    q.kept = q.diagnostics := by
  rw [kept, h.limitNoted_eq_false below]
  rfl

theorem drop (h : Holds config offers q) (d : Diagnostic) : Holds config (offers ++ [d]) q :=
  { h with sublist := h.sublist.trans (List.sublist_append_left _ _) }

theorem note (h : Holds config offers q) (d : Diagnostic) (reached : q.limitReached = true)
    (noted : q.limitNoted = false) : Holds config (offers ++ [d]) { q with
      diagnostics := q.diagnostics ++ [limitWarning q.config.errorLimit], limitNoted := true } := by
  have same : q.kept = q.diagnostics := by rw [kept, noted]; rfl
  have kept_note : kept { q with
      diagnostics := q.diagnostics ++ [limitWarning q.config.errorLimit], limitNoted := true } =
      q.kept := by
    rw [same, kept]
    exact List.dropLast_concat
  constructor
  case config_eq => exact h.config_eq
  case counted => simpa using h.counted
  case limited => exact h.limited
  case sublist => rw [kept_note]; exact (h.drop d).sublist
  case split => rw [kept_note, same, ← h.config_eq]; rfl
  case reached => intro _; rw [kept_note]; exact h.reached reached
  case reached_of_noted => exact fun _ => reached
  case distinct =>
    intro dedup
    -- the warning is no error, and stands behind one
    obtain ⟨e, last, error⟩ := h.reached reached
    rw [same] at last
    refine List.isChain_append.2 ⟨h.distinct dedup, .singleton _, ?_⟩
    rintro x hx y hy rfl
    obtain rfl := Option.mem_unique hx last
    simp only [List.head?_cons, Option.mem_def, Option.some_inj] at hy
    rw [← hy, isError_limitWarning] at error
    cases error

theorem queue (h : Holds config offers q) (below : q.limitReached = false)
    (fresh : q.repeats d = false) : Holds config (offers ++ [d]) { q with
      diagnostics := q.diagnostics ++ [d]
      errorCount := if d.isError then q.errorCount + 1 else q.errorCount } := by
  have noted := h.limitNoted_eq_false below
  have same := h.kept_eq below
  have room := limitReached_eq_false_iff.1 below
  rw [h.config_eq] at room
  have kept_queue : kept { q with
      diagnostics := q.diagnostics ++ [d]
      errorCount := if d.isError then q.errorCount + 1 else q.errorCount } =
      q.kept ++ [d] := by
    rw [same, kept, noted]
    rfl
  constructor
  case config_eq => exact h.config_eq
  case counted => cases hd : d.isError <;> simp [hd, h.counted]
  case limited =>
    intro pos
    have := room pos
    dsimp only
    split_ifs <;> omega
  case sublist => rw [kept_queue]; exact h.sublist.append (List.Sublist.refl _)
  case split => rw [kept_queue, same]; simp [noted]
  case reached =>
    intro reached
    refine ⟨d, by rw [kept_queue]; simp, ?_⟩
    by_contra warning
    obtain ⟨pos, le⟩ := limitReached_iff.1 reached
    simp only [if_neg warning, h.config_eq] at pos le
    have := room pos
    omega
  case reached_of_noted => exact fun h => absurd h (by simp [noted])
  case distinct =>
    intro dedup
    refine List.isChain_append.2 ⟨h.distinct dedup, .singleton _, ?_⟩
    rintro x hx y hy rfl
    simp only [List.head?_cons, Option.mem_def, Option.some_inj] at hy
    subst hy
    rw [repeats_iff.2 ⟨h.config_eq ▸ dedup, hx⟩] at fresh
    cases fresh

theorem add (h : Holds config offers q) (added : q.Adds d q') :
    Holds config (offers ++ [d]) q' := by
  cases added with
  | silenced => exact h.drop d
  | noted reached noted => exact h.note d reached noted
  | repeated => exact h.drop d
  | queued below fresh => exact h.queue below fresh

/-- The warning is there once something is offered after the limit is reached. -/
theorem limitNoted_iff (h : Holds config offers q) (added : q.Adds d q') :
    q'.limitNoted = true ↔ q.limitReached = true := by
  cases added with
  | silenced reached noted => exact iff_of_true noted reached
  | noted reached => exact iff_of_true rfl reached
  | repeated below | queued below =>
    refine iff_of_false ?_ (by simp [below])
    simp [h.limitNoted_eq_false below]

end Holds

/-! ## Many offers -/

theorem holds_addAll (config : QueueConfig) (offers : List Diagnostic) :
    Holds config offers (({ config } : Queue).addAll offers) := by
  induction offers using List.reverseRecOn with
  | nil => exact holds_new config
  | append_singleton offers d ih =>
    rw [addAll_append]
    exact ih.add (adds_add _ d)

theorem limitNoted_addAll_iff (config : QueueConfig) (offers : List Diagnostic) :
    (({ config } : Queue).addAll offers).limitNoted = true ↔ ∃ before d rest,
      offers = before ++ d :: rest ∧ (({ config } : Queue).addAll before).limitReached = true := by
  induction offers using List.reverseRecOn with
  | nil =>
    refine iff_of_false Bool.false_ne_true ?_
    rintro ⟨before, d, rest, h, -⟩
    simp at h
  | append_singleton offers e ih =>
    rw [addAll_append]
    apply ((holds_addAll config offers).limitNoted_iff (adds_add _ e)).trans
    constructor
    · intro reached
      exact ⟨offers, e, [], rfl, reached⟩
    · rintro ⟨before, d, rest, split, reached⟩
      rcases rest.eq_nil_or_concat with rfl | ⟨rest, e', rfl⟩
      · obtain ⟨rfl, -⟩ := List.append_inj' split rfl
        exact reached
      · rw [List.concat_eq_append, ← List.cons_append, ← List.append_assoc] at split
        obtain ⟨rfl, -⟩ := List.append_inj' split rfl
        exact (holds_addAll config _).reached_of_noted (ih.2 ⟨before, d, rest, rfl, reached⟩)

namespace Holds

/-- An offer is dropped only if the limit is reached or it repeats the one before. -/
theorem kept_add (h : Holds config offers q) (added : q.Adds d q') :
    q.accepts d = true ∧ q'.kept = q.kept ++ [d] ∨ q.accepts d = false ∧ q'.kept = q.kept ∧
      (q.limitReached = true ∨ config.deduplicate = true ∧ q.diagnostics.getLast? = some d) := by
  cases added with
  | silenced reached => exact Or.inr ⟨by simp [accepts, reached], rfl, Or.inl reached⟩
  | noted reached noted =>
    refine Or.inr ⟨by simp [accepts, reached], ?_, Or.inl reached⟩
    simp [kept, noted]
  | repeated below repeated =>
    exact Or.inr ⟨by simp [accepts, repeated], rfl, Or.inr (h.config_eq ▸ repeats_iff.1 repeated)⟩
  | queued below fresh =>
    refine Or.inl ⟨by simp [accepts, below, fresh], ?_⟩
    simp [kept, h.limitNoted_eq_false below]

theorem hasErrors_add (h : Holds config offers q) (added : q.Adds d q')
    (error : d.isError = true) : q'.hasErrors = true := by
  rw [hasErrors, decide_eq_true_eq]
  cases added with
  | silenced reached | noted reached =>
    obtain ⟨pos, le⟩ := limitReached_iff.1 reached
    exact pos.trans_le le
  | repeated below repeated =>
    rw [h.counted, List.countP_pos_iff]
    exact ⟨d, List.mem_of_getLast? (repeats_iff.1 repeated).2, error⟩
  | queued below fresh => simp [error]

theorem exists_error (h : Holds config offers q) (errors : q.hasErrors = true) :
    ∃ d ∈ q.diagnostics, d.isError = true := by
  rw [hasErrors, decide_eq_true_eq, h.counted] at errors
  exact List.countP_pos_iff.1 errors

end Holds

/-- Whatever is called, a queue counts its errors, and no more than the limit. Since it was last
emptied it has kept some of the offers in their order, and behind them there is the warning about
the limit if there was an offer after the limit was reached. Only such offers and repetitions are
dropped, and where repetitions are dropped no two neighbours are equal. Once an error is emitted
the queue holds one. -/
theorem after_holds (config : QueueConfig) (ops : List Operation) :
    let q := after config ops
    q.errorCount = q.diagnostics.countP (·.isError) ∧
    (0 < config.errorLimit → q.errorCount ≤ config.errorLimit) ∧
    q.kept.Sublist (offered ops) ∧
    q.diagnostics = q.kept ++ (if q.limitNoted then [limitWarning config.errorLimit] else []) ∧
    (q.limitNoted = true ↔ ∃ before d rest, offered ops = before ++ d :: rest ∧
      (({ config } : Queue).addAll before).limitReached = true) ∧
    (config.deduplicate = true → q.diagnostics.IsChain (· ≠ ·)) ∧
    (∀ d, q.accepts d = true ∧ (q.add d).kept = q.kept ++ [d] ∨
      q.accepts d = false ∧ (q.add d).kept = q.kept ∧
        (q.limitReached = true ∨ config.deduplicate = true ∧ q.diagnostics.getLast? = some d)) ∧
    ∀ d error, let q' := q.perform (.emit d error)
      q'.hasErrors = true ∧ ∃ e ∈ q'.diagnostics, e.isError = true := by
  intro q
  have noted := limitNoted_addAll_iff config (offered ops)
  have holds := holds_addAll config (offered ops)
  rw [← after_eq] at noted holds
  refine ⟨holds.counted, holds.limited, holds.sublist, holds.split, noted, holds.distinct,
    fun d => holds.kept_add (adds_add q d), fun d error => ?_⟩
  have added := adds_add q d
  have errors := holds.hasErrors_add added error
  exact ⟨errors, (holds.add added).exists_error errors⟩

end SymbolRegex.Queue
