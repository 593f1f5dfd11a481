import Mathlib.Tactic.SplitIfs
import SymbolRegex.Proofs.Phrase

/-! # Reading phrases

Every function that reads patterns either takes the tokens of a phrase from the
front of the list, and gives what the phrase stands for, or stops at a fault.
What it has looked at when it stops is readable up to the last token.
-/

namespace SymbolRegex
namespace Parser

open Phrase

variable {mode : Mode} {s s₁ s₂ s' : State} {ts us : List Token} {e : Failure}

/-- Reading goes from one state to another by some tokens, with these labels among them. -/
structure Passes (s s' : State) (ts : List Token) (labels : List (Label mode)) : Prop where
  ahead : s.ahead = ts ++ s'.ahead
  actions : s'.actions = s.actions + labels.length
  names : s'.names = (labels.filterMap Label.name?).reverse ++ s.names
  readable : Readable ts

variable {ls ms : List (Label mode)}

abbrev Takes (mode : Mode) (s s' : State) (ts : List Token) : Prop :=
  Passes s s' ts ([] : List (Label mode))

theorem Passes.refl (s : State) : Takes mode s s [] := ⟨rfl, rfl, rfl, readable_nil⟩

theorem passes_append_iff : Passes s s₂ (ts ++ us) (ls ++ ms) ↔
    ∃ s₁, Passes s s₁ ts ls ∧ Passes s₁ s₂ us ms := by
  constructor
  · intro h
    obtain ⟨ht, hu⟩ := readable_append.1 h.readable
    refine ⟨⟨us ++ s₂.ahead, s.actions + ls.length,
      (ls.filterMap Label.name?).reverse ++ s.names⟩, ⟨?_, rfl, rfl, ht⟩, ⟨rfl, ?_, ?_, hu⟩⟩
    · rw [h.ahead, List.append_assoc]
    · rw [h.actions, List.length_append, Nat.add_assoc]
    · rw [h.names]; simp
  · rintro ⟨s₁, h, h'⟩
    constructor
    · rw [h.ahead, h'.ahead, List.append_assoc]
    · rw [h'.actions, h.actions, List.length_append, Nat.add_assoc]
    · rw [h'.names, h.names]; simp
    · exact readable_append.2 ⟨h.readable, h'.readable⟩

theorem Passes.trans (h : Passes s s₁ ts ls) (h' : Passes s₁ s₂ us ms) :
    Passes s s₂ (ts ++ us) (ls ++ ms) :=
  passes_append_iff.2 ⟨s₁, h, h'⟩

theorem passes_cons_iff {t : Token} : Passes s s₂ (t :: ts) ls ↔
    ∃ s₁, Takes mode s s₁ [t] ∧ Passes s₁ s₂ ts ls :=
  @passes_append_iff mode s s₂ [t] ts [] ls

theorem passes_append_takes_iff : Passes s s₂ (ts ++ us) ls ↔
    ∃ s₁, Passes s s₁ ts ls ∧ Takes mode s₁ s₂ us := by
  simpa using @passes_append_iff mode s s₂ ts us ls []

theorem takes_iff : Takes mode s s' ts ↔
    s.ahead = ts ++ s'.ahead ∧ s' = s.reading s'.ahead ∧ Readable ts := by
  constructor
  · rintro ⟨ha, hn, hl, hr⟩
    obtain ⟨ahead, actions, names⟩ := s
    obtain ⟨ahead', actions', names'⟩ := s'
    simp_all [State.reading]
  · rintro ⟨ha, hs, hr⟩
    exact ⟨ha, by rw [hs]; rfl, by rw [hs]; rfl, hr⟩

theorem takes_singleton_iff {t : Token} : Takes mode s s' [t] ↔
    t.kind ≠ .error ∧ ∃ rest, s.ahead = t :: rest ∧ s' = s.reading rest := by
  rw [takes_iff, readable_singleton]
  constructor
  · rintro ⟨ha, hs, ht⟩
    exact ⟨ht, s'.ahead, ha, hs⟩
  · rintro ⟨ht, rest, ha, rfl⟩
    exact ⟨ha, rfl, ht⟩

theorem takes_nil_iff : Takes mode s s' [] ↔ s' = s := by
  rw [takes_iff]
  constructor
  · rintro ⟨ha, hs, -⟩
    rw [hs, ← List.nil_append s'.ahead, ← ha]; rfl
  · rintro rfl
    exact ⟨rfl, rfl, readable_nil⟩

theorem Passes.exists_rest {t : Token} (h : Takes mode s s' [t]) :
    ∃ rest n names, s = ⟨t :: rest, n, names⟩ ∧ s' = ⟨rest, n, names⟩ := by
  obtain ⟨-, rest, ha, rfl⟩ := takes_singleton_iff.1 h
  exact ⟨rest, s.actions, s.names, by rw [← ha], rfl⟩

theorem passes_label_iff {l : Label mode} {ts : List Token} :
    Passes s s' ts [l] ↔ ∃ s₁, Takes mode s s₁ ts ∧ s' = s₁.addAction l.name? := by
  constructor
  · intro h
    refine ⟨s.reading s'.ahead, ⟨h.ahead, rfl, rfl, h.readable⟩, ?_⟩
    obtain ⟨ahead, n, names⟩ := s'
    obtain rfl : n = s.actions + 1 := h.actions
    obtain rfl : names = _ := h.names
    cases hl : l.name? <;> simp [State.addAction, State.reading, hl]
  · rintro ⟨s₁, h, rfl⟩
    refine ⟨h.ahead, by simp [State.addAction, h.actions], ?_, h.readable⟩
    cases hl : l.name? <;> simp [State.addAction, h.names, hl]

theorem takes_reading (mode : Mode) {t : Token} {rest : List Token} (h : s.ahead = t :: rest)
    (ht : t.kind ≠ .error) : Takes mode s (s.reading rest) [t] :=
  takes_iff.2 ⟨h, rfl, readable_singleton.2 ht⟩

/-! ## Where reading stops -/

/-- How reading may stop at a fault, in terms of the tokens that were looked at: all of them are
readable but perhaps the last. -/
inductive Stops (mode : Mode) : List Token → Failure → Prop where

  | unreadable {seen rest : List Token} {t : Token} : Readable seen → t.kind = .error →
      Stops mode (seen ++ t :: rest) ⟨⟨.lexical, t.position⟩, rest.length⟩

  | misplaced {seen rest : List Token} {cause : ParseCause} {p : Position} : Readable seen →
      cause ≠ .lexical → Stops mode (seen ++ rest) ⟨⟨cause, p⟩, rest.length⟩

  /-- An integer over characters, with an unreadable token behind it. -/
  | integer {seen rest : List Token} {i t : Token} : mode = .char → Readable seen →
      i.kind = .integer → t.kind = .error →
      Stops mode (seen ++ i :: t :: rest) ⟨⟨.expectedTerm .integer, i.position⟩, rest.length⟩

theorem Stops.prepend (hts : Readable ts) (h : Stops mode us e) : Stops mode (ts ++ us) e := by
  have more {seen : List Token} (h : Readable seen) : Readable (ts ++ seen) :=
    readable_append.2 ⟨hts, h⟩
  cases h with
  | unreadable hs ht => rw [← List.append_assoc]; exact .unreadable (more hs) ht
  | misplaced hs hc => rw [← List.append_assoc]; exact .misplaced (more hs) hc
  | integer hm hs hi ht => rw [← List.append_assoc]; exact .integer hm (more hs) hi ht

/-- What came of reading from `s`: a result with the property, or a fault. -/
def Outcome {α : Type} {R : State → Prop} (mode : Mode) (s : State) (Q : α → State → Prop) :
    Except Failure (α × { s' : State // R s' }) → Prop
  | .ok (a, s') => Q a s'.val
  | .error e => Stops mode s.ahead e

theorem Outcome.after {α : Type} {R : State → Prop} {Q : α → State → Prop}
    {x : Except Failure (α × { s' : State // R s' })} {ls : List (Label mode)}
    (h : Passes s s₁ ts ls) (hx : Outcome mode s₁ Q x) : Outcome mode s Q x := by
  match x, hx with
  | .ok _, hx => exact hx
  | .error e, hx =>
    show Stops mode s.ahead e
    rw [h.ahead]
    exact Stops.prepend h.readable hx

theorem Outcome.bind {α β : Type} {R R' : State → Prop} {Q : α → State → Prop}
    {Q' : β → State → Prop} {x : Except Failure (α × { s' : State // R s' })}
    {f : α × { s' : State // R s' } → Except Failure (β × { s' : State // R' s' })}
    (hx : Outcome mode s Q x) (hf : ∀ a s₁ h, Q a s₁ → Outcome mode s Q' (f (a, ⟨s₁, h⟩))) :
    Outcome mode s Q' (x >>= f) := by
  match x, hx with
  | .error e, hx => exact hx
  | .ok (a, ⟨s₁, h⟩), hx => exact hf a s₁ h hx

variable {g : Grammar}

theorem stops_faultHere (heof : g.eof.kind = .eof) (s : State) {cause : TokenKind → ParseCause}
    (hc : ∀ k, cause k ≠ .lexical) : Stops g.mode s.ahead (g.faultHere s cause) := by
  obtain ⟨ahead, n, names⟩ := s
  cases ahead with
  | nil =>
    have : Stops g.mode ([] ++ []) ⟨⟨cause .eof, g.eof.position⟩, ([] : List Token).length⟩ :=
       .misplaced readable_nil (hc _)
    simpa [Grammar.faultHere, Grammar.current, heof] using this
  | cons t rest =>
    by_cases ht : t.kind = .error
    · have : Stops g.mode ([] ++ t :: rest) ⟨⟨.lexical, t.position⟩, rest.length⟩ :=
       .unreadable readable_nil ht
      simpa [Grammar.faultHere, Grammar.current, ht] using this
    · have : Stops g.mode ([t] ++ rest) ⟨⟨cause t.kind, t.position⟩, rest.length⟩ :=
       .misplaced (readable_singleton.2 ht) (hc _)
      simpa [Grammar.faultHere, Grammar.current, ht] using this

theorem stops_end {cause : ParseCause} {p : Position} (hc : cause ≠ .lexical)
    (h : s.ahead = []) : Stops mode s.ahead ⟨⟨cause, p⟩, 0⟩ := by
  rw [h]; exact @Stops.misplaced mode [] [] cause p readable_nil hc

theorem stops_faultAt {cause : ParseCause} {t : Token} {ls : List (Label mode)}
    (hc : cause ≠ .lexical) (h : Passes s s₁ ts ls) :
    Stops mode s.ahead (faultAt t s₁ cause) := by
  rw [h.ahead]; exact .misplaced h.readable hc

theorem take?_cases (mode : Mode) (kind : TokenKind) (s : State) (hk : kind ≠ .error) :
    (s.take? kind = none ∧ ∀ t ∈ s.ahead.head?, t.kind ≠ kind) ∨
    ∃ (t : Terminal kind) (s₁ : State) (h : s₁.ahead.length < s.ahead.length),
      s.take? kind = some (t.val, ⟨s₁, h⟩) ∧ Takes mode s s₁ [t.val] := by
  unfold State.take?
  split
  · next h => exact .inl ⟨rfl, by simp [h]⟩
  · next t rest h =>
    split
    · next ht => exact .inr ⟨⟨t, ht⟩, s.reading rest, by simp [State.reading, h], rfl,
        takes_reading _ h (ht ▸ hk)⟩
    · next ht => exact .inl ⟨rfl, by simpa [h] using ht⟩

theorem expect_outcome (heof : g.eof.kind = .eof) {kind : TokenKind} (hk : kind ≠ .error)
    (expected : String) (s : State) :
    Outcome g.mode s (fun t s' => t.kind = kind ∧ Takes g.mode s s' [t])
      (expect g kind expected s) := by
  unfold expect
  rcases take?_cases g.mode kind s hk with ⟨h, -⟩ | ⟨t, s₁, hs, h, hp⟩
  · rw [h]
    exact stops_faultHere heof s (by simp)
  · rw [h]
    exact ⟨t.property, hp⟩

theorem expectClose_outcome (heof : g.eof.kind = .eof) (opening : Token) (close : Punctuation)
    (s : State) :
    Outcome g.mode s (fun t s' => t.kind = .punct close ∧ Takes g.mode s s' [t])
      (expectClose g opening close s) := by
  unfold expectClose
  split
  · next h =>
    rw [List.isEmpty_iff] at h
    exact stops_end (by simp) h
  · exact expect_outcome heof (by simp) _ s

theorem isSymbol_iff {t : Token} : isSymbol g t = true ↔ t.WritesSymbol g.mode := by
  simp [isSymbol, Token.WritesSymbol]

theorem rangeItem_outcome (low : Token) (s : State) :
    Outcome g.mode s (fun item s' => ∃ high : SymbolToken g.mode,
      item = .range low.text high.val.text ∧ Takes g.mode s s' [high.val])
      (rangeItem g low s) := by
  unfold rangeItem
  split
  · next h => exact stops_end (by simp) h
  · next high rest h =>
    dsimp only
    split
    · next hk =>
      show Stops _ _ _
      rw [h]
      exact @Stops.unreadable _ [] rest high readable_nil hk
    · next hk =>
      have hp := takes_reading g.mode h hk
      split
      · next hs => exact ⟨⟨high, isSymbol_iff.1 hs⟩, rfl, hp⟩
      · exact stops_faultAt (by simp) hp

theorem setMember_outcome (t : Token) (s : State) :
    Outcome g.mode s (fun items s' => ∃ (m : Member g.mode) (ts : List Token),
      items = m.items g.sets ∧ m.tokens = t :: ts ∧ Takes g.mode s s' ts)
      (setMember g t s) := by
  unfold setMember
  dsimp only
  have refuse (cause : ParseCause) (hc : cause ≠ .lexical) :
      Stops g.mode s.ahead (faultAt t s cause) := stops_faultAt hc (Passes.refl s)
  split
  · next hs =>
    have hs := isSymbol_iff.1 hs
    rcases take?_cases g.mode (.punct .dash) s (by simp) with
      ⟨h, -⟩ | ⟨dash, s₁, hs₁, h, hp⟩
    · rw [h]
      exact ⟨.symbol ⟨t, hs⟩, [], rfl, rfl, .refl s⟩
    · rw [h]
      refine Outcome.bind (.after hp (rangeItem_outcome t s₁)) ?_
      rintro item s₂ h₂ ⟨high, rfl, hp₂⟩
      exact ⟨.range ⟨t, hs⟩ dash high, [dash.val, high.val], rfl, rfl, hp.trans hp₂⟩
  · split
    · next k hk =>
      split
      · exact refuse _ (by simp)
      · next hn =>
        obtain ⟨name, negated⟩ := k
        obtain rfl : negated = false := by simpa using hn
        exact ⟨.group name ⟨t, hk⟩, [], rfl, rfl, .refl s⟩
    · next hk => exact ⟨.string ⟨t, hk⟩, [], rfl, rfl, .refl s⟩
    · exact refuse _ (by simp)

theorem setMembers_outcome (heof : g.eof.kind = .eof) (opening : Token) (s : State) :
    Outcome g.mode s (fun r s' => ∃ (ms : List (Member g.mode))
      (c : Terminal (.punct .rightBracket)), r = (ms.flatMap (Member.items g.sets), c.val) ∧
      Takes g.mode s s' (ms.flatMap Member.tokens ++ [c.val]))
      (setMembers g opening s) := by
  rw [setMembers]
  split
  · next h => exact stops_end (by simp) h
  · next t rest h =>
    dsimp only
    split
    · next hk => exact ⟨[], ⟨t, hk⟩, rfl, takes_reading _ h (by simp [hk])⟩
    · split
      · next hk => exact stops_faultHere heof s (by simp)
      · next hk =>
        have ht := takes_reading g.mode h hk
        refine Outcome.bind (.after ht (setMember_outcome t _)) ?_
        rintro items s₁ h₁ ⟨m, ts, rfl, hm, hp⟩
        have : s₁.ahead.length < s.ahead.length :=
          Nat.lt_of_le_of_lt h₁ (by simp [State.reading, h])
        refine Outcome.bind (.after (ht.trans hp) (setMembers_outcome heof opening s₁)) ?_
        rintro _ s₂ h₂ ⟨ms, c, rfl, hp₂⟩
        exact ⟨m :: ms, c, rfl, by simpa [hm] using (ht.trans hp).trans hp₂⟩
termination_by s.ahead.length

def ReadsSet (g : Grammar) (opening : Token) (s : State) (leaf : Leaf) (s' : State) : Prop :=
  ∃ (b : Bracketed g.mode g.sets) (ts : List Token), leaf = b.leaf ∧ b.tokens = opening :: ts ∧
    Takes g.mode s s' ts

theorem set_members_outcome (heof : g.eof.kind = .eof) (opening : Terminal (.punct .leftBracket))
    (caret? : Option (Terminal (.punct .caret))) (le : s₁.ahead.length ≤ s.ahead.length)
    (hp : Takes g.mode s s₁ (caret?.elim [] fun t => [t.val])) :
    Outcome g.mode s (ReadsSet g opening s) (do
      let ((items, close), ⟨s₂, h₂⟩) ← setMembers g opening s₁
      if items.isEmpty then
        throw (faultAt close s₂ (.invalidSetMember "a set needs at least one member"))
      return (Leaf.set caret?.isSome items, (⟨s₂, Nat.lt_of_lt_of_le h₂ le⟩ : After s))) := by
  refine Outcome.bind (.after hp (setMembers_outcome heof opening s₁)) ?_
  rintro _ s₂ h₂ ⟨ms, c, rfl, hp₂⟩
  dsimp only
  split
  · exact stops_faultAt (by simp) (hp.trans hp₂)
  · next hi => exact ⟨⟨opening, caret?, ms, c, by simpa using hi⟩, _, rfl, rfl, hp.trans hp₂⟩

theorem set_outcome (heof : g.eof.kind = .eof) (opening : Terminal (.punct .leftBracket))
    (s : State) : Outcome g.mode s (ReadsSet g opening s) (Parser.set g opening s) := by
  unfold Parser.set
  rcases take?_cases g.mode (.punct .caret) s (by simp) with ⟨h, -⟩ | ⟨caret, s₁, hs₁, h, hp⟩
  · rw [h]
    exact set_members_outcome heof opening none (Nat.le_refl _) (.refl s)
  · rw [h]
    exact set_members_outcome heof opening (some caret) (Nat.le_of_lt hs₁) hp

theorem bound_outcome (heof : g.eof.kind = .eof) (s : State) :
    Outcome g.mode s (fun n s' => ∃ t : Terminal .integer, n = count t ∧
      Takes g.mode s s' [t.val]) (bound g s) := by
  unfold bound
  refine Outcome.bind (expect_outcome heof (by simp) _ s) ?_
  rintro t s₁ h ⟨hk, hp⟩
  dsimp only
  split
  · exact ⟨⟨t, hk⟩, rfl, hp⟩
  · exact stops_faultAt (by simp [exceeds]) hp

theorem boundsFault?_eq_none_iff {m n : Nat} : boundsFault? m n = none ↔ ValidBounds m n := by
  unfold boundsFault? Pattern.maxCount
  constructor
  · intro h
    split_ifs at h
    constructor <;> omega
  · rintro ⟨hle, hpos, hlim⟩
    rw [if_neg (by omega), if_neg (by omega), if_neg (by omega)]

theorem boundsFault?_ne_lexical {m n : Nat} {cause : ParseCause}
    (h : boundsFault? m n = some cause) : cause ≠ .lexical := by
  rintro rfl
  unfold boundsFault? exceeds at h
  split_ifs at h <;> simp at h

def ReadsBounds (mode : Mode) (opening : Token) (s : State) (r : Nat × Nat) (s' : State) : Prop :=
  ∃ (q : Repetition) (ts : List Token), (∀ p, q.pattern p = .counted p r.1 r.2) ∧
    q.tokens = opening :: ts ∧ Takes mode s s' ts

theorem bounds_close_outcome (heof : g.eof.kind = .eof) {opening : Token} {min max : Nat}
    (lt : s₁.ahead.length < s.ahead.length) (hp : Takes g.mode s s₁ ts)
    (repeats : ∀ c : Terminal (.punct .rightBrace), ValidBounds min max → ∃ q : Repetition,
      (∀ p, q.pattern p = .counted p min max) ∧ q.tokens = opening :: (ts ++ [c.val])) :
    Outcome g.mode s (ReadsBounds g.mode opening s) (do
      let (_, ⟨s₂, h₂⟩) ← expectClose g opening .rightBrace s₁
      match boundsFault? min max with
      | some cause => throw (faultAt opening s₂ cause)
      | none => return ((min, max), (⟨s₂, Nat.lt_trans h₂ lt⟩ : After s))) := by
  refine Outcome.bind (.after hp (expectClose_outcome heof opening .rightBrace s₁)) ?_
  rintro c s₂ h₂ ⟨hc, hp₂⟩
  dsimp only
  split
  · next hb => exact stops_faultAt (boundsFault?_ne_lexical hb) (hp.trans hp₂)
  · next hb =>
    obtain ⟨q, hq, ht⟩ := repeats ⟨c, hc⟩ (boundsFault?_eq_none_iff.1 hb)
    exact ⟨q, ts ++ [c], hq, ht, hp.trans hp₂⟩

theorem bounds_outcome (heof : g.eof.kind = .eof) (opening : Terminal (.punct .leftBrace))
    (s : State) : Outcome g.mode s (ReadsBounds g.mode opening s) (bounds g opening s) := by
  unfold bounds
  refine Outcome.bind (bound_outcome heof s) ?_
  rintro _ s₁ h₁ ⟨n, rfl, hp₁⟩
  dsimp only
  rcases take?_cases g.mode (.punct .comma) s₁ (by simp) with ⟨h, -⟩ | ⟨comma, s₂, hs₂, h, hp₂⟩
  · rw [h]
    exact bounds_close_outcome heof h₁ hp₁ fun c hv => ⟨.exactly opening n c hv, fun _ => rfl, rfl⟩
  · rw [h]
    have hp₂ := hp₁.trans hp₂
    refine Outcome.bind (.after hp₂ (bound_outcome heof s₂)) ?_
    rintro _ s₃ h₃ ⟨m, rfl, hp₃⟩
    have lt : s₃.ahead.length < s.ahead.length := by omega
    exact bounds_close_outcome heof lt (hp₂.trans hp₃) fun c hv =>
      ⟨.between opening n comma m c hv, fun _ => rfl, rfl⟩

theorem repetition_outcome (heof : g.eof.kind = .eof) (p : TextPattern) (s : State) :
    Outcome g.mode s (fun p' s' => ∃ q : Option Repetition, p' = q.elim p (Repetition.pattern p) ∧
      Takes g.mode s s' (q.elim [] Repetition.tokens)) (repetition g p s) := by
  unfold repetition
  split
  · exact ⟨none, rfl, .refl s⟩
  · next t rest h =>
    dsimp only
    split
    · next hk => exact ⟨some (.plus ⟨t, hk⟩), rfl, takes_reading _ h (by simp [hk])⟩
    · next hk => exact ⟨some (.star ⟨t, hk⟩), rfl, takes_reading _ h (by simp [hk])⟩
    · next hk => exact ⟨some (.question ⟨t, hk⟩), rfl, takes_reading _ h (by simp [hk])⟩
    · next hk =>
      have hp := takes_reading g.mode h (by simp [hk])
      refine Outcome.bind (.after hp (bounds_outcome heof ⟨t, hk⟩ (s.reading rest))) ?_
      rintro r s₁ h₁ ⟨q, ts, hq, ht, hp₁⟩
      exact ⟨some q, (hq p).symm, by simpa [ht] using hp.trans hp₁⟩
    · exact ⟨none, rfl, .refl s⟩

/-- What a term may start with, in terms of the tokens taken. -/
def Leads (mode : Mode) (s : State) : Except Failure (Lead s) → Prop
  | .ok (.action index r) => index = s.actions ∧ ∃ l : Label mode, Passes s r.val l.tokens [l]
  | .ok (.symbol t r) => t.WritesSymbol mode ∧ Takes mode s r.val [t]
  | .ok .bare => True
  | .error e => Stops mode s.ahead e

/-- An integer over characters is refused after a look at the token behind it. -/
theorem stops_integer {t : Token} {rest : List Token} {cause : ParseCause} (hm : mode = .char)
    (hk : t.kind = .integer) (hc : cause ≠ .lexical)
    (hb : ∀ u ∈ rest.head?, u.kind = .error → cause = .expectedTerm .integer) :
    Stops mode (t :: rest) ⟨⟨cause, t.position⟩, rest.length - 1⟩ := by
  have ht : Readable [t] := readable_singleton.2 (by simp [hk])
  cases rest with
  | nil => exact @Stops.misplaced mode [t] [] cause _ ht hc
  | cons u rest =>
    by_cases hu : u.kind = .error
    · obtain rfl := hb u rfl hu
      exact @Stops.integer mode [] rest t u hm readable_nil hk hu
    · have hs := readable_append.2 ⟨ht, readable_singleton.2 hu⟩
      exact @Stops.misplaced mode [t, u] rest cause _ hs hc

theorem lead_outcome (s : State) : Leads g.mode s (lead g s) := by
  obtain ⟨mode, sets, eof⟩ := g
  unfold lead
  split
  · trivial
  · next t rest h =>
    have hp := takes_reading mode h
    dsimp only
    cases mode with
    | char =>
      dsimp only
      split
      · next hk => exact ⟨rfl, .char ⟨t, hk⟩, passes_label_iff.2 ⟨_, hp (by simp [hk]), rfl⟩⟩
      · split
        · next hk =>
          show Stops _ _ _
          rw [h]
          refine stops_integer rfl hk (by split <;> simp) fun u hu he => ?_
          obtain ⟨us, rfl⟩ := List.head?_eq_some_iff.1 hu
          simp [Grammar.current, State.reading, he]
        · trivial
    | symbol =>
      dsimp only
      split
      · next hk => exact stops_faultAt (by simp) (hp (by simp [hk]))
      · split
        · next hs =>
          have hs := isSymbol_iff.1 hs
          have hp := hp hs.ne_error
          rcases take?_cases .symbol (.punct .equals) (s.reading rest) (by simp)
            with ⟨ht, -⟩ | ⟨equals, s₁, hs₁, ht, hp₁⟩
          · rw [ht]
            exact ⟨hs, hp⟩
          · rw [ht]
            exact ⟨rfl, .symbol ⟨t, hs⟩ equals, passes_label_iff.2 ⟨s₁, hp.trans hp₁, rfl⟩⟩
        · trivial

mutual

theorem branches_outcome (heof : g.eof.kind = .eof) (s : State) :
    Outcome g.mode s (fun ps s' => ∃ d : Choice g.mode g.sets, ps = d.branches s.actions ∧
      Passes s s' d.tokens d.labels) (branches g s) := by
  rw [branches]
  refine Outcome.bind (terms_outcome heof s) ?_
  rintro _ s₁ h₁ ⟨d, rfl, hp₁⟩
  dsimp only
  rcases take?_cases g.mode (.punct .bar) s₁ (by simp) with
    ⟨h, -⟩ | ⟨bar, s₂, hs₂, h, hp₂⟩
  · rw [h]
    exact ⟨.single d, rfl, hp₁⟩
  · rw [h]
    have hp₂ := hp₁.trans hp₂
    refine Outcome.bind (.after hp₂ (branches_outcome heof s₂)) ?_
    rintro _ s₃ h₃ ⟨c, rfl, hp₃⟩
    refine ⟨.more d bar c, ?_, ?_⟩
    · simp [Choice.branches, hp₂.actions]
    · simpa [Choice.tokens, Choice.labels] using hp₂.trans hp₃
termination_by (s.ahead.length, 3)

theorem terms_outcome (heof : g.eof.kind = .eof) (s : State) :
    Outcome g.mode s (fun ps s' => ∃ d : Sequence g.mode g.sets, ps = d.items s.actions ∧
      Passes s s' d.tokens d.labels) (terms g s) := by
  rw [terms]
  refine Outcome.bind (term_outcome heof s) ?_
  rintro _ s₁ h₁ ⟨d, rfl, hp₁⟩
  dsimp only
  split
  · exact ⟨.single d, rfl, hp₁⟩
  · refine Outcome.bind (.after hp₁ (terms_outcome heof s₁)) ?_
    rintro _ s₂ h₂ ⟨c, rfl, hp₂⟩
    refine ⟨.more d c, ?_, hp₁.trans hp₂⟩
    simp [Sequence.items, hp₁.actions]
termination_by (s.ahead.length, 2)

theorem term_outcome (heof : g.eof.kind = .eof) (s : State) :
    Outcome g.mode s (fun p s' => ∃ d : Term g.mode g.sets, p = d.pattern s.actions ∧
      Passes s s' d.tokens d.labels) (term g s) := by
  rw [term]
  have hl := lead_outcome (g := g) s
  cases h : lead g s with
  | error e => rw [h] at hl; exact hl
  | ok l =>
    rw [h] at hl
    cases l with
    | bare =>
      refine Outcome.bind (atom_outcome heof s) ?_
      rintro _ s₁ h₁ ⟨a, rfl, hp₁⟩
      refine Outcome.bind (.after hp₁ (repetition_outcome heof _ s₁)) ?_
      rintro _ s₂ h₂ ⟨q, rfl, hp₂⟩
      exact ⟨.mk none a q, rfl, by simpa [Term.tokens, Term.labels] using hp₁.trans hp₂⟩
    | symbol t r =>
      obtain ⟨s₁, h₁⟩ := r
      obtain ⟨hs, hp₁⟩ := hl
      refine Outcome.bind (.after hp₁ (repetition_outcome heof _ s₁)) ?_
      rintro _ s₂ h₂ ⟨q, rfl, hp₂⟩
      exact ⟨.mk none (.symbol ⟨t, hs⟩) q, rfl, hp₁.trans hp₂⟩
    | action index r =>
      obtain ⟨s₁, h₁⟩ := r
      obtain ⟨rfl, l, hp₁⟩ := hl
      refine Outcome.bind (.after hp₁ (atom_outcome heof s₁)) ?_
      rintro _ s₂ h₂ ⟨a, rfl, hp₂⟩
      have hp₂ := hp₁.trans hp₂
      refine Outcome.bind (.after hp₂ (repetition_outcome heof _ s₂)) ?_
      rintro _ s₃ h₃ ⟨q, rfl, hp₃⟩
      refine ⟨.mk (some l) a q, ?_, ?_⟩
      · rw [hp₁.actions]; rfl
      · simpa [Term.tokens, Term.labels] using hp₂.trans hp₃
termination_by (s.ahead.length, 1)

theorem atom_outcome (heof : g.eof.kind = .eof) (s : State) :
    Outcome g.mode s (fun p s' => ∃ d : Atom g.mode g.sets, p = d.pattern s.actions ∧
      Passes s s' d.tokens d.labels) (atom g s) := by
  rw [atom]
  split
  · exact stops_faultHere heof s (by simp)
  · next t rest h =>
    dsimp only
    have hp := takes_reading g.mode h
    have : (s.reading rest).ahead.length < s.ahead.length := by simp [State.reading, h]
    split
    · next hs =>
      have hs := isSymbol_iff.1 hs
      exact ⟨.symbol ⟨t, hs⟩, rfl, hp hs.ne_error⟩
    · split
      · next hk =>
        have hp := hp (by simp [hk])
        refine Outcome.bind (.after hp (branches_outcome heof (s.reading rest))) ?_
        rintro _ s₁ h₁ ⟨c, rfl, hp₁⟩
        have hp₁ := hp.trans hp₁
        refine Outcome.bind (.after hp₁ (expectClose_outcome heof t .rightParen s₁)) ?_
        rintro closing s₂ h₂ ⟨hc, hp₂⟩
        exact ⟨.group ⟨t, hk⟩ c ⟨closing, hc⟩, rfl,
          by simpa [Atom.tokens, Atom.labels] using hp₁.trans hp₂⟩
      · next hk =>
        have hp := hp (by simp [hk])
        refine Outcome.bind (.after hp (set_outcome heof ⟨t, hk⟩ (s.reading rest))) ?_
        rintro _ s₁ h₁ ⟨b, ts, rfl, hb, hp₁⟩
        refine ⟨.set b, rfl, ?_⟩
        rw [Atom.tokens, hb]
        exact hp.trans hp₁
      · next hk => exact ⟨.any ⟨t, hk⟩, rfl, hp (by simp [hk])⟩
      · next hk =>
        have hp := hp (by simp [hk])
        split
        · exact stops_faultAt (by simp) hp
        · next ht => exact ⟨.string ⟨t, hk⟩ (by simpa using ht), rfl, hp⟩
      · next k hk => exact ⟨.charClass k ⟨t, hk⟩, rfl, hp (by simp [hk])⟩
      · exact stops_faultHere heof s (by simp)
termination_by (s.ahead.length, 0)

end

theorem whole_outcome (heof : g.eof.kind = .eof) (ts : List Token) :
    match whole g ts with
    | .ok o => ∃ d : Choice g.mode g.sets, d.tokens = ts ∧ o = d.output
    | .error e => Stops g.mode ts e := by
  have h := branches_outcome heof ⟨ts, 0, []⟩
  unfold whole
  cases hb : branches g ⟨ts, 0, []⟩ with
  | error e => rw [hb] at h; exact h
  | ok r =>
    obtain ⟨_, s, hs⟩ := r
    rw [hb] at h
    obtain ⟨d, rfl, hp⟩ := h
    have ha : ts = d.tokens ++ s.ahead := hp.ahead
    have hn : s.names = (d.labels.filterMap Label.name?).reverse ++ [] := hp.names
    simp only [bind, Except.bind]
    by_cases he : s.ahead = []
    · rw [he, List.append_nil] at ha
      rw [he, hn]
      exact ⟨d, ha.symm, by simp [Choice.output]⟩
    · rw [if_neg (by simpa using he), ha]
      exact Stops.prepend hp.readable (stops_faultHere heof s (by simp))

end Parser
end SymbolRegex
