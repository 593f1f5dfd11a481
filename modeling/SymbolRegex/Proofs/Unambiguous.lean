import Mathlib.Data.Subtype
import SymbolRegex.Proofs.Phrase

/-! # Unambiguous phrases

The next token tells which form a phrase takes and whether it goes on, so a
phrase can be cut off the front of a token list in one way only, once it is
known what does not follow it.
-/

namespace SymbolRegex
namespace Phrase

variable {mode : Mode} {sets : SetTable}

/-! ## First tokens and followers -/

/-- The kinds of token that a term may begin with. -/
def startsTerm (mode : Mode) : TokenKind → Bool
  | .literal | .string | .charClass _ => true
  | .punct .leftParen | .punct .leftBracket | .punct .dot => true
  | .integer => mode = .symbol
  | .punct .equals => mode = .char
  | _ => false

/-- The kinds of token that a term before them would take for its own. -/
def continuesTerm (mode : Mode) : TokenKind → Bool
  | .punct .plus | .punct .star | .punct .question | .punct .leftBrace => true
  | .punct .equals => mode = .symbol
  | _ => false

def EndsTerm (mode : Mode) (rest : List Token) : Prop :=
  ∀ t ∈ rest.head?, continuesTerm mode t.kind = false

def EndsSequence (rest : List Token) : Prop :=
  ∀ t ∈ rest.head?, t.kind = .punct .bar ∨ t.kind = .punct .rightParen

def EndsChoice (rest : List Token) : Prop := ∀ t ∈ rest.head?, t.kind = .punct .rightParen

theorem EndsChoice.endsSequence {r : List Token} (h : EndsChoice r) : EndsSequence r :=
  fun t ht => Or.inr (h t ht)

theorem EndsSequence.endsTerm {r : List Token} (h : EndsSequence r) : EndsTerm mode r := by
  intro t ht
  rcases h t ht with h | h <;> rw [h] <;> rfl

theorem not_continuesTerm_of_startsTerm {k : TokenKind} (h : startsTerm mode k = true) :
    continuesTerm mode k = false := by
  cases k with
  | punct p => cases p <;> cases mode <;> simp_all [startsTerm, continuesTerm]
  | _ => rfl

theorem kind_of_writesSymbol (t : SymbolToken mode) :
    startsTerm mode t.val.kind = true ∧ ∀ p, t.val.kind ≠ .punct p := by
  rcases t.property with h | ⟨h, rfl⟩ <;> simp [h, startsTerm]

theorem Member.exists_cons (m : Member mode) :
    ∃ t ts, m.tokens = t :: ts ∧ ∀ p, t.kind ≠ .punct p := by
  cases m with
  | symbol t => exact ⟨t, [], rfl, (kind_of_writesSymbol t).2⟩
  | range low dash high => exact ⟨low, [dash.val, high.val], rfl, (kind_of_writesSymbol low).2⟩
  | group _ t | string t => exact ⟨t, [], rfl, by simp [t.property]⟩

theorem Member.exists_head (m : Member mode) (r : List Token) :
    ∃ t, (m.tokens ++ r).head? = some t ∧ ∀ p, t.kind ≠ .punct p := by
  obtain ⟨t, ts, ht, hp⟩ := m.exists_cons
  exact ⟨t, by simp [ht], hp⟩

/-- What stands before the closing bracket is a member, which begins with no punctuation. -/
theorem exists_head_members (ms : List (Member mode)) (c : Terminal (.punct .rightBracket))
    (r : List Token) : ∃ t, (ms.flatMap Member.tokens ++ c.val :: r).head? = some t ∧
      t.kind ≠ .punct .dash ∧ t.kind ≠ .punct .caret := by
  cases ms with
  | nil => exact ⟨c, rfl, by simp [c.property]⟩
  | cons m ms =>
    obtain ⟨t, ht, hp⟩ := m.exists_head (ms.flatMap Member.tokens ++ c.val :: r)
    exact ⟨t, by simpa using ht, hp _, hp _⟩

theorem Atom.exists_head (a : Atom mode sets) (r : List Token) :
    ∃ t, (a.tokens ++ r).head? = some t ∧ startsTerm mode t.kind = true ∧
      t.kind ≠ .punct .equals ∧ (t.WritesSymbol mode → ∃ u, a = .symbol u) := by
  cases a with
  | symbol t =>
    exact ⟨t, rfl, (kind_of_writesSymbol t).1, (kind_of_writesSymbol t).2 _, fun _ => ⟨t, rfl⟩⟩
  | group t | any t | string t | charClass _ t =>
    exact ⟨t, rfl, by simp [t.property, startsTerm, Token.WritesSymbol]⟩
  | set b => exact ⟨b.opening, rfl, by simp [b.opening.property, startsTerm, Token.WritesSymbol]⟩

theorem Term.exists_head (t : Term mode sets) (r : List Token) :
    ∃ u, (t.tokens ++ r).head? = some u ∧ startsTerm mode u.kind = true := by
  obtain ⟨_ | l, a, q⟩ := t
  · obtain ⟨u, hu, hs, -, -⟩ := a.exists_head (q.elim [] Repetition.tokens ++ r)
    exact ⟨u, by simpa [Term.tokens] using hu, hs⟩
  · cases l with
    | char equals => exact ⟨equals, rfl, by simp [equals.property, startsTerm]⟩
    | symbol name => exact ⟨name, rfl, (kind_of_writesSymbol name).1⟩

theorem Sequence.exists_head (s : Sequence mode sets) (r : List Token) :
    ∃ u, (s.tokens ++ r).head? = some u ∧ startsTerm mode u.kind = true := by
  cases s with
  | single t => exact t.exists_head r
  | more t rest => simpa [Sequence.tokens] using t.exists_head (rest.tokens ++ r)

theorem Sequence.endsTerm (s : Sequence mode sets) (r : List Token) :
    EndsTerm mode (s.tokens ++ r) := by
  obtain ⟨u, hu, hs⟩ := s.exists_head r
  intro t ht
  obtain rfl := Option.mem_unique ht hu
  exact not_continuesTerm_of_startsTerm hs

theorem Sequence.not_endsSequence (s : Sequence mode sets) (r : List Token) :
    ¬ EndsSequence (s.tokens ++ r) := by
  obtain ⟨u, hu, hs⟩ := s.exists_head r
  intro h
  rcases h u hu with e | e <;> rw [e] at hs <;> simp [startsTerm] at hs

/-! ## Uniqueness -/

theorem Member.unique {m m' : Member mode} {r r' : List Token}
    (hr : ∃ t, r.head? = some t ∧ t.kind ≠ .punct .dash)
    (hr' : ∃ t, r'.head? = some t ∧ t.kind ≠ .punct .dash)
    (h : m.tokens ++ r = m'.tokens ++ r') : m = m' ∧ r = r' := by
  cases m <;> cases m' <;> grind [Member.tokens, Token.WritesSymbol]

theorem members_unique {c c' : Terminal (.punct .rightBracket)} {r r' : List Token} :
    ∀ {ms ms' : List (Member mode)},
      ms.flatMap Member.tokens ++ c.val :: r = ms'.flatMap Member.tokens ++ c'.val :: r' →
        ms = ms' ∧ c = c' ∧ r = r'
  | [], [], h => by grind
  | [], m :: ms, h => by
    obtain ⟨t, ht, hp⟩ := m.exists_head (ms.flatMap Member.tokens ++ c'.val :: r')
    grind
  | m :: ms, [], h => by
    obtain ⟨t, ht, hp⟩ := m.exists_head (ms.flatMap Member.tokens ++ c.val :: r)
    grind
  | m :: ms, m' :: ms', h => by
    simp only [List.flatMap_cons, List.append_assoc] at h
    obtain ⟨t, ht, hd, -⟩ := exists_head_members ms c r
    obtain ⟨t', ht', hd', -⟩ := exists_head_members ms' c' r'
    obtain ⟨rfl, hms⟩ := Member.unique ⟨t, ht, hd⟩ ⟨t', ht', hd'⟩ h
    obtain ⟨rfl, rfl, rfl⟩ := members_unique hms
    exact ⟨rfl, rfl, rfl⟩

theorem Bracketed.unique {b b' : Bracketed mode sets} {r r' : List Token}
    (h : b.tokens ++ r = b'.tokens ++ r') : b = b' ∧ r = r' := by
  obtain ⟨o, k, ms, c, hb⟩ := b
  obtain ⟨o', k', ms', c', hb'⟩ := b'
  simp only [tokens, List.append_assoc, List.cons_append, List.nil_append, List.cons.injEq] at h
  obtain ⟨ho, h⟩ := h
  obtain rfl := Subtype.ext ho
  obtain ⟨t, ht, -, hk⟩ := exists_head_members ms c r
  obtain ⟨t', ht', -, hk'⟩ := exists_head_members ms' c' r'
  have carets : k = k' ∧
      ms.flatMap Member.tokens ++ c.val :: r = ms'.flatMap Member.tokens ++ c'.val :: r' := by
    cases k <;> cases k' <;> grind
  obtain ⟨rfl, hms⟩ := carets
  obtain ⟨rfl, rfl, rfl⟩ := members_unique hms
  exact ⟨rfl, rfl⟩

theorem repetition_unique {q q' : Option Repetition} {r r' : List Token}
    (hr : EndsTerm mode r) (hr' : EndsTerm mode r')
    (h : q.elim [] Repetition.tokens ++ r = q'.elim [] Repetition.tokens ++ r') :
    q = q' ∧ r = r' := by
  rcases q with _ | q <;> rcases q' with _ | q'
  · exact ⟨rfl, h⟩
  · cases q' <;> grind [Repetition.tokens, EndsTerm, continuesTerm]
  · cases q <;> grind [Repetition.tokens, EndsTerm, continuesTerm]
  · cases q <;> cases q' <;> grind [Repetition.tokens]

theorem endsTerm_repetition {q : Option Repetition} {r : List Token} (hr : EndsTerm mode r) :
    mode = .symbol → ∀ t ∈ (q.elim [] Repetition.tokens ++ r).head?, t.kind ≠ .punct .equals := by
  rintro rfl t ht
  rcases q with _ | q
  · intro e
    have := hr t ht
    simp [e, continuesTerm] at this
  · cases q <;> grind [Repetition.tokens]

/-- An atom begins with no `=`, and with a symbol only if it is that, which no `=` follows. -/
theorem bare_ne_label {l : Label mode} {a : Atom mode sets} {r us : List Token}
    (hr : mode = .symbol → ∀ t ∈ r.head?, t.kind ≠ .punct .equals) :
    a.tokens ++ r ≠ l.tokens ++ us := by
  intro h
  obtain ⟨t, ht, -, he, hs⟩ := a.exists_head r
  rw [h] at ht
  cases l with
  | char equals =>
    obtain rfl : equals.val = t := Option.some.inj ht
    exact he equals.property
  | symbol name equals =>
    obtain rfl : name.val = t := Option.some.inj ht
    obtain ⟨u, rfl⟩ := hs name.property
    have hu : r = equals.val :: us := (List.cons.inj h).2
    exact hr rfl equals.val (by simp [hu]) equals.property

theorem label_unique {l l' : Option (Label mode)} {a a' : Atom mode sets} {r r' : List Token}
    (hr : mode = .symbol → ∀ t ∈ r.head?, t.kind ≠ .punct .equals)
    (hr' : mode = .symbol → ∀ t ∈ r'.head?, t.kind ≠ .punct .equals)
    (h : l.elim [] Label.tokens ++ (a.tokens ++ r) = l'.elim [] Label.tokens ++ (a'.tokens ++ r')) :
    l = l' ∧ a.tokens ++ r = a'.tokens ++ r' := by
  rcases l with _ | l <;> rcases l' with _ | l'
  · exact ⟨rfl, h⟩
  · exact (bare_ne_label hr h).elim
  · exact (bare_ne_label hr' h.symm).elim
  · cases l <;> cases l' <;> grind [Label.tokens]

theorem endsSequence_bar (bar : Terminal (.punct .bar)) (r : List Token) :
    EndsSequence (bar.val :: r) := by
  simp [EndsSequence, bar.property]

theorem not_endsChoice_bar (bar : Terminal (.punct .bar)) (r : List Token) :
    ¬ EndsChoice (bar.val :: r) := by
  simp [EndsChoice, bar.property]

theorem endsChoice_rightParen (closing : Terminal (.punct .rightParen)) (r : List Token) :
    EndsChoice (closing.val :: r) := by
  simp [EndsChoice, closing.property]

mutual

/-- A choice can be cut off the front of a token list in one way only. -/
theorem Choice.unique : ∀ {c c' : Choice mode sets} {r r' : List Token}, EndsChoice r →
    EndsChoice r' → c.tokens ++ r = c'.tokens ++ r' → c = c' ∧ r = r'
  | .single s, .single s', r, r', hr, hr', h => by
    obtain ⟨rfl, rfl⟩ := Sequence.unique hr.endsSequence hr'.endsSequence h
    exact ⟨rfl, rfl⟩
  | .single s, .more s' bar c', r, r', hr, hr', h => by
    simp only [Choice.tokens, List.append_assoc, List.cons_append] at h
    obtain ⟨-, rfl⟩ := Sequence.unique hr.endsSequence (endsSequence_bar _ _) h
    exact absurd hr (not_endsChoice_bar _ _)
  | .more s bar c, .single s', r, r', hr, hr', h => by
    simp only [Choice.tokens, List.append_assoc, List.cons_append] at h
    obtain ⟨-, rfl⟩ := Sequence.unique (endsSequence_bar _ _) hr'.endsSequence h
    exact absurd hr' (not_endsChoice_bar _ _)
  | .more s bar c, .more s' bar' c', r, r', hr, hr', h => by
    simp only [Choice.tokens, List.append_assoc, List.cons_append] at h
    obtain ⟨rfl, h₁⟩ := Sequence.unique (endsSequence_bar _ _) (endsSequence_bar _ _) h
    obtain ⟨hbar, h₂⟩ := List.cons.inj h₁
    obtain rfl := Subtype.ext hbar
    obtain ⟨rfl, rfl⟩ := Choice.unique hr hr' h₂
    exact ⟨rfl, rfl⟩

theorem Sequence.unique : ∀ {s s' : Sequence mode sets} {r r' : List Token}, EndsSequence r →
    EndsSequence r' → s.tokens ++ r = s'.tokens ++ r' → s = s' ∧ r = r'
  | .single t, .single t', r, r', hr, hr', h => by
    obtain ⟨rfl, rfl⟩ := Term.unique hr.endsTerm hr'.endsTerm h
    exact ⟨rfl, rfl⟩
  | .single t, .more t' s', r, r', hr, hr', h => by
    simp only [Sequence.tokens, List.append_assoc] at h
    obtain ⟨-, rfl⟩ := Term.unique hr.endsTerm (s'.endsTerm r') h
    exact absurd hr (s'.not_endsSequence r')
  | .more t s, .single t', r, r', hr, hr', h => by
    simp only [Sequence.tokens, List.append_assoc] at h
    obtain ⟨-, rfl⟩ := Term.unique (s.endsTerm r) hr'.endsTerm h
    exact absurd hr' (s.not_endsSequence r)
  | .more t s, .more t' s', r, r', hr, hr', h => by
    simp only [Sequence.tokens, List.append_assoc] at h
    obtain ⟨rfl, h₁⟩ := Term.unique (s.endsTerm r) (s'.endsTerm r') h
    obtain ⟨rfl, rfl⟩ := Sequence.unique hr hr' h₁
    exact ⟨rfl, rfl⟩

theorem Term.unique : ∀ {t t' : Term mode sets} {r r' : List Token}, EndsTerm mode r →
    EndsTerm mode r' → t.tokens ++ r = t'.tokens ++ r' → t = t' ∧ r = r'
  | .mk l a q, .mk l' a' q', r, r', hr, hr', h => by
    simp only [Term.tokens, List.append_assoc] at h
    obtain ⟨rfl, h₁⟩ := label_unique (endsTerm_repetition hr) (endsTerm_repetition hr') h
    obtain ⟨rfl, h₂⟩ := Atom.unique h₁
    obtain ⟨rfl, rfl⟩ := repetition_unique hr hr' h₂
    exact ⟨rfl, rfl⟩

theorem Atom.unique : ∀ {a a' : Atom mode sets} {r r' : List Token},
    a.tokens ++ r = a'.tokens ++ r' → a = a' ∧ r = r'
  | .group o c cl, a', r, r', h => by
    cases a' with
    | group o' c' cl' =>
      simp only [Atom.tokens, List.append_assoc, List.cons_append, List.nil_append] at h
      obtain ⟨ho, h₁⟩ := List.cons.inj h
      obtain rfl := Subtype.ext ho
      obtain ⟨rfl, h₂⟩ := Choice.unique (endsChoice_rightParen _ _) (endsChoice_rightParen _ _) h₁
      obtain ⟨hc, rfl⟩ := List.cons.inj h₂
      obtain rfl := Subtype.ext hc
      exact ⟨rfl, rfl⟩
    | _ => grind [Atom.tokens, Bracketed.tokens, Token.WritesSymbol]
  | .set b, a', r, r', h => by
    cases a' with
    | set b' =>
      obtain ⟨rfl, rfl⟩ := Bracketed.unique h
      exact ⟨rfl, rfl⟩
    | _ => grind [Atom.tokens, Bracketed.tokens, Token.WritesSymbol]
  | .symbol t, a', r, r', h | .any t, a', r, r', h | .string t _, a', r, r', h
  | .charClass _ t, a', r, r', h => by
    cases a' <;> grind [Atom.tokens, Bracketed.tokens, Token.WritesSymbol]

end

/-- No two phrases are written with the same tokens. -/
theorem Choice.tokens_injective :
    Function.Injective (Choice.tokens : Choice mode sets → List Token) := by
  intro c c' h
  have none : EndsChoice [] := by simp [EndsChoice]
  exact (Choice.unique none none (congrArg (· ++ []) h)).1

end Phrase
end SymbolRegex
