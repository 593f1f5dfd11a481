import SymbolRegex.Proofs.Reading
import SymbolRegex.Proofs.Unambiguous

/-! # Recognition

The tokens of a phrase are read as what the phrase stands for, whenever what
follows them does not continue it. Together with what is known of every reading,
the sources that are read as patterns are those that can be parsed by the
grammar.
-/

namespace SymbolRegex
namespace Parser

open Phrase

variable {mode : Mode} {g : Grammar} {s s' : State} {ts : List Token}

theorem take?_of_passes {kind : TokenKind} {t : Terminal kind} (hp : Takes mode s s' [t.val]) :
    ∃ h, s.take? kind = some (t.val, ⟨s', h⟩) := by
  obtain ⟨rest, n, names, rfl, rfl⟩ := hp.exists_rest
  exact ⟨by simp, by simp [State.take?, t.property, State.reading]⟩

theorem take?_eq_none {kind : TokenKind} (h : ∀ t ∈ s.ahead.head?, t.kind ≠ kind) :
    s.take? kind = none := by
  unfold State.take?
  split
  · rfl
  · next t rest ha => exact if_neg (h t (by simp [ha]))

theorem expect_of_passes (expected : String) {kind : TokenKind} {t : Terminal kind}
    (hp : Takes mode s s' [t.val]) :
    ∃ h, expect g kind expected s = .ok (t.val, ⟨s', h⟩) := by
  obtain ⟨h, ht⟩ := take?_of_passes hp
  exact ⟨h, by rw [expect, ht]⟩

theorem expectClose_of_passes (opening : Token) {close : Punctuation} {t : Terminal (.punct close)}
    (hp : Takes mode s s' [t.val]) :
    ∃ h, expectClose g opening close s = .ok (t.val, ⟨s', h⟩) := by
  obtain ⟨h, ht⟩ := expect_of_passes (g := g) (TokenKind.punct close).describe hp
  exact ⟨h, by rw [expectClose, if_neg (by simp [hp.ahead]), ht]⟩

theorem rangeItem_of_passes (low : Token) {high : SymbolToken g.mode}
    (hp : Takes g.mode s s' [high.val]) :
    ∃ h, rangeItem g low s = .ok (.range low.text high.val.text, ⟨s', h⟩) := by
  obtain ⟨rest, n, names, rfl, rfl⟩ := hp.exists_rest
  exact ⟨by simp, by
    simp [rangeItem, high.property.ne_error, isSymbol_iff.2 high.property, State.reading]⟩

theorem setMember_of_passes {t : Token} {m : Member g.mode} (ht : m.tokens = t :: ts)
    (hp : Takes g.mode s s' ts) (hd : ∀ u ∈ s'.ahead.head?, u.kind ≠ .punct .dash) :
    ∃ h, setMember g t s = .ok (m.items g.sets, ⟨s', h⟩) := by
  have notSymbol (hk : t.kind ≠ .literal ∧ t.kind ≠ .integer) : isSymbol g t = false := by
    simp [isSymbol, hk]
  cases m with
  | symbol u =>
    obtain ⟨rfl, rfl⟩ := List.cons.inj ht
    obtain rfl := takes_nil_iff.1 hp
    refine ⟨Nat.le_refl _, ?_⟩
    simp only [setMember, isSymbol_iff.2 u.property, if_true, take?_eq_none hd]
    rfl
  | range low dash high =>
    obtain ⟨rfl, rfl⟩ := List.cons.inj ht
    obtain ⟨s₁, hp₁, hp₂⟩ := passes_cons_iff.1 hp
    obtain ⟨h₁, e₁⟩ := take?_of_passes hp₁
    obtain ⟨h₂, e₂⟩ := rangeItem_of_passes low.val hp₂
    refine ⟨by omega, ?_⟩
    simp only [setMember, isSymbol_iff.2 low.property, if_true, e₁, e₂, bind, Except.bind]
    rfl
  | group name u =>
    obtain ⟨rfl, rfl⟩ := List.cons.inj ht
    obtain rfl := takes_nil_iff.1 hp
    refine ⟨Nat.le_refl _, ?_⟩
    simp [setMember, notSymbol, u.property, Member.items]
  | string u =>
    obtain ⟨rfl, rfl⟩ := List.cons.inj ht
    obtain rfl := takes_nil_iff.1 hp
    refine ⟨Nat.le_refl _, ?_⟩
    simp [setMember, notSymbol, u.property, Member.items, charItems]

theorem setMembers_of_passes (opening : Token) {c : Terminal (.punct .rightBracket)} :
    ∀ {ms : List (Member g.mode)} {s s' : State},
      Takes g.mode s s' (ms.flatMap Member.tokens ++ [c.val]) →
        ∃ h, setMembers g opening s = .ok ((ms.flatMap (Member.items g.sets), c.val), ⟨s', h⟩)
  | [], s, s', hp => by
    obtain ⟨rest, n, names, rfl, rfl⟩ := hp.exists_rest
    refine ⟨by simp, ?_⟩
    rw [setMembers]
    simp [c.property, State.reading]
  | m :: ms, s, s', hp => by
    rw [List.flatMap_cons, List.append_assoc] at hp
    obtain ⟨s₁, hp₁, hp₂⟩ := passes_append_takes_iff.1 hp
    obtain ⟨h₂, e₂⟩ := setMembers_of_passes opening hp₂
    obtain ⟨t, ts, ht, hk⟩ := m.exists_cons
    rw [ht] at hp₁
    obtain ⟨s₀, hp₀, hp₁⟩ := passes_cons_iff.1 hp₁
    obtain ⟨u, hu, hd, -⟩ := exists_head_members ms c s'.ahead
    obtain ⟨h₁, e₁⟩ := setMember_of_passes ht hp₁ (by simpa [hp₂.ahead, hu] using hd)
    have he := readable_singleton.1 hp₀.readable
    obtain ⟨rest, n, names, rfl, rfl⟩ := hp₀.exists_rest
    refine ⟨Nat.lt_trans h₂ (Nat.lt_of_le_of_lt h₁ (by simp)), ?_⟩
    rw [setMembers]
    simp only [hk, he, if_false, State.reading, e₁, e₂, bind, Except.bind]
    rfl

theorem set_of_passes {opening : Token} {b : Bracketed g.mode g.sets}
    (hb : b.tokens = opening :: ts) (hp : Takes g.mode s s' ts) :
    ∃ h, Parser.set g opening s = .ok (b.leaf, ⟨s', h⟩) := by
  obtain ⟨o, k, ms, c, hi⟩ := b
  obtain ⟨rfl, rfl⟩ := List.cons.inj hb
  obtain ⟨s₁, hp₁, hp₂⟩ := passes_append_takes_iff.1 hp
  obtain ⟨h₂, e₂⟩ := setMembers_of_passes o.val hp₂
  unfold Parser.set
  cases k with
  | none =>
    obtain rfl := takes_nil_iff.1 hp₁
    obtain ⟨u, hu, -, hk⟩ := exists_head_members ms c s'.ahead
    have hn : s₁.take? (.punct .caret) = none := take?_eq_none (by simpa [hp₂.ahead, hu] using hk)
    refine ⟨h₂, ?_⟩
    rw [hn]
    simp only [e₂, bind, Except.bind, List.isEmpty_iff, hi, if_false]
    rfl
  | some caret =>
    obtain ⟨h₁, e₁⟩ := take?_of_passes hp₁
    refine ⟨Nat.lt_trans h₂ h₁, ?_⟩
    rw [e₁]
    simp only [e₂, bind, Except.bind, List.isEmpty_iff, hi, if_false]
    rfl

theorem bound_of_passes {n : Terminal .integer} (hn : count n ≤ 10)
    (hp : Takes g.mode s s' [n.val]) : ∃ h, bound g s = .ok (count n, ⟨s', h⟩) := by
  obtain ⟨h, e⟩ := expect_of_passes (g := g) "an integer bound" hp
  refine ⟨h, ?_⟩
  have : decimal n.val.text < boundLimit :=
    Nat.lt_of_le_of_lt hn (by simp [boundLimit, UInt32.size])
  simp only [bound, e, bind, Except.bind, this, if_true]
  rfl

theorem bounds_of_passes {opening : Token} {q : Repetition} (hq : q.tokens = opening :: ts)
    (hk : opening.kind = .punct .leftBrace) (p : TextPattern) (hp : Takes g.mode s s' ts) :
    ∃ r h, bounds g opening s = .ok (r, ⟨s', h⟩) ∧ .counted p r.1 r.2 = q.pattern p := by
  cases q with
  | plus t | star t | question t =>
    obtain ⟨rfl, -⟩ := List.cons.inj hq
    simp [t.property] at hk
  | exactly o n c hv =>
    obtain ⟨rfl, rfl⟩ := List.cons.inj hq
    obtain ⟨s₁, hp₁, hp₂⟩ := passes_cons_iff.1 hp
    obtain ⟨h₁, e₁⟩ := bound_of_passes hv.limited hp₁
    obtain ⟨h₂, e₂⟩ := expectClose_of_passes (g := g) o.val hp₂
    have hn : s₁.take? (.punct .comma) = none :=
      take?_eq_none (by simp [hp₂.ahead, c.property])
    refine ⟨(count n, count n), by omega, ?_, rfl⟩
    simp only [bounds, e₁, hn, e₂, bind, Except.bind, pure, Except.pure,
      boundsFault?_eq_none_iff.2 hv]
  | between o n comma m c hv =>
    obtain ⟨rfl, rfl⟩ := List.cons.inj hq
    obtain ⟨s₁, hp₁, hp₂⟩ := passes_cons_iff.1 hp
    obtain ⟨s₂, hp₂, hp₃⟩ := passes_cons_iff.1 hp₂
    obtain ⟨s₃, hp₃, hp₄⟩ := passes_cons_iff.1 hp₃
    obtain ⟨h₁, e₁⟩ := bound_of_passes (Nat.le_trans hv.ordered hv.limited) hp₁
    obtain ⟨h₂, e₂⟩ := take?_of_passes hp₂
    obtain ⟨h₃, e₃⟩ := bound_of_passes hv.limited hp₃
    obtain ⟨h₄, e₄⟩ := expectClose_of_passes (g := g) o.val hp₄
    refine ⟨(count n, count m), by omega, ?_, rfl⟩
    simp only [bounds, e₁, e₂, e₃, e₄, bind, Except.bind, pure, Except.pure,
      boundsFault?_eq_none_iff.2 hv]

theorem repetition_of_passes (q : Option Repetition) (p : TextPattern)
    (hp : Takes g.mode s s' (q.elim [] Repetition.tokens)) (he : EndsTerm g.mode s'.ahead) :
    ∃ h, repetition g p s = .ok (q.elim p (Repetition.pattern p), ⟨s', h⟩) := by
  cases q with
  | none =>
    obtain rfl := takes_nil_iff.1 hp
    refine ⟨Nat.le_refl _, ?_⟩
    unfold repetition
    split
    · rfl
    · next t rest h =>
      have := he t (by simp [h])
      dsimp only
      split <;> simp_all [continuesTerm]
  | some q =>
    have counted (ts : List Token) (opening : Token) (hq : q.tokens = opening :: ts)
        (hk : opening.kind = .punct .leftBrace) :
        ∃ h, repetition g p s = .ok (q.pattern p, ⟨s', h⟩) := by
      rw [Option.elim_some, hq] at hp
      obtain ⟨s₁, hp₁, hp₂⟩ := passes_cons_iff.1 hp
      obtain ⟨r, h₂, e₂, e⟩ := bounds_of_passes hq hk p hp₂
      obtain ⟨rest, n, names, rfl, rfl⟩ := hp₁.exists_rest
      refine ⟨by simp at h₂ ⊢; omega, ?_⟩
      simp only [repetition, hk, State.reading, e₂, bind, Except.bind, ← e]
      rfl
    cases q with
    | plus t | star t | question t =>
      obtain ⟨rest, n, names, rfl, rfl⟩ := hp.exists_rest
      exact ⟨by simp, by simp [repetition, t.property, Repetition.pattern, State.reading]⟩
    | exactly o | between o => exact counted _ o.val rfl o.property

theorem endsSequence_iff : s.endsSequence = true ↔ EndsSequence s.ahead := by
  unfold State.endsSequence EndsSequence
  split
  · next h => simp [h]
  · next h => simp [h]

theorem lead_of_label {l : Label g.mode} (hp : Passes s s' l.tokens [l]) :
    ∃ h, lead g s = .ok (.action s.actions ⟨s', h⟩) := by
  obtain ⟨mode, sets, eof⟩ := g
  obtain ⟨s₁, hp₁, rfl⟩ := passes_label_iff.1 hp
  cases l with
  | char equals =>
    obtain ⟨rest, n, names, rfl, rfl⟩ := hp₁.exists_rest
    exact ⟨by simp [State.addAction], by simp [lead, equals.property, Label.name?, State.reading]⟩
  | symbol name equals =>
    obtain ⟨s₂, hp₂, hp₃⟩ := passes_cons_iff.1 hp₁
    obtain ⟨h₃, e₃⟩ := take?_of_passes hp₃
    obtain ⟨rest, n, names, rfl, rfl⟩ := hp₂.exists_rest
    have hne := (kind_of_writesSymbol name).2 .equals
    have hs : isSymbol ⟨.symbol, sets, eof⟩ name.val = true := isSymbol_iff.2 name.property
    refine ⟨Nat.lt_trans h₃ (by simp), ?_⟩
    simp [lead, hne, hs, State.reading, e₃, Label.name?]

theorem lead_of_symbol (hm : g.mode = .symbol) {t : SymbolToken g.mode}
    (hp : Takes g.mode s s' [t.val]) (he : ∀ u ∈ s'.ahead.head?, u.kind ≠ .punct .equals) :
    ∃ h, lead g s = .ok (.symbol t.val ⟨s', h⟩) := by
  obtain ⟨rest, n, names, rfl, rfl⟩ := hp.exists_rest
  have hne := (kind_of_writesSymbol t).2 .equals
  exact ⟨by simp, by
    simp [lead, hm, hne, isSymbol_iff.2 t.property, take?_eq_none he, State.reading]⟩

theorem lead_of_bare {t : Token} {rest : List Token} (ha : s.ahead = t :: rest)
    (hs : startsTerm g.mode t.kind = true) (he : t.kind ≠ .punct .equals)
    (hm : g.mode = .symbol → ¬ t.WritesSymbol g.mode) : lead g s = .ok .bare := by
  obtain ⟨mode, sets, eof⟩ := g
  obtain ⟨ahead, n, names⟩ := s
  obtain rfl : ahead = t :: rest := ha
  cases mode with
  | char =>
    have hi : t.kind ≠ .integer := by rintro hi; simp [hi, startsTerm] at hs
    simp [lead, he, hi]
  | symbol => simp [lead, he, mt isSymbol_iff.1 (hm rfl)]

mutual

theorem branches_of_passes : ∀ {d : Choice g.mode g.sets} {s s' : State},
    Passes s s' d.tokens d.labels → EndsChoice s'.ahead →
      ∃ h, branches g s = .ok (d.branches s.actions, ⟨s', h⟩)
  | .single d, s, s', hp, he => by
    obtain ⟨h₁, e₁⟩ := terms_of_passes (d := d) hp he.endsSequence
    have hn : s'.take? (.punct .bar) = none :=
      take?_eq_none fun t ht => by simp [he t ht]
    refine ⟨h₁, ?_⟩
    rw [branches]
    simp only [e₁, bind, Except.bind, hn]
    rfl
  | .more d bar c, s, s', hp, he => by
    obtain ⟨s₁, hp₁, hp₂⟩ := passes_append_iff.1 hp
    obtain ⟨s₂, hp₂, hp₃⟩ := passes_cons_iff.1 hp₂
    obtain ⟨h₁, e₁⟩ := terms_of_passes hp₁ (by rw [hp₂.ahead]; exact endsSequence_bar _ _)
    obtain ⟨h₂, e₂⟩ := take?_of_passes hp₂
    obtain ⟨h₃, e₃⟩ := branches_of_passes hp₃ he
    have hn : s₂.actions = s.actions + d.labels.length := by rw [hp₂.actions, hp₁.actions]; rfl
    refine ⟨by omega, ?_⟩
    rw [branches]
    simp only [e₁, e₂, e₃, bind, Except.bind, Choice.branches, hn]
    rfl

theorem terms_of_passes : ∀ {d : Sequence g.mode g.sets} {s s' : State},
    Passes s s' d.tokens d.labels → EndsSequence s'.ahead →
      ∃ h, terms g s = .ok (d.items s.actions, ⟨s', h⟩)
  | .single d, s, s', hp, he => by
    obtain ⟨h₁, e₁⟩ := term_of_passes (d := d) hp he.endsTerm
    refine ⟨h₁, ?_⟩
    rw [terms]
    simp only [e₁, bind, Except.bind, endsSequence_iff.2 he, if_true]
    rfl
  | .more d c, s, s', hp, he => by
    obtain ⟨s₁, hp₁, hp₂⟩ := passes_append_iff.1 hp
    obtain ⟨h₁, e₁⟩ := term_of_passes hp₁ (by rw [hp₂.ahead]; exact c.endsTerm _)
    obtain ⟨h₂, e₂⟩ := terms_of_passes hp₂ he
    have hs : s₁.endsSequence = false := by
      rw [Bool.eq_false_iff, Ne, endsSequence_iff, hp₂.ahead]
      exact c.not_endsSequence _
    refine ⟨by omega, ?_⟩
    rw [terms]
    simp only [e₁, e₂, bind, Except.bind, Sequence.items, hp₁.actions, hs]
    rfl

theorem term_of_passes : ∀ {d : Term g.mode g.sets} {s s' : State},
    Passes s s' d.tokens d.labels → EndsTerm g.mode s'.ahead →
      ∃ h, term g s = .ok (d.pattern s.actions, ⟨s', h⟩)
  | .mk (some l) a q, s, s', hp, he => by
    simp only [Term.tokens, Term.labels, Option.elim_some, Option.toList_some] at hp
    obtain ⟨s₁, hp₁, hp₂⟩ := passes_append_iff.1 hp
    obtain ⟨s₂, hp₂, hp₃⟩ := passes_append_takes_iff.1 hp₂
    obtain ⟨h₁, e₁⟩ := lead_of_label hp₁
    obtain ⟨h₂, e₂⟩ := atom_of_passes hp₂
    obtain ⟨h₃, e₃⟩ := repetition_of_passes q (a.pattern s₁.actions) hp₃ he
    have hn : s₁.actions = s.actions + 1 := hp₁.actions
    rw [hn] at e₂ e₃
    refine ⟨by omega, ?_⟩
    rw [term]
    simp only [e₁, e₂, e₃, bind, Except.bind, Term.pattern]
    rfl
  | .mk none a q, s, s', hp, he => by
    simp only [Term.tokens, Term.labels, Option.elim_none, Option.toList_none,
      List.nil_append] at hp
    obtain ⟨s₁, hp₁, hp₂⟩ := passes_append_takes_iff.1 hp
    obtain ⟨h₂, e₂⟩ := repetition_of_passes q (a.pattern s.actions) hp₂ he
    by_cases hs : g.mode = .symbol ∧ ∃ t, a = .symbol t
    · obtain ⟨hm, t, rfl⟩ := hs
      have hn := endsTerm_repetition (q := q) he hm
      obtain ⟨h₁, e₁⟩ := lead_of_symbol hm (t := t) hp₁ (by rw [hp₂.ahead]; exact hn)
      refine ⟨by omega, ?_⟩
      have e₂ : repetition g (.leaf (textLeaf g t.val.text)) s₁ = _ := e₂
      rw [term]
      simp only [e₁, e₂, bind, Except.bind]
      rfl
    · obtain ⟨t, ht, hstart, hne, hsym⟩ := a.exists_head s₁.ahead
      rw [← hp₁.ahead] at ht
      obtain ⟨rest, ha⟩ := List.head?_eq_some_iff.1 ht
      have e := lead_of_bare ha hstart hne fun hm hw => hs ⟨hm, hsym hw⟩
      obtain ⟨h₁, e₁⟩ := atom_of_passes hp₁
      refine ⟨by omega, ?_⟩
      rw [term]
      simp only [e, e₁, e₂, bind, Except.bind, Term.pattern]
      rfl

theorem atom_of_passes : ∀ {d : Atom g.mode g.sets} {s s' : State},
    Passes s s' d.tokens d.labels → ∃ h, atom g s = .ok (d.pattern s.actions, ⟨s', h⟩)
  | .group o c cl, s, s', hp => by
    obtain ⟨s₁, hp₁, hp₂⟩ := passes_cons_iff.1 hp
    obtain ⟨s₂, hp₂, hp₃⟩ := passes_append_takes_iff.1 hp₂
    obtain ⟨h₂, e₂⟩ := branches_of_passes hp₂ (by rw [hp₃.ahead]; exact endsChoice_rightParen _ _)
    obtain ⟨h₃, e₃⟩ := expectClose_of_passes (g := g) o.val hp₃
    obtain ⟨rest, n, names, rfl, rfl⟩ := hp₁.exists_rest
    refine ⟨Nat.lt_trans h₃ (Nat.lt_trans h₂ (by simp)), ?_⟩
    have hs : isSymbol g o.val = false := by simp [isSymbol, o.property]
    rw [atom]
    simp only [hs, o.property, State.reading, e₂, e₃, bind, Except.bind]
    rfl
  | .set b, s, s', hp => by
    obtain ⟨s₁, hp₁, hp₂⟩ := passes_cons_iff.1 hp
    obtain ⟨h₂, e₂⟩ := set_of_passes (b := b) rfl hp₂
    obtain ⟨rest, n, names, rfl, rfl⟩ := hp₁.exists_rest
    refine ⟨Nat.lt_trans h₂ (by simp), ?_⟩
    have hs : isSymbol g b.opening.val = false := by simp [isSymbol, b.opening.property]
    rw [atom]
    simp only [hs, b.opening.property, State.reading, e₂, bind, Except.bind]
    rfl
  | .symbol t, s, s', hp => by
    obtain ⟨rest, n, names, rfl, rfl⟩ := hp.exists_rest
    refine ⟨by simp, ?_⟩
    rw [atom]
    simp only [isSymbol_iff.2 t.property, if_true]
    rfl
  | .string t ht, s, s', hp => by
    obtain ⟨rest, n, names, rfl, rfl⟩ := hp.exists_rest
    refine ⟨by simp, ?_⟩
    rw [atom]
    simp [isSymbol, t.property, Atom.pattern, ht, stringPattern, State.reading]
  | .any t, s, s', hp | .charClass _ t, s, s', hp => by
    obtain ⟨rest, n, names, rfl, rfl⟩ := hp.exists_rest
    refine ⟨by simp, ?_⟩
    rw [atom]
    simp [isSymbol, t.property, Atom.pattern, CharClass.leaf, State.reading]

end

/-- The tokens that can be read as a whole are those of the phrases. -/
theorem whole_eq_ok_iff (heof : g.eof.kind = .eof) {o : Output} :
    whole g ts = .ok o ↔ ∃ d : Choice g.mode g.sets, d.tokens = ts ∧ o = d.output := by
  constructor
  · intro h
    have hw := whole_outcome heof ts
    rw [h] at hw
    exact hw
  · rintro ⟨d, rfl, rfl⟩
    have hp : Passes ⟨d.tokens, 0, []⟩
        ⟨[], d.labels.length, (d.labels.filterMap Label.name?).reverse⟩ d.tokens d.labels :=
      ⟨by simp, by simp, by simp, d.readable⟩
    obtain ⟨h, e⟩ := branches_of_passes hp (by simp [EndsChoice])
    simp only [whole, e, bind, Except.bind]
    simp [pure, Except.pure, Choice.output]

end Parser

theorem Reading.output?_eq_some_iff {mode : Mode} {sets : SetTable} {stream : TokenStream}
    {o : Parser.Output} : (ofStream mode sets stream).output? = some o ↔
      Parser.whole ⟨mode, sets, stream.eof⟩ (stream.ahead.map (·.token)) = .ok o := by
  unfold ofStream
  dsimp only
  cases Parser.whole ⟨mode, sets, stream.eof⟩ (stream.ahead.map (·.token)) <;> simp

/-- A source is read as a pattern exactly when its tokens are those of a phrase, which is then the
only one and stands for the pattern; no token of it stands for a lexical fault. -/
theorem readPattern_eq_some_iff_phrase (mode : Mode) (sets : SetTable) (source : String) :
    let tokens := (lex mode source).ahead.map (·.token)
    (∀ o, (readPattern mode sets source).output? = some o ↔
      ∃ d : Phrase.Choice mode sets, d.tokens = tokens ∧ o = d.output) ∧
    ∀ d : Phrase.Choice mode sets, d.tokens = tokens →
      (∀ t ∈ tokens, t.kind ≠ .error) ∧
      ∀ d' : Phrase.Choice mode sets, d'.tokens = tokens → d' = d := by
  intro tokens
  constructor
  · intro o
    have heof : (lex mode source).eof.kind = .eof := rfl
    rw [readPattern, Reading.output?_eq_some_iff]
    exact Parser.whole_eq_ok_iff (g := ⟨mode, sets, (lex mode source).eof⟩) heof
  · intro d hd
    exact ⟨hd ▸ d.readable, fun d' hd' => Phrase.Choice.tokens_injective (hd'.trans hd.symm)⟩

/-- The source `r=x+` over symbols. -/
theorem readPattern_eq_some_iff_phrase_action :
    let tokens := (lex .symbol "r=x+").ahead.map (·.token)
    ∃ d : Phrase.Choice .symbol {}, d.tokens = tokens ∧
      (readPattern .symbol {} "r=x+").output? =
        some ⟨.action 0 (.oneOrMore (.leaf (.literal "x"))), ["r"]⟩ ∧
      (∀ t ∈ tokens, t.kind ≠ .error) ∧
      ∀ d' : Phrase.Choice .symbol {}, d'.tokens = tokens → d' = d := by
  intro tokens
  let name : SymbolToken .symbol := ⟨⟨.literal, "r", ⟨1, 1⟩⟩, .inl rfl⟩
  let equals : Terminal (.punct .equals) := ⟨⟨.punct .equals, "=", ⟨1, 2⟩⟩, rfl⟩
  let x : SymbolToken .symbol := ⟨⟨.literal, "x", ⟨1, 3⟩⟩, .inl rfl⟩
  let plus : Terminal (.punct .plus) := ⟨⟨.punct .plus, "+", ⟨1, 4⟩⟩, rfl⟩
  let d : Phrase.Choice .symbol {} :=
    .single (.single (.mk (some (.symbol name equals)) (.symbol x) (some (.plus plus))))
  have ht : (lex .symbol "r=x+").ahead.map (·.token) = [name.val, equals.val, x.val, plus.val] := by
    decide +kernel
  have hd : d.tokens = tokens := ht.symm
  have h := readPattern_eq_some_iff_phrase .symbol {} "r=x+"
  exact ⟨d, hd, (h.1 _).2 ⟨d, hd, rfl⟩, h.2 d hd⟩

end SymbolRegex
