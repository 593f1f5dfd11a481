import SymbolRegex.Proofs.Numbering

/-! # Labels and the actions they mark

The actions of a pattern that is read are numbered by the `=` of its source: an action
has the number of those before its own, and its body is what the rest of its term
stands for. Over symbols the names of the actions are the texts before these `=`, in
the same order.
-/

namespace SymbolRegex

namespace Pattern

variable {α : Type} {p : Pattern α} {n : Nat}

/-- Actions that are numbered from zero are counted by their highest number. -/
theorem actionCount_of_actions (h : p.actions = List.range n) : p.actionCount = n := by
  apply Nat.le_antisymm
  · refine actionCount_le p fun i hi => ?_
    rwa [h, List.mem_range] at hi
  · cases n with
    | zero => exact Nat.zero_le _
    | succ n =>
      have last : n ∈ p.actions := by rw [h, List.mem_range]; exact Nat.lt_succ_self n
      exact lt_actionCount_of_mem last

/-- They have a slot each, as long as their number fits into 32 bits. -/
theorem slotCount_of_actions (h : p.actions = List.range n) (lt : n < UInt32.size) :
    p.slotCount.toNat = n := by
  apply Nat.le_antisymm
  · refine (slotCount_le_iff p).2 fun i hi => ?_
    rw [h, List.mem_range] at hi
    rw [Nat.mod_eq_of_lt (by omega)]
    exact hi
  · cases n with
    | zero => exact Nat.zero_le _
    | succ n =>
      have last : n ∈ p.actions := by rw [h, List.mem_range]; exact Nat.lt_succ_self n
      exact lt_slotCount last lt

end Pattern

theorem Token.WritesSymbol.ne_equals {mode : Mode} {t : Token} (h : t.WritesSymbol mode) :
    t.kind ≠ .punct .equals := by
  rcases h with h | ⟨h, -⟩ <;> simp [h]

namespace Phrase

variable {mode : Mode} {sets : SetTable}

def equalsCount (ts : List Token) : Nat := ts.countP (·.kind = .punct .equals)

section EqualsCount

variable {t : Token} {ts us : List Token}

theorem equalsCount_append : equalsCount (ts ++ us) = equalsCount ts + equalsCount us :=
  List.countP_append

theorem equalsCount_cons_of_ne (h : t.kind ≠ .punct .equals) :
    equalsCount (t :: ts) = equalsCount ts := List.countP_cons_of_neg (by simpa using h)

theorem equalsCount_cons_of_eq (h : t.kind = .punct .equals) :
    equalsCount (t :: ts) = equalsCount ts + 1 := List.countP_cons_of_pos (by simpa using h)

theorem equalsCount_eq_zero_iff :
    equalsCount ts = 0 ↔ ∀ t ∈ ts, t.kind ≠ .punct .equals := by
  simp [equalsCount]

end EqualsCount

theorem Member.equalsCount_tokens (m : Member mode) : equalsCount m.tokens = 0 := by
  rw [equalsCount_eq_zero_iff]
  cases m with
  | symbol t => simpa [tokens] using t.property.ne_equals
  | range low dash high =>
    simp [tokens, low.property.ne_equals, dash.property,
      high.property.ne_equals]
  | group _ t | string t => simp [tokens, t.property]

theorem Bracketed.equalsCount_tokens (b : Bracketed mode sets) : equalsCount b.tokens = 0 := by
  rw [equalsCount_eq_zero_iff]
  obtain ⟨opening, caret?, members, closing, -⟩ := b
  simp only [tokens, List.cons_append, List.forall_mem_cons, List.forall_mem_append]
  refine ⟨by simp [opening.property], ?_, ?_, by simp [closing.property]⟩
  · cases caret? with
    | none => simp
    | some t => simp [t.property]
  · intro t ht
    obtain ⟨m, -, ht⟩ := List.mem_flatMap.1 ht
    exact equalsCount_eq_zero_iff.1 m.equalsCount_tokens t ht

theorem Repetition.equalsCount_tokens (q : Repetition) : equalsCount q.tokens = 0 := by
  rw [equalsCount_eq_zero_iff]
  cases q with
  | plus t | star t | question t => simp [tokens, t.property]
  | exactly opening n closing => simp [tokens, opening.property, n.property, closing.property]
  | between opening n comma m closing =>
    simp [tokens, opening.property, n.property, comma.property, m.property, closing.property]

theorem Label.equalsCount_tokens (l : Label mode) : equalsCount l.tokens = 1 := by
  cases l with
  | char equals => exact equalsCount_cons_of_eq equals.property
  | symbol name equals =>
    rw [tokens, equalsCount_cons_of_ne name.property.ne_equals]
    exact equalsCount_cons_of_eq equals.property

mutual

theorem Choice.equalsCount_tokens : ∀ c : Choice mode sets,
    equalsCount c.tokens = c.labels.length
  | .single s => s.equalsCount_tokens
  | .more s bar rest => by
    rw [Choice.tokens, equalsCount_append, equalsCount_cons_of_ne (by simp [bar.property]),
      s.equalsCount_tokens, rest.equalsCount_tokens, Choice.labels, List.length_append]

theorem Sequence.equalsCount_tokens : ∀ s : Sequence mode sets,
    equalsCount s.tokens = s.labels.length
  | .single t => t.equalsCount_tokens
  | .more t rest => by
    rw [Sequence.tokens, equalsCount_append, t.equalsCount_tokens, rest.equalsCount_tokens,
      Sequence.labels, List.length_append]

theorem Term.equalsCount_tokens : ∀ t : Term mode sets, equalsCount t.tokens = t.labels.length
  | .mk label? a repetition? => by
    have label : equalsCount (label?.elim [] Label.tokens) = label?.toList.length := by
      cases label? with
      | none => rfl
      | some l => exact l.equalsCount_tokens
    have repetition : equalsCount (repetition?.elim [] Repetition.tokens) = 0 := by
      cases repetition? with
      | none => rfl
      | some q => exact q.equalsCount_tokens
    rw [Term.tokens, equalsCount_append, equalsCount_append, label, a.equalsCount_tokens,
      repetition, Term.labels, List.length_append]
    rfl

theorem Atom.equalsCount_tokens : ∀ a : Atom mode sets, equalsCount a.tokens = a.labels.length
  | .group opening c closing => by
    rw [Atom.tokens, List.cons_append, equalsCount_cons_of_ne (by simp [opening.property]),
      equalsCount_append, c.equalsCount_tokens,
      equalsCount_cons_of_ne (by simp [closing.property])]
    rfl
  | .set b => b.equalsCount_tokens
  | .symbol t => equalsCount_cons_of_ne t.property.ne_equals
  | .any t | .string t _ | .charClass _ t => equalsCount_cons_of_ne (by simp [t.property])

end

/-! ## Where an action comes from -/

/-- An action of what some tokens stand for comes from a labelled term among them. Its number is
that of the `=` before the term, counted on from `n`. -/
def Locates (sets : SetTable) (n : Nat) (ts : List Token) (ls : List (Label mode))
    (part : Nat × TextPattern) : Prop :=
  ∃ (before : List Token) (l : Label mode) (a : Atom mode sets) (repetition? : Option Repetition)
    (after : List Token),
    ts = before ++ (Term.tokens (.mk (some l) a repetition?) ++ after) ∧
    ls[equalsCount before]? = some l ∧
    Term.pattern (n + equalsCount before) (.mk (some l) a repetition?) = .action part.1 part.2

section Locates

variable {n : Nat} {ts us : List Token} {ls ms : List (Label mode)} {part : Nat × TextPattern}

theorem Locates.append_right (h : Locates sets n ts ls part) (us ms) :
    Locates sets n (ts ++ us) (ls ++ ms) part := by
  obtain ⟨before, l, a, repetition?, after, rfl, hl, hp⟩ := h
  refine ⟨before, l, a, repetition?, after ++ us, by simp, ?_, hp⟩
  rwa [List.getElem?_append_left (List.getElem?_eq_some_iff.1 hl).1]

theorem Locates.append_left (count : equalsCount ts = ls.length)
    (h : Locates sets (n + ls.length) us ms part) : Locates sets n (ts ++ us) (ls ++ ms) part := by
  obtain ⟨before, l, a, repetition?, after, rfl, hl, hp⟩ := h
  refine ⟨ts ++ before, l, a, repetition?, after, by simp, ?_, ?_⟩
  · rw [equalsCount_append, count, List.getElem?_append_right (Nat.le_add_right _ _)]
    simpa using hl
  · rwa [equalsCount_append, count, ← Nat.add_assoc]

end Locates

mutual

theorem Choice.locates : ∀ (c : Choice mode sets) (n : Nat),
    ∀ part ∈ Pattern.allParts (c.branches n), Locates sets n c.tokens c.labels part
  | .single s, n, part, h => by
    rw [Choice.branches, Pattern.allParts, parts_ofSequence] at h
    exact s.locates n part (by simpa [Pattern.allParts] using h)
  | .more s bar rest, n, part, h => by
    rw [Choice.branches, Pattern.allParts, parts_ofSequence] at h
    rcases List.mem_append.1 h with h | h
    · exact (s.locates n part h).append_right _ _
    · have count : equalsCount (s.tokens ++ [bar.val]) = s.labels.length := by
        rw [equalsCount_append, s.equalsCount_tokens,
          equalsCount_cons_of_ne (by simp [bar.property])]
        rfl
      have := Locates.append_left count (rest.locates _ part h)
      rwa [List.append_assoc] at this

theorem Sequence.locates : ∀ (s : Sequence mode sets) (n : Nat),
    ∀ part ∈ Pattern.allParts (s.items n), Locates sets n s.tokens s.labels part
  | .single t, n, part, h => by
    rw [Sequence.items, Pattern.allParts] at h
    exact t.locates n part (by simpa [Pattern.allParts] using h)
  | .more t rest, n, part, h => by
    rw [Sequence.items, Pattern.allParts] at h
    rcases List.mem_append.1 h with h | h
    · exact (t.locates n part h).append_right _ _
    · exact .append_left t.equalsCount_tokens (rest.locates _ part h)

theorem Term.locates : ∀ (t : Term mode sets) (n : Nat),
    ∀ part ∈ (t.pattern n).parts, Locates sets n t.tokens t.labels part
  | .mk label? a repetition?, n, part, h => by
    have body (n : Nat)
        (h : part ∈ (repetition?.elim (a.pattern n) (Repetition.pattern (a.pattern n))).parts) :
        Locates sets n (a.tokens ++ repetition?.elim [] Repetition.tokens) a.labels part := by
      have inner : part ∈ (a.pattern n).parts := by
        cases repetition? with
        | none => exact h
        | some q => cases q <;> exact h
      have := (a.locates n part inner).append_right (repetition?.elim [] Repetition.tokens) []
      rwa [List.append_nil] at this
    cases label? with
    | none => exact body n h
    | some l =>
      rcases List.mem_cons.1 h with rfl | h
      · exact ⟨[], l, a, repetition?, [], by simp, rfl, rfl⟩
      · have one : equalsCount l.tokens = [l].length := l.equalsCount_tokens
        exact .append_left one (body (n + 1) h)

theorem Atom.locates : ∀ (a : Atom mode sets) (n : Nat),
    ∀ part ∈ (a.pattern n).parts, Locates sets n a.tokens a.labels part
  | .group opening c closing, n, part, h => by
    rw [Atom.pattern, parts_ofChoice] at h
    have opened : equalsCount [opening.val] = ([] : List (Label mode)).length :=
      equalsCount_cons_of_ne (by simp [opening.property])
    have := Locates.append_left opened ((c.locates n part h).append_right [closing.val] [])
    rwa [List.append_nil] at this
  | .string t _, n, part, h => by
    rw [Atom.pattern, parts_ofSequence, ← Function.comp_def Pattern.leaf, ← List.map_map,
      allParts_leaves] at h
    exact absurd h List.not_mem_nil
  | .symbol _, _, _, h | .set _, _, _, h | .any _, _, _, h | .charClass _ _, _, _, h =>
    absurd h List.not_mem_nil

end

theorem Label.getElem?_names {l : Label mode} {ls : List (Label mode)} {i : Nat}
    (h : ls[i]? = some l) : (ls.filterMap Label.name?)[i]? = l.name? := by
  cases mode with
  | char =>
    have unnamed (l : Label .char) : l.name? = none := by
      cases l
      rfl
    rw [List.filterMap_eq_nil_iff.2 fun l _ => unnamed l, unnamed l]
    rfl
  | symbol =>
    induction ls generalizing i with
    | nil => cases h
    | cons m ls ih =>
      cases m with
      | symbol name equals =>
        cases i with
        | zero =>
          obtain rfl := Option.some.inj h
          rfl
        | succ i => exact ih h

end Phrase

open Phrase

/-- What is read from a source has its actions numbered from zero in their order, an outer action
before those inside it, and as many of them as the source has `=`, with as many slots if that number
has 32 bits. Each action comes from a labelled term of the source: its number is that of the `=`
before the term, its body is what the rest of the term stands for, and its name is the one before
its own `=`. Over symbols every action has a name, and over characters none has. -/
theorem actions_numbered {mode : Mode} {sets : SetTable} {source : String} {o : Parser.Output}
    (h : (readPattern mode sets source).output? = some o) :
    let tokens := (lex mode source).ahead.map (·.token)
    o.pattern.actions = List.range o.pattern.actionCount ∧
    (∀ i j, o.pattern.Inside i j → i < j) ∧
    o.pattern.actionCount = equalsCount tokens ∧
    (o.pattern.actionCount < UInt32.size → o.pattern.slotCount.toNat = o.pattern.actionCount) ∧
    (∀ part ∈ o.pattern.parts, ∃ (before : List Token) (l : Label mode) (a : Atom mode sets)
      (repetition? : Option Repetition) (after : List Token),
      tokens = before ++ (l.tokens ++ (Term.tokens (.mk none a repetition?) ++ after)) ∧
      part.1 = equalsCount before ∧
      part.2 = Term.pattern (part.1 + 1) (.mk none a repetition?) ∧
      o.actionNames[part.1]? = l.name?) ∧
    (mode = .symbol → o.actionNames.length = o.pattern.actionCount) ∧
    (mode = .char → o.actionNames = []) := by
  intro tokens
  obtain ⟨c, (htokens : c.tokens = tokens), rfl⟩ := exists_phrase_of_output h
  have actions : c.output.pattern.actions = List.range c.labels.length := by
    rw [c.actions_output, List.range_eq_range']
  have count := Pattern.actionCount_of_actions actions
  refine ⟨count ▸ actions, fun i j inside => ?_, ?_, ?_, fun part hpart => ?_, ?_, ?_⟩
  · refine Pattern.Numbered.lt ?_ inside
    rw [Pattern.Numbered, actions]
    exact List.pairwise_lt_range
  · rw [count, ← c.equalsCount_tokens, htokens]
  · rw [count]
    exact Pattern.slotCount_of_actions actions
  · rw [Choice.output, parts_ofChoice] at hpart
    obtain ⟨before, l, a, repetition?, after, htokens', hl, hp⟩ := c.locates 0 part hpart
    rw [Nat.zero_add] at hp
    obtain ⟨hi, hbody⟩ := Pattern.action.inj hp
    refine ⟨before, l, a, repetition?, after, ?_, hi.symm, ?_, ?_⟩
    · rw [← htokens, htokens', Term.tokens, Option.elim_some, Term.tokens, Option.elim_none]
      simp
    · rw [← hi, ← hbody]
      rfl
    · rw [← hi]
      exact Label.getElem?_names hl
  · rintro rfl
    rw [count, c.length_actionNames]
  · rintro rfl
    refine List.filterMap_eq_nil_iff.2 fun l _ => ?_
    cases l
    rfl

/-- An integer is a name, too. -/
theorem actions_numbered_nested :
    let p : TextPattern :=
      .action 0 (.choice [.leaf (.literal "x"), .action 1 (.leaf (.literal "y"))])
    (readPattern .symbol {} "v=(x | 1=y)").output? = some ⟨p, ["v", "1"]⟩ ∧
      p.actions = List.range p.actionCount ∧ ["v", "1"].length = p.actionCount ∧
      p.actionCount = equalsCount ((lex .symbol "v=(x | 1=y)").ahead.map (·.token)) ∧
      p.slotCount.toNat = p.actionCount := by
  intro p
  let v : SymbolToken .symbol := ⟨⟨.literal, "v", ⟨1, 1⟩⟩, .inl rfl⟩
  let equals : Terminal (.punct .equals) := ⟨⟨.punct .equals, "=", ⟨1, 2⟩⟩, rfl⟩
  let opening : Terminal (.punct .leftParen) := ⟨⟨.punct .leftParen, "(", ⟨1, 3⟩⟩, rfl⟩
  let x : SymbolToken .symbol := ⟨⟨.literal, "x", ⟨1, 4⟩⟩, .inl rfl⟩
  let bar : Terminal (.punct .bar) := ⟨⟨.punct .bar, "|", ⟨1, 6⟩⟩, rfl⟩
  let one : SymbolToken .symbol := ⟨⟨.integer, "1", ⟨1, 8⟩⟩, .inr ⟨rfl, rfl⟩⟩
  let equals' : Terminal (.punct .equals) := ⟨⟨.punct .equals, "=", ⟨1, 9⟩⟩, rfl⟩
  let y : SymbolToken .symbol := ⟨⟨.literal, "y", ⟨1, 10⟩⟩, .inl rfl⟩
  let closing : Terminal (.punct .rightParen) := ⟨⟨.punct .rightParen, ")", ⟨1, 11⟩⟩, rfl⟩
  let inner : Choice .symbol {} := .more (.single (.mk none (.symbol x) none)) bar
    (.single (.single (.mk (some (.symbol one equals')) (.symbol y) none)))
  let c : Choice .symbol {} :=
    .single (.single (.mk (some (.symbol v equals)) (.group opening inner closing) none))
  have hread : readPattern .symbol {} "v=(x | 1=y)" = ⟨[], some ⟨p, ["v", "1"]⟩⟩ :=
    readPattern_of_phrase c (by decide +kernel)
  have h : (readPattern .symbol {} "v=(x | 1=y)").output? = some ⟨p, ["v", "1"]⟩ := by rw [hread]
  obtain ⟨actions, -, count, slots, -, names, -⟩ := actions_numbered h
  exact ⟨h, actions, names rfl, count, slots (by decide)⟩

end SymbolRegex
