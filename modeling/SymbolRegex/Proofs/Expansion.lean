import SymbolRegex.Proofs.Parallel

/-! # Expanding named sets

A pattern that is read with a set table is the pattern that is read without one from
the tokens in which every name of a set is replaced by what it stands for. So a table
decides what the leaves consume and nothing else.
-/

namespace SymbolRegex
namespace Parser

open Phrase

variable {g : Grammar} {named : SetTable} {pl : Place} {s : State}

/-! ## Terms -/

def Lead.action? : Lead s → Option (Nat × After s)
  | .action index r => some (index, r)
  | .symbol _ _ | .bare => none

/-- A symbol that was taken to see whether it names an action is read as an atom after all. -/
theorem term_of_lead {l : Lead s} (h : lead g s = .ok l) : term g s =
    l.action?.elim
      (do
        let (p, ⟨s₁, h₁⟩) ← atom g s
        let (q, ⟨s₂, h₂⟩) ← repetition g p s₁
        return (q, ⟨s₂, Nat.lt_of_le_of_lt h₂ h₁⟩))
      fun (index, ⟨s₁, h₁⟩) => do
        let (p, ⟨s₂, h₂⟩) ← atom g s₁
        let (q, ⟨s₃, h₃⟩) ← repetition g p s₂
        return (.action index q, ⟨s₃, Nat.lt_of_le_of_lt h₃ (Nat.lt_trans h₂ h₁)⟩) := by
  rw [term, h]
  cases l with
  | action index r => rfl
  | bare => rfl
  | symbol t r =>
    have hl := lead_outcome (g := g) s
    rw [h] at hl
    obtain ⟨le, e⟩ := atom_of_passes (d := .symbol ⟨t, hl.1⟩) hl.2
    simp only [Lead.action?, Option.elim_none, e]
    rfl

theorem term_of_lead_error {e : Failure} (h : lead g s = .error e) : term g s = .error e := by
  rw [term, h]; rfl

/-- A symbol that comes next stands for the set that it names, if it names one. -/
def Expands (mode : Mode) (pl : Place) (s : State) : Prop :=
  ∀ t rest, s.ahead = t :: rest → t.WritesSymbol mode →
    pl.expands mode (rest.head?.map (·.kind)) = true

/-- What two readings find at the start of a term. -/
def LeadsAlike (mode : Mode) (named : SetTable) {s s' : State} :
    Except Failure (Lead s) → Except Failure (Lead s') → Prop
  | .ok l, .ok l' =>
    (l.action? = none ∧ l'.action? = none ∧ Expands mode .start s) ∨
    ∃ index r r', l.action? = some (index, r) ∧ l'.action? = some (index, r') ∧
      r'.val = r.val.expand mode named .body ∧ Reaches mode named .start s .body r.val
  | .error e, .error e' => StopsAlike (replacements mode named .start s.ahead) e e'
  | _, _ => False

/-- The token behind an integer over characters is looked at before the integer is refused. -/
theorem stopsAlike_integer {sets : SetTable} {eof : Token} (part : named.PartOf sets)
    (p : Position) (a b : ParseCause) (s : State) :
    let s' := s.expand .char named .start
    let cause (g : Grammar) (s : State) := if (g.current s).kind = .punct .equals then a else b
    StopsAlike (replacements .char named .start s.ahead)
      ⟨⟨cause ⟨.char, sets, eof⟩ s, p⟩, s.ahead.length - 1⟩
      ⟨⟨cause ⟨.char, {}, eof⟩ s', p⟩, s'.ahead.length - 1⟩ := by
  obtain ⟨ahead, n, names⟩ := s
  cases ahead with
  | nil => exact stopsAlike_end _ _
  | cons t rest =>
    cases hm : t.members? .char named .start (rest.head?.map (·.kind)) with
    | none =>
      rw [expand_of_members?_eq_none hm]
      have := StopsAlike.between ⟨if t.kind = .punct .equals then a else b, p⟩
        (List.suffix_cons (t.replacement .char named .start (rest.head?.map (·.kind)))
          (replacements .char named (Place.next .start t.kind) rest))
      rwa [length_replacements] at this
    | some members =>
      obtain ⟨u, more, hu, hg⟩ := replacements_of_members?_eq_some part hm
      have ht : t.kind = .literal := (Token.members?_eq_some_iff.1 hm).1.resolve_right (by simp)
      have := @StopsAlike.within _ u more _ ⟨b, p⟩
        (List.suffix_refl (_ :: replacements .char named (Place.next .start t.kind) rest))
      rw [length_replacements] at this
      simpa [Grammar.current, State.expand, State.reading, hg, hu, ht] using this

section Lead

variable {sets : SetTable} {eof t : Token} {rest : List Token} {n : Nat} {names : List String}

theorem lead_replaced (part : named.PartOf g.sets) {members : List String}
    (hm : t.members? g.mode named .start (rest.head?.map (·.kind)) = some members) :
    LeadsAlike g.mode named (lead g ⟨t :: rest, n, names⟩)
      (lead g.plain (.expand g.mode named .start ⟨t :: rest, n, names⟩)) := by
  obtain ⟨hw, he, -⟩ := Token.members?_eq_some_iff.1 hm
  obtain ⟨starts, punct⟩ := kind_of_writesSymbol ⟨t, hw⟩
  have expands : Expands g.mode .start ⟨t :: rest, n, names⟩ := by
    rintro _ _ ⟨⟩ -
    exact he
  obtain ⟨l, hl, ha⟩ : ∃ l, lead g ⟨t :: rest, n, names⟩ = .ok l ∧ l.action? = none := by
    by_cases mode : g.mode = .symbol
    · have ends : ∀ u ∈ rest.head?, u.kind ≠ .punct .equals := by
        simpa [mode, Place.expands] using he
      obtain ⟨_, h⟩ := lead_of_symbol mode (t := ⟨t, hw⟩)
        (takes_reading g.mode (s := ⟨t :: rest, n, names⟩) rfl hw.ne_error) ends
      exact ⟨_, h, rfl⟩
    · exact ⟨.bare, lead_of_bare rfl starts (punct _) fun h => absurd h mode, rfl⟩
  obtain ⟨u, more, hu, hg⟩ := replacements_of_members?_eq_some part hm
  have hl' : lead g.plain (.expand g.mode named .start ⟨t :: rest, n, names⟩) = .ok .bare := by
    rw [expand_of_replacements hg]
    exact lead_of_bare rfl (by simp [hu, startsTerm]) (by simp [hu])
      fun _ hw => (kind_of_writesSymbol ⟨u, hw⟩).2 _ hu
  rw [hl, hl']
  exact .inl ⟨ha, rfl, expands⟩

theorem lead_char (part : named.PartOf sets)
    (hm : t.members? .char named .start (rest.head?.map (·.kind)) = none) :
    LeadsAlike .char named (lead ⟨.char, sets, eof⟩ ⟨t :: rest, n, names⟩)
      (lead ⟨.char, {}, eof⟩ (.expand .char named .start ⟨t :: rest, n, names⟩)) := by
  have hr (m : Nat) : Reaches .char named .start ⟨t :: rest, n, names⟩
      (Place.next .start t.kind) ⟨rest, m, names⟩ := List.suffix_cons _ _
  rw [expand_of_members?_eq_none hm]
  by_cases hk : t.kind = .punct .equals
  · rw [hk] at hr
    simp only [lead, hk, if_true]
    exact .inr ⟨n, _, _, rfl, rfl, rfl, hr (n + 1)⟩
  · by_cases hi : t.kind = .integer
    · rw [hi] at hr
      simp only [lead, hi, reduceCtorEq, if_true, if_false]
      exact (stopsAlike_integer part t.position _ _ ⟨rest, n, names⟩).mono (hr n)
    · simp only [lead, hk, hi, if_false]
      exact .inl ⟨rfl, rfl, fun _ _ _ _ => by simp [Place.expands]⟩

theorem lead_symbol (part : named.PartOf sets)
    (hm : t.members? .symbol named .start (rest.head?.map (·.kind)) = none) :
    LeadsAlike .symbol named (lead ⟨.symbol, sets, eof⟩ ⟨t :: rest, n, names⟩)
      (lead ⟨.symbol, {}, eof⟩ (.expand .symbol named .start ⟨t :: rest, n, names⟩)) := by
  have hr : Reaches .symbol named .start ⟨t :: rest, n, names⟩ (Place.next .start t.kind)
      ⟨rest, n, names⟩ := List.suffix_cons _ _
  rw [expand_of_members?_eq_none hm]
  by_cases hk : t.kind = .punct .equals
  · rw [hk] at hr
    simp only [lead, hk, if_true]
    exact (stopsAlike_faultAt t .body ⟨rest, n, names⟩ _).mono hr
  · by_cases hw : t.WritesSymbol .symbol
    · have hs : isSymbol ⟨.symbol, sets, eof⟩ t = true := isSymbol_iff.2 hw
      have hs' : isSymbol ⟨.symbol, {}, eof⟩ t = true := hs
      rw [hw.next_start] at hr ⊢
      simp only [lead, hk, hs, hs', if_true, if_false, State.reading]
      rcases take?_parallel (g := ⟨.symbol, sets, eof⟩) part
          (by decide : Punctuation.equals ≠ .leftBracket) .start ⟨rest, n, names⟩ with
        ⟨h, h'⟩ | ⟨equals, s₁, h₁, h₁', h, h', hr'⟩
      · have e : State.take? ⟨(replacements .symbol named .start rest).flatten, n, names⟩
            (.punct .equals) = none := h'
        rw [h, e]
        refine .inl ⟨rfl, rfl, ?_⟩
        rintro _ _ ⟨⟩ -
        simpa [Place.expands] using take?_eq_none_iff.1 h
      · have e : State.take? ⟨(replacements .symbol named .start rest).flatten, n, names⟩
            (.punct .equals) = some (equals, ⟨s₁.expand .symbol named .body, h₁'⟩) := h'
        rw [h, e]
        exact .inr ⟨n, _, _, rfl, rfl, rfl, hr.trans hr'⟩
    · have hs : isSymbol ⟨.symbol, sets, eof⟩ t ≠ true := mt isSymbol_iff.1 hw
      have hs' : isSymbol ⟨.symbol, {}, eof⟩ t ≠ true := hs
      simp only [lead, hk, hs, hs', if_false]
      refine .inl ⟨rfl, rfl, ?_⟩
      rintro _ _ ⟨⟩ h
      exact absurd h hw

end Lead

theorem lead_parallel (part : named.PartOf g.sets) (s : State) :
    LeadsAlike g.mode named (lead g s) (lead g.plain (s.expand g.mode named .start)) := by
  obtain ⟨ahead, n, names⟩ := s
  cases ahead with
  | nil => exact .inl ⟨rfl, rfl, by rintro _ _ ⟨⟩⟩
  | cons t rest =>
    cases hm : t.members? g.mode named .start (rest.head?.map (·.kind)) with
    | some members => exact lead_replaced part hm
    | none =>
      obtain ⟨mode, sets, eof⟩ := g
      cases mode with
      | char => exact lead_char part hm
      | symbol => exact lead_symbol part hm

theorem endsSequence_expand (part : named.PartOf g.sets) (s : State) :
    (s.expand g.mode named .start).endsSequence = s.endsSequence := by
  obtain ⟨ahead, n, names⟩ := s
  cases ahead with
  | nil => rfl
  | cons t rest =>
    cases hm : t.members? g.mode named .start (rest.head?.map (·.kind)) with
    | none =>
      rw [expand_of_members?_eq_none hm]
      rfl
    | some members =>
      obtain ⟨u, more, hu, hg⟩ := replacements_of_members?_eq_some part hm
      have hw := (kind_of_writesSymbol ⟨t, (Token.members?_eq_some_iff.1 hm).1⟩).2
      simp [State.endsSequence, State.expand, State.reading, hg, hu, hw]

theorem kept_of_endsSequence (h : s.endsSequence = true) : Kept g.mode named pl s := by
  refine kept_of_not_writesSymbol fun t ht hw => ?_
  rcases endsSequence_iff.1 h t ht with h | h <;>
    exact (kind_of_writesSymbol ⟨t, hw⟩).2 _ h

abbrev SamePatterns (g : Grammar) (named : SetTable) : List TextPattern → List TextPattern → Prop :=
  Resembles (named = g.sets) (List.map Pattern.outline)

theorem textLeaf_same (part : named.PartOf g.sets) {text : String} (h : named.get? text = none) :
    SameLeaf g named (textLeaf g text) (textLeaf g.plain text) where
  look := rfl
  eq := by
    rintro rfl
    unfold textLeaf
    rw [h]; rfl

def textMembers (mode : Mode) (p : Position) (texts : List String) : List (Member mode) :=
  texts.map fun text => .symbol ⟨⟨.literal, text, p⟩, .inl rfl⟩

theorem tokens_textMembers (mode : Mode) (p : Position) (texts : List String) :
    (textMembers mode p texts).flatMap Member.tokens = literals p texts := by
  simp only [textMembers, literals, List.flatMap_map, Member.tokens]
  exact List.map_eq_flatMap.symm

theorem items_textMembers (mode : Mode) (p : Position) (texts : List String) :
    (textMembers mode p texts).flatMap (Member.items {}) = texts.map .literal := by
  simp only [textMembers, List.flatMap_map, Member.items, symbolItems, SetTable.get?_empty]
  exact List.map_eq_flatMap.symm

theorem atom_of_write {members : List String} (ne : members ≠ []) (hpl : pl ≠ .member)
    (p : Position) (rest : List Token) (n : Nat) (names : List String) :
    ∃ le, atom g.plain ⟨pl.write members p ++ rest, n, names⟩ =
      .ok (.leaf (.ofTexts members), ⟨⟨rest, n, names⟩, le⟩) := by
  let b : Bracketed g.mode {} :=
    ⟨⟨⟨.punct .leftBracket, "[", p⟩, rfl⟩, none, textMembers g.mode p members,
      ⟨⟨.punct .rightBracket, "]", p⟩, rfl⟩, by simpa [items_textMembers] using ne⟩
  have tokens : b.tokens = pl.write members p := by
    cases pl <;> simp_all [Bracketed.tokens, b, Place.write, tokens_textMembers]
  have leaf : b.leaf = .ofTexts members := congrArg (Leaf.set false) (items_textMembers _ _ _)
  have takes : Takes g.mode ⟨pl.write members p ++ rest, n, names⟩ ⟨rest, n, names⟩ b.tokens :=
    takes_iff.2 ⟨by rw [tokens], rfl, b.readable⟩
  obtain ⟨le, e⟩ := atom_of_passes (g := g.plain) (d := .set b) takes
  exact ⟨le, by rw [e, Atom.pattern, leaf]⟩

section Resembles

variable {p p' : TextPattern} {ps ps' : List TextPattern}

theorem SamePattern.cons (h : SamePattern g named p p') (hs : SamePatterns g named ps ps') :
    SamePatterns g named (p :: ps) (p' :: ps') :=
  h.map₂ hs (· :: ·) (· :: ·) fun _ _ => rfl

theorem SamePattern.singleton (h : SamePattern g named p p') : SamePatterns g named [p] [p'] :=
  h.cons (.refl _ _ [])

theorem SamePatterns.ofSequence (h : SamePatterns g named ps ps') :
    SamePattern g named (.ofSequence ps) (.ofSequence ps') :=
  h.map Pattern.ofSequence Pattern.ofSequence Pattern.outline_ofSequence

theorem SamePatterns.ofChoice (h : SamePatterns g named ps ps') :
    SamePattern g named (.ofChoice ps) (.ofChoice ps') :=
  h.map Pattern.ofChoice Pattern.ofChoice Pattern.outline_ofChoice

end Resembles

def SameBranches (g : Grammar) (named : SetTable) (ps ps' : List TextPattern) (s : State) : Prop :=
  SamePatterns g named ps ps' ∧ s.endsSequence = true

section Atom

variable {t : Token} {rest : List Token} {n : Nat} {names : List String}

theorem atom_symbol_parallel (part : named.PartOf g.sets) (hpl : pl = .start ∨ pl = .body)
    (hw : t.WritesSymbol g.mode) (he : pl.expands g.mode (rest.head?.map (·.kind)) = true) :
    Parallel g.mode named pl .start ⟨t :: rest, n, names⟩
      (fun p p' _ => SamePattern g named p p') (atom g ⟨t :: rest, n, names⟩)
      (atom g.plain (.expand g.mode named pl ⟨t :: rest, n, names⟩)) := by
  have hr : Reaches g.mode named pl ⟨t :: rest, n, names⟩ (pl.next t.kind) ⟨rest, n, names⟩ :=
    List.suffix_cons _ _
  have hs : isSymbol g t = true := isSymbol_iff.2 hw
  have hn : pl.next t.kind = .start := by
    rcases hpl with rfl | rfl
    · exact hw.next_start
    · exact (Place.next_body _).trans hw.next_start
  rw [hn] at hr
  cases hm : t.members? g.mode named pl (rest.head?.map (·.kind)) with
  | none =>
    have plain : named.get? t.text = none := by simpa [Token.members?, hw, he] using hm
    rw [expand_of_members?_eq_none hm, hn]
    simp only [atom, hs, isSymbol_plain, if_true, State.reading]
    exact ⟨rfl, hr, (textLeaf_same part plain).map Pattern.leaf Pattern.leaf fun _ => rfl⟩
  | some members =>
    have hg := part.get? (Token.members?_eq_some_iff.1 hm).2.2
    have outside : pl ≠ .member := by rcases hpl with rfl | rfl <;> simp
    obtain ⟨le, e⟩ := @atom_of_write g pl _ (part.ne_nil hg) outside t.position
      (replacements g.mode named .start rest).flatten n names
    rw [expand_of_members?_eq_some hm, hn, e]
    simp only [atom, hs, if_true, State.reading, textLeaf, hg]
    exact ⟨rfl, hr, .refl _ _ _⟩

theorem atom_group_parallel (part : named.PartOf g.sets) (hk : t.kind = .punct .leftParen)
    (inner : Parallel g.mode named .start .start ⟨rest, n, names⟩ (SameBranches g named)
      (branches g ⟨rest, n, names⟩)
      (branches g.plain (.expand g.mode named .start ⟨rest, n, names⟩))) :
    Parallel g.mode named .start .start ⟨rest, n, names⟩ (fun p p' _ => SamePattern g named p p')
      (atom g ⟨t :: rest, n, names⟩)
      (atom g.plain ⟨t :: (replacements g.mode named .start rest).flatten, n, names⟩) := by
  have hs : isSymbol g t = false := by simp [isSymbol, hk]
  simp only [atom, hs, hk, isSymbol_plain, State.reading]
  refine .bind inner ?_
  rintro ps ps' s₁ h₁ h₁' ⟨same, ends⟩
  have kept : Kept g.mode named .start s₁ := kept_of_endsSequence ends
  refine .bind (expectClose_parallel part kept t .rightParen) ?_
  rintro close _ s₂ h₂ h₂' rfl
  exact ⟨rfl, .refl _ _, same.ofChoice⟩

theorem atom_other_parallel (part : named.PartOf g.sets) (hpl : pl = .start ∨ pl = .body)
    (hw : ¬ t.WritesSymbol g.mode) (inner : Parallel g.mode named .start .start ⟨rest, n, names⟩
      (SameBranches g named) (branches g ⟨rest, n, names⟩)
      (branches g.plain (.expand g.mode named .start ⟨rest, n, names⟩))) :
    Parallel g.mode named pl .start ⟨t :: rest, n, names⟩
      (fun p p' _ => SamePattern g named p p') (atom g ⟨t :: rest, n, names⟩)
      (atom g.plain (.expand g.mode named pl ⟨t :: rest, n, names⟩)) := by
  have hr : Reaches g.mode named pl ⟨t :: rest, n, names⟩ (pl.next t.kind) ⟨rest, n, names⟩ :=
    List.suffix_cons _ _
  have hn : pl.next t.kind = Place.next .start t.kind := by
    rcases hpl with rfl | rfl
    · rfl
    · exact Place.next_body _
  have hs : isSymbol g t = false := by simpa using mt isSymbol_iff.1 hw
  have kept : Kept g.mode named pl ⟨t :: rest, n, names⟩ :=
    kept_of_not_writesSymbol (by simpa using hw)
  have fault := faultHere_parallel kept .expectedTerm
  rw [expand_of_members?_eq_none (kept t rest rfl), hn] at fault
  rw [expand_of_members?_eq_none (kept t rest rfl), hn]
  rw [hn] at hr
  cases hk : t.kind with
  | punct c =>
    rw [hk] at fault hr
    cases c with
    | leftParen => exact .after hr (atom_group_parallel part hk inner)
    | leftBracket =>
      simp only [atom, hs, hk, isSymbol_plain, State.reading]
      refine .after hr (.bind (set_parallel part t ⟨rest, n, names⟩) ?_)
      rintro l l' s₁ h₁ h₁' same
      exact ⟨rfl, .refl _ _, same.map Pattern.leaf Pattern.leaf fun _ => rfl⟩
    | dot =>
      simp only [atom, hs, hk, isSymbol_plain, State.reading]
      exact ⟨rfl, hr, .refl _ _ _⟩
    | _ =>
      simp only [atom, hs, hk, isSymbol_plain, State.reading]
      exact fault
  | string =>
    rw [hk] at hr
    cases empty : t.text.isEmpty with
    | true =>
      simp only [atom, hs, hk, empty, isSymbol_plain, State.reading]
      exact (stopsAlike_faultAt t .start ⟨rest, n, names⟩ _).mono hr
    | false =>
      simp only [atom, hs, hk, empty, isSymbol_plain, State.reading]
      exact ⟨rfl, hr, .refl _ _ _⟩
  | charClass k =>
    rw [hk] at hr
    simp only [atom, hs, hk, isSymbol_plain, State.reading]
    exact ⟨rfl, hr, .refl _ _ _⟩
  | _ =>
    rw [hk] at fault
    simp only [atom, hs, hk, isSymbol_plain, State.reading]
    exact fault

end Atom

theorem atom_parallel (part : named.PartOf g.sets) (s : State) (hpl : pl = .start ∨ pl = .body)
    (he : Expands g.mode pl s) (inner : ∀ s₁ : State, s₁.ahead.length < s.ahead.length →
      Parallel g.mode named .start .start s₁ (SameBranches g named) (branches g s₁)
        (branches g.plain (s₁.expand g.mode named .start))) :
    Parallel g.mode named pl .start s (fun p p' _ => SamePattern g named p p')
      (atom g s) (atom g.plain (s.expand g.mode named pl)) := by
  obtain ⟨ahead, n, names⟩ := s
  cases ahead with
  | nil =>
    show Parallel _ _ _ _ _ _ _ (atom g.plain ⟨[], n, names⟩)
    rw [atom, atom]
    exact stopsAlike_end _ _
  | cons t rest =>
    by_cases hw : t.WritesSymbol g.mode
    · exact atom_symbol_parallel part hpl hw (he t rest rfl hw)
    · exact atom_other_parallel part hpl hw (inner ⟨rest, n, names⟩ (Nat.lt_succ_self _))

mutual

theorem branches_parallel (part : named.PartOf g.sets) (s : State) :
    Parallel g.mode named .start .start s
      (SameBranches g named) (branches g s) (branches g.plain (s.expand g.mode named .start)) := by
  rw [branches, branches]
  refine .bind (terms_parallel part s) ?_
  rintro ps ps' s₁ h₁ h₁' ⟨same, ends⟩
  dsimp only
  rcases take?_parallel part (by decide : Punctuation.bar ≠ .leftBracket) .start s₁ with
    ⟨h, h'⟩ | ⟨bar, s₂, h₂, h₂', h, h', hr⟩
  · rw [h, h']
    exact ⟨rfl, .refl _ _, same.ofSequence.singleton, ends⟩
  · rw [h, h']
    have : s₂.ahead.length < s.ahead.length := Nat.lt_trans h₂ h₁
    refine .after hr (.bind (branches_parallel part s₂) ?_)
    rintro more more' s₃ h₃ h₃' ⟨same', ends'⟩
    exact ⟨rfl, .refl _ _, same.ofSequence.cons same', ends'⟩
termination_by (s.ahead.length, 3)

theorem terms_parallel (part : named.PartOf g.sets) (s : State) :
    Parallel g.mode named .start .start s
      (SameBranches g named) (terms g s) (terms g.plain (s.expand g.mode named .start)) := by
  rw [terms, terms]
  refine .bind (term_parallel part s) ?_
  rintro p p' s₁ h₁ h₁' same
  dsimp only
  rw [endsSequence_expand part]
  cases ends : s₁.endsSequence with
  | true => exact ⟨rfl, .refl _ _, same.singleton, ends⟩
  | false =>
    refine .bind (terms_parallel part s₁) ?_
    rintro more more' s₂ h₂ h₂' ⟨same', ends'⟩
    exact ⟨rfl, .refl _ _, same.cons same', ends'⟩
termination_by (s.ahead.length, 2)

theorem term_parallel (part : named.PartOf g.sets) (s : State) :
    Parallel g.mode named .start .start s (fun p p' _ => SamePattern g named p p')
      (term g s) (term g.plain (s.expand g.mode named .start)) := by
  have hl := lead_parallel part s
  rcases h : lead g s with e | l <;>
    rcases h' : lead g.plain (s.expand g.mode named .start) with e' | l' <;> rw [h, h'] at hl
  · rw [term_of_lead_error h, term_of_lead_error h']
    exact hl
  · exact hl.elim
  · exact hl.elim
  · rw [term_of_lead h, term_of_lead h']
    rcases hl with ⟨ha, ha', he⟩ | ⟨index, ⟨s₁, h₁⟩, ⟨_, h₁'⟩, ha, ha', rfl, hr⟩
    · rw [ha, ha']
      refine .bind (atom_parallel part s (.inl rfl) he fun s₁ lt => branches_parallel part s₁) ?_
      rintro p p' s₁ h₁ h₁' same
      refine .bind (repetition_parallel part same s₁) ?_
      rintro q q' s₂ h₂ h₂' same'
      exact ⟨rfl, .refl _ _, same'⟩
    · rw [ha, ha']
      have he : Expands g.mode .body s₁ := fun _ _ _ _ => rfl
      have inner (s₂ : State) (lt : s₂.ahead.length < s₁.ahead.length) :=
        have := Nat.lt_trans lt h₁
        branches_parallel part s₂
      refine .after hr (.bind (atom_parallel part s₁ (.inr rfl) he inner) ?_)
      rintro p p' s₂ h₂ h₂' same
      refine .bind (repetition_parallel part same s₂) ?_
      rintro q q' s₃ h₃ h₃' same'
      exact ⟨rfl, .refl _ _, same'.map (Pattern.action index) (Pattern.action index) fun _ => rfl⟩
termination_by (s.ahead.length, 1)

end

def Output.outline (o : Output) : Pattern Unit × List String := (o.pattern.outline, o.actionNames)

/-- What came of reading some tokens, and of reading what they are replaced by. -/
def Finished (g : Grammar) (named : SetTable) (ts : List Token) :
    Except Failure Output → Except Failure Output → Prop
  | .ok o, .ok o' => Resembles (named = g.sets) Output.outline o o'
  | .error e, .error e' => StopsAlike (replacements g.mode named .start ts) e e'
  | _, _ => False

theorem whole_parallel (part : named.PartOf g.sets) (ts : List Token) :
    Finished g named ts (whole g ts)
      (whole g.plain (replacements g.mode named .start ts).flatten) := by
  let s : State := ⟨ts, 0, []⟩
  have h := branches_parallel part s
  unfold whole
  change Finished g named ts (branches g s >>= _)
    (branches g.plain (s.expand g.mode named .start) >>= _)
  rcases hb : branches g s with e | ⟨ps, s₁, h₁⟩ <;>
    rcases hb' : branches g.plain (s.expand g.mode named .start) with e' | ⟨ps', s₁', h₁'⟩ <;>
    rw [hb, hb'] at h
  · exact h
  · exact h.elim
  · exact h.elim
  · obtain ⟨rfl, hr, same, ends⟩ := h
    simp only [bind, Except.bind, isEmpty_expand part]
    cases s₁.ahead.isEmpty with
    | true =>
      exact same.ofChoice.map (Output.mk · s₁.names.reverse) (·, s₁.names.reverse) fun _ => rfl
    | false => exact (faultHere_parallel (kept_of_endsSequence ends) _).mono hr

/-! ## Reading a stream -/

section Seen

variable {xs : List Lexed} {groups : List (List Token)}

theorem exists_split {pre suf : List (List Token)} (h : xs.length = (pre ++ suf).length) :
    ∃ before after, xs = before ++ after ∧ before.length = pre.length ∧
      after.length = suf.length :=
  ⟨xs.take pre.length, xs.drop pre.length, by simp, by simp [h], by simp [h]⟩

theorem take_sub_length {α : Type} (seen : List α) {unseen : List α} {n : Nat}
    (h : unseen.length = n) : (seen ++ unseen).take ((seen ++ unseen).length - n) = seen := by
  simp [← h]

theorem StopsAlike.faults_eq {e e' : Failure} (h : StopsAlike groups e e')
    (hl : xs.length = groups.length) (ne : ∀ group ∈ groups, group ≠ []) :
    let ys := (List.zipWith Lexed.replaceBy xs groups).flatten
    (ys.take (ys.length - e'.unseen)).flatMap (·.faults) =
      (xs.take (xs.length - e.unseen)).flatMap (·.faults) := by
  cases h with
  | @between unseen fault h =>
    obtain ⟨pre, rfl⟩ := h
    obtain ⟨before, after, rfl, h₁, h₂⟩ := exists_split hl
    have seen := faults_flatten_replaceBy h₁ fun group hg => ne group (List.mem_append_left _ hg)
    have rest := length_flatten_replaceBy h₂
    rw [List.zipWith_append h₁, List.flatten_append]
    dsimp only
    rw [take_sub_length _ rest, take_sub_length _ h₂, seen]
  | @within t more unseen fault h =>
    obtain ⟨pre, rfl⟩ := h
    obtain ⟨before, after, rfl, h₁, h₂⟩ := exists_split hl
    obtain ⟨x, after, rfl⟩ := List.exists_cons_of_length_eq_add_one h₂
    have h₂ : after.length = unseen.length := Nat.succ.inj h₂
    have seen := faults_flatten_replaceBy h₁ fun group hg => ne group (List.mem_append_left _ hg)
    -- the first token of the last group brings all that the token it replaces would
    have ys : (List.zipWith Lexed.replaceBy (before ++ x :: after)
        (pre ++ (t :: more) :: unseen)).flatten =
        ((List.zipWith Lexed.replaceBy before pre).flatten ++ [⟨t, x.faults⟩]) ++
          (more.map (⟨·, []⟩) ++ (List.zipWith Lexed.replaceBy after unseen).flatten) := by
      simp [List.zipWith_append h₁, Lexed.replaceBy]
    have rest : (more.map (fun u => (⟨u, []⟩ : Lexed)) ++
        (List.zipWith Lexed.replaceBy after unseen).flatten).length =
        (more ++ unseen.flatten).length := by
      simp [length_flatten_replaceBy h₂]
    have xs : before ++ x :: after = (before ++ [x]) ++ after := by simp
    rw [ys, xs]
    dsimp only
    rw [take_sub_length _ rest, take_sub_length _ h₂]
    simp [seen]

end Seen

end Parser

/-- A reading without what the leaves of its pattern consume. -/
def Reading.outline (r : Reading) : List Diagnostic × Option (Pattern Unit × List String) :=
  (r.diagnostics, r.output?.map Parser.Output.outline)

variable {mode : Mode} {sets named : SetTable} {stream : TokenStream}

theorem Reading.ofStream_of_ok {o : Parser.Output}
    (h : Parser.whole ⟨mode, sets, stream.eof⟩ (stream.ahead.map (·.token)) = .ok o) :
    ofStream mode sets stream =
      ⟨(stream.ahead.flatMap (·.faults)).map LexFault.diagnostic, some o⟩ := by
  unfold ofStream
  dsimp only
  rw [h]

theorem Reading.ofStream_of_error {e : Parser.Failure}
    (h : Parser.whole ⟨mode, sets, stream.eof⟩ (stream.ahead.map (·.token)) = .error e) :
    ofStream mode sets stream =
      ⟨((stream.ahead.take (stream.ahead.length - e.unseen)).flatMap (·.faults)).map
        LexFault.diagnostic ++ e.fault.diagnostic?.toList, none⟩ := by
  unfold ofStream
  dsimp only
  rw [h]

/-- Reading with a table is reading the expansion by a part of it, up to what leaves consume. -/
theorem Reading.resembles_expand (mode : Mode) (part : named.PartOf sets) (stream : TokenStream) :
    Resembles (named = sets) Reading.outline (ofStream mode sets stream)
      (ofStream mode {} (stream.expand mode named)) := by
  let tokens := stream.ahead.map (·.token)
  let groups := replacements mode named .start tokens
  let stream' := stream.expand mode named
  have hl : stream.ahead.length = groups.length := by simp [groups, tokens]
  have ne : ∀ group ∈ groups, group ≠ [] :=
    ne_nil_of_mem_replacements fun _ _ h => part.ne_nil (part.get? h)
  have expanded : stream'.ahead.map (·.token) = groups.flatten := map_token_flatten_replaceBy hl
  have h : Parser.Finished ⟨mode, sets, stream.eof⟩ named tokens
      (Parser.whole ⟨mode, sets, stream.eof⟩ tokens)
      (Parser.whole ⟨mode, {}, stream'.eof⟩ groups.flatten) := Parser.whole_parallel part tokens
  rw [← expanded] at h
  rcases hw : Parser.whole ⟨mode, sets, stream.eof⟩ tokens with e | o <;>
    rcases hw' : Parser.whole ⟨mode, {}, stream'.eof⟩ (stream'.ahead.map (·.token)) with e' | o' <;>
    rw [hw, hw'] at h
  · have fault : e'.fault = e.fault := by cases h <;> rfl
    have seen : (stream'.ahead.take (stream'.ahead.length - e'.unseen)).flatMap (·.faults) =
        (stream.ahead.take (stream.ahead.length - e.unseen)).flatMap (·.faults) :=
      Parser.StopsAlike.faults_eq h hl ne
    rw [ofStream_of_error hw, ofStream_of_error hw', fault, seen]
    exact .refl _ _ _
  · exact h.elim
  · exact h.elim
  · have all : stream'.ahead.flatMap (·.faults) = stream.ahead.flatMap (·.faults) :=
      faults_flatten_replaceBy hl ne
    rw [ofStream_of_ok hw, ofStream_of_ok hw', all]
    exact h.map (fun o => (⟨_, some o⟩ : Reading)) (fun o => (_, some o)) fun _ => rfl

/-- A set table without empty sets abbreviates: reading a pattern with it is reading, without a
table, the tokens in which every name of a set is replaced by what it stands for. Whether a pattern
is read, what is reported and how actions are numbered does not depend on the table. -/
theorem readPattern_eq_expand (mode : Mode) (sets : SetTable) (source : String)
    (nonempty : ∀ name members, sets.get? name = some members → members ≠ []) :
    readPattern mode sets source =
        .ofStream mode {} ((lex mode source).expand mode sets) ∧
      (readPattern mode sets source).outline = (readPattern mode {} source).outline := by
  constructor
  · have part : sets.PartOf sets := ⟨id, nonempty _ _⟩
    exact (Reading.resembles_expand mode part (lex mode source)).eq rfl
  · have part : SetTable.PartOf {} sets := ⟨fun h => (nomatch h), nonempty _ _⟩
    have same := (Reading.resembles_expand mode part (lex mode source)).look
    rwa [TokenStream.expand_empty] at same

/-- The name of a set stands for an action's name, a term, a member and both ends of a range. -/
theorem readPattern_eq_expand_places :
    let sets : SetTable := ⟨[("v", ["x", "y"])]⟩
    let source := "v=v[v v-v]"
    (∀ name members, sets.get? name = some members → members ≠ []) ∧
      ((lex .symbol source).expand .symbol sets).ahead.map (·.token.text) =
        ["v", "=", "[", "x", "y", "]", "[", "x", "y", "v", "-", "v", "]"] ∧
      readPattern .symbol sets source =
        .ofStream .symbol {} ((lex .symbol source).expand .symbol sets) ∧
      (readPattern .symbol sets source).outline = (readPattern .symbol {} source).outline := by
  intro sets source
  have nonempty : ∀ name members, sets.get? name = some members → members ≠ [] := by
    intro name members h
    have h : List.lookup name [("v", ["x", "y"])] = some members := h
    rw [List.lookup_cons] at h
    split at h
    · rw [← Option.some.inj h]
      simp
    · cases h
  exact ⟨nonempty, by decide +kernel, readPattern_eq_expand .symbol sets source nonempty⟩

end SymbolRegex
