import SymbolRegex.Proofs.Recognition
import SymbolRegex.Proofs.Replacement

/-! # Reading side by side

Some tokens are read with a set table, and what they are replaced by is read without
one. Both readings go on in step: where the second is, the tokens ahead are those
that replace the tokens ahead in the first, and a fault stops both of them before
the same token. A table may be larger than the one by which tokens are replaced, and
then the leaves that are read differ, but not what they are in.
-/

namespace SymbolRegex

namespace Pattern

variable {α : Type}

mutual

/-- A pattern without what its leaves consume. -/
def outline : Pattern α → Pattern Unit
  | leaf _ => leaf ()
  | sequence ps => sequence (outlines ps)
  | choice ps => choice (outlines ps)
  | optional p => optional (outline p)
  | counted p min max => counted (outline p) min max
  | oneOrMore p => oneOrMore (outline p)
  | zeroOrMore p => zeroOrMore (outline p)
  | action i p => action i (outline p)

def outlines : List (Pattern α) → List (Pattern Unit)
  | [] => []
  | p :: ps => outline p :: outlines ps

end

theorem outlines_eq_map (ps : List (Pattern α)) : outlines ps = ps.map outline := by
  induction ps with
  | nil => rfl
  | cons p ps ih => rw [outlines, ih, List.map_cons]

theorem outline_ofSequence : ∀ ps : List (Pattern α),
    (ofSequence ps).outline = ofSequence (ps.map outline)
  | [] | [_] => rfl
  | _ :: _ :: _ => congrArg sequence (outlines_eq_map _)

theorem outline_ofChoice : ∀ ps : List (Pattern α),
    (ofChoice ps).outline = ofChoice (ps.map outline)
  | [] | [_] => rfl
  | _ :: _ :: _ => congrArg choice (outlines_eq_map _)

end Pattern

/-- The table `named` is part of `sets`, in which no set is empty. -/
structure SetTable.PartOf (named sets : SetTable) : Prop where
  get? : ∀ {name members}, named.get? name = some members → sets.get? name = some members
  ne_nil : ∀ {name members}, sets.get? name = some members → members ≠ []

/-- Values that look the same, and are the same if the condition holds. -/
structure Resembles {α β : Type} (full : Prop) (look : α → β) (a a' : α) : Prop where
  look : look a = look a'
  eq : full → a = a'

namespace Resembles

variable {α β γ δ ε ζ : Type} {full : Prop} {u : α → β} {v : γ → δ} {w : ε → ζ}
  {a a' : α} {b b' : γ}

theorem refl (full : Prop) (u : α → β) (a : α) : Resembles full u a a := ⟨rfl, fun _ => rfl⟩

theorem map (h : Resembles full u a a') (f : α → γ) (k : β → δ) (hk : ∀ a, v (f a) = k (u a)) :
    Resembles full v (f a) (f a') where
  look := by rw [hk, hk, h.look]
  eq hf := by rw [h.eq hf]

theorem map₂ (h : Resembles full u a a') (h' : Resembles full v b b') (f : α → γ → ε)
    (k : β → δ → ζ) (hk : ∀ a b, w (f a b) = k (u a) (v b)) :
    Resembles full w (f a b) (f a' b') where
  look := by rw [hk, hk, h.look, h'.look]
  eq hf := by rw [h.eq hf, h'.eq hf]

end Resembles

namespace Parser

open Phrase

/-! ## Two readings side by side -/

section Parallel

variable (mode : Mode) (named : SetTable)

/-- The state with all names of sets replaced, when its tokens start at the place. -/
def State.expand (pl : Place) (s : State) : State :=
  s.reading (replacements mode named pl s.ahead).flatten

/-- What is ahead in the second state is the last part of what is ahead in the first. -/
def Reaches (pl : Place) (s : State) (pl' : Place) (s' : State) : Prop :=
  replacements mode named pl' s'.ahead <:+ replacements mode named pl s.ahead

/-- Failures of two readings, the second of what the tokens of the first are replaced by. Both stop
at the same fault and before the same token, but the second may have seen the first of several. -/
inductive StopsAlike (groups : List (List Token)) : Failure → Failure → Prop where

  | between {unseen : List (List Token)} (fault : ParseFault) : unseen <:+ groups →
      StopsAlike groups ⟨fault, unseen.length⟩ ⟨fault, unseen.flatten.length⟩

  | within {t : Token} {more : List Token} {unseen : List (List Token)} (fault : ParseFault) :
      (t :: more) :: unseen <:+ groups →
      StopsAlike groups ⟨fault, unseen.length⟩ ⟨fault, (more ++ unseen.flatten).length⟩

/-- What came of reading from a state, and of reading from its expansion. -/
def Parallel {α : Type} {R R' : State → Prop} (pl pl' : Place) (s : State)
    (Q : α → α → State → Prop) :
    Except Failure (α × { r // R r }) → Except Failure (α × { r // R' r }) → Prop
  | .ok (a, r), .ok (a', r') =>
    r'.val = r.val.expand mode named pl' ∧ Reaches mode named pl s pl' r.val ∧ Q a a' r.val
  | .error e, .error e' => StopsAlike (replacements mode named pl s.ahead) e e'
  | _, _ => False

end Parallel

variable {mode : Mode} {named : SetTable} {pl pl₁ pl₂ : Place} {s s₁ s₂ : State}

theorem Reaches.refl (pl : Place) (s : State) : Reaches mode named pl s pl s := List.suffix_refl _

theorem Reaches.trans (h : Reaches mode named pl s pl₁ s₁) (h' : Reaches mode named pl₁ s₁ pl₂ s₂) :
    Reaches mode named pl s pl₂ s₂ := List.IsSuffix.trans h' h

theorem StopsAlike.mono {groups groups' : List (List Token)} {e e' : Failure}
    (h : StopsAlike groups e e') (hg : groups <:+ groups') : StopsAlike groups' e e' := by
  cases h with
  | between fault h => exact .between fault (h.trans hg)
  | within fault h => exact .within fault (h.trans hg)

theorem Parallel.after {α : Type} {R R' : State → Prop} {Q : α → α → State → Prop}
    {x : Except Failure (α × { r // R r })} {x' : Except Failure (α × { r // R' r })}
    (h : Reaches mode named pl s pl₁ s₁) (hx : Parallel mode named pl₁ pl₂ s₁ Q x x') :
    Parallel mode named pl pl₂ s Q x x' := by
  match x, x', hx with
  | .ok _, .ok _, ⟨hr, hs, hq⟩ => exact ⟨hr, h.trans hs, hq⟩
  | .error e, .error e', hx => exact StopsAlike.mono hx h

theorem Parallel.bind {α β : Type} {R R' S S' : State → Prop} {Q : α → α → State → Prop}
    {Q' : β → β → State → Prop} {x : Except Failure (α × { r // R r })}
    {x' : Except Failure (α × { r // R' r })}
    {f : α × { r // R r } → Except Failure (β × { r // S r })}
    {f' : α × { r // R' r } → Except Failure (β × { r // S' r })}
    (hx : Parallel mode named pl pl₁ s Q x x')
    (hf : ∀ a a' s₁ h h', Q a a' s₁ → Parallel mode named pl₁ pl₂ s₁ Q' (f (a, ⟨s₁, h⟩))
      (f' (a', ⟨s₁.expand mode named pl₁, h'⟩))) :
    Parallel mode named pl pl₂ s Q' (x >>= f) (x' >>= f') := by
  match x, x', hx with
  | .ok (a, ⟨s₁, h⟩), .ok (a', ⟨_, h'⟩), ⟨rfl, hs, hq⟩ => exact .after hs (hf a a' s₁ h h' hq)
  | .error e, .error e', hx => exact hx

theorem parallel_pure {α : Type} {R R' : State → Prop} {Q : α → α → State → Prop} {a a' : α}
    (h : R s) (h' : R' (s.expand mode named pl)) (hq : Q a a' s) :
    Parallel mode named pl pl s Q (pure (a, ⟨s, h⟩) : Except Failure (α × { r // R r }))
      (pure (a', ⟨s.expand mode named pl, h'⟩) : Except Failure (α × { r // R' r })) :=
  ⟨rfl, .refl pl s, hq⟩

theorem stopsAlike_faultAt (t : Token) (pl : Place) (s : State) (cause : ParseCause) :
    StopsAlike (replacements mode named pl s.ahead) (faultAt t s cause)
      (faultAt t (s.expand mode named pl) cause) := by
  have := StopsAlike.between ⟨cause, t.position⟩
    (List.suffix_refl (replacements mode named pl s.ahead))
  rwa [length_replacements] at this

theorem stopsAlike_end (groups : List (List Token)) (fault : ParseFault) :
    StopsAlike groups ⟨fault, 0⟩ ⟨fault, 0⟩ := .between fault (List.nil_suffix)

/-! ## The next token -/

def Kept (mode : Mode) (named : SetTable) (pl : Place) (s : State) : Prop :=
  ∀ t rest, s.ahead = t :: rest → t.members? mode named pl (rest.head?.map (·.kind)) = none

theorem kept_of_not_writesSymbol (h : ∀ t ∈ s.ahead.head?, ¬ t.WritesSymbol mode) :
    Kept mode named pl s := by
  intro t rest ha
  exact if_neg fun hs => h t (by rw [ha]; rfl) hs.1

theorem kept_of_bounds (s : State) : Kept mode named .bounds s := by
  intro t rest _
  simp [Token.members?, Place.expands]

theorem kept_of_upper (s : State) : Kept mode named .upper s := by
  intro t rest _
  simp [Token.members?, Place.expands]

theorem expand_of_members?_eq_none {t : Token} {rest : List Token} {n : Nat} {names : List String}
    (h : t.members? mode named pl (rest.head?.map (·.kind)) = none) :
    State.expand mode named pl ⟨t :: rest, n, names⟩ =
      ⟨t :: (replacements mode named (pl.next t.kind) rest).flatten, n, names⟩ := by
  rw [State.expand, State.reading, replacements, Token.replacement_of_none h]; rfl

theorem expand_of_members?_eq_some {t : Token} {rest : List Token} {n : Nat} {names : List String}
    {members : List String}
    (h : t.members? mode named pl (rest.head?.map (·.kind)) = some members) :
    State.expand mode named pl ⟨t :: rest, n, names⟩ =
      ⟨pl.write members t.position ++ (replacements mode named (pl.next t.kind) rest).flatten,
        n, names⟩ := by
  rw [State.expand, State.reading, replacements, Token.replacement_of_some h]; rfl

variable {g : Grammar}

abbrev Grammar.plain (g : Grammar) : Grammar := { g with sets := {} }

theorem take?_parallel (part : named.PartOf g.sets) {p : Punctuation} (hp : p ≠ .leftBracket)
    (pl : Place) (s : State) :
    (s.take? (.punct p) = none ∧ (s.expand g.mode named pl).take? (.punct p) = none) ∨
    ∃ t s₁ h h', s.take? (.punct p) = some (t, ⟨s₁, h⟩) ∧
      (s.expand g.mode named pl).take? (.punct p) =
        some (t, ⟨s₁.expand g.mode named (pl.next (.punct p)), h'⟩) ∧
      Reaches g.mode named pl s (pl.next (.punct p)) s₁ := by
  obtain ⟨ahead, n, names⟩ := s
  cases ahead with
  | nil => exact .inl ⟨rfl, rfl⟩
  | cons t rest =>
    cases hm : t.members? g.mode named pl (rest.head?.map (·.kind)) with
    | none =>
      rw [expand_of_members?_eq_none hm]
      by_cases hk : t.kind = .punct p
      · rw [hk]
        refine .inr ⟨t, ⟨rest, n, names⟩, Nat.lt_succ_self _, Nat.lt_succ_self _, if_pos hk,
          if_pos hk, ?_⟩
        rw [← hk]
        exact List.suffix_cons _ _
      · exact .inl ⟨if_neg hk, if_neg hk⟩
    | some members =>
      obtain ⟨hs, -, hget⟩ := Token.members?_eq_some_iff.1 hm
      obtain ⟨u, more, hw, hu⟩ := pl.exists_cons_write (part.ne_nil (part.get? hget)) t.position
      rw [expand_of_members?_eq_some hm, hw]
      refine .inl ⟨if_neg ((kind_of_writesSymbol ⟨t, hs⟩).2 p), if_neg ?_⟩
      rcases hu with ⟨-, hu⟩ | ⟨-, hu⟩ <;> simp [hu, hp.symm]

theorem replacements_of_members?_eq_some {sets : SetTable}
    (part : named.PartOf sets) {t : Token} {rest : List Token} {members : List String}
    (h : t.members? mode named .start (rest.head?.map (·.kind)) = some members) :
    ∃ u more, u.kind = .punct .leftBracket ∧ replacements mode named .start (t :: rest) =
      (u :: more) :: replacements mode named (Place.next .start t.kind) rest := by
  have ne := part.ne_nil (part.get? (Token.members?_eq_some_iff.1 h).2.2)
  obtain ⟨u, more, hu, hk⟩ := Place.exists_cons_write ne .start t.position
  refine ⟨u, more, (hk.resolve_left (by simp)).2, ?_⟩
  rw [replacements, Token.replacement_of_some h, hu]

theorem expand_of_replacements {ts : List Token} {u : Token} {more : List Token}
    {groups : List (List Token)} {n : Nat} {names : List String}
    (h : replacements mode named pl ts = (u :: more) :: groups) :
    State.expand mode named pl ⟨ts, n, names⟩ = ⟨u :: (more ++ groups.flatten), n, names⟩ := by
  rw [State.expand, h]; rfl

theorem faultHere_parallel (hk : Kept g.mode named pl s) (cause : TokenKind → ParseCause) :
    StopsAlike (replacements g.mode named pl s.ahead) (g.faultHere s cause)
      (g.plain.faultHere (s.expand g.mode named pl) cause) := by
  obtain ⟨ahead, n, names⟩ := s
  cases ahead with
  | nil => exact stopsAlike_end _ _
  | cons t rest =>
    rw [expand_of_members?_eq_none (hk t rest rfl)]
    have := @stopsAlike_faultAt g.mode named t (pl.next t.kind) ⟨rest, n, names⟩
      (if t.kind = .error then .lexical else cause t.kind)
    exact this.mono (List.suffix_cons _ _)

theorem expect_parallel (hk : Kept g.mode named pl s) (kind : TokenKind) (expected : String) :
    Parallel g.mode named pl (pl.next kind) s (fun t t' _ => t' = t)
      (expect g kind expected s) (expect g.plain kind expected (s.expand g.mode named pl)) := by
  obtain ⟨ahead, n, names⟩ := s
  cases ahead with
  | nil => exact stopsAlike_end _ _
  | cons t rest =>
    by_cases ht : t.kind = kind
    · subst ht
      rw [expand_of_members?_eq_none (hk t rest rfl)]
      simp only [expect, State.take?, if_true]
      exact ⟨rfl, List.suffix_cons _ _, rfl⟩
    · have h := faultHere_parallel hk (.unexpected · expected)
      rw [expand_of_members?_eq_none (hk t rest rfl)] at h ⊢
      simp only [expect, State.take?, ht, if_false]
      exact h

theorem isEmpty_expand (part : named.PartOf g.sets) (pl : Place) (s : State) :
    (s.expand g.mode named pl).ahead.isEmpty = s.ahead.isEmpty := by
  obtain ⟨ahead, n, names⟩ := s
  cases ahead with
  | nil => rfl
  | cons t rest =>
    have ne : ∀ group ∈ replacements g.mode named pl (t :: rest), group ≠ [] :=
      ne_nil_of_mem_replacements fun _ _ h => part.ne_nil (part.get? h)
    rw [replacements, List.forall_mem_cons] at ne
    simpa [State.expand, State.reading, replacements] using fun h => absurd h ne.1

theorem expectClose_parallel (part : named.PartOf g.sets) (hk : Kept g.mode named pl s)
    (opening : Token) (close : Punctuation) :
    Parallel g.mode named pl (pl.next (.punct close)) s (fun t t' _ => t' = t)
      (expectClose g opening close s)
      (expectClose g.plain opening close (s.expand g.mode named pl)) := by
  unfold expectClose
  rw [isEmpty_expand part]
  split
  · exact stopsAlike_end _ _
  · exact expect_parallel hk _ _

/-! ## Sets -/

@[simp] theorem isSymbol_plain (g : Grammar) (t : Token) : isSymbol g.plain t = isSymbol g t := rfl

theorem rangeItem_parallel (low : Token) (s : State) :
    Parallel g.mode named .upper .member s (fun i i' _ => i' = i) (rangeItem g low s)
      (rangeItem g.plain low (s.expand g.mode named .upper)) := by
  obtain ⟨ahead, n, names⟩ := s
  cases ahead with
  | nil => exact stopsAlike_end _ _
  | cons t rest =>
    have hr : Reaches g.mode named .upper ⟨t :: rest, n, names⟩ .member ⟨rest, n, names⟩ :=
      List.suffix_cons _ _
    have stop (cause : ParseCause) := (stopsAlike_faultAt t .member ⟨rest, n, names⟩ cause).mono hr
    rw [expand_of_members?_eq_none (kept_of_upper ⟨t :: rest, n, names⟩ t rest rfl)]
    unfold rangeItem
    by_cases he : t.kind = .error
    · simp only [he, if_true]
      exact stop _
    · cases hs : isSymbol g t with
      | true =>
        simp only [he, hs, isSymbol_plain, if_true, if_false]
        exact ⟨rfl, hr, rfl⟩
      | false =>
        simp only [he, hs, isSymbol_plain, if_false]
        exact stop _

abbrev SameItems (g : Grammar) (named : SetTable) : List SetItem → List SetItem → Prop :=
  Resembles (named = g.sets) List.isEmpty

theorem SameItems.append {a a' b b' : List SetItem} (h : SameItems g named a a')
    (h' : SameItems g named b b') : SameItems g named (a ++ b) (a' ++ b') :=
  h.map₂ h' (· ++ ·) (· && ·) fun a b => by cases a <;> rfl

theorem textItems_same (part : named.PartOf g.sets) {text : String}
    (h : named.get? text = none) :
    SameItems g named (textItems g text) (textItems g.plain text) := by
  constructor
  case look =>
    unfold textItems
    cases hs : g.sets.get? text with
    | none => rfl
    | some members => simpa using part.ne_nil hs
  case eq =>
    rintro rfl
    unfold textItems
    rw [h]; rfl

theorem take?_eq_none_iff {kind : TokenKind} :
    s.take? kind = none ↔ s.ahead.head?.map (·.kind) ≠ some kind := by
  obtain ⟨ahead, n, names⟩ := s
  cases ahead with
  | nil => simp [State.take?]
  | cons t rest => simp [State.take?]

theorem setMember_parallel (part : named.PartOf g.sets) {t : Token} {s : State}
    (hm : t.members? g.mode named .member (s.ahead.head?.map (·.kind)) = none) :
    Parallel g.mode named (Place.next .member t.kind) .member s
      (fun items items' _ => SameItems g named items items') (setMember g t s)
      (setMember g.plain t (s.expand g.mode named (Place.next .member t.kind))) := by
  unfold setMember
  by_cases hs : isSymbol g t = true
  · have hw : t.WritesSymbol g.mode := isSymbol_iff.1 hs
    rw [hw.next_member]
    simp only [hs, isSymbol_plain, if_true]
    rcases take?_parallel part (by decide : Punctuation.dash ≠ .leftBracket) .member s with
      ⟨h, h'⟩ | ⟨dash, s₁, h₁, h₁', h, h', hr⟩
    · rw [h, h']
      have he : Place.expands g.mode (s.ahead.head?.map (·.kind)) .member = true := by
        simpa [Place.expands] using take?_eq_none_iff.1 h
      exact ⟨rfl, .refl _ _, textItems_same part (by simpa [Token.members?, hw, he] using hm)⟩
    · rw [h, h']
      refine .after hr (Parallel.bind (rangeItem_parallel t s₁) ?_)
      rintro item _ s₂ h₂ h₂' rfl
      exact ⟨rfl, .refl _ _, .refl _ _ _⟩
  · have refuse (pl : Place) (cause : ParseCause) :=
      @stopsAlike_faultAt g.mode named t pl s cause
    simp only [hs, isSymbol_plain, if_false, Bool.false_eq_true]
    cases hk : t.kind with
    | charClass k =>
      cases hn : k.negated with
      | true => simp only [hn, if_true]; exact refuse _ _
      | false => simp only [hn]; exact ⟨rfl, .refl _ _, .refl _ _ _⟩
    | string => exact ⟨rfl, .refl _ _, .refl _ _ _⟩
    | _ => exact refuse _ _

theorem setMembers_cons (g : Grammar) (opening t : Token) (rest : List Token) (n : Nat)
    (names : List String) : setMembers g opening ⟨t :: rest, n, names⟩ =
      if t.kind = .punct .rightBracket then .ok (([], t), ⟨⟨rest, n, names⟩, Nat.lt_succ_self _⟩)
      else if t.kind = .error then .error (g.unexpected ⟨t :: rest, n, names⟩ "a set member")
      else do
        let (items, ⟨s₁, h₁⟩) ← setMember g t ⟨rest, n, names⟩
        let ((more, close), ⟨s₂, h₂⟩) ← setMembers g opening s₁
        return ((items ++ more, close), ⟨s₂, Nat.lt_trans h₂ (Nat.lt_succ_of_le h₁)⟩) := by
  rw [setMembers]; rfl

theorem setMember_literal (m : String) (p : Position) (hd : s.take? (.punct .dash) = none) :
    setMember g.plain ⟨.literal, m, p⟩ s = .ok ([.literal m], ⟨s, Nat.le_refl _⟩) := by
  simp [setMember, isSymbol, hd, textItems]

theorem setMembers_literals (opening : Token) (p : Position) (s : State)
    (hd : s.take? (.punct .dash) = none) (members : List String) :
    setMembers g.plain opening
        ⟨literals p members ++ s.ahead, s.actions, s.names⟩ = do
      let ((more, close), ⟨s₁, h₁⟩) ← setMembers g.plain opening s
      return ((members.map .literal ++ more, close),
        ⟨s₁, Nat.lt_of_lt_of_le h₁ (List.suffix_append _ _).length_le⟩) := by
  induction members with
  | nil =>
    show setMembers g.plain opening s = _
    cases setMembers g.plain opening s <;> rfl
  | cons m ms ih =>
    have next : State.take? ⟨literals p ms ++ s.ahead, s.actions, s.names⟩
        (.punct .dash) = none := by
      cases ms with
      | nil => exact hd
      | cons => rfl
    refine (setMembers_cons g.plain opening ⟨.literal, m, p⟩ (literals p ms ++ s.ahead) s.actions
      s.names).trans ?_
    rw [if_neg (by simp), if_neg (by simp), setMember_literal m p next]
    simp only [bind, Except.bind, ih]
    cases setMembers g.plain opening s <;> rfl

/-- A symbol that names a set stands for its members, unless it starts a range. -/
theorem setMembers_named (opening : Token) {t : Token} {members : List String}
    (hw : t.WritesSymbol g.mode) (hs : g.sets.get? t.text = some members) (rest : List Token)
    (n : Nat) (names : List String) (hd : State.take? ⟨rest, n, names⟩ (.punct .dash) = none) :
    setMembers g opening ⟨t :: rest, n, names⟩ = do
      let ((more, close), ⟨s₁, h₁⟩) ← setMembers g opening ⟨rest, n, names⟩
      return ((members.map .literal ++ more, close), ⟨s₁, Nat.lt_succ_of_lt h₁⟩) := by
  have member : setMember g t ⟨rest, n, names⟩ =
      .ok (members.map .literal, ⟨⟨rest, n, names⟩, Nat.le_refl _⟩) := by
    simp only [setMember, isSymbol_iff.2 hw, if_true, hd, textItems, hs]
  rw [setMembers_cons, if_neg ((kind_of_writesSymbol ⟨t, hw⟩).2 _), if_neg hw.ne_error, member]
  rfl

def SameMembers (g : Grammar) (named : SetTable) (r r' : List SetItem × Token) (_ : State) : Prop :=
  SameItems g named r.1 r'.1 ∧ r'.2 = r.2

section SetMembers

variable {t : Token} {rest : List Token} {n : Nat} {names : List String}

theorem setMembers_kept_parallel (part : named.PartOf g.sets) (opening : Token)
    (hm : t.members? g.mode named .member (rest.head?.map (·.kind)) = none)
    (inner : ∀ s : State, s.ahead.length ≤ rest.length →
      Parallel g.mode named .member .start s (SameMembers g named) (setMembers g opening s)
        (setMembers g.plain opening (s.expand g.mode named .member))) :
    Parallel g.mode named .member .start ⟨t :: rest, n, names⟩ (SameMembers g named)
      (setMembers g opening ⟨t :: rest, n, names⟩)
      (setMembers g.plain opening (.expand g.mode named .member ⟨t :: rest, n, names⟩)) := by
  have hr : Reaches g.mode named .member ⟨t :: rest, n, names⟩ (Place.next .member t.kind)
      ⟨rest, n, names⟩ := List.suffix_cons _ _
  have kept : Kept g.mode named .member ⟨t :: rest, n, names⟩ := by
    rintro _ _ ⟨⟩
    exact hm
  have fault := faultHere_parallel kept (.unexpected · "a set member")
  rw [expand_of_members?_eq_none hm] at fault ⊢
  rw [setMembers_cons, setMembers_cons]
  by_cases hc : t.kind = .punct .rightBracket
  · rw [if_pos hc, if_pos hc]
    rw [hc] at hr ⊢
    exact ⟨rfl, hr, .refl _ _ _, rfl⟩
  · by_cases he : t.kind = .error
    · rw [if_neg hc, if_neg hc, if_pos he, if_pos he]
      exact fault
    · rw [if_neg hc, if_neg hc, if_neg he, if_neg he]
      refine .after hr (.bind (setMember_parallel part (s := ⟨rest, n, names⟩) hm) ?_)
      rintro items items' s₁ h₁ h₁' same
      refine .bind (inner s₁ h₁) ?_
      rintro ⟨more, close⟩ ⟨more', _⟩ s₂ h₂ h₂' ⟨same', rfl⟩
      exact ⟨rfl, .refl _ _, same.append same', rfl⟩

theorem setMembers_replaced_parallel (part : named.PartOf g.sets) (opening : Token)
    {members : List String}
    (hm : t.members? g.mode named .member (rest.head?.map (·.kind)) = some members)
    (inner : Parallel g.mode named .member .start ⟨rest, n, names⟩ (SameMembers g named)
      (setMembers g opening ⟨rest, n, names⟩)
      (setMembers g.plain opening (.expand g.mode named .member ⟨rest, n, names⟩))) :
    Parallel g.mode named .member .start ⟨t :: rest, n, names⟩ (SameMembers g named)
      (setMembers g opening ⟨t :: rest, n, names⟩)
      (setMembers g.plain opening (.expand g.mode named .member ⟨t :: rest, n, names⟩)) := by
  obtain ⟨hw, he, hget⟩ := Token.members?_eq_some_iff.1 hm
  have hr : Reaches g.mode named .member ⟨t :: rest, n, names⟩ (Place.next .member t.kind)
      ⟨rest, n, names⟩ := List.suffix_cons _ _
  have hd : State.take? ⟨rest, n, names⟩ (.punct .dash) = none :=
    take?_eq_none_iff.2 (by simpa [Place.expands] using he)
  have hd' : State.take? (.expand g.mode named .member ⟨rest, n, names⟩) (.punct .dash) = none := by
    rcases take?_parallel part (by decide : Punctuation.dash ≠ .leftBracket) .member
      ⟨rest, n, names⟩ with ⟨-, h⟩ | ⟨_, _, _, _, h, -⟩
    · exact h
    · rw [hd] at h
      cases h
  rw [hw.next_member] at hr
  rw [expand_of_members?_eq_some hm, hw.next_member,
    setMembers_named opening hw (part.get? hget) rest n names hd]
  refine (congrArg _ (setMembers_literals opening t.position _ hd' members)).mpr ?_
  refine .after hr (.bind inner ?_)
  rintro ⟨more, close⟩ ⟨more', _⟩ s₂ h₂ h₂' ⟨same, rfl⟩
  exact ⟨rfl, .refl _ _, SameItems.append (.refl _ _ _) same, rfl⟩

end SetMembers

theorem setMembers_parallel (part : named.PartOf g.sets) (opening : Token) (s : State) :
    Parallel g.mode named .member .start s (SameMembers g named) (setMembers g opening s)
      (setMembers g.plain opening (s.expand g.mode named .member)) := by
  obtain ⟨ahead, n, names⟩ := s
  cases ahead with
  | nil =>
    show Parallel _ _ _ _ _ _ _ (setMembers g.plain opening ⟨[], n, names⟩)
    rw [setMembers, setMembers]
    exact stopsAlike_end _ _
  | cons t rest =>
    cases hm : t.members? g.mode named .member (rest.head?.map (·.kind)) with
    | none =>
      refine setMembers_kept_parallel part opening hm fun s₁ le => ?_
      have : s₁.ahead.length < (t :: rest).length := Nat.lt_succ_of_le le
      exact setMembers_parallel part opening s₁
    | some members =>
      exact setMembers_replaced_parallel part opening hm
        (setMembers_parallel part opening ⟨rest, n, names⟩)
termination_by s.ahead.length

abbrev SameLeaf (g : Grammar) (named : SetTable) : Leaf → Leaf → Prop :=
  Resembles (named = g.sets) fun _ => ()

theorem set_members_parallel (part : named.PartOf g.sets) (opening : Token) (negated : Bool)
    {s r r' : State} (le : s.ahead.length ≤ r.ahead.length)
    (le' : (s.expand g.mode named .member).ahead.length ≤ r'.ahead.length) :
    Parallel g.mode named .member .start s (fun l l' _ => SameLeaf g named l l')
      (do
        let ((items, close), ⟨s₁, h₁⟩) ← setMembers g opening s
        if items.isEmpty then
          throw (faultAt close s₁ (.invalidSetMember "a set needs at least one member"))
        return (Leaf.set negated items, (⟨s₁, Nat.lt_of_lt_of_le h₁ le⟩ : After r)))
      (do
        let ((items, close), ⟨s₁, h₁⟩) ← setMembers g.plain opening (s.expand g.mode named .member)
        if items.isEmpty then
          throw (faultAt close s₁ (.invalidSetMember "a set needs at least one member"))
        return (Leaf.set negated items, (⟨s₁, Nat.lt_of_lt_of_le h₁ le'⟩ : After r'))) := by
  refine .bind (setMembers_parallel part opening s) ?_
  rintro ⟨items, close⟩ ⟨items', _⟩ s₁ h₁ h₁' ⟨same, rfl⟩
  have look : items.isEmpty = items'.isEmpty := same.look
  dsimp only
  rw [← look]
  cases items.isEmpty with
  | true => exact stopsAlike_faultAt _ _ _ _
  | false => exact ⟨rfl, .refl _ _, same.map _ (fun _ => ()) fun _ => rfl⟩

theorem set_parallel (part : named.PartOf g.sets) (opening : Token) (s : State) :
    Parallel g.mode named .member .start s (fun l l' _ => SameLeaf g named l l')
      (Parser.set g opening s) (Parser.set g.plain opening (s.expand g.mode named .member)) := by
  unfold Parser.set
  rcases take?_parallel part (by decide : Punctuation.caret ≠ .leftBracket) .member s with
    ⟨h, h'⟩ | ⟨caret, s₁, h₁, h₁', h, h', hr⟩
  · rw [h, h']
    exact set_members_parallel part opening false (Nat.le_refl _) (Nat.le_refl _)
  · rw [h, h']
    exact .after hr
      (set_members_parallel part opening true (Nat.le_of_lt h₁) (Nat.le_of_lt h₁'))

/-! ## Repetitions -/

theorem bound_parallel (s : State) :
    Parallel g.mode named .bounds .bounds s (fun n n' _ => n' = n) (bound g s)
      (bound g.plain (s.expand g.mode named .bounds)) := by
  refine .bind (expect_parallel (kept_of_bounds s) .integer _) ?_
  rintro t _ s₁ h h' rfl
  dsimp only
  split
  · exact ⟨rfl, .refl _ _, rfl⟩
  · exact stopsAlike_faultAt _ _ _ _

theorem bounds_close_parallel (part : named.PartOf g.sets) (opening : Token) (min max : Nat)
    {s r r' : State} (lt : s.ahead.length < r.ahead.length)
    (lt' : (s.expand g.mode named .bounds).ahead.length < r'.ahead.length) :
    Parallel g.mode named .bounds .start s (fun b b' _ => b' = b)
      (do
        let (_, ⟨s₁, h₁⟩) ← expectClose g opening .rightBrace s
        match boundsFault? min max with
        | some cause => throw (faultAt opening s₁ cause)
        | none => return ((min, max), (⟨s₁, Nat.lt_trans h₁ lt⟩ : After r)))
      (do
        let (_, ⟨s₁, h₁⟩) ← expectClose g.plain opening .rightBrace (s.expand g.mode named .bounds)
        match boundsFault? min max with
        | some cause => throw (faultAt opening s₁ cause)
        | none => return ((min, max), (⟨s₁, Nat.lt_trans h₁ lt'⟩ : After r'))) := by
  refine .bind (expectClose_parallel part (kept_of_bounds s) opening .rightBrace) ?_
  rintro close _ s₁ h₁ h₁' rfl
  dsimp only
  cases boundsFault? min max with
  | some cause => exact stopsAlike_faultAt _ _ _ _
  | none => exact parallel_pure _ _ rfl

theorem bounds_parallel (part : named.PartOf g.sets) (opening : Token) (s : State) :
    Parallel g.mode named .bounds .start s (fun r r' _ => r' = r) (bounds g opening s)
      (bounds g.plain opening (s.expand g.mode named .bounds)) := by
  refine .bind (bound_parallel s) ?_
  rintro min _ s₁ h₁ h₁' rfl
  dsimp only
  rcases take?_parallel part (by decide : Punctuation.comma ≠ .leftBracket) .bounds s₁ with
    ⟨h, h'⟩ | ⟨comma, s₂, h₂, h₂', h, h', hr⟩
  · rw [h, h']
    exact bounds_close_parallel part opening _ _ h₁ h₁'
  · rw [h, h']
    refine .after hr (.bind (bound_parallel s₂) ?_)
    rintro max _ s₃ h₃ h₃' rfl
    have lt := Nat.lt_trans (Nat.lt_trans h₃ h₂) h₁
    have lt' := Nat.lt_trans (Nat.lt_trans h₃' h₂') h₁'
    exact bounds_close_parallel part opening _ _ lt lt'

abbrev SamePattern (g : Grammar) (named : SetTable) : TextPattern → TextPattern → Prop :=
  Resembles (named = g.sets) Pattern.outline

theorem repetition_of_startsTerm (h : ∀ t ∈ s.ahead.head?, startsTerm g.mode t.kind = true)
    (p : TextPattern) : ∃ le, repetition g p s = .ok (p, ⟨s, le⟩) :=
  repetition_of_passes none p (.refl s) fun t ht => not_continuesTerm_of_startsTerm (h t ht)

theorem repetition_kept_parallel (part : named.PartOf g.sets) {p p' : TextPattern}
    (hp : SamePattern g named p p') {t : Token} {rest : List Token} {n : Nat} {names : List String}
    (hm : t.members? g.mode named .start (rest.head?.map (·.kind)) = none) :
    Parallel g.mode named .start .start ⟨t :: rest, n, names⟩
      (fun q q' _ => SamePattern g named q q') (repetition g p ⟨t :: rest, n, names⟩)
      (repetition g.plain p' (.expand g.mode named .start ⟨t :: rest, n, names⟩)) := by
  have hr : Reaches g.mode named .start ⟨t :: rest, n, names⟩ (Place.next .start t.kind)
      ⟨rest, n, names⟩ := List.suffix_cons _ _
  have he := @expand_of_members?_eq_none g.mode named .start t rest n names hm
  rw [he]
  cases hk : t.kind with
  | punct c =>
    rw [hk] at hr he
    cases c with
    | plus =>
      simp only [repetition, hk, State.reading]
      exact ⟨rfl, hr, hp.map Pattern.oneOrMore Pattern.oneOrMore fun _ => rfl⟩
    | star =>
      simp only [repetition, hk, State.reading]
      exact ⟨rfl, hr, hp.map Pattern.zeroOrMore Pattern.zeroOrMore fun _ => rfl⟩
    | question =>
      simp only [repetition, hk, State.reading]
      exact ⟨rfl, hr, hp.map Pattern.optional Pattern.optional fun _ => rfl⟩
    | leftBrace =>
      simp only [repetition, hk, State.reading]
      refine .after hr (.bind (bounds_parallel part t ⟨rest, n, names⟩) ?_)
      rintro ⟨min, max⟩ _ s₁ h₁ h₁' rfl
      have same : SamePattern g named (.counted p min max) (.counted p' min max) :=
        hp.map (Pattern.counted · min max) (Pattern.counted · min max) fun _ => rfl
      exact ⟨rfl, .refl _ _, same⟩
    | _ =>
      simp only [repetition, hk]
      exact ⟨he.symm, .refl _ _, hp⟩
  | _ =>
    rw [hk] at he
    simp only [repetition, hk]
    exact ⟨he.symm, .refl _ _, hp⟩

theorem repetition_parallel (part : named.PartOf g.sets) {p p' : TextPattern}
    (hp : SamePattern g named p p') (s : State) :
    Parallel g.mode named .start .start s (fun q q' _ => SamePattern g named q q')
      (repetition g p s) (repetition g.plain p' (s.expand g.mode named .start)) := by
  obtain ⟨ahead, n, names⟩ := s
  cases ahead with
  | nil => exact ⟨rfl, .refl _ _, hp⟩
  | cons t rest =>
    cases hm : t.members? g.mode named .start (rest.head?.map (·.kind)) with
    | none => exact repetition_kept_parallel part hp hm
    | some members =>
      -- a symbol and an opening bracket both end the term before them
      obtain ⟨hw, -, -⟩ := Token.members?_eq_some_iff.1 hm
      obtain ⟨u, more, hk, hg⟩ := replacements_of_members?_eq_some part hm
      obtain ⟨_, e⟩ := repetition_of_startsTerm (g := g) (s := ⟨t :: rest, n, names⟩)
        (by simpa using (kind_of_writesSymbol ⟨t, hw⟩).1) p
      obtain ⟨_, e'⟩ := repetition_of_startsTerm (g := g.plain)
        (s := State.expand g.mode named .start ⟨t :: rest, n, names⟩)
        (by simp [State.expand, State.reading, hg, hk, startsTerm]) p'
      rw [e, e']
      exact ⟨rfl, .refl _ _, hp⟩

end Parser
end SymbolRegex
