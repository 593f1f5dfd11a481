import SymbolRegex.Proofs.Phrase

/-! # Replacing names of sets

A set table abbreviates: a token that names a set can be replaced by what the name
stands for, which is a bracketed set where a term may stand, and the members alone
between brackets. Names of actions and the ends of ranges are left as they are.
Where a token stands can be told from the tokens before it, and whether it is such
a name from the one behind it.
-/

namespace SymbolRegex

instance (mode : Mode) (t : Token) : Decidable (t.WritesSymbol mode) :=
  inferInstanceAs (Decidable (_ ∨ _ ∧ _))

inductive Place where
  /-- Outside of brackets and braces, and not behind an `=`. -/
  | start
  /-- Behind the `=` of an action. -/
  | body
  /-- Between brackets, but not behind the dash of a range. -/
  | member
  /-- Behind the dash of a range. -/
  | upper
  /-- Between the braces of a repetition. -/
  | bounds
deriving DecidableEq, Repr

namespace Place

def next : Place → TokenKind → Place
  | member, .punct .rightBracket => start
  | member, .punct .dash => upper
  | member, _ | upper, _ => member
  | bounds, .punct .rightBrace => start
  | bounds, _ => bounds
  | _, .punct .leftBracket => member
  | _, .punct .leftBrace => bounds
  | _, .punct .equals => body
  | _, _ => start

/-- Whether a symbol may stand for the members of a set, given the kind of the token behind it:
not if it names an action or is an end of a range. -/
def expands (mode : Mode) (next? : Option TokenKind) : Place → Bool
  | start => mode = .char || next? ≠ some (.punct .equals)
  | body => true
  | member => next? ≠ some (.punct .dash)
  | upper | bounds => false

end Place

/-- Literals of some texts, which all stand at one position. -/
def literals (p : Position) (texts : List String) : List Token :=
  texts.map fun text => ⟨.literal, text, p⟩

def Place.write (members : List String) (p : Position) : Place → List Token
  | member => literals p members
  | _ => ⟨.punct .leftBracket, "[", p⟩ ::
      (literals p members ++ [⟨.punct .rightBracket, "]", p⟩])

section Replacement

variable (mode : Mode) (sets : SetTable)

/-- The members that a token stands for, if it names a set. -/
def Token.members? (t : Token) (pl : Place) (next? : Option TokenKind) : Option (List String) :=
  if t.WritesSymbol mode ∧ pl.expands mode next? then sets.get? t.text else none

def Token.replacement (t : Token) (pl : Place) (next? : Option TokenKind) : List Token :=
  match t.members? mode sets pl next? with
  | some members => pl.write members t.position
  | none => [t]

def replacements : Place → List Token → List (List Token)
  | _, [] => []
  | pl, t :: rest =>
    t.replacement mode sets pl (rest.head?.map (·.kind)) :: replacements (pl.next t.kind) rest

/-- Tokens in place of one; the first of them brings its faults. -/
def Lexed.replaceBy (x : Lexed) : List Token → List Lexed
  | [] => []
  | t :: more => ⟨t, x.faults⟩ :: more.map (⟨·, []⟩)

/-- The stream with every name of a set replaced by what it stands for. -/
def TokenStream.expand (s : TokenStream) : TokenStream :=
  let groups := replacements mode sets .start (s.ahead.map (·.token))
  ⟨(List.zipWith Lexed.replaceBy s.ahead groups).flatten, s.eof⟩

end Replacement

variable {mode : Mode} {sets : SetTable}

theorem Place.write_ne_nil {members : List String} (h : members ≠ []) (pl : Place) (p : Position) :
    pl.write members p ≠ [] := by
  cases pl <;> simp [write, literals, h]

theorem Place.exists_cons_write {members : List String} (h : members ≠ []) (pl : Place)
    (p : Position) : ∃ t more, pl.write members p = t :: more ∧
      (pl = .member ∧ t.kind = .literal ∨ pl ≠ .member ∧ t.kind = .punct .leftBracket) := by
  obtain ⟨m, ms, rfl⟩ := List.exists_cons_of_ne_nil h
  cases pl <;> simp [write, literals]

theorem Token.WritesSymbol.next_member {mode : Mode} {t : Token} (h : t.WritesSymbol mode) :
    Place.next .member t.kind = .member := by
  rcases h with h | ⟨h, -⟩ <;> rw [h] <;> rfl

theorem Place.next_body (k : TokenKind) : next .body k = next .start k := by
  cases k with
  | punct c => cases c <;> rfl
  | _ => rfl

theorem Token.WritesSymbol.next_start {mode : Mode} {t : Token} (h : t.WritesSymbol mode) :
    Place.next .start t.kind = .start := by
  rcases h with h | ⟨h, -⟩ <;> rw [h] <;> rfl

theorem Token.members?_eq_some_iff {t : Token} {pl : Place} {next? : Option TokenKind}
    {members : List String} : t.members? mode sets pl next? = some members ↔
      t.WritesSymbol mode ∧ pl.expands mode next? = true ∧ sets.get? t.text = some members := by
  unfold members?
  split
  · next h => simp [h]
  · next h => simpa using fun hs he => absurd ⟨hs, he⟩ h

theorem Token.replacement_of_none {t : Token} {pl : Place} {next? : Option TokenKind}
    (h : t.members? mode sets pl next? = none) : t.replacement mode sets pl next? = [t] := by
  rw [replacement, h]

theorem Token.replacement_of_some {t : Token} {pl : Place} {next? : Option TokenKind}
    {members : List String} (h : t.members? mode sets pl next? = some members) :
    t.replacement mode sets pl next? = pl.write members t.position := by
  rw [replacement, h]

theorem ne_nil_of_mem_replacements
    (nonempty : ∀ name members, sets.get? name = some members → members ≠ []) {ts : List Token} :
    ∀ {pl : Place}, ∀ group ∈ replacements mode sets pl ts, group ≠ [] := by
  induction ts with
  | nil => simp [replacements]
  | cons t rest ih =>
    intro pl
    rw [replacements, List.forall_mem_cons]
    refine ⟨?_, ih⟩
    cases h : t.members? mode sets pl (rest.head?.map (·.kind)) with
    | none => simp [Token.replacement_of_none h]
    | some members =>
      rw [Token.replacement_of_some h]
      exact Place.write_ne_nil (nonempty _ _ (Token.members?_eq_some_iff.1 h).2.2) _ _

@[simp] theorem length_replacements (pl : Place) (ts : List Token) :
    (replacements mode sets pl ts).length = ts.length := by
  induction ts generalizing pl with
  | nil => rfl
  | cons t rest ih => rw [replacements, List.length_cons, ih, List.length_cons]

theorem replacements_empty (pl : Place) (ts : List Token) :
    replacements mode {} pl ts = ts.map ([·]) := by
  induction ts generalizing pl with
  | nil => rfl
  | cons t rest ih =>
    have kept : t.members? mode {} pl (rest.head?.map (·.kind)) = none := by
      simp [Token.members?]
    rw [replacements, ih, Token.replacement_of_none kept, List.map_cons]

/-! ## What comes to light -/

namespace Lexed

theorem map_token_replaceBy (x : Lexed) (ts : List Token) :
    (x.replaceBy ts).map (·.token) = ts := by
  cases ts <;> simp [replaceBy, Function.comp_def]

theorem faults_replaceBy (x : Lexed) {ts : List Token} (h : ts ≠ []) :
    (x.replaceBy ts).flatMap (·.faults) = x.faults := by
  obtain ⟨t, more, rfl⟩ := List.exists_cons_of_ne_nil h
  simp [replaceBy, List.flatMap_map]

end Lexed

theorem TokenStream.expand_empty (s : TokenStream) : s.expand mode {} = s := by
  obtain ⟨ahead, eof⟩ := s
  have same : ∀ xs : List Lexed,
      (List.zipWith Lexed.replaceBy xs (xs.map fun x => [x.token])).flatten = xs := by
    intro xs
    induction xs with
    | nil => rfl
    | cons x xs ih => simp [Lexed.replaceBy, ih]
  simp [expand, replacements_empty, Function.comp_def, same]

variable {xs : List Lexed} {groups : List (List Token)}

theorem map_token_flatten_replaceBy (h : xs.length = groups.length) :
    (List.zipWith Lexed.replaceBy xs groups).flatten.map (·.token) = groups.flatten := by
  induction xs generalizing groups with
  | nil =>
    obtain rfl := List.length_eq_zero_iff.1 h.symm
    rfl
  | cons x xs ih =>
    obtain ⟨group, groups, rfl⟩ := List.exists_cons_of_length_eq_add_one h.symm
    simp only [List.length_cons, Nat.add_right_cancel_iff] at h
    simp [Lexed.map_token_replaceBy, ← ih h]

theorem length_flatten_replaceBy (h : xs.length = groups.length) :
    (List.zipWith Lexed.replaceBy xs groups).flatten.length = groups.flatten.length := by
  rw [← map_token_flatten_replaceBy h, List.length_map]

theorem faults_flatten_replaceBy (h : xs.length = groups.length) (ne : ∀ g ∈ groups, g ≠ []) :
    (List.zipWith Lexed.replaceBy xs groups).flatten.flatMap (·.faults) =
      xs.flatMap (·.faults) := by
  induction xs generalizing groups with
  | nil => simp
  | cons x xs ih =>
    obtain ⟨group, groups, rfl⟩ := List.exists_cons_of_length_eq_add_one h.symm
    simp only [List.length_cons, Nat.add_right_cancel_iff] at h
    rw [List.forall_mem_cons] at ne
    simp [Lexed.faults_replaceBy x ne.1, ← ih h ne.2]

end SymbolRegex
