import SymbolRegex.Pattern.Parser

/-! # Phrases

The grammar of patterns, as derivation trees. A phrase holds the tokens that it
is written with, so it has one token list; the pattern that it stands for has its
actions numbered from left to right, an outer action before those inside it.
-/

namespace SymbolRegex

/-- A token of the given kind. -/
abbrev Terminal (kind : TokenKind) := { t : Token // t.kind = kind }

/-- A token that writes a symbol: a literal, and over symbols an integer too. -/
def Token.WritesSymbol (mode : Mode) (t : Token) : Prop :=
  t.kind = .literal ∨ t.kind = .integer ∧ mode = .symbol

theorem Token.WritesSymbol.ne_error {mode : Mode} {t : Token} (h : t.WritesSymbol mode) :
    t.kind ≠ .error := by
  rcases h with h | ⟨h, -⟩ <;> simp [h]

abbrev SymbolToken (mode : Mode) := { t : Token // t.WritesSymbol mode }

structure ValidBounds (min max : Nat) : Prop where
  ordered : min ≤ max
  positive : 0 < max
  limited : max ≤ 10

namespace Phrase

def count (t : Terminal .integer) : Nat := Parser.decimal t.val.text

/-- The leaf of a symbol text, which stands for all members of the set that it names, if any. -/
def symbolLeaf (sets : SetTable) (text : String) : Leaf :=
  match sets.get? text with
  | some members => .set false (members.map .literal)
  | none => .literal text

/-- What a symbol text adds to a bracketed set. -/
def symbolItems (sets : SetTable) (text : String) : List SetItem :=
  match sets.get? text with
  | some members => members.map .literal
  | none => [.literal text]

def charItems (text : String) : List SetItem :=
  text.toList.map fun c => .literal c.toString

inductive Member (mode : Mode) where
  | symbol (t : SymbolToken mode)
  | range (low : SymbolToken mode) (dash : Terminal (.punct .dash)) (high : SymbolToken mode)
  | group (name : ClassName) (t : Terminal (.charClass ⟨name, false⟩))
  | string (t : Terminal .string)

namespace Member

variable {mode : Mode}

def tokens : Member mode → List Token
  | symbol t => [t.val]
  | range low dash high => [low.val, dash.val, high.val]
  | group _ t => [t.val]
  | string t => [t.val]

def items (sets : SetTable) : Member mode → List SetItem
  | symbol t => symbolItems sets t.val.text
  | range low _ high => [.range low.val.text high.val.text]
  | group name _ => name.items
  | string t => charItems t.val.text

end Member

/-- A bracketed set, which has at least one item. -/
structure Bracketed (mode : Mode) (sets : SetTable) where
  opening : Terminal (.punct .leftBracket)
  caret? : Option (Terminal (.punct .caret))
  members : List (Member mode)
  closing : Terminal (.punct .rightBracket)
  items_ne_nil : members.flatMap (Member.items sets) ≠ []

namespace Bracketed

variable {mode : Mode} {sets : SetTable}

def tokens (b : Bracketed mode sets) : List Token :=
  b.opening.val :: b.caret?.elim [] (fun t => [t.val]) ++
    (b.members.flatMap Member.tokens ++ [b.closing.val])

def leaf (b : Bracketed mode sets) : Leaf :=
  .set b.caret?.isSome (b.members.flatMap (Member.items sets))

end Bracketed

inductive Repetition where
  | plus (t : Terminal (.punct .plus))
  | star (t : Terminal (.punct .star))
  | question (t : Terminal (.punct .question))
  | exactly (opening : Terminal (.punct .leftBrace)) (n : Terminal .integer)
      (closing : Terminal (.punct .rightBrace)) (valid : ValidBounds (count n) (count n))
  | between (opening : Terminal (.punct .leftBrace)) (n : Terminal .integer)
      (comma : Terminal (.punct .comma)) (m : Terminal .integer)
      (closing : Terminal (.punct .rightBrace)) (valid : ValidBounds (count n) (count m))

namespace Repetition

def tokens : Repetition → List Token
  | plus t => [t.val]
  | star t => [t.val]
  | question t => [t.val]
  | exactly opening n closing _ => [opening.val, n.val, closing.val]
  | between opening n comma m closing _ => [opening.val, n.val, comma.val, m.val, closing.val]

def pattern (p : TextPattern) : Repetition → TextPattern
  | plus _ => .oneOrMore p
  | star _ => .zeroOrMore p
  | question _ => .optional p
  | exactly _ n _ _ => .counted p (count n) (count n)
  | between _ n _ m _ _ => .counted p (count n) (count m)

end Repetition

/-- What marks an action: `=` over characters, with a name before it over symbols. -/
inductive Label : Mode → Type where
  | char (equals : Terminal (.punct .equals)) : Label .char
  | symbol (name : SymbolToken .symbol) (equals : Terminal (.punct .equals)) : Label .symbol

namespace Label

variable {mode : Mode}

def tokens : Label mode → List Token
  | char equals => [equals.val]
  | symbol name equals => [name.val, equals.val]

def name? : Label mode → Option String
  | char _ => none
  | symbol name _ => some name.val.text

end Label

mutual

inductive Choice (mode : Mode) (sets : SetTable) where
  | single (s : Sequence mode sets)
  | more (s : Sequence mode sets) (bar : Terminal (.punct .bar)) (rest : Choice mode sets)

inductive Sequence (mode : Mode) (sets : SetTable) where
  | single (t : Term mode sets)
  | more (t : Term mode sets) (rest : Sequence mode sets)

inductive Term (mode : Mode) (sets : SetTable) where
  | mk (label? : Option (Label mode)) (a : Atom mode sets) (repetition? : Option Repetition)

inductive Atom (mode : Mode) (sets : SetTable) where
  | symbol (t : SymbolToken mode)
  | group (opening : Terminal (.punct .leftParen)) (c : Choice mode sets)
      (closing : Terminal (.punct .rightParen))
  | set (b : Bracketed mode sets)
  | any (t : Terminal (.punct .dot))
  | string (t : Terminal .string) (nonempty : t.val.text ≠ "")
  | charClass (k : CharClass) (t : Terminal (.charClass k))

end

variable {mode : Mode} {sets : SetTable}

mutual

def Choice.tokens : Choice mode sets → List Token
  | .single s => s.tokens
  | .more s bar rest => s.tokens ++ bar.val :: rest.tokens

def Sequence.tokens : Sequence mode sets → List Token
  | .single t => t.tokens
  | .more t rest => t.tokens ++ rest.tokens

def Term.tokens : Term mode sets → List Token
  | .mk label? a repetition? =>
    label?.elim [] Label.tokens ++ (a.tokens ++ repetition?.elim [] Repetition.tokens)

def Atom.tokens : Atom mode sets → List Token
  | .symbol t => [t.val]
  | .group opening c closing => opening.val :: c.tokens ++ [closing.val]
  | .set b => b.tokens
  | .any t => [t.val]
  | .string t _ => [t.val]
  | .charClass _ t => [t.val]

end

mutual

/-- The labels of a phrase, each before those inside its action. -/
def Choice.labels : Choice mode sets → List (Label mode)
  | .single s => s.labels
  | .more s _ rest => s.labels ++ rest.labels

def Sequence.labels : Sequence mode sets → List (Label mode)
  | .single t => t.labels
  | .more t rest => t.labels ++ rest.labels

def Term.labels : Term mode sets → List (Label mode)
  | .mk label? a _ => label?.toList ++ a.labels

def Atom.labels : Atom mode sets → List (Label mode)
  | .group _ c _ => c.labels
  | .symbol _ | .set _ | .any _ | .string _ _ | .charClass _ _ => []

end

mutual

/-- The branches of a choice in which the first action is number `n`. -/
def Choice.branches (n : Nat) : Choice mode sets → List TextPattern
  | .single s => [.ofSequence (s.items n)]
  | .more s _ rest => .ofSequence (s.items n) :: rest.branches (n + s.labels.length)

def Sequence.items (n : Nat) : Sequence mode sets → List TextPattern
  | .single t => [t.pattern n]
  | .more t rest => t.pattern n :: rest.items (n + t.labels.length)

def Term.pattern (n : Nat) : Term mode sets → TextPattern
  | .mk none a repetition? => repetition?.elim (a.pattern n) (Repetition.pattern (a.pattern n))
  | .mk (some _) a repetition? =>
    .action n (repetition?.elim (a.pattern (n + 1)) (Repetition.pattern (a.pattern (n + 1))))

def Atom.pattern (n : Nat) : Atom mode sets → TextPattern
  | .symbol t => .leaf (symbolLeaf sets t.val.text)
  | .group _ c _ => .ofChoice (c.branches n)
  | .set b => .leaf b.leaf
  | .any _ => .leaf .any
  | .string t _ => .ofSequence (t.val.text.toList.map fun c => .leaf (.literal c.toString))
  | .charClass k _ => .leaf (.set k.negated k.name.items)

end

/-- What a whole pattern with this phrase is read as. -/
def Choice.output (c : Choice mode sets) : Parser.Output :=
  ⟨.ofChoice (c.branches 0), c.labels.filterMap Label.name?⟩

/-! ## Tokens without a fault -/

def Readable (ts : List Token) : Prop := ∀ t ∈ ts, t.kind ≠ .error

section Readable

variable {ts us : List Token}

theorem readable_nil : Readable [] := by simp [Readable]

theorem readable_cons {t : Token} : Readable (t :: ts) ↔ t.kind ≠ .error ∧ Readable ts :=
  List.forall_mem_cons

theorem readable_singleton {t : Token} : Readable [t] ↔ t.kind ≠ .error := by simp [Readable]

theorem readable_append : Readable (ts ++ us) ↔ Readable ts ∧ Readable us :=
  List.forall_mem_append

end Readable

theorem Member.readable (m : Member mode) : Readable m.tokens := by
  cases m with
  | symbol t => exact readable_singleton.2 t.property.ne_error
  | range low dash high =>
    simp [Member.tokens, readable_cons, readable_nil, low.property.ne_error, dash.property,
      high.property.ne_error]
  | group _ t | string t => exact readable_singleton.2 (by simp [t.property])

theorem Bracketed.readable (b : Bracketed mode sets) : Readable b.tokens := by
  obtain ⟨opening, caret?, members, closing, -⟩ := b
  have hk : Readable (caret?.elim [] fun t => [t.val]) := by
    cases caret? with
    | none => exact readable_nil
    | some t => exact readable_singleton.2 (by simp [t.property])
  have hm : Readable (members.flatMap Member.tokens) := by
    intro t ht
    obtain ⟨m, -, ht⟩ := List.mem_flatMap.1 ht
    exact m.readable t ht
  simp [Bracketed.tokens, readable_cons, readable_append, readable_nil, opening.property, hk, hm,
    closing.property]

theorem Repetition.readable (q : Repetition) : Readable q.tokens := by
  cases q with
  | plus t | star t | question t => exact readable_singleton.2 (by simp [t.property])
  | exactly opening n closing =>
    simp [Repetition.tokens, readable_cons, readable_nil, opening.property, n.property,
      closing.property]
  | between opening n comma m closing =>
    simp [Repetition.tokens, readable_cons, readable_nil, opening.property, n.property,
      comma.property, m.property, closing.property]

theorem Label.readable (l : Label mode) : Readable l.tokens := by
  cases l with
  | char equals => exact readable_singleton.2 (by simp [equals.property])
  | symbol name equals =>
    simp [Label.tokens, readable_cons, readable_nil, name.property.ne_error, equals.property]

mutual

theorem Choice.readable : ∀ c : Choice mode sets, Readable c.tokens
  | .single s => s.readable
  | .more s bar rest =>
    readable_append.2 ⟨s.readable, readable_cons.2 ⟨by simp [bar.property], rest.readable⟩⟩

theorem Sequence.readable : ∀ s : Sequence mode sets, Readable s.tokens
  | .single t => t.readable
  | .more t rest => readable_append.2 ⟨t.readable, rest.readable⟩

theorem Term.readable : ∀ t : Term mode sets, Readable t.tokens
  | .mk label? a repetition? => by
    refine readable_append.2 ⟨?_, readable_append.2 ⟨a.readable, ?_⟩⟩
    · cases label? with
      | none => exact readable_nil
      | some l => exact l.readable
    · cases repetition? with
      | none => exact readable_nil
      | some q => exact q.readable

theorem Atom.readable : ∀ a : Atom mode sets, Readable a.tokens
  | .symbol t => readable_singleton.2 t.property.ne_error
  | .group opening c closing => by
    simp [Atom.tokens, readable_cons, readable_append, readable_nil, opening.property, c.readable,
      closing.property]
  | .set b => b.readable
  | .any t | .string t _ | .charClass _ t => readable_singleton.2 (by simp [t.property])

end

end Phrase
end SymbolRegex
