import Mathlib.Data.List.Forall2
import Mathlib.Data.List.TakeWhile
import SymbolRegex.Proofs.Written

/-! # The spelling of written patterns

Tokens are spelled by their kinds and texts, without their positions. A piece of
source text spells some tokens if they are what it is cut into wherever it
stands and whatever follows it. Pieces that do so can be put one after the
other, and a written pattern is made of such pieces.
-/

namespace SymbolRegex

abbrev Spelling := TokenKind × String

def Token.spelling (t : Token) : Spelling := (t.kind, t.text)

namespace Spelling

def punct (p : Punctuation) : Spelling := (.punct p, p.char.toString)

def literal (text : String) : Spelling := (.literal, text)

def number (n : Nat) : Spelling := (.integer, toString n)

/-- The tokens over symbols of a source that starts at `p`. -/
def ofSource (p : Position) (cs : List Char) : List Spelling :=
  ((Lexeme.scan p cs).flatMap (Lexeme.tokens .symbol)).map (·.token.spelling)

theorem ofSource_nil (p : Position) : ofSource p [] = [] := by
  simp [ofSource, Lexeme.scan]

theorem ofSource_blank {c : Char} (p : Position) (rest : List Char) (h : Text.isBlank c = true) :
    ofSource p (c :: rest) = ofSource (p.next c) rest := by
  rw [ofSource, Lexeme.scan, if_pos h, ofSource]

theorem ofSource_lexeme {c : Char} {cs rest : List Char} {shape : Shape} (p : Position)
    (hb : Text.isBlank c = false)
    (hm : Lexeme.measure c (cs ++ rest) = (shape, cs.length)) :
    ofSource p (c :: cs ++ rest) =
      (Lexeme.tokens .symbol ⟨shape, c :: cs, p⟩).map (·.token.spelling) ++
        ofSource (p.after (c :: cs)) rest := by
  rw [ofSource, List.cons_append, Lexeme.scan, if_neg (by simp [hb]), hm]
  simp [ofSource]

end Spelling

/-- A text is cut into some tokens, whatever comes before and after it. -/
def Spells (text : String) (w : List Spelling) : Prop :=
  ∀ p rest, ∃ q, Spelling.ofSource p (text.toList ++ rest) = w ++ Spelling.ofSource q rest

variable {s t : String} {v w : List Spelling}

theorem spells_empty : Spells "" [] := fun p _ => ⟨p, rfl⟩

theorem Spells.append (hs : Spells s v) (ht : Spells t w) : Spells (s ++ t) (v ++ w) := by
  intro p rest
  obtain ⟨q, hq⟩ := hs p (t.toList ++ rest)
  obtain ⟨r, hr⟩ := ht q rest
  exact ⟨r, by rw [String.toList_append, List.append_assoc, hq, hr, List.append_assoc]⟩

theorem spells_blank : Spells " " [] := fun p rest =>
  ⟨p.next ' ', Spelling.ofSource_blank p rest (by decide)⟩

theorem spells_lexeme {c : Char} {cs : List Char} {shape : Shape} (ht : t.toList = c :: cs)
    (hb : Text.isBlank c = false)
    (hm : ∀ rest, Lexeme.measure c (cs ++ rest) = (shape, cs.length))
    (hw : ∀ p, (Lexeme.tokens .symbol ⟨shape, c :: cs, p⟩).map (·.token.spelling) = w) :
    Spells t w := by
  intro p rest
  exact ⟨p.after (c :: cs), by rw [ht, Spelling.ofSource_lexeme p hb (hm rest), hw]⟩

/-! ## Punctuation and numbers -/

namespace Punctuation

theorem isBlank_char (p : Punctuation) : Text.isBlank p.char = false := by cases p <;> rfl

theorem isWordChar_char (p : Punctuation) : Lexeme.isWordChar p.char = false := by
  cases p <;> decide

theorem measure_char (p : Punctuation) (rest : List Char) :
    Lexeme.measure p.char rest = (.punct p, 0) := by
  have hq : ¬ (p.char = '\'' ∨ p.char = '"') := by cases p <;> decide
  rw [Lexeme.measure, if_neg hq, ofChar?_char]

end Punctuation

theorem Lexeme.measure_of_isWordChar {c : Char} {rest : List Char} (h : isWordChar c = true) :
    measure c rest =
      (wordShape (c :: rest.takeWhile isWordChar), (rest.takeWhile isWordChar).length) := by
  have hq : ¬ (c = '\'' ∨ c = '"') := by
    rintro (rfl | rfl) <;> exact absurd h (by decide)
  have hp : Punctuation.ofChar? c = none := by
    rw [Option.eq_none_iff_forall_ne_some]
    intro p hp
    rw [← Punctuation.ofChar?_eq_some_iff.1 hp, p.isWordChar_char] at h
    cases h
  simp only [measure, if_neg hq, hp, h, if_true]

theorem spells_punct (p : Punctuation) : Spells p.char.toString [.punct p] := by
  have hm (rest : List Char) :
      Lexeme.measure p.char ([] ++ rest) = (.punct p, ([] : List Char).length) :=
    p.measure_char rest
  refine spells_lexeme (by simp) p.isBlank_char hm fun q => ?_
  simp [Lexeme.tokens, Lexeme.asSlice, Token.spelling, Spelling.punct]

section Number

variable {c : Char}

theorem toNat_of_isDigit (h : c.isDigit = true) : 48 ≤ c.toNat ∧ c.toNat ≤ 57 := by
  simpa [Char.isDigit, UInt32.le_iff_toNat_le] using h

theorem isBlank_of_isDigit (h : c.isDigit = true) : Text.isBlank c = false := by
  have := toNat_of_isDigit h
  simp only [Text.isBlank, Bool.or_eq_false_iff, Bool.and_eq_false_iff, decide_eq_false_iff_not,
    beq_eq_false_iff_ne]
  omega

theorem isWordChar_of_isDigit (h : c.isDigit = true) : Lexeme.isWordChar c = true := by
  have hn := toNat_of_isDigit h
  have ha : c.isAlphanum = true := by simp [Char.isAlphanum, h]
  simp [Lexeme.isWordChar, Text.isAlphanumeric_of_isAlphanum ha (by omega)]

theorem measure_digit {cs : List Char} (p : Punctuation) (rest : List Char)
    (hc : c.isDigit = true) (hcs : ∀ d ∈ cs, d.isDigit = true) :
    Lexeme.measure c (cs ++ p.char :: rest) = (.digits, cs.length) := by
  have hw : (cs ++ p.char :: rest).takeWhile Lexeme.isWordChar = cs := by
    rw [List.takeWhile_append_of_pos fun d hd => isWordChar_of_isDigit (hcs d hd),
      List.takeWhile_cons_of_neg (by simp [p.isWordChar_char]), List.append_nil]
  have hs : Lexeme.wordShape (c :: cs) = .digits := by
    rw [Lexeme.wordShape, if_pos (by simpa [hc] using hcs)]
  rw [Lexeme.measure_of_isWordChar (isWordChar_of_isDigit hc), hw, hs]

theorem spells_number (n : Nat) (p : Punctuation) :
    Spells (toString n ++ p.char.toString) [.number n, .punct p] := by
  have hd : ∀ c ∈ (toString n).toList, c.isDigit = true := by
    rw [Nat.toString_eq_ofList_toDigits, String.toList_ofList]
    exact fun c => Nat.isDigit_of_mem_toDigits (by decide) (by decide)
  have hne : (toString n).toList ≠ [] := by
    rw [Nat.toString_eq_ofList_toDigits, String.toList_ofList]
    exact Nat.toDigits_ne_nil
  obtain ⟨c, cs, hcs⟩ := List.exists_cons_of_ne_nil hne
  rw [hcs, List.forall_mem_cons] at hd
  intro pos rest
  have hm := measure_digit p rest hd.1 hd.2
  obtain ⟨q, hq⟩ := spells_punct p (pos.after (c :: cs)) rest
  rw [Char.toString_eq_singleton, String.toList_singleton, List.singleton_append] at hq
  refine ⟨q, ?_⟩
  rw [String.toList_append, hcs, Char.toString_eq_singleton, String.toList_singleton,
    List.append_assoc, List.singleton_append,
    Spelling.ofSource_lexeme pos (isBlank_of_isDigit hd.1) hm, hq]
  simp [Lexeme.tokens, Lexeme.asSlice, Token.spelling, Spelling.number, ← hcs,
    Nat.repr_eq_ofList_toDigits]

theorem decimal_toString (n : Nat) : Parser.decimal (toString n) = n := by
  rw [Nat.toString_eq_ofList_toDigits, Parser.decimal, String.toList_ofList]
  exact Nat.ofDigitChars_ten_toDigits

end Number

/-! ## Literals -/

section Literal

/-- What stands between the quotes of a literal. -/
def escape (cs : List Char) : List Char := cs.flatMap fun c => (writeLiteralChar c).toList

theorem toList_writeLiteral (text : String) :
    (writeLiteral text).toList = '\'' :: (escape text.toList ++ ['\'']) := by
  simp [writeLiteral, escape, String.toList_join, List.flatMap_map]

theorem writeLiteralChar_cases (c : Char) :
    (∃ d, (writeLiteralChar c).toList = ['\\', d] ∧ Escape.resolve d = some c) ∨
    (writeLiteralChar c).toList = [c] ∧ c ≠ '\'' ∧ c ≠ '\\' ∧ c ≠ '\n' := by
  unfold writeLiteralChar
  split
  · exact .inl ⟨'\'', rfl, rfl⟩
  · exact .inl ⟨'\\', rfl, rfl⟩
  · exact .inl ⟨'n', rfl, rfl⟩
  · exact .inl ⟨'t', rfl, rfl⟩
  · exact .inl ⟨'r', rfl, rfl⟩
  · next h₁ h₂ h₃ _ _ => exact .inr ⟨by simp, h₁, h₂, h₃⟩

theorem escape_cons (c : Char) (cs : List Char) :
    escape (c :: cs) = (writeLiteralChar c).toList ++ escape cs := List.flatMap_cons

/-- The run between the quotes of a literal ends at its closing quote. -/
theorem quotedRun_escape (cs rest : List Char) :
    Lexeme.quotedRun '\'' (escape cs ++ '\'' :: rest) = ((escape cs).length + 1, true) := by
  induction cs with
  | nil => simp [escape, Lexeme.quotedRun]
  | cons c cs ih =>
    rw [escape_cons]
    rcases writeLiteralChar_cases c with ⟨d, hd, -⟩ | ⟨hc, hq, hb, hn⟩
    · rw [hd]
      simp [Lexeme.quotedRun, ih]
    · rw [hc]
      simp [Lexeme.quotedRun, ih, hq, hb, hn]

theorem resolveFrom_escape (offset : Nat) (cs : List Char) :
    Escape.resolveFrom offset (escape cs) = .ok cs := by
  induction cs generalizing offset with
  | nil => rfl
  | cons c cs ih =>
    rw [escape_cons]
    rcases writeLiteralChar_cases c with ⟨d, hd, hr⟩ | ⟨hc, -, hb, -⟩
    · rw [hd]
      simp [Escape.resolveFrom, hr, ih, Except.map]
    · rw [hc]
      simp [Escape.resolveFrom, hb, ih, Except.map]

theorem spells_literal {text : String} (h : text ≠ "") :
    Spells (writeLiteral text) [.literal text] := by
  have hm (rest : List Char) : Lexeme.measure '\'' ((escape text.toList ++ ['\'']) ++ rest) =
      (.quoted, (escape text.toList ++ ['\'']).length) := by
    rw [List.append_assoc, List.singleton_append]
    simp [Lexeme.measure, quotedRun_escape]
  refine spells_lexeme (toList_writeLiteral text) (by decide) hm fun p => ?_
  simp [Lexeme.tokens, Lexeme.withContent, Lexeme.content, Escape.unescape, resolveFrom_escape,
    Lexeme.symbolLiteral, h, Token.spelling, Spelling.literal]

end Literal

/-! ## Patterns -/

/-- Texts with a separator between them spell what they spell, with what the separator spells
between. -/
theorem spells_intercalate {sep : String} (hsep : Spells sep v) {ts : List String}
    {ws : List (List Spelling)} (h : List.Forall₂ Spells ts ws) :
    Spells (sep.intercalate ts) (v.intercalate ws) := by
  induction h with
  | nil => simpa using spells_empty
  | @cons t w ts ws ht hs ih =>
    cases hs with
    | nil => simpa using ht
    | cons hu hs =>
      rw [String.intercalate_cons_cons, List.intercalate_cons_cons]
      exact (ht.append hsep).append ih

theorem intercalate_nil_left {α : Type} (ls : List (List α)) :
    List.intercalate [] ls = ls.flatten := by
  induction ls with
  | nil => rfl
  | cons l ls ih =>
    cases ls with
    | nil => simp
    | cons m ls => rw [List.intercalate_cons_cons, ih]; simp

theorem spells_spaced {ts : List String} {ws : List (List Spelling)}
    (h : List.Forall₂ Spells ts ws) : Spells (" ".intercalate ts) ws.flatten := by
  rw [← intercalate_nil_left]
  exact spells_intercalate spells_blank h

theorem spells_bar : Spells " | " [.punct .bar] :=
  (spells_blank.append (spells_punct .bar)).append spells_blank

def SetItem.spell : SetItem → List Spelling
  | literal text => [.literal text]
  | range low high => [.literal low, .punct .dash, .literal high]

def Leaf.spell : Leaf → List Spelling
  | literal text => [.literal text]
  | range low high => [.literal low, .punct .dash, .literal high]
  | set negated items =>
    .punct .leftBracket :: (if negated then [.punct .caret] else []) ++
      items.flatMap SetItem.spell ++ [.punct .rightBracket]
  | any => [.punct .dot]

def spellBounds (min max : Nat) : List Spelling :=
  if min = max then [.punct .leftBrace, .number min, .punct .rightBrace]
  else [.punct .leftBrace, .number min, .punct .comma, .number max, .punct .rightBrace]

namespace Pattern

def encloseSpelling (wanted : Bool) (w : List Spelling) : List Spelling :=
  if wanted then .punct .leftParen :: w ++ [.punct .rightParen] else w

mutual

/-- The tokens that a pattern is written with. -/
def spell : TextPattern → List Spelling
  | leaf a => a.spell
  | sequence ps => (spellItems ps).flatten
  | choice ps => List.intercalate [.punct .bar] (spellBranches ps)
  | optional p => encloseSpelling (!p.isLeaf) (spell p) ++ [.punct .question]
  | counted p min max => encloseSpelling (!p.isLeaf) (spell p) ++ spellBounds min max
  | oneOrMore p => encloseSpelling (!p.isLeaf) (spell p) ++ [.punct .plus]
  | zeroOrMore p => encloseSpelling (!p.isLeaf) (spell p) ++ [.punct .star]
  | action i p => .number i :: .punct .equals :: encloseSpelling (!p.isLeaf) (spell p)

def spellItems : List TextPattern → List (List Spelling)
  | [] => []
  | p :: ps => encloseSpelling p.isList (spell p) :: spellItems ps

def spellBranches : List TextPattern → List (List Spelling)
  | [] => []
  | p :: ps => spell p :: spellBranches ps

end

end Pattern

theorem spells_setItem {i : SetItem} (h : i.Writable) : Spells i.write i.spell := by
  cases i with
  | literal text => exact spells_literal h
  | range low high =>
    exact ((spells_literal h.1).append (spells_punct .dash)).append (spells_literal h.2)

theorem spells_setItems {items : List SetItem} (h : ∀ i ∈ items, i.Writable) :
    Spells (" ".intercalate (items.map SetItem.write)) (items.flatMap SetItem.spell) := by
  apply spells_spaced
  induction items with
  | nil => exact .nil
  | cons i items ih =>
    rw [List.forall_mem_cons] at h
    exact .cons (spells_setItem h.1) (ih h.2)

theorem spells_leaf {a : Leaf} (h : a.Writable) : Spells a.write a.spell := by
  cases a with
  | literal text => exact spells_literal h
  | range => cases h
  | any => exact spells_punct .dot
  | set negated items =>
    have caret :
        Spells (if negated then "^" else "") (if negated then [.punct .caret] else []) := by
      cases negated
      · exact spells_empty
      · exact spells_punct .caret
    exact (((spells_punct .leftBracket).append caret).append
      (spells_setItems h.2)).append (spells_punct .rightBracket)

theorem spells_bounds (min max : Nat) :
    Spells (writeBounds min max) (spellBounds min max) := by
  unfold writeBounds spellBounds
  split
  · rw [String.append_assoc]
    exact (spells_punct .leftBrace).append (spells_number min .rightBrace)
  · have h : s!"{min},{max}" = toString min ++ "," ++ toString max := rfl
    rw [h, String.append_assoc, String.append_assoc]
    exact (spells_punct .leftBrace).append
      ((spells_number min .comma).append (spells_number max .rightBrace))

theorem spells_enclose (wanted : Bool) (h : Spells t w) :
    Spells (Pattern.enclose wanted t) (Pattern.encloseSpelling wanted w) := by
  cases wanted with
  | false => exact h
  | true => exact ((spells_punct .leftParen).append h).append (spells_punct .rightParen)

theorem spells_items {ps : List TextPattern} (h : ∀ p ∈ ps, Spells p.write p.spell) :
    List.Forall₂ Spells (Pattern.writeItems ps) (Pattern.spellItems ps) := by
  induction ps with
  | nil => exact .nil
  | cons p ps ih =>
    rw [List.forall_mem_cons] at h
    exact .cons (spells_enclose p.isList h.1) (ih h.2)

theorem spells_branches {ps : List TextPattern} (h : ∀ p ∈ ps, Spells p.write p.spell) :
    List.Forall₂ Spells (Pattern.writeBranches ps) (Pattern.spellBranches ps) := by
  induction ps with
  | nil => exact .nil
  | cons p ps ih =>
    rw [List.forall_mem_cons] at h
    exact .cons h.1 (ih h.2)

/-- A written pattern is cut into the tokens that it is written with. -/
theorem spells_write {p : TextPattern} (h : p.Writable) : Spells p.write p.spell := by
  induction h with
  | leaf h => exact spells_leaf h
  | sequence _ _ ih => exact spells_spaced (spells_items ih)
  | choice _ _ ih => exact spells_intercalate spells_bar (spells_branches ih)
  | @optional p _ ih => exact (spells_enclose (!p.isLeaf) ih).append (spells_punct .question)
  | @counted p min max _ _ ih =>
    exact (spells_enclose (!p.isLeaf) ih).append (spells_bounds min max)
  | @oneOrMore p _ ih => exact (spells_enclose (!p.isLeaf) ih).append (spells_punct .plus)
  | @zeroOrMore p _ ih => exact (spells_enclose (!p.isLeaf) ih).append (spells_punct .star)
  | @action i p _ ih => exact (spells_number i .equals).append (spells_enclose (!p.isLeaf) ih)

theorem lex_write {p : TextPattern} (h : p.Writable) :
    ((lex .symbol p.write).ahead.map (·.token)).map Token.spelling = p.spell := by
  obtain ⟨q, hq⟩ := spells_write h .start []
  rw [Spelling.ofSource_nil, List.append_nil, List.append_nil] at hq
  rw [← hq, List.map_map]
  rfl

end SymbolRegex
