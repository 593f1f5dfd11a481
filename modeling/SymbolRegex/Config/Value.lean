/-! # Configuration values

Configurations are written in JSON. No setting is a number, so numbers are not
read. Escapes in strings have to denote characters: half of a surrogate pair is
refused, and so are control characters that are not escaped.
-/

namespace SymbolRegex

/-- A JSON value without numbers; an object keeps its entries in order. -/
inductive ConfigValue where
  | null
  | bool (b : Bool)
  | string (text : String)
  | array (items : List ConfigValue)
  | object (entries : List (String × ConfigValue))
deriving Repr

namespace ConfigValue

/-- What is left of a text after at least one character. -/
abbrev Rest (cs : List Char) := { r : List Char // r.length < cs.length }

def isSpace (c : Char) : Bool := c = ' ' || c = '\t' || c = '\n' || c = '\r'

def hexDigit? (c : Char) : Option Nat :=
  if '0' ≤ c ∧ c ≤ '9' then some (c.toNat - '0'.toNat)
  else if 'a' ≤ c ∧ c ≤ 'f' then some (c.toNat - 'a'.toNat + 10)
  else if 'A' ≤ c ∧ c ≤ 'F' then some (c.toNat - 'A'.toNat + 10)
  else none

def hex4? (a b c d : Char) : Option Nat := do
  return ((← hexDigit? a) * 16 + (← hexDigit? b)) * 256 + (← hexDigit? c) * 16 + (← hexDigit? d)

def isHighSurrogate (n : Nat) : Bool := 0xD800 ≤ n && n < 0xDC00

def isLowSurrogate (n : Nat) : Bool := 0xDC00 ≤ n && n < 0xE000

def ofSurrogates (high low : Nat) : Char :=
  .ofNat (0x10000 + (high - 0xD800) * 0x400 + (low - 0xDC00))

def shortEscape? : Char → Option Char
  | '"' => some '"'
  | '\\' => some '\\'
  | '/' => some '/'
  | 'b' => some '\x08'
  | 'f' => some '\x0C'
  | 'n' => some '\n'
  | 'r' => some '\r'
  | 't' => some '\t'
  | _ => none

/-- The characters of a string up to its closing quote, and what follows it. -/
def stringBody : List Char → Option (List Char × List Char)
  | [] => none
  | '"' :: rest => some ([], rest)
  | '\\' :: 'u' :: a :: b :: c :: d :: rest => do
    let n ← hex4? a b c d
    if isLowSurrogate n then none
    else if isHighSurrogate n then
      match rest with
      | '\\' :: 'u' :: e :: f :: g :: h :: rest => do
        let low ← hex4? e f g h
        if isLowSurrogate low then
          let (cs, rest) ← stringBody rest
          return (ofSurrogates n low :: cs, rest)
        else none
      | _ => none
    else
      let (cs, rest) ← stringBody rest
      return (Char.ofNat n :: cs, rest)
  | '\\' :: c :: rest => do
    let e ← shortEscape? c
    let (cs, rest) ← stringBody rest
    return (e :: cs, rest)
  | c :: rest =>
    if c.toNat < 0x20 then none
    else do
      let (cs, rest) ← stringBody rest
      return (c :: cs, rest)

theorem length_lt_of_stringBody {cs content rest : List Char}
    (h : stringBody cs = some (content, rest)) : rest.length < cs.length := by
  fun_induction stringBody cs generalizing content rest with
  | case1 => simp at h
  | case2 r => simp at h; simp [← h.2]
  | case3 a b c d r ih₁ ih₂ =>
    simp only [Option.bind_eq_bind, Option.bind_eq_some_iff] at h
    obtain ⟨n, -, h⟩ := h
    split at h
    · simp at h
    · split at h
      · split at h
        · next e f g k r' =>
          simp only [Option.bind_eq_some_iff] at h
          obtain ⟨low, -, h⟩ := h
          split at h
          · simp only [Option.bind_eq_some_iff] at h
            obtain ⟨⟨cs, r''⟩, h', h⟩ := h
            have := ih₁ h'
            simp at h; simp [← h.2]; omega
          · simp at h
        · simp at h
      · simp only [Option.bind_eq_some_iff] at h
        obtain ⟨⟨cs, r'⟩, h', h⟩ := h
        have := ih₂ h'
        simp at h; simp [← h.2]; omega
  | case4 c r _ ih =>
    simp only [Option.bind_eq_bind, Option.bind_eq_some_iff] at h
    obtain ⟨e, -, ⟨cs, r'⟩, h', h⟩ := h
    have := ih h'
    simp at h; simp [← h.2]; omega
  | case5 => simp at h
  | case6 c r _ _ _ _ ih =>
    simp only [Option.bind_eq_bind, Option.bind_eq_some_iff] at h
    obtain ⟨⟨cs, r'⟩, h', h⟩ := h
    have := ih h'
    simp at h; simp [← h.2]; omega

def string? (cs : List Char) : Option (String × Rest cs) :=
  match h : stringBody cs with
  | none => none
  | some (content, rest) => some (.ofList content, ⟨rest, length_lt_of_stringBody h⟩)

def next? (cs : List Char) : Option (Char × Rest cs) :=
  match h : cs.dropWhile isSpace with
  | [] => none
  | c :: rest => some (c, ⟨rest, by
      have := (List.dropWhile_sublist isSpace (l := cs)).length_le
      rw [h] at this; simp at this; omega⟩)

/-- The rest of a fixed word, such as the one in `null` after its first letter. -/
def word? (word : String) (v : ConfigValue) (cs : List Char) :
    Option (ConfigValue × { r : List Char // r.length ≤ cs.length }) :=
  if word.toList.isPrefixOf cs then some (v, ⟨cs.drop word.length, by simp⟩) else none

mutual

def value (cs : List Char) : Option (ConfigValue × Rest cs) := do
  let (c, ⟨rest, hr⟩) ← next? cs
  let widen (x : ConfigValue × { r : List Char // r.length ≤ rest.length }) :
      ConfigValue × Rest cs := (x.1, ⟨x.2.1, Nat.lt_of_le_of_lt x.2.2 hr⟩)
  match c with
  | '"' =>
    let (text, ⟨r, h⟩) ← string? rest
    return (.string text, ⟨r, by omega⟩)
  | '[' =>
    let (items, ⟨r, h⟩) ← arrayBody rest
    return (.array items, ⟨r, by omega⟩)
  | '\x7b' =>
    let (entries, ⟨r, h⟩) ← objectBody rest
    return (.object entries, ⟨r, by omega⟩)
  | 'n' => widen <$> word? "ull" .null rest
  | 't' => widen <$> word? "rue" (.bool true) rest
  | 'f' => widen <$> word? "alse" (.bool false) rest
  | _ => none
termination_by (cs.length, 0)

/-- The items of an array, after its opening bracket. -/
def arrayBody (cs : List Char) : Option (List ConfigValue × Rest cs) := do
  let (c, r) ← next? cs
  if c = ']' then return ([], r) else arrayItems cs
termination_by (cs.length, 2)

/-- At least one item, up to the closing bracket. -/
def arrayItems (cs : List Char) : Option (List ConfigValue × Rest cs) := do
  let (v, ⟨r₁, h₁⟩) ← value cs
  let (c, ⟨r₂, h₂⟩) ← next? r₁
  if c = ']' then return ([v], ⟨r₂, by omega⟩)
  else if c = ',' then
    let (vs, ⟨r₃, h₃⟩) ← arrayItems r₂
    return (v :: vs, ⟨r₃, by omega⟩)
  else none
termination_by (cs.length, 1)

/-- The entries of an object, after its opening brace. -/
def objectBody (cs : List Char) : Option (List (String × ConfigValue) × Rest cs) := do
  let (c, r) ← next? cs
  if c = '\x7d' then return ([], r) else objectEntries cs
termination_by (cs.length, 2)

def objectEntries (cs : List Char) : Option (List (String × ConfigValue) × Rest cs) := do
  let (quote, ⟨r₁, h₁⟩) ← next? cs
  if quote ≠ '"' then none
  let (key, ⟨r₂, h₂⟩) ← string? r₁
  let (colon, ⟨r₃, h₃⟩) ← next? r₂
  if colon ≠ ':' then none
  let (v, ⟨r₄, h₄⟩) ← value r₃
  let (c, ⟨r₅, h₅⟩) ← next? r₄
  if c = '\x7d' then return ([(key, v)], ⟨r₅, by omega⟩)
  else if c = ',' then
    let (entries, ⟨r₆, h₆⟩) ← objectEntries r₅
    return ((key, v) :: entries, ⟨r₆, by omega⟩)
  else none
termination_by (cs.length, 1)

end

/-- The value that a text is, with nothing but spaces around it. -/
def parse? (text : String) : Option ConfigValue := do
  let (v, ⟨rest, _⟩) ← value text.toList
  if rest.all isSpace then return v else none

/-! ## Reading settings -/

def text? : ConfigValue → Option String
  | string text => some text
  | _ => none

def bool? : ConfigValue → Option Bool
  | bool b => some b
  | _ => none

def list? {α : Type} (item : ConfigValue → Option α) : ConfigValue → Option (List α)
  | array items => items.mapM item
  | _ => none

/-- A value that may be left open. -/
def nullable? {α : Type} (item : ConfigValue → Option α) : ConfigValue → Option (Option α)
  | null => some none
  | v => some <$> item v

/-- The settings of a record with the given names. An array gives the first of them in order; an
object may have no other names, and each at most once. -/
def settings? (names : List String) : ConfigValue → Option (List (String × ConfigValue))
  | array items => if items.length ≤ names.length then some (names.zip items) else none
  | object entries =>
    let keys := entries.map (·.1)
    if keys.Nodup ∧ ∀ key ∈ keys, key ∈ names then some entries else none
  | _ => none

def setting? {α : Type} (entries : List (String × ConfigValue)) (name : String)
    (read : ConfigValue → Option α) (default : Option α := none) : Option α :=
  match entries.lookup name with
  | some v => read v
  | none => default

end ConfigValue
end SymbolRegex
