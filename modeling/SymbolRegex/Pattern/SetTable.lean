/-! # Named symbol sets

A set table gives names to groups of symbols. A member that names a set defined
before stands for the members of that set, so a stored set holds plain symbols
only, each of them once.
-/

namespace SymbolRegex

/-- The defined sets, the latest first. -/
structure SetTable where
  entries : List (String × List String) := []
deriving DecidableEq, Repr

namespace SetTable

def get? (t : SetTable) (name : String) : Option (List String) := t.entries.lookup name

def contains (t : SetTable) (name : String) : Bool := (t.get? name).isSome

def size (t : SetTable) : Nat := t.entries.length

def isEmpty (t : SetTable) : Bool := t.entries.isEmpty

def appendNew (symbols : List String) (symbol : String) : List String :=
  if symbol ∈ symbols then symbols else symbols ++ [symbol]

/-- Append what one member of a new set stands for. -/
def appendMember (t : SetTable) (symbols : List String) (member : String) : List String :=
  match t.get? member with
  | some members => members.foldl appendNew symbols
  | none => appendNew symbols member

/-- The symbols that the members of a new set stand for, each at its first occurrence. -/
def expand (t : SetTable) (members : List String) : List String :=
  members.foldl t.appendMember []

/-- Define a set, and say whether that was done. A name that is defined already keeps its set. -/
def define (t : SetTable) (name : String) (members : List String) : SetTable × Bool :=
  if t.contains name then (t, false) else (⟨(name, t.expand members) :: t.entries⟩, true)

def add (t : SetTable) (name : String) (members : List String) : SetTable :=
  (t.define name members).1

@[simp] theorem get?_empty (name : String) : ({} : SetTable).get? name = none := rfl

theorem define_snd (t : SetTable) (name : String) (members : List String) :
    (t.define name members).2 = !t.contains name := by
  cases h : t.contains name <;> simp [define, h]

theorem add_of_contains {t : SetTable} {name : String} (members : List String)
    (h : t.contains name = true) : t.add name members = t := by
  simp [add, define, h]

theorem get?_add {t : SetTable} {name : String} (members : List String) (other : String)
    (h : t.contains name = false) :
    (t.add name members).get? other =
      if other = name then some (t.expand members) else t.get? other := by
  by_cases e : other = name
  · simp [add, define, h, get?, e]
  · have : (other == name) = false := by simpa using e
    simp [add, define, h, get?, List.lookup_cons, e, this]

end SetTable
end SymbolRegex
