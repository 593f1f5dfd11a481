/-! # Alphabets

An alphabet is discovered symbol by symbol. Each registered text has an ordinal,
which counts the texts registered before it; ranges follow the order of the texts
instead, so an index in that order stands beside the table of the texts. One ordinal
past the last is reserved for all texts that were never registered. Once frozen an
alphabet takes no further symbols.
-/

namespace SymbolRegex

namespace Alphabet

abbrev Entry := String × Nat

def insertEntry (entry : Entry) : List Entry → List Entry
  | [] => [entry]
  | e :: rest => if entry.1 < e.1 then entry :: e :: rest else e :: insertEntry entry rest

def find? (text : String) : List Entry → Option Nat
  | [] => none
  | e :: rest => if e.1 = text then some e.2 else find? text rest

section Entries

variable {entry e : Entry} {entries : List Entry} {text : String} {i : Nat}

theorem mem_insertEntry : e ∈ insertEntry entry entries ↔ e = entry ∨ e ∈ entries := by
  induction entries with
  | nil => simp [insertEntry]
  | cons first rest ih =>
    unfold insertEntry
    split
    · exact List.mem_cons
    · rw [List.mem_cons, ih, List.mem_cons, or_left_comm]

theorem sorted_insertEntry (sorted : entries.Pairwise (·.1 < ·.1))
    (fresh : ∀ e ∈ entries, e.1 ≠ entry.1) :
    (insertEntry entry entries).Pairwise (·.1 < ·.1) := by
  induction entries with
  | nil => exact List.pairwise_singleton _ _
  | cons first rest ih =>
    obtain ⟨before, sorted'⟩ := List.pairwise_cons.1 sorted
    unfold insertEntry
    split
    · next lt =>
      refine List.pairwise_cons.2 ⟨fun e he => ?_, sorted⟩
      rcases List.mem_cons.1 he with rfl | he
      · exact lt
      · exact String.lt_trans lt (before e he)
    · next ge =>
      refine List.pairwise_cons.2 ⟨fun e he => ?_, ih sorted' fun e he => fresh e (.tail _ he)⟩
      rcases mem_insertEntry.1 he with rfl | he
      · refine Decidable.byContradiction fun le => fresh first (.head _) ?_
        exact String.le_antisymm (String.not_lt.1 ge) (String.not_lt.1 le)
      · exact before e he

theorem find?_eq_none_iff : find? text entries = none ↔ ∀ e ∈ entries, e.1 ≠ text := by
  induction entries with
  | nil => simp [find?]
  | cons first rest ih =>
    unfold find?
    split
    · next h => simp [h]
    · next h => simp [ih, h]

theorem find?_eq_some_iff (sorted : entries.Pairwise (·.1 < ·.1)) :
    find? text entries = some i ↔ (text, i) ∈ entries := by
  induction entries with
  | nil => simp [find?]
  | cons first rest ih =>
    obtain ⟨before, sorted⟩ := List.pairwise_cons.1 sorted
    unfold find?
    split
    · next h =>
      subst h
      have later : (first.1, i) ∉ rest := fun mem => String.lt_irrefl _ (before (first.1, i) mem)
      simp [later, Prod.ext_iff, eq_comm]
    · next h =>
      have other : (text, i) ≠ first := fun e => h (e ▸ rfl)
      simp [ih sorted, other]

theorem sorted_nil : ([] : List Entry).Pairwise (·.1 < ·.1) := .nil

theorem mem_nil_iff (text : String) (i : Nat) :
    (text, i) ∈ ([] : List Entry) ↔ ([] : List String)[i]? = some text := by simp

theorem length_nil : 0 = ([] : List String).length := rfl

end Entries

end Alphabet

structure Alphabet where
  /-- The registered texts, in the order of their ordinals. -/
  texts : List String := []
  /-- The same texts in text order. -/
  entries : List Alphabet.Entry := []
  /-- The next free ordinal, which stands for all texts that are not registered. -/
  unknown : Nat := 0
  frozen : Bool := false
  sorted : entries.Pairwise (·.1 < ·.1) := by exact Alphabet.sorted_nil
  mem_entries_iff : ∀ text i, (text, i) ∈ entries ↔ texts[i]? = some text := by
    exact Alphabet.mem_nil_iff
  unknown_eq : unknown = texts.length := by exact Alphabet.length_nil
deriving DecidableEq, Repr

inductive RegistrationFault where
  | frozen (symbol : String)
  | full (symbol : String)
deriving DecidableEq, Repr

namespace RegistrationFault

def symbol : RegistrationFault → String
  | frozen symbol | full symbol => symbol

def message : RegistrationFault → String
  | frozen symbol => "cannot register symbol `" ++ symbol ++ "`: the ordinal map is already bound"
  | full symbol => "cannot register symbol `" ++ symbol ++ "`: no ordinals left"

end RegistrationFault

namespace Alphabet

/-- How many ordinals there are; the last cannot be given to a symbol. -/
def capacity : Nat := UInt32.size

def size (a : Alphabet) : Nat := a.texts.length

theorem unknown_eq_size (a : Alphabet) : a.unknown = a.size := a.unknown_eq

/-- The number of ordinals in use, with the one for unknown texts. -/
def width (a : Alphabet) : Nat := a.size + 1

def ordinal? (a : Alphabet) (text : String) : Option Nat := find? text a.entries

/-- The ordinal of a text, known or not. -/
def ordinal (a : Alphabet) (text : String) : Nat := (a.ordinal? text).getD a.unknown

def text? (a : Alphabet) (ordinal : Nat) : Option String := a.texts[ordinal]?

def freeze (a : Alphabet) : Alphabet := { a with frozen := true }

/-- The ordinals of the registered texts from `low` to `high`, in text order. -/
def range (a : Alphabet) (low high : String) : List Nat :=
  if low ≤ high then (a.entries.filter fun e => low ≤ e.1 && e.1 ≤ high).map (·.2) else []

theorem ordinal?_eq_none_iff {a : Alphabet} {text : String} :
    a.ordinal? text = none ↔ text ∉ a.texts := by
  rw [ordinal?, find?_eq_none_iff, List.mem_iff_getElem?]
  constructor
  · rintro h ⟨i, hi⟩
    exact h (text, i) ((a.mem_entries_iff text i).2 hi) rfl
  · rintro h ⟨_, i⟩ he rfl
    exact h ⟨i, (a.mem_entries_iff _ i).1 he⟩

theorem ordinal?_eq_some_iff {a : Alphabet} {text : String} {i : Nat} :
    a.ordinal? text = some i ↔ a.text? i = some text :=
  (find?_eq_some_iff a.sorted).trans (a.mem_entries_iff text i)

theorem ordinal?_lt_size {a : Alphabet} {text : String} {i : Nat}
    (h : a.ordinal? text = some i) : i < a.size :=
  (List.getElem?_eq_some_iff.1 (ordinal?_eq_some_iff.1 h)).1

theorem ordinal_of_mem {a : Alphabet} {text : String} (h : text ∈ a.texts) :
    a.ordinal? text = some (a.ordinal text) := by
  cases hs : a.ordinal? text with
  | none => exact absurd h (ordinal?_eq_none_iff.1 hs)
  | some i => rw [ordinal, hs, Option.getD_some]

theorem ordinal_of_not_mem {a : Alphabet} {text : String} (h : text ∉ a.texts) :
    a.ordinal text = a.size := by
  rw [ordinal, ordinal?_eq_none_iff.2 h, Option.getD_none, unknown_eq_size]

theorem mem_of_ordinal? {a : Alphabet} {text : String} {i : Nat} (h : a.ordinal? text = some i) :
    text ∈ a.texts :=
  List.mem_of_getElem? (ordinal?_eq_some_iff.1 h)

theorem nodup (a : Alphabet) : a.texts.Nodup := by
  refine List.pairwise_iff_getElem.2 fun i j hi hj lt same => ?_
  have first : a.ordinal? a.texts[i] = some i :=
    ordinal?_eq_some_iff.2 (List.getElem?_eq_getElem hi)
  have second : a.ordinal? a.texts[j] = some j :=
    ordinal?_eq_some_iff.2 (List.getElem?_eq_getElem hj)
  rw [same, second] at first
  exact Nat.ne_of_gt lt (Option.some.inj first)

def push (a : Alphabet) (text : String) (fresh : a.ordinal? text = none) : Alphabet where
  texts := a.texts ++ [text]
  entries := insertEntry (text, a.unknown) a.entries
  unknown := a.unknown + 1
  frozen := a.frozen
  sorted := sorted_insertEntry a.sorted (find?_eq_none_iff.1 fresh)
  mem_entries_iff t i := by
    rw [mem_insertEntry, a.mem_entries_iff, Prod.mk.injEq, a.unknown_eq]
    rcases Nat.lt_trichotomy i a.texts.length with lt | eq | gt
    · simp [List.getElem?_append_left lt, Nat.ne_of_lt lt]
    · simp [eq, eq_comm]
    · have past : (a.texts ++ [text])[i]? = none :=
        List.getElem?_eq_none (by rw [List.length_append]; exact gt)
      simp [past, List.getElem?_eq_none (Nat.le_of_lt gt), Nat.ne_of_gt gt]
  unknown_eq := by rw [List.length_append, a.unknown_eq, List.length_singleton]

/-- Register a text unless it is there already, and give its ordinal. -/
def register (a : Alphabet) (text : String) : Except RegistrationFault (Nat × Alphabet) :=
  match h : a.ordinal? text with
  | some ordinal => .ok (ordinal, a)
  | none =>
    if a.frozen then .error (.frozen text)
    else if a.unknown + 1 < capacity then .ok (a.unknown, a.push text h)
    else .error (.full text)

/-- Register several texts, up to the first that cannot be. -/
def registerAll (a : Alphabet) : List String → Alphabet × Option RegistrationFault
  | [] => (a, none)
  | text :: rest =>
    match a.register text with
    | .ok (_, a') => a'.registerAll rest
    | .error fault => (a, some fault)

/-- The texts of the characters with one-byte code points, in their order. -/
def byteTexts : List String := (List.range 256).map fun n => (Char.ofNat n).toString

@[simp] theorem texts_push (a : Alphabet) {text : String} (fresh : a.ordinal? text = none) :
    (a.push text fresh).texts = a.texts ++ [text] := rfl

@[simp] theorem frozen_push (a : Alphabet) {text : String} (fresh : a.ordinal? text = none) :
    (a.push text fresh).frozen = a.frozen := rfl

@[simp] theorem registerAll_nil (a : Alphabet) : a.registerAll [] = (a, none) := rfl

/-- A text that is registered was there before, or takes the next ordinal of an open alphabet. -/
theorem register_eq_ok_iff {a a' : Alphabet} {text : String} {i : Nat} :
    a.register text = .ok (i, a') ↔
      a.ordinal? text = some i ∧ a' = a ∨
      a.frozen = false ∧ a.size + 1 < capacity ∧ i = a.size ∧
        ∃ fresh : a.ordinal? text = none, a' = a.push text fresh := by
  unfold register
  split
  · next j known =>
    constructor
    · intro h
      obtain ⟨rfl, rfl⟩ := Prod.mk.inj (Except.ok.inj h)
      exact .inl ⟨known, rfl⟩
    · rintro (⟨same, rfl⟩ | ⟨-, -, -, fresh, -⟩)
      · rw [Option.some.inj (known.symm.trans same)]
      · cases known.symm.trans fresh
  · next fresh =>
    rw [unknown_eq_size]
    cases a.frozen <;> by_cases left : a.size + 1 < capacity <;>
      simp [fresh, left, eq_comm]

/-- A text that is refused is new, and the alphabet is closed or has no ordinal for it. -/
theorem register_eq_error_iff {a : Alphabet} {text : String} {fault : RegistrationFault} :
    a.register text = .error fault ↔ a.ordinal? text = none ∧
      (a.frozen = true ∧ fault = .frozen text ∨
        a.frozen = false ∧ capacity ≤ a.size + 1 ∧ fault = .full text) := by
  unfold register
  split
  · next j known => simp [known]
  · next fresh =>
    rw [unknown_eq_size, ← Nat.not_lt]
    cases a.frozen <;> by_cases left : a.size + 1 < capacity <;>
      simp [fresh, left, eq_comm]

theorem register_of_mem {a : Alphabet} {text : String} {i : Nat} (h : a.ordinal? text = some i) :
    a.register text = .ok (i, a) :=
  register_eq_ok_iff.2 (.inl ⟨h, rfl⟩)

theorem register_of_frozen {a : Alphabet} {text : String} (h : a.ordinal? text = none)
    (frozen : a.frozen = true) : a.register text = .error (.frozen text) :=
  register_eq_error_iff.2 ⟨h, .inl ⟨frozen, rfl⟩⟩

theorem register_of_room {a : Alphabet} {text : String} (fresh : a.ordinal? text = none)
    (thawed : a.frozen = false) (room : a.size + 1 < capacity) :
    a.register text = .ok (a.size, a.push text fresh) :=
  register_eq_ok_iff.2 (.inr ⟨thawed, room, rfl, fresh, rfl⟩)

theorem mem_range {a : Alphabet} {low high : String} {i : Nat} :
    i ∈ a.range low high ↔ ∃ text, a.ordinal? text = some i ∧ low ≤ text ∧ text ≤ high := by
  unfold range
  split
  · simp only [List.mem_map, List.mem_filter, Bool.and_eq_true, decide_eq_true_eq, ordinal?,
      find?_eq_some_iff a.sorted]
    constructor
    · rintro ⟨⟨text, j⟩, ⟨h, hl⟩, rfl⟩; exact ⟨text, h, hl⟩
    · rintro ⟨text, h, hl⟩; exact ⟨(text, i), ⟨h, hl⟩, rfl⟩
  · next inverted =>
    refine iff_of_false List.not_mem_nil ?_
    rintro ⟨text, -, hl⟩
    exact inverted (String.le_trans hl.1 hl.2)

end Alphabet
end SymbolRegex
