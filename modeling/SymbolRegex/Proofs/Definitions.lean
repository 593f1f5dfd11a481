import SymbolRegex.Pattern.Parser
import SymbolRegex.Proofs.FirstOccurrences

/-! # Histories of set definitions

A set is settled when it is defined. Its members are opened through the sets that are
there by then, and these were opened before, so a name stands for plain symbols that no
later definition touches, and reading it takes one look at the table however long the
chain of references was.
-/

namespace SymbolRegex
namespace SetTable

abbrev Definition := String × List String

def after (history : List Definition) : SetTable := history.foldl (fun t d => t.add d.1 d.2) {}

/-- The symbols that a text stands for: the stored members of the set that it names, or itself. -/
def symbolsOf (t : SetTable) (text : String) : List String := (t.get? text).getD [text]

/-- The symbols that a text stands for when references are followed to their ends, in a history
with the latest definition first. The members that a name was given first stand for what they stood
for before. -/
def opened : List Definition → String → List String
  | [], text => [text]
  | d :: earlier, text =>
    if text = d.1 ∧ text ∉ earlier.map (·.1) then d.2.flatMap (opened earlier)
    else opened earlier text

variable {t : SetTable} {name other text : String} {members set : List String}

/-! ## One definition -/

theorem appendMember_eq (t : SetTable) (symbols : List String) (member : String) :
    t.appendMember symbols member = (t.symbolsOf member).foldl appendNew symbols := by
  unfold appendMember symbolsOf
  cases t.get? member <;> rfl

theorem expand_eq (t : SetTable) (members : List String) :
    t.expand members = (members.flatMap t.symbolsOf).eraseDups := by
  have append : t.appendMember =
      fun symbols member => (t.symbolsOf member).foldl appendNew symbols :=
    funext fun symbols => funext fun member => t.appendMember_eq symbols member
  rw [expand, append, ← List.foldl_flatMap, foldl_appendNew]

theorem contains_eq_false_iff : t.contains name = false ↔ t.get? name = none :=
  Option.isSome_eq_false_iff.trans Option.isNone_iff_eq_none

theorem symbolsOf_of_not_contains (h : t.contains text = false) : t.symbolsOf text = [text] := by
  rw [symbolsOf, contains_eq_false_iff.1 h, Option.getD_none]

theorem contains_add (t : SetTable) (name : String) (members : List String) (other : String) :
    (t.add name members).contains other = true ↔ other = name ∨ t.contains other = true := by
  cases h : t.contains name with
  | true =>
    rw [add_of_contains members h]
    exact (or_iff_right_of_imp fun same => same ▸ h).symm
  | false =>
    rw [contains, get?_add members other h]
    by_cases same : other = name
    · simp [same]
    · simp [same, contains]

theorem get?_add_of_eq_some (h : t.get? other = some set) (name : String) (members : List String) :
    (t.add name members).get? other = some set := by
  cases hn : t.contains name with
  | true => rwa [add_of_contains members hn]
  | false =>
    rw [get?_add members other hn, if_neg, h]
    rintro rfl
    rw [contains_eq_false_iff.1 hn] at h
    cases h

theorem symbolsOf_add_self (h : t.contains name = false) :
    (t.add name members).symbolsOf name = t.expand members := by
  rw [symbolsOf, get?_add members name h, if_pos rfl, Option.getD_some]

theorem symbolsOf_add_of_ne (h : t.contains name = false) (ne : other ≠ name) :
    (t.add name members).symbolsOf other = t.symbolsOf other := by
  rw [symbolsOf, get?_add members other h, if_neg ne, symbolsOf]

/-! ## Several definitions -/

variable {history before later : List Definition}

theorem after_append_singleton (history : List Definition) (d : Definition) :
    after (history ++ [d]) = (after history).add d.1 d.2 := by
  rw [after, List.foldl_append]
  rfl

theorem contains_after : (after history).contains name = true ↔ name ∈ history.map (·.1) := by
  induction history using List.reverseRecOn with
  | nil => exact iff_of_false Bool.false_ne_true List.not_mem_nil
  | append_singleton history d ih =>
    rw [after_append_singleton, contains_add, ih, List.map_append, List.mem_append,
      List.map_singleton, List.mem_singleton, or_comm]

theorem contains_after_eq_false (fresh : name ∉ history.map (·.1)) :
    (after history).contains name = false := by
  rwa [← Bool.not_eq_true, contains_after]

theorem get?_after_append (h : (after before).get? name = some set) (later : List Definition) :
    (after (before ++ later)).get? name = some set := by
  induction later using List.reverseRecOn with
  | nil => rwa [List.append_nil]
  | append_singleton later d ih =>
    rw [← List.append_assoc, after_append_singleton]
    exact get?_add_of_eq_some ih d.1 d.2

/-- One look at the table gives what all references lead to. -/
theorem symbolsOf_after (history : List Definition) (text : String) :
    (after history).symbolsOf text = (opened history.reverse text).eraseDups := by
  induction history using List.reverseRecOn generalizing text with
  | nil => rfl
  | append_singleton history d ih =>
    have names : text ∈ history.reverse.map (·.1) ↔ text ∈ history.map (·.1) := by
      rw [List.map_reverse, List.mem_reverse]
    rw [after_append_singleton, List.reverse_concat, opened]
    by_cases old : d.1 ∈ history.map (·.1)
    · rw [add_of_contains _ (contains_after.2 old), if_neg, ih]
      rintro ⟨rfl, fresh⟩
      exact fresh (names.2 old)
    · have fresh := contains_after_eq_false old
      by_cases same : text = d.1
      · subst same
        rw [symbolsOf_add_self fresh, if_pos ⟨rfl, mt names.1 old⟩, expand_eq, funext ih,
          eraseDups_flatMap_eraseDups]
      · rw [symbolsOf_add_of_ne fresh same, if_neg fun h => same h.1, ih]

/-! ## Reading a name -/

theorem textItems_eq (g : Parser.Grammar) (text : String) :
    Parser.textItems g text = (g.sets.symbolsOf text).map .literal := by
  unfold Parser.textItems symbolsOf
  cases g.sets.get? text <;> rfl

theorem symbols_textLeaf (g : Parser.Grammar) (text : String) :
    (Parser.textLeaf g text).symbols = g.sets.symbolsOf text := by
  unfold Parser.textLeaf symbolsOf
  cases g.sets.get? text with
  | none => rfl
  | some members =>
    show (members.map SetItem.literal).flatMap SetItem.symbols = members
    rw [List.flatMap_map]
    exact List.flatMap_singleton' members

/-- A definition succeeds if its name is new, and changes nothing otherwise. It stores the members
that are given, those that name a set replaced by what is stored for that set, and each symbol where
it comes first; no later definition changes that. A text that was not defined before stands for
itself, so no set is opened through itself or through a later one. One look at the table opens a
text that a pattern mentions as far as references lead. -/
theorem define_after (before later : List Definition) (name : String) (members : List String) :
    let t := after before
    let names := before.map (·.1)
    let t' := after (before ++ (name, members) :: later)
    ((t.define name members).2 = true ↔ name ∉ names) ∧
    (name ∈ names → t.define name members = (t, false)) ∧
    (name ∉ names → t'.get? name = some (members.flatMap t.symbolsOf).eraseDups) ∧
    (∀ other set, t.get? other = some set → t'.get? other = some set) ∧
    (∀ text, t.contains text = true ↔ text ∈ names) ∧
    (∀ text ∉ names, t.symbolsOf text = [text]) ∧
    (∀ text, t.symbolsOf text = (opened before.reverse text).eraseDups) ∧
    ∀ (g : Parser.Grammar) text, g.sets = t →
      Parser.textItems g text = (opened before.reverse text).eraseDups.map .literal ∧
        (Parser.textLeaf g text).symbols = (opened before.reverse text).eraseDups := by
  intro t names t'
  have defined (text : String) : t.contains text = true ↔ text ∈ names := contains_after
  refine ⟨?_, fun old => ?_, fun fresh => ?_, fun other set h => get?_after_append h _, defined,
    fun text fresh => symbolsOf_of_not_contains (contains_after_eq_false fresh),
    symbolsOf_after before, fun g text hg => ?_⟩
  · rw [define_snd, Bool.not_eq_true', ← Bool.not_eq_true, defined]
  · rw [define, if_pos ((defined name).2 old)]
  · have stored : (t.add name members).get? name = some (t.expand members) := by
      rw [get?_add members name (contains_after_eq_false fresh), if_pos rfl]
    have split : before ++ (name, members) :: later = before ++ [(name, members)] ++ later :=
      List.append_cons before (name, members) later
    rw [← expand_eq]
    show (after (before ++ (name, members) :: later)).get? name = _
    rw [split]
    exact get?_after_append (by rwa [after_append_singleton]) later
  · rw [textItems_eq, symbols_textLeaf, hg, symbolsOf_after]
    exact ⟨rfl, rfl⟩

/-- The new set refers to itself, to one set that is defined before it and to one that is defined
after it. -/
theorem define_after_chain :
    let before := [("LOW", ["a", "b"]), ("ALL", ["LOW", "c", "a"])]
    let later := [("NEXT", ["x"]), ("MORE", ["y"])]
    "MORE" ∉ before.map (·.1) ∧
      (after (before ++ ("MORE", ["c", "ALL", "MORE", "NEXT"]) :: later)).get? "MORE" =
        some ["c", "a", "b", "MORE", "NEXT"] := by
  intro before later
  have fresh : "MORE" ∉ before.map (·.1) := by decide
  obtain ⟨-, -, stored, -⟩ := define_after before later "MORE" ["c", "ALL", "MORE", "NEXT"]
  exact ⟨fresh, (stored fresh).trans (by decide)⟩

end SetTable
end SymbolRegex
