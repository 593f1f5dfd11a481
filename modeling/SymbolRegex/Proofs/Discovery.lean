import Mathlib.Data.List.Infix
import SymbolRegex.Proofs.Growth

/-! # Discovered alphabets

The texts that are offered to an alphabet get their ordinals in the order of their first
occurrence, until the alphabet is frozen. Its table and its index change together, so
whatever was registered each of them is the inverse of the other.
-/

namespace SymbolRegex

namespace Alphabet

inductive Step where
  | register (text : String)
  | freeze
deriving DecidableEq

/-- The alphabet after a step. One that fails leaves it as it is. -/
def step (a : Alphabet) : Step → Alphabet
  | .register text =>
    match a.register text with
    | .ok (_, a') => a'
    | .error _ => a
  | .freeze => a.freeze

def after (steps : List Step) : Alphabet := steps.foldl step {}

/-- The texts that are offered before the alphabet is frozen. -/
def offered : List Step → List String
  | [] => []
  | .register text :: steps => text :: offered steps
  | .freeze :: _ => []

/-- The alphabet has the given texts and no others. Their places are their ordinals, its table gives
the texts back, and its index lists them in text order. -/
structure Indexes (a : Alphabet) (known : List String) : Prop where
  size : a.size = known.length
  unknown : a.unknown = known.length
  width : a.width = known.length + 1
  text? : ∀ i, a.text? i = known[i]?
  ordinal? : ∀ text i, a.ordinal? text = some i ↔ a.text? i = some text
  registered : ∀ text, (∃ i, a.ordinal? text = some i) ↔ text ∈ known
  inUse : ∀ i, (∃ text, a.text? i = some text) ↔ i < known.length
  unregistered : ∀ text, text ∉ known → a.ordinal text = known.length
  entries : ∀ text i, (text, i) ∈ a.entries ↔ a.ordinal? text = some i
  ascending : a.entries.Pairwise (·.1 < ·.1)
  range : ∀ low high, ∃ texts : List String, (a.range low high).map a.text? = texts.map some ∧
    texts.Pairwise (· < ·) ∧ ∀ text, text ∈ texts ↔ text ∈ known ∧ low ≤ text ∧ text ≤ high
  inverted : ∀ low high, high < low → a.range low high = []

variable {a : Alphabet} {s : Step} {steps more : List Step} {text : String} {known : List String}
  {i : Nat}

theorem mem_entries : (text, i) ∈ a.entries ↔ a.ordinal? text = some i :=
  (find?_eq_some_iff a.sorted).symm

theorem text?_of_mem_entries {e : Entry} (h : e ∈ a.entries) : a.text? e.2 = some e.1 :=
  (a.mem_entries_iff e.1 e.2).1 h

theorem exists_range_texts (a : Alphabet) (low high : String) :
    ∃ texts : List String, (a.range low high).map a.text? = texts.map some ∧
      texts.Pairwise (· < ·) ∧
      ∀ text, text ∈ texts ↔ text ∈ a.texts ∧ low ≤ text ∧ text ≤ high := by
  unfold range
  split
  · refine ⟨(a.entries.filter fun e => low ≤ e.1 && e.1 ≤ high).map (·.1), ?_, ?_, fun text => ?_⟩
    · rw [List.map_map, List.map_map]
      exact List.map_congr_left fun e he => text?_of_mem_entries (List.mem_filter.1 he).1
    · exact List.pairwise_map.2 (a.sorted.filter _)
    · simp only [List.mem_map, List.mem_filter, Bool.and_eq_true, decide_eq_true_eq]
      constructor
      · rintro ⟨e, ⟨he, within⟩, rfl⟩
        exact ⟨List.mem_of_getElem? (text?_of_mem_entries he), within⟩
      · rintro ⟨mem, within⟩
        obtain ⟨i, hi⟩ := List.mem_iff_getElem?.1 mem
        exact ⟨(text, i), ⟨(a.mem_entries_iff text i).2 hi, within⟩, rfl⟩
  · next inverted =>
    refine ⟨[], rfl, .nil, fun text => iff_of_false List.not_mem_nil ?_⟩
    rintro ⟨-, within⟩
    exact inverted (String.le_trans within.1 within.2)

theorem indexes (a : Alphabet) : a.Indexes a.texts where
  size := rfl
  unknown := a.unknown_eq
  width := rfl
  text? _ := rfl
  ordinal? _ _ := ordinal?_eq_some_iff
  registered text := by
    simp only [ordinal?_eq_some_iff, Alphabet.text?, List.mem_iff_getElem?]
  inUse i := by
    rw [← Option.isSome_iff_exists, Alphabet.text?, isSome_getElem?]
  unregistered _ h := ordinal_of_not_mem h
  entries _ _ := mem_entries
  ascending := a.sorted
  range := a.exists_range_texts
  inverted low high h := if_neg (String.not_le.2 h)

/-! ## One step -/

theorem register_of_text_mem (h : text ∈ a.texts) :
    ∃ i, a.text? i = some text ∧ a.register text = .ok (i, a) := by
  have ho := ordinal_of_mem h
  exact ⟨_, ordinal?_eq_some_iff.1 ho, register_of_mem ho⟩

theorem step_of_mem (h : text ∈ a.texts) : a.step (.register text) = a := by
  obtain ⟨i, -, registered⟩ := register_of_text_mem h
  rw [step, registered]

theorem step_of_frozen (frozen : a.frozen = true) : a.step (.register text) = a := by
  by_cases h : text ∈ a.texts
  · exact step_of_mem h
  · rw [step, register_of_frozen (ordinal?_eq_none_iff.2 h) frozen]

theorem grows_step_register (a : Alphabet) (text : String) :
    a.Grows (a.step (.register text)) := by
  rw [step]
  cases h : a.register text with
  | ok r => exact grows_register h
  | error fault => exact .refl a

theorem texts_prefix_step (a : Alphabet) (s : Step) : a.texts <+: (a.step s).texts := by
  cases s with
  | register text => exact (a.grows_step_register text).texts
  | freeze => exact List.prefix_rfl

/-! ## Several steps -/

theorem after_append_singleton (steps : List Step) (s : Step) :
    after (steps ++ [s]) = (after steps).step s := by
  rw [after, List.foldl_append]
  rfl

theorem frozen_after_iff : (after steps).frozen = true ↔ .freeze ∈ steps := by
  induction steps using List.reverseRecOn with
  | nil => exact iff_of_false Bool.false_ne_true List.not_mem_nil
  | append_singleton steps s ih =>
    rw [after_append_singleton, List.mem_append, List.mem_singleton]
    cases s with
    | register text => rw [(grows_step_register _ text).frozen, ih]; simp
    | freeze => exact iff_of_true rfl (.inr rfl)

theorem offered_append_register (steps : List Step) (text : String) :
    offered (steps ++ [.register text]) =
      if .freeze ∈ steps then offered steps else offered steps ++ [text] := by
  induction steps with
  | nil => rfl
  | cons s steps ih =>
    cases s with
    | register other =>
      rw [List.cons_append, offered, offered, ih]
      by_cases h : Step.freeze ∈ steps <;> simp [h]
    | freeze => simp [offered]

theorem offered_append_freeze (steps : List Step) :
    offered (steps ++ [.freeze]) = offered steps := by
  induction steps with
  | nil => rfl
  | cons s steps ih => cases s <;> simp [offered, ih]

/-- The texts are those that were offered in time, each where it came first. -/
theorem texts_after (room : (offered steps).eraseDups.length < capacity) :
    (after steps).texts = (offered steps).eraseDups := by
  induction steps using List.reverseRecOn with
  | nil => rfl
  | append_singleton steps s ih =>
    rw [after_append_singleton]
    cases s with
    | freeze =>
      rw [offered_append_freeze] at room ⊢
      exact ih room
    | register text =>
      rw [offered_append_register] at room ⊢
      by_cases frozen : Step.freeze ∈ steps
      · rw [if_pos frozen] at room ⊢
        rw [step_of_frozen (frozen_after_iff.2 frozen), ih room]
      · rw [if_neg frozen, eraseDups_append_singleton] at room ⊢
        have thawed : (after steps).frozen = false := by
          rwa [← Bool.not_eq_true, frozen_after_iff]
        by_cases old : text ∈ offered steps
        · rw [if_pos old] at room ⊢
          have same := ih room
          rw [step_of_mem (by rwa [same, List.mem_eraseDups]), same]
        · rw [if_neg old, List.length_append, List.length_singleton] at room
          rw [if_neg old]
          have same := ih (Nat.lt_of_succ_lt room)
          have fresh : text ∉ (after steps).texts := by rwa [same, List.mem_eraseDups]
          obtain ⟨a', registered, texts, -⟩ :=
            exists_register_of_room thawed fresh (by rwa [size, same])
          rw [step, registered, texts, same]

theorem texts_prefix_after (steps more : List Step) :
    (after steps).texts <+: (after (steps ++ more)).texts := by
  induction more using List.reverseRecOn with
  | nil => rw [List.append_nil]
  | append_singleton more s ih =>
    rw [← List.append_assoc, after_append_singleton]
    exact ih.trans (texts_prefix_step _ s)

/-- The texts that were offered before the alphabet was frozen are indexed in the order of their
first occurrence, and keep their ordinals whatever follows. A text that is there is registered again
without a change. A new one gets the next ordinal, or is refused once the alphabet is frozen, which
leaves it as it was. -/
theorem after_indexes (room : (offered steps).eraseDups.length < capacity) :
    (after steps).Indexes (offered steps).eraseDups ∧
    (∀ text i, (after steps).ordinal? text = some i →
      ∀ more, (after (steps ++ more)).ordinal? text = some i) ∧
    (∀ text ∈ offered steps, ∃ i, (after steps).text? i = some text ∧
      (after steps).register text = .ok (i, after steps)) ∧
    (∀ text ∉ offered steps, .freeze ∈ steps →
      (after steps).register text = .error (.frozen text) ∧
        after (steps ++ [.register text]) = after steps) ∧
    ∀ text ∉ offered steps, .freeze ∉ steps → (offered steps).eraseDups.length + 1 < capacity →
      (after steps).register text =
        .ok ((offered steps).eraseDups.length, after (steps ++ [.register text])) := by
  have texts := texts_after room
  have known (text : String) : text ∈ (after steps).texts ↔ text ∈ offered steps := by
    rw [texts, List.mem_eraseDups]
  refine ⟨texts ▸ (after steps).indexes, fun text i h more =>
    ordinal?_of_prefix (texts_prefix_after steps more) h,
    fun text h => register_of_text_mem ((known text).2 h), fun text h frozen => ?_,
    fun text h thawed left => ?_⟩
  · have closed := frozen_after_iff.2 frozen
    have fresh := ordinal?_eq_none_iff.2 (mt (known text).1 h)
    exact ⟨register_of_frozen fresh closed, by rw [after_append_singleton, step_of_frozen closed]⟩
  · have opened : (after steps).frozen = false := by rwa [← Bool.not_eq_true, frozen_after_iff]
    obtain ⟨a', registered, -, -⟩ := exists_register_of_room opened (mt (known text).1 h)
      (by rwa [size, texts])
    rw [after_append_singleton, step, registered, size, texts]

def lateSteps : List Step :=
  [.register "b", .register "a", .register "b", .freeze, .register "c", .register "a"]

theorem after_indexes_late :
    (offered lateSteps).eraseDups.length < capacity ∧ (after lateSteps).Indexes ["b", "a"] ∧
      (after lateSteps).register "c" = .error (.frozen "c") := by
  have texts : (offered lateSteps).eraseDups = ["b", "a"] := by decide
  have room : (offered lateSteps).eraseDups.length < capacity := by
    rw [texts]
    decide
  obtain ⟨indexes, -, -, refused, -⟩ := after_indexes room
  exact ⟨room, texts ▸ indexes, (refused "c" (by decide) (by decide)).1⟩

end Alphabet
end SymbolRegex
