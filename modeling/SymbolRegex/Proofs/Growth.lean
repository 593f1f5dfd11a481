import Mathlib.Data.List.Sort
import SymbolRegex.Alphabet.Basic
import SymbolRegex.Proofs.FirstOccurrences

/-! # Growing alphabets

An alphabet only grows at its end, and only while it is open and there are ordinals.
Registering several texts appends those that it lacks, each where it comes first, and
stops at the first that it refuses.
-/

namespace SymbolRegex
namespace Alphabet

variable {a a' b : Alphabet} {text : String} {texts : List String} {i : Nat}
  {fault : RegistrationFault}

theorem eq_of_texts (texts : a.texts = b.texts) (frozen : a.frozen = b.frozen) : a = b := by
  have irrefl : Std.Irrefl fun x y : Entry => x.1 < y.1 := ⟨fun _ => String.lt_irrefl _⟩
  have antisymm : Std.Antisymm fun x y : Entry => x.1 < y.1 :=
    ⟨fun _ _ h h' => absurd (String.lt_trans h h') (String.lt_irrefl _)⟩
  have entries : a.entries = b.entries := by
    refine a.sorted.eq_of_mem_iff b.sorted fun e => ?_
    rw [a.mem_entries_iff, b.mem_entries_iff, texts]
  have unknown : a.unknown = b.unknown := by rw [a.unknown_eq, b.unknown_eq, texts]
  cases a
  cases b
  simp_all

/-- An alphabet with all the symbols of another one, that is closed only if that one is. -/
structure Grows (a a' : Alphabet) : Prop where
  texts : a.texts <+: a'.texts
  frozen : a'.frozen = a.frozen

theorem Grows.refl (a : Alphabet) : a.Grows a := ⟨List.prefix_rfl, rfl⟩

theorem Grows.trans {a b c : Alphabet} (h : a.Grows b) (h' : b.Grows c) : a.Grows c :=
  ⟨h.texts.trans h'.texts, h'.frozen.trans h.frozen⟩

theorem ordinal?_of_prefix (texts : a.texts <+: a'.texts) (h : a.ordinal? text = some i) :
    a'.ordinal? text = some i := by
  obtain ⟨rest, split⟩ := texts
  have lt := ordinal?_lt_size h
  rw [ordinal?_eq_some_iff, text?] at h ⊢
  rwa [← split, List.getElem?_append_left lt]

/-! ## One text -/

theorem exists_register_of_room (thawed : a.frozen = false) (fresh : text ∉ a.texts)
    (room : a.size + 1 < capacity) :
    ∃ a', a.register text = .ok (a.size, a') ∧ a'.texts = a.texts ++ [text] ∧
      a'.frozen = false := by
  have new := ordinal?_eq_none_iff.2 fresh
  exact ⟨a.push text new, register_of_room new thawed room, rfl, thawed⟩

theorem grows_register (h : a.register text = .ok (i, a')) : a.Grows a' := by
  obtain ⟨-, rfl⟩ | ⟨-, -, -, fresh, rfl⟩ := register_eq_ok_iff.1 h
  · exact .refl a'
  · exact ⟨List.prefix_append _ _, rfl⟩

theorem eq_of_register_frozen (frozen : a.frozen = true) (h : a.register text = .ok (i, a')) :
    a' = a := by
  obtain ⟨-, same⟩ | ⟨thawed, -⟩ := register_eq_ok_iff.1 h
  · exact same
  · rw [frozen] at thawed
    cases thawed

theorem room_of_register (h : a.register text = .ok (i, a')) (room : a.size < capacity) :
    a'.size < capacity := by
  obtain ⟨-, rfl⟩ | ⟨-, left, -, fresh, rfl⟩ := register_eq_ok_iff.1 h
  · exact room
  · rwa [size, texts_push, List.length_append]

/-- What is gathered with the texts to come does not depend on how far that has got. -/
theorem eraseDups_of_register (h : a.register text = .ok (i, a')) (rest : List String) :
    (a'.texts ++ rest).eraseDups = (a.texts ++ text :: rest).eraseDups := by
  have one : a'.texts = (a.texts ++ [text]).eraseDups := by
    rw [eraseDups_append_singleton, eraseDups_of_nodup a.nodup]
    obtain ⟨known, rfl⟩ | ⟨-, -, -, fresh, rfl⟩ := register_eq_ok_iff.1 h
    · rw [if_pos (mem_of_ordinal? known)]
    · rw [if_neg (ordinal?_eq_none_iff.1 fresh), texts_push]
  rw [one, eraseDups_eraseDups_append, List.append_assoc, List.singleton_append]

/-! ## Several texts -/

theorem grows_registerAll (a : Alphabet) (texts : List String) :
    a.Grows (a.registerAll texts).1 := by
  induction texts generalizing a with
  | nil => exact .refl a
  | cons text rest ih =>
    unfold registerAll
    split
    · next i a' h => exact (grows_register h).trans (ih a')
    · exact .refl a

theorem room_of_registerAll (texts : List String) (room : a.size < capacity) :
    (a.registerAll texts).1.size < capacity := by
  induction texts generalizing a with
  | nil => exact room
  | cons text rest ih =>
    unfold registerAll
    split
    · next i a' h => exact ih (room_of_register h room)
    · exact room

theorem registerAll_of_subset (h : texts ⊆ a.texts) : a.registerAll texts = (a, none) := by
  induction texts with
  | nil => rfl
  | cons text rest ih =>
    obtain ⟨mem, sub⟩ := List.cons_subset.1 h
    rw [registerAll, register_of_mem (ordinal_of_mem mem)]
    exact ih sub

/-- A closed alphabet refuses the first text that it lacks, and stays as it is. -/
theorem registerAll_frozen (frozen : a.frozen = true) (texts : List String) :
    a.registerAll texts = (a, (texts.find? (· ∉ a.texts)).map .frozen) := by
  induction texts with
  | nil => rfl
  | cons text rest ih =>
    rw [registerAll]
    by_cases known : text ∈ a.texts
    · rw [register_of_mem (ordinal_of_mem known), List.find?_cons_of_neg (by simpa using known)]
      exact ih
    · rw [register_of_frozen (ordinal?_eq_none_iff.2 known) frozen,
        List.find?_cons_of_pos (by simpa using known)]
      rfl

/-- The texts of a list that the alphabet lacks, each where it comes first. -/
def missing (a : Alphabet) (texts : List String) : List String :=
  (texts.removeAll a.texts).eraseDups

theorem append_missing (a : Alphabet) (texts : List String) :
    a.texts ++ a.missing texts = (a.texts ++ texts).eraseDups := by
  rw [missing, List.eraseDups_append, eraseDups_of_nodup a.nodup]

theorem texts_of_registerAll (h : a.registerAll texts = (a', none)) :
    a'.texts = a.texts ++ a.missing texts := by
  rw [append_missing]
  induction texts generalizing a with
  | nil =>
    obtain rfl := (Prod.mk.inj h).1
    rw [List.append_nil, eraseDups_of_nodup a.nodup]
  | cons text rest ih =>
    rw [registerAll] at h
    split at h
    · next i b hb => rw [ih h, eraseDups_of_register hb]
    · cases (Prod.mk.inj h).2

theorem mem_of_registerAll (h : a.registerAll texts = (a', none)) :
    text ∈ a'.texts ↔ text ∈ a.texts ∨ text ∈ texts := by
  rw [texts_of_registerAll h, append_missing, List.mem_eraseDups, List.mem_append]

theorem subset_of_registerAll (h : a.registerAll texts = (a', none)) : texts ⊆ a'.texts :=
  fun _ mem => (mem_of_registerAll h).2 (.inr mem)

theorem stop_of_registerAll (thawed : a.frozen = false)
    (h : a.registerAll texts = (a', some fault)) :
    ∃ text rest, fault = .full text ∧ capacity ≤ a'.size + 1 ∧
      a.texts ++ a.missing texts = a'.texts ++ text :: rest := by
  rw [append_missing]
  induction texts generalizing a with
  | nil => cases (Prod.mk.inj h).2
  | cons text rest ih =>
    rw [registerAll] at h
    split at h
    · next i b hb =>
      rw [← eraseDups_of_register hb]
      exact ih ((grows_register hb).frozen.trans thawed) h
    · next e he =>
      obtain ⟨rfl, ⟨⟩⟩ := Prod.mk.inj h
      obtain ⟨fresh, ⟨frozen, -⟩ | ⟨-, full, rfl⟩⟩ := register_eq_error_iff.1 he
      · rw [thawed] at frozen
        cases frozen
      · have split : (text :: rest).removeAll a.texts = text :: rest.removeAll a.texts := by
          simp [List.removeAll, ordinal?_eq_none_iff.1 fresh]
        rw [← append_missing, missing, split, List.eraseDups_cons]
        exact ⟨text, _, rfl, full, rfl⟩

/-- An open alphabet takes all texts, if it has ordinals for those that it lacks. -/
theorem exists_registerAll_of_room (thawed : a.frozen = false)
    (room : (a.texts ++ texts).eraseDups.length < capacity) :
    ∃ a', a.registerAll texts = (a', none) := by
  cases h : a.registerAll texts with
  | mk a' fault? =>
  cases fault? with
  | none => exact ⟨a', rfl⟩
  | some fault =>
    obtain ⟨text, rest, -, full, split⟩ := stop_of_registerAll thawed h
    rw [← append_missing, split, List.length_append, List.length_cons] at room
    unfold size at full
    omega

end Alphabet
end SymbolRegex
