import Mathlib.Data.List.Induction
import Mathlib.Data.List.Nodup
import SymbolRegex.Pattern.SetTable

/-! # First occurrences

Sets, alphabets and candidates keep a text where it comes first and pass over it
afterwards. What several of them gather in turn is what one gathers from all their
texts.
-/

namespace SymbolRegex

section Lists

variable {α β : Type} [DecidableEq α] {xs ys : List α} {x : α}

theorem eraseDups_append_singleton (xs : List α) (x : α) :
    (xs ++ [x]).eraseDups = if x ∈ xs then xs.eraseDups else xs.eraseDups ++ [x] := by
  rw [List.eraseDups_append]
  by_cases h : x ∈ xs <;> simp [List.removeAll, h, List.eraseDups_cons]

theorem nodup_eraseDups (xs : List α) : xs.eraseDups.Nodup := by
  induction xs using List.reverseRecOn with
  | nil => exact .nil
  | append_singleton xs x ih =>
    rw [eraseDups_append_singleton]
    by_cases h : x ∈ xs
    · rwa [if_pos h]
    · rw [if_neg h, ← List.concat_eq_append]
      exact .concat (mt List.mem_eraseDups.1 h) ih

theorem eraseDups_of_nodup (nodup : xs.Nodup) : xs.eraseDups = xs := by
  induction xs using List.reverseRecOn with
  | nil => rfl
  | append_singleton xs x ih =>
    rw [← List.concat_eq_append, List.nodup_concat] at nodup
    rw [eraseDups_append_singleton, if_neg nodup.1, ih nodup.2]

theorem perm_eraseDups (perm : xs.Perm ys) : xs.eraseDups.Perm ys.eraseDups := by
  rw [List.perm_ext_iff_of_nodup (nodup_eraseDups xs) (nodup_eraseDups ys)]
  intro x
  rw [List.mem_eraseDups, List.mem_eraseDups, perm.mem_iff]

theorem removeAll_eraseDups (xs ys : List α) :
    xs.eraseDups.removeAll ys = (xs.removeAll ys).eraseDups := by
  induction xs using List.reverseRecOn with
  | nil => rfl
  | append_singleton xs x ih =>
    unfold List.removeAll at ih ⊢
    rw [eraseDups_append_singleton]
    by_cases old : x ∈ xs <;> by_cases removed : x ∈ ys <;>
      simp_all [eraseDups_append_singleton]

theorem eraseDups_eraseDups_append (xs ys : List α) :
    (xs.eraseDups ++ ys).eraseDups = (xs ++ ys).eraseDups := by
  have same : ys.removeAll xs.eraseDups = ys.removeAll xs := by simp [List.removeAll]
  rw [List.eraseDups_append, List.eraseDups_append, eraseDups_of_nodup (nodup_eraseDups xs), same]

theorem eraseDups_append_eraseDups (xs ys : List α) :
    (xs ++ ys.eraseDups).eraseDups = (xs ++ ys).eraseDups := by
  rw [List.eraseDups_append, List.eraseDups_append, removeAll_eraseDups,
    eraseDups_of_nodup (nodup_eraseDups _)]

theorem eraseDups_flatMap_eraseDups (f : β → List α) (xs : List β) :
    (xs.flatMap fun x => (f x).eraseDups).eraseDups = (xs.flatMap f).eraseDups := by
  induction xs with
  | nil => rfl
  | cons x xs ih =>
    rw [List.flatMap_cons, List.flatMap_cons, eraseDups_eraseDups_append,
      ← eraseDups_append_eraseDups, ih, eraseDups_append_eraseDups]

end Lists

namespace SetTable

/-- Appending what is new leaves each symbol where it stands first. -/
theorem foldl_appendNew (symbols : List String) :
    symbols.foldl appendNew [] = symbols.eraseDups := by
  induction symbols using List.reverseRecOn with
  | nil => rfl
  | append_singleton symbols symbol ih =>
    rw [List.foldl_append, ih, eraseDups_append_singleton, List.foldl_cons, List.foldl_nil,
      appendNew]
    by_cases h : symbol ∈ symbols
    · rw [if_pos (List.mem_eraseDups.2 h), if_pos h]
    · rw [if_neg (mt List.mem_eraseDups.1 h), if_neg h]

end SetTable
end SymbolRegex
