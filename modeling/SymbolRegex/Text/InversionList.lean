/-! # Inversion lists

A set of code points is stored as the ascending list of the points at which
membership changes: the set holds the points from the first bound up to the
second, from the third up to the fourth, and so on.
-/

namespace SymbolRegex

/-- Ascending bounds; membership starts at the first and changes at each. -/
abbrev InversionList := List Nat

namespace InversionList

/-- A point is a member when an odd number of bounds lie at or below it. -/
def contains (bounds : InversionList) (point : Nat) : Bool :=
  (bounds.takeWhile (· ≤ point)).length % 2 == 1

@[simp] theorem contains_nil (point : Nat) : contains [] point = false := rfl

theorem contains_cons_of_lt {bound point : Nat} (bounds : InversionList) (h : point < bound) :
    contains (bound :: bounds) point = false := by
  simp [contains, List.takeWhile, Nat.not_le.2 h]

theorem contains_cons_of_le {bound point : Nat} (bounds : InversionList) (h : bound ≤ point) :
    contains (bound :: bounds) point = !contains bounds point := by
  simp only [contains, List.takeWhile, h, decide_true, List.length_cons]
  rcases Nat.mod_two_eq_zero_or_one (bounds.takeWhile (· ≤ point)).length with e | e <;>
    simp [Nat.add_mod, e]

end InversionList
end SymbolRegex
