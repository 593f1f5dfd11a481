/-! # Blank characters and words

A character is blank when it has the Unicode property White_Space. The words of
a text are its maximal runs of characters that are not blank.
-/

namespace SymbolRegex.Text

/-- The code points with the property White_Space. -/
def isBlank (c : Char) : Bool :=
  let n := c.toNat
  (0x09 ≤ n && n ≤ 0x0D) || n == 0x20 || n == 0x85 || n == 0xA0 || n == 0x1680 ||
    (0x2000 ≤ n && n ≤ 0x200A) || n == 0x2028 || n == 0x2029 || n == 0x202F || n == 0x205F ||
    n == 0x3000

/-- The maximal runs of characters that are not blank. -/
def wordChars (cs : List Char) : List (List Char) :=
  match _h : cs.dropWhile isBlank with
  | [] => []
  | c :: rest =>
    (c :: rest.takeWhile (!isBlank ·)) :: wordChars (rest.dropWhile (!isBlank ·))
termination_by cs.length
decreasing_by
  have h₁ := (List.dropWhile_sublist isBlank (l := cs)).length_le
  have h₂ := (List.dropWhile_sublist (!isBlank ·) (l := rest)).length_le
  rw [_h] at h₁; simp at h₁; omega

def words (text : String) : List String :=
  (wordChars text.toList).map String.ofList

end SymbolRegex.Text
