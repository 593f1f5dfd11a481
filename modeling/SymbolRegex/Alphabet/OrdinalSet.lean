/-! # Sets of ordinals

The ordinals below a fixed width that a leaf accepts, one bit for each, in words of
sixty-four bits. The last word may have more bits than the width needs. They are
never set, so two sets with the same members are equal and the complement of a set
stays within its width.
-/

namespace SymbolRegex

abbrev Word := BitVec 64

namespace Word

/-- The places of the bits that are set. The lowest is given and cleared until none is left. -/
def places (w : Word) : List Nat :=
  if w = 0 then [] else w.ctz.toNat :: places (w &&& (w - 1))
termination_by w.toNat
decreasing_by
  rename_i h
  have pos : 0 < w.toNat := Nat.pos_of_ne_zero fun e => h (BitVec.eq_of_toNat_eq e)
  have pred : (w - 1).toNat = w.toNat - 1 := BitVec.toNat_sub_of_le pos
  rw [BitVec.toNat_and, pred]
  exact Nat.lt_of_le_of_lt Nat.and_le_right (Nat.sub_lt pos Nat.one_pos)

def below (i : Nat) : Word := BitVec.twoPow 64 i - 1

theorem getLsbD_below {i j : Nat} (h : i < 64) : (below i).getLsbD j = decide (j < i) := by
  have two : (BitVec.twoPow 64 i).toNat = 2 ^ i := by
    rw [BitVec.toNat_twoPow, Nat.mod_eq_of_lt (Nat.pow_lt_pow_right Nat.one_lt_two h)]
  have le : 1 ≤ BitVec.twoPow 64 i := by
    rw [BitVec.le_def, two]
    exact Nat.one_le_two_pow
  rw [below, BitVec.getLsbD, BitVec.toNat_sub_of_le le, two]
  exact Nat.testBit_two_pow_sub_one i j

end Word

namespace OrdinalSet

def wordCount (width : Nat) : Nat := (width + 63) / 64

/-- A bit of several words. Those past the last word are clear. -/
def bit (words : List Word) (i : Nat) : Bool := (words[i / 64]?.getD 0).getLsbD (i % 64)

/-- Clear the bits of the last word that are past the width. -/
def clearTail (width : Nat) (words : List Word) : List Word :=
  if width % 64 = 0 then words
  else words.modify (words.length - 1) (· &&& Word.below (width % 64))

section Bits

variable {words words' : List Word} {w : Word} {width i j k : Nat}

theorem bit_of_le (h : words.length ≤ i / 64) : bit words i = false := by
  simp [bit, List.getElem?_eq_none h]

theorem bit_mul_add (hw : words[k]? = some w) (hj : j < 64) :
    bit words (64 * k + j) = w.getLsbD j := by
  have div : (64 * k + j) / 64 = k := by omega
  have mod : (64 * k + j) % 64 = j := by omega
  rw [bit, div, mod, hw, Option.getD_some]

theorem exists_word (h : bit words i = true) :
    ∃ w, words[i / 64]? = some w ∧ w.getLsbD (i % 64) = true := by
  unfold bit at h
  cases hw : words[i / 64]? with
  | none => simp [hw] at h
  | some w => exact ⟨w, rfl, by simpa [hw] using h⟩

theorem eq_of_bit (length : words.length = words'.length) (h : ∀ i, bit words i = bit words' i) :
    words = words' := by
  refine List.ext_getElem length fun k hk hk' => BitVec.eq_of_getLsbD_eq fun j hj => ?_
  rw [← bit_mul_add (List.getElem?_eq_getElem hk) hj, h,
    bit_mul_add (List.getElem?_eq_getElem hk') hj]

theorem bit_replicate_zero (n i : Nat) : bit (.replicate n 0) i = false := by
  rw [bit, List.getElem?_replicate]
  split <;> simp

theorem bit_modify (f : Word → Word) (h : k < words.length) (i : Nat) :
    bit (words.modify k f) i =
      if i / 64 = k then (f words[k]).getLsbD (i % 64) else bit words i := by
  unfold bit
  rw [List.getElem?_modify]
  by_cases e : i / 64 = k
  · subst e
    simp [h]
  · simp [e, Ne.symm e]

theorem bit_modify_or (h : i / 64 < words.length) (j : Nat) :
    bit (words.modify (i / 64) (· ||| BitVec.twoPow 64 (i % 64))) j =
      (bit words j || decide (j = i)) := by
  rw [bit_modify _ h]
  split
  · next e =>
    have same : j % 64 = i % 64 ↔ j = i := by omega
    simp [bit, e, h, same, Nat.mod_lt]
  · next e =>
    have : j ≠ i := fun same => e (same ▸ rfl)
    simp [this]

theorem bit_modify_and_not (h : i / 64 < words.length) (j : Nat) :
    bit (words.modify (i / 64) (· &&& ~~~BitVec.twoPow 64 (i % 64))) j =
      (bit words j && !decide (j = i)) := by
  rw [bit_modify _ h]
  split
  · next e =>
    have same : j % 64 = i % 64 ↔ j = i := by omega
    simp [bit, e, h, same, Nat.mod_lt]
  · next e =>
    have : j ≠ i := fun same => e (same ▸ rfl)
    simp [this]

theorem bit_zipWith_or (length : words.length = words'.length) (i : Nat) :
    bit (List.zipWith (· ||| ·) words words') i = (bit words i || bit words' i) := by
  by_cases h : i / 64 < words.length
  · rw [bit, List.getElem?_zipWith]
    simp [bit, h, length ▸ h]
  · have left : bit words i = false := bit_of_le (Nat.le_of_not_lt h)
    have right : bit words' i = false := bit_of_le (length ▸ Nat.le_of_not_lt h)
    rw [left, right, bit_of_le (by rw [List.length_zipWith]; omega), Bool.or_self]

theorem bit_zipWith_and (words words' : List Word) (i : Nat) :
    bit (List.zipWith (· &&& ·) words words') i = (bit words i && bit words' i) := by
  unfold bit
  rw [List.getElem?_zipWith]
  cases words[i / 64]? <;> cases words'[i / 64]? <;> simp

theorem bit_map_not (h : i / 64 < words.length) : bit (words.map (~~~ ·)) i = !bit words i := by
  simp [bit, h, Nat.mod_lt]

theorem length_clearTail (width : Nat) (words : List Word) :
    (clearTail width words).length = words.length := by
  unfold clearTail
  split
  · rfl
  · exact List.length_modify _ _ _

theorem bit_clearTail (h : words.length = wordCount width) (i : Nat) :
    bit (clearTail width words) i = (bit words i && decide (i < width)) := by
  unfold wordCount at h
  by_cases inside : i / 64 < words.length
  · unfold clearTail
    split
    · have : i < width := by omega
      simp [this]
    · rw [bit_modify _ (by omega)]
      split
      · next last =>
        have same : i % 64 < width % 64 ↔ i < width := by omega
        have word : words[i / 64]? = some words[words.length - 1] := by
          rw [last]
          exact List.getElem?_eq_getElem (by omega)
        simp [bit, word, Word.getLsbD_below (Nat.mod_lt width (by decide)), same]
      · have : i < width := by omega
        simp [this]
  · have out : words.length ≤ i / 64 := Nat.le_of_not_lt inside
    rw [bit_of_le out, bit_of_le (by rw [length_clearTail]; exact out), Bool.false_and]

end Bits

end OrdinalSet

structure OrdinalSet where
  width : Nat
  words : List Word
  length_words : words.length = OrdinalSet.wordCount width
  /-- The bits past the width are clear. -/
  clear : ∀ i, width ≤ i → OrdinalSet.bit words i = false
deriving DecidableEq, Repr

namespace OrdinalSet

theorem word_lt {width i : Nat} {words : List Word} (h : words.length = wordCount width)
    (hi : i < width) : i / 64 < words.length := by
  unfold wordCount at h
  omega

def empty (width : Nat) : OrdinalSet where
  width
  words := .replicate (wordCount width) 0
  length_words := List.length_replicate
  clear i _ := bit_replicate_zero _ i

def full (width : Nat) : OrdinalSet where
  width
  words := clearTail width (.replicate (wordCount width) (.allOnes 64))
  length_words := (length_clearTail _ _).trans List.length_replicate
  clear i hi := by simp [bit_clearTail, Nat.not_lt.2 hi]

def contains (s : OrdinalSet) (i : Nat) : Bool := decide (i < s.width) && bit s.words i

/-- Add an ordinal, unless it is outside the width. -/
def insert (s : OrdinalSet) (i : Nat) : OrdinalSet :=
  if h : i < s.width then
    { s with
      words := s.words.modify (i / 64) (· ||| BitVec.twoPow 64 (i % 64))
      length_words := (List.length_modify _ _ _).trans s.length_words
      clear := fun j hj => by
        rw [bit_modify_or (word_lt s.length_words h), s.clear j hj]
        simp [Nat.ne_of_gt (Nat.lt_of_lt_of_le h hj)] }
  else s

def erase (s : OrdinalSet) (i : Nat) : OrdinalSet :=
  if h : i < s.width then
    { s with
      words := s.words.modify (i / 64) (· &&& ~~~BitVec.twoPow 64 (i % 64))
      length_words := (List.length_modify _ _ _).trans s.length_words
      clear := fun j hj => by
        rw [bit_modify_and_not (word_lt s.length_words h), s.clear j hj, Bool.false_and] }
  else s

def singleton (width i : Nat) : OrdinalSet := (empty width).insert i

def ofList (width : Nat) (ordinals : List Nat) : OrdinalSet := ordinals.foldl insert (empty width)

/-- The members of both sets, which must have the same width. -/
def union (s t : OrdinalSet) : OrdinalSet :=
  if h : t.width = s.width then
    { s with
      words := List.zipWith (· ||| ·) s.words t.words
      length_words := by rw [List.length_zipWith, t.length_words, h, s.length_words, Nat.min_self]
      clear := fun i hi => by
        rw [bit_zipWith_or (by rw [s.length_words, t.length_words, h]), s.clear i hi,
          t.clear i (h ▸ hi), Bool.or_self] }
  else s

/-- The common members of two sets, which must have the same width. -/
def inter (s t : OrdinalSet) : OrdinalSet :=
  if h : t.width = s.width then
    { s with
      words := List.zipWith (· &&& ·) s.words t.words
      length_words := by rw [List.length_zipWith, t.length_words, h, s.length_words, Nat.min_self]
      clear := fun i hi => by rw [bit_zipWith_and, s.clear i hi, Bool.false_and] }
  else s

/-- The ordinals below the width that are not members. -/
def compl (s : OrdinalSet) : OrdinalSet where
  width := s.width
  words := clearTail s.width (s.words.map (~~~ ·))
  length_words := by rw [length_clearTail, List.length_map, s.length_words]
  clear i hi := by
    rw [bit_clearTail ((List.length_map _).trans s.length_words)]
    simp [Nat.not_lt.2 hi]

/-- Whether two sets, of any widths, have a member in common. -/
def intersects (s t : OrdinalSet) : Bool := (s.words.zip t.words).any fun (v, w) => v &&& w != 0

def isEmpty (s : OrdinalSet) : Bool := s.words.all (· == 0)

def count (s : OrdinalSet) : Nat := s.words.foldl (fun n w => n + w.cpop.toNat) 0

/-- The members in ascending order. An ordinal has thirty-two bits. -/
def members (s : OrdinalSet) : List Nat :=
  s.words.zipIdx.flatMap fun (w, k) =>
    (w.places.map (64 * k + ·)).takeWhile (decide <| · < UInt32.size)

/-- The bits of the words are the members. -/
theorem contains_eq_bit (s : OrdinalSet) (i : Nat) : s.contains i = bit s.words i := by
  by_cases hi : i < s.width
  · simp [contains, hi]
  · simp [contains, hi, s.clear i (Nat.le_of_not_lt hi)]

theorem lt_width_of_contains {s : OrdinalSet} {i : Nat} (h : s.contains i = true) :
    i < s.width := by
  rw [contains, Bool.and_eq_true] at h
  exact of_decide_eq_true h.1

@[simp] theorem width_empty (width : Nat) : (empty width).width = width := rfl

@[simp] theorem width_insert (s : OrdinalSet) (i : Nat) : (s.insert i).width = s.width := by
  unfold insert; split <;> rfl

@[simp] theorem width_erase (s : OrdinalSet) (i : Nat) : (s.erase i).width = s.width := by
  unfold erase; split <;> rfl

@[simp] theorem width_union (s t : OrdinalSet) : (s.union t).width = s.width := by
  unfold union; split <;> rfl

@[simp] theorem width_inter (s t : OrdinalSet) : (s.inter t).width = s.width := by
  unfold inter; split <;> rfl

@[simp] theorem width_compl (s : OrdinalSet) : s.compl.width = s.width := rfl

@[simp] theorem contains_empty (width i : Nat) : (empty width).contains i = false := by
  rw [contains_eq_bit]
  exact bit_replicate_zero _ i

@[simp] theorem contains_full (width i : Nat) : (full width).contains i = decide (i < width) := by
  rw [contains_eq_bit, full, bit_clearTail List.length_replicate]
  by_cases hi : i < width
  · have word : i / 64 < wordCount width := by unfold wordCount; omega
    rw [bit, List.getElem?_replicate, if_pos word, Option.getD_some, BitVec.getLsbD_allOnes]
    simp [hi, Nat.mod_lt]
  · simp [hi]

@[simp] theorem contains_insert (s : OrdinalSet) (i j : Nat) :
    (s.insert i).contains j = (s.contains j || (decide (i < s.width) && decide (j = i))) := by
  rw [contains_eq_bit, contains_eq_bit]
  unfold insert
  split
  · next h => rw [bit_modify_or (word_lt s.length_words h)]; simp [h]
  · next h => simp [h]

@[simp] theorem contains_erase (s : OrdinalSet) (i j : Nat) :
    (s.erase i).contains j = (s.contains j && !decide (j = i)) := by
  rw [contains_eq_bit, contains_eq_bit]
  unfold erase
  split
  · next h => exact bit_modify_and_not (word_lt s.length_words h) j
  · next h =>
    by_cases e : j = i
    · subst e; simp [s.clear j (Nat.le_of_not_lt h)]
    · simp [e]

theorem contains_union {s t : OrdinalSet} (h : t.width = s.width) (i : Nat) :
    (s.union t).contains i = (s.contains i || t.contains i) := by
  rw [contains_eq_bit, contains_eq_bit, contains_eq_bit, union, dif_pos h]
  exact bit_zipWith_or (by rw [s.length_words, t.length_words, h]) i

theorem contains_inter {s t : OrdinalSet} (h : t.width = s.width) (i : Nat) :
    (s.inter t).contains i = (s.contains i && t.contains i) := by
  rw [contains_eq_bit, contains_eq_bit, contains_eq_bit, inter, dif_pos h]
  exact bit_zipWith_and _ _ i

@[simp] theorem width_ofList (width : Nat) (ordinals : List Nat) :
    (ofList width ordinals).width = width := by
  suffices h : ∀ s : OrdinalSet, (ordinals.foldl insert s).width = s.width from h _
  induction ordinals with
  | nil => exact fun _ => rfl
  | cons i rest ih => exact fun s => (ih _).trans (width_insert s i)

@[simp] theorem contains_ofList (width : Nat) (ordinals : List Nat) (i : Nat) :
    (ofList width ordinals).contains i = (decide (i < width) && decide (i ∈ ordinals)) := by
  suffices h : ∀ s : OrdinalSet, s.width = width → (ordinals.foldl insert s).contains i =
      (s.contains i || (decide (i < width) && decide (i ∈ ordinals))) by
    simpa [ofList] using h (empty width) rfl
  induction ordinals with
  | nil => simp
  | cons j rest ih =>
    intro s hs
    rw [List.foldl_cons, ih _ (by simp [hs]), contains_insert, hs]
    by_cases e : i = j
    · by_cases hi : j < width <;> simp [e, hi]
    · simp [e]

@[simp] theorem contains_compl (s : OrdinalSet) (i : Nat) :
    s.compl.contains i = (decide (i < s.width) && !s.contains i) := by
  rw [contains_eq_bit, contains_eq_bit, compl,
    bit_clearTail ((List.length_map _).trans s.length_words)]
  by_cases hi : i < s.width
  · rw [bit_map_not (word_lt s.length_words hi)]
    simp [hi]
  · simp [hi]

theorem eq_of_contains {s t : OrdinalSet} (hw : s.width = t.width)
    (h : ∀ i, s.contains i = t.contains i) : s = t := by
  have words : s.words = t.words :=
    eq_of_bit (by rw [s.length_words, t.length_words, hw]) fun i => by
      rw [← contains_eq_bit, ← contains_eq_bit, h]
  cases s
  cases t
  cases hw
  cases words
  rfl

theorem intersects_iff {s t : OrdinalSet} :
    s.intersects t = true ↔ ∃ i, s.contains i = true ∧ t.contains i = true := by
  simp only [contains_eq_bit, intersects, List.any_eq_true, bne_iff_ne]
  constructor
  · rintro ⟨⟨v, w⟩, mem, ne⟩
    obtain ⟨k, hk⟩ := List.mem_iff_getElem?.1 mem
    obtain ⟨hv, hw⟩ := List.getElem?_zip_eq_some.1 hk
    have lit := BitVec.getLsbD_true_ctz_of_ne_zero ne
    have lt := BitVec.lt_of_getLsbD lit
    rw [BitVec.getLsbD_and, Bool.and_eq_true] at lit
    refine ⟨64 * k + (v &&& w).ctz.toNat, ?_, ?_⟩
    · rw [bit_mul_add hv lt]
      exact lit.1
    · rw [bit_mul_add hw lt]
      exact lit.2
  · rintro ⟨i, hs, ht⟩
    obtain ⟨v, hv, hs⟩ := exists_word hs
    obtain ⟨w, hw, ht⟩ := exists_word ht
    refine ⟨(v, w), List.mem_iff_getElem?.2 ⟨i / 64, List.getElem?_zip_eq_some.2 ⟨hv, hw⟩⟩, ?_⟩
    intro zero
    have := congrArg (BitVec.getLsbD · (i % 64)) zero
    simp [hs, ht] at this

/-- The members as maximal runs of consecutive ordinals. -/
def runs : List Nat → List (Nat × Nat)
  | [] => []
  | i :: rest =>
    match runs rest with
    | [] => [(i, i)]
    | (low, high) :: more =>
      if i + 1 = low then (i, high) :: more else (i, i) :: (low, high) :: more

def write (s : OrdinalSet) : String :=
  "\x7b" ++ ", ".intercalate (s.members.map toString) ++ "\x7d"

end OrdinalSet

def writeOrdinal (i : Nat) : String := s!"#{i}"

def OrdinalSet.writeRuns (s : OrdinalSet) : String :=
  let run (r : Nat × Nat) :=
    if r.1 = r.2 then writeOrdinal r.1 else writeOrdinal r.1 ++ "-" ++ writeOrdinal r.2
  "[" ++ " ".intercalate ((runs s.members).map run) ++ "]"

end SymbolRegex
