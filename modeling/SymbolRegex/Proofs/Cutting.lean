import Mathlib.Data.List.Basic
import SymbolRegex.Record.Tokenizer

/-! # Cutting words

Spans count characters, and between them a word is cut without loss. The text of a word is
cut at byte offsets instead, which have to be character boundaries in ascending order. For
spans within the word they are, and the parts are the same.
-/

namespace SymbolRegex.Tokenizer

variable {word : List Char} {spans : List (Nat × Nat)} {cursor offset i j : Nat}

def Within (word : List Char) (spans : List (Nat × Nat)) : Prop :=
  ∀ s ∈ spans, s.1 < s.2 ∧ s.2 ≤ word.length

theorem slice_append_drop (h : i ≤ j) : slice word i j ++ word.drop j = word.drop i := by
  have : word.drop j = (word.drop i).drop (j - i) := by
    rw [List.drop_drop, Nat.add_sub_of_le h]
  rw [slice, this, List.take_append_drop]

theorem slice_ne_nil (h : i < j) (hj : j ≤ word.length) : slice word i j ≠ [] := by
  apply List.ne_nil_of_length_pos
  rw [slice, List.length_take, List.length_drop]
  omega

theorem flatten_cutAt (within : Within word spans) :
    (cutAt word cursor spans).flatten = word.drop cursor := by
  induction spans generalizing cursor with
  | nil =>
    unfold cutAt
    split
    · next h =>
      have tail : slice word cursor word.length ++ word.drop word.length = word.drop cursor :=
        slice_append_drop (Nat.le_of_lt h)
      simpa using tail
    · next h => rw [List.drop_of_length_le (Nat.le_of_not_lt h)]; rfl
  | cons span rest ih =>
    obtain ⟨enter, leave⟩ := span
    obtain ⟨⟨lt, le⟩, within⟩ := List.forall_mem_cons.1 within
    unfold cutAt
    split
    · exact ih within
    · next h =>
      have gap : (if cursor < enter then [slice word cursor enter] else []).flatten ++
          word.drop enter = word.drop cursor := by
        split
        · next h => simpa using slice_append_drop (Nat.le_of_lt h)
        · next h' => rw [Nat.le_antisymm (Nat.le_of_not_lt h') (Nat.le_of_not_lt h)]; rfl
      rw [List.flatten_append, List.flatten_cons, ih within, slice_append_drop (Nat.le_of_lt lt),
        gap]

/-! ## Cutting text at byte offsets -/

/-- The byte offsets at which the characters of a word begin, the first of them at `offset`, and
the one at which the last ends. -/
def boundaries (offset : Nat) : List Char → List Nat
  | [] => [offset]
  | c :: cs => offset :: boundaries (offset + c.utf8Size) cs

/-- The part of a text between two byte offsets, unless one is no character boundary or the second
comes first. -/
def textBetween? (text : String) (start stop : Nat) : Option String := do
  let p ← text.pos? ⟨start⟩
  let q ← text.pos? ⟨stop⟩
  (text.slice? p q).map (·.copy)

def partText? (word : List Char) (i j : Nat) : Option String := do
  let start ← (boundaries 0 word)[i]?
  let stop ← (boundaries 0 word)[j]?
  textBetween? (.ofList word) start stop

theorem getElem?_boundaries (h : i ≤ word.length) :
    (boundaries offset word)[i]? = some (offset + (String.ofList (word.take i)).utf8ByteSize) := by
  induction word generalizing offset i with
  | nil =>
    obtain rfl := Nat.le_zero.1 h
    rfl
  | cons c cs ih =>
    cases i with
    | zero => simp [boundaries]
    | succ i =>
      rw [boundaries, List.getElem?_cons_succ, ih (Nat.le_of_succ_le_succ h), List.take_succ_cons,
        Nat.add_assoc]
      simp

theorem pos?_of_append {text before behind : String} (h : text = before ++ behind) :
    ∃ p, text.pos? before.rawEndPos = some p ∧ p.Splits before behind := by
  have valid : before.rawEndPos.IsValid text :=
    String.Pos.Raw.isValid_iff_exists_append.2 ⟨before, behind, h, rfl⟩
  refine ⟨text.pos before.rawEndPos valid, ?_, h, rfl⟩
  have : before.rawEndPos.isValidForSlice text.toSlice = true := by simpa using valid
  simp [String.pos?, String.Slice.pos?, String.pos, this]

theorem take_append_slice (h : i ≤ j) : word.take i ++ slice word i j = word.take j := by
  rw [slice, ← List.take_add, Nat.add_sub_of_le h]

theorem partText?_eq (h : i ≤ j) (hj : j ≤ word.length) :
    partText? word i j = some (.ofList (slice word i j)) := by
  have before : String.ofList word = .ofList (word.take i) ++
      (.ofList (slice word i j) ++ .ofList (word.drop j)) := by
    rw [← String.ofList_append, ← String.ofList_append, slice_append_drop h, List.take_append_drop]
  have behind : String.ofList word = (.ofList (word.take i) ++ .ofList (slice word i j)) ++
      .ofList (word.drop j) := by
    rw [before, String.append_assoc]
  obtain ⟨p, hp, splits⟩ := pos?_of_append before
  obtain ⟨q, hq, splits'⟩ := pos?_of_append behind
  obtain ⟨le, copy⟩ := String.copy_slice_eq_iff_splits.2 ⟨_, _, splits, splits'⟩
  rw [← String.ofList_append, take_append_slice h] at hq
  rw [String.rawEndPos] at hp hq
  simp [partText?, getElem?_boundaries (Nat.le_trans h hj), getElem?_boundaries hj, textBetween?,
    hp, hq, String.slice?, le, copy]

def gapText? (word : List Char) (i j : Nat) : Option (List String) :=
  if i < j then (partText? word i j).map ([·]) else some []

theorem gapText?_eq (hj : j ≤ word.length) :
    gapText? word i j = some ((if i < j then [slice word i j] else []).map .ofList) := by
  unfold gapText?
  split
  · next h => rw [partText?_eq (Nat.le_of_lt h) hj]; rfl
  · rfl

/-- Cut the text of a word as `cutAt` cuts its characters, unless a part cannot be cut out. -/
def cutText? (word : List Char) (cursor : Nat) : List (Nat × Nat) → Option (List String)
  | [] => gapText? word cursor word.length
  | (enter, leave) :: rest =>
    if enter < cursor then cutText? word cursor rest
    else do
      let gap ← gapText? word cursor enter
      let part ← partText? word enter leave
      let more ← cutText? word leave rest
      return gap ++ part :: more

/-- Every part can be cut out. -/
theorem cutText?_eq (within : Within word spans) :
    cutText? word cursor spans = some ((cutAt word cursor spans).map .ofList) := by
  induction spans generalizing cursor with
  | nil => exact gapText?_eq (Nat.le_refl _)
  | cons span rest ih =>
    obtain ⟨enter, leave⟩ := span
    obtain ⟨⟨lt, le⟩, within⟩ := List.forall_mem_cons.1 within
    unfold cutText? cutAt
    split
    · exact ih within
    · rw [gapText?_eq (Nat.le_of_lt (Nat.lt_of_lt_of_le lt le)), partText?_eq (Nat.le_of_lt lt) le,
        ih within]
      simp

theorem ne_nil_of_mem_cutAt (within : Within word spans) :
    ∀ part ∈ cutAt word cursor spans, part ≠ [] := by
  induction spans generalizing cursor with
  | nil =>
    unfold cutAt
    split
    · next h => exact List.forall_mem_singleton.2 (slice_ne_nil h (Nat.le_refl _))
    · exact fun _ h => absurd h List.not_mem_nil
  | cons span rest ih =>
    obtain ⟨enter, leave⟩ := span
    obtain ⟨⟨lt, le⟩, within⟩ := List.forall_mem_cons.1 within
    unfold cutAt
    split
    · exact ih within
    · rw [List.forall_mem_append, List.forall_mem_cons]
      refine ⟨?_, slice_ne_nil lt le, ih within⟩
      split
      · next h =>
        exact List.forall_mem_singleton.2 (slice_ne_nil h (Nat.le_of_lt (Nat.lt_of_lt_of_le lt le)))
      · exact fun _ h => absurd h List.not_mem_nil

end SymbolRegex.Tokenizer
