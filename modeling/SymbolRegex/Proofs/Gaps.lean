import SymbolRegex.Proofs.Tokens

/-! # Spans and the gaps around them

Spans are taken in ascending order, and one that starts before the end of the last one
taken is dropped. A word is cut into those that are left and the gaps around them.
Spans that are apart are all left.
-/

namespace SymbolRegex.Tokenizer

variable {word : List Char} {spans kept ivs : List (Nat × Nat)} {start stop : Nat}
  {span iv : Nat × Nat}

/-! ## Spans that are kept -/

/-- Keep a span unless it starts before the end of the last one kept. -/
def keep (kept : List (Nat × Nat)) (span : Nat × Nat) : List (Nat × Nat) :=
  if kept.getLast?.any fun last => span.1 < last.2 then kept else kept ++ [span]

/-- The spans that are kept of those that come after others were kept up to `start`. -/
def keptFrom (start : Nat) : List (Nat × Nat) → List (Nat × Nat)
  | [] => []
  | span :: rest =>
    if span.1 < start then keptFrom start rest else span :: keptFrom span.2 rest

def lastEnd (kept : List (Nat × Nat)) : Nat := kept.getLast?.elim 0 (·.2)

theorem keep_eq (kept : List (Nat × Nat)) (span : Nat × Nat) :
    keep kept span = if span.1 < lastEnd kept then kept else kept ++ [span] := by
  unfold keep lastEnd
  cases kept.getLast? with
  | none => rfl
  | some last => by_cases h : span.1 < last.2 <;> simp [h]

theorem foldl_keep (kept spans : List (Nat × Nat)) :
    spans.foldl keep kept = kept ++ keptFrom (lastEnd kept) spans := by
  induction spans generalizing kept with
  | nil => exact (List.append_nil kept).symm
  | cons span rest ih =>
    rw [List.foldl_cons, ih, keep_eq, keptFrom]
    split
    · rfl
    · have : lastEnd (kept ++ [span]) = span.2 := by simp [lastEnd]
      rw [this, List.append_assoc]
      rfl

/-- Spans between two positions that are not empty, each behind the one before. -/
def Spaced (stop start : Nat) : List (Nat × Nat) → Prop
  | [] => start ≤ stop
  | span :: rest => start ≤ span.1 ∧ span.1 < span.2 ∧ Spaced stop span.2 rest

theorem Spaced.le (h : Spaced stop start kept) : start ≤ stop := by
  induction kept generalizing start with
  | nil => exact h
  | cons span rest ih =>
    have := ih h.2.2
    have := h.1
    have := h.2.1
    omega

theorem Spaced.bounds (h : Spaced stop start kept) :
    ∀ s ∈ kept, start ≤ s.1 ∧ s.1 < s.2 ∧ s.2 ≤ stop := by
  induction kept generalizing start with
  | nil => exact fun _ h => absurd h List.not_mem_nil
  | cons span rest ih =>
    obtain ⟨le, lt, rest⟩ := h
    refine List.forall_mem_cons.2 ⟨⟨le, lt, rest.le⟩, fun s hs => ?_⟩
    have := ih rest s hs
    omega

theorem spaced_keptFrom (within : Within word spans) (h : start ≤ word.length) :
    Spaced word.length start (keptFrom start spans) := by
  induction spans generalizing start with
  | nil => exact h
  | cons span rest ih =>
    obtain ⟨⟨lt, le⟩, within⟩ := List.forall_mem_cons.1 within
    unfold keptFrom
    split
    · exact ih within h
    · next behind => exact ⟨Nat.le_of_not_lt behind, lt, ih within le⟩

/-- Nothing is dropped of spans each of which ends before the later ones start. -/
theorem keptFrom_eq_self (apart : spans.Pairwise fun a b => a.2 ≤ b.1)
    (h : ∀ s ∈ spans, start ≤ s.1) : keptFrom start spans = spans := by
  induction spans generalizing start with
  | nil => rfl
  | cons span rest ih =>
    rw [List.pairwise_cons] at apart
    rw [List.forall_mem_cons] at h
    rw [keptFrom, if_neg (Nat.not_lt_of_le h.1), ih apart.2 apart.1]

/-! ## Gaps -/

/-- A gap between spans: it is not empty, reaches from `start` or the end of a span to the next one
or `stop`, and no span reaches into it. -/
structure Gap (start stop : Nat) (kept : List (Nat × Nat)) (iv : Nat × Nat) : Prop where
  nonempty : iv.1 < iv.2
  begins : iv.1 = start ∨ ∃ s ∈ kept, s.2 = iv.1
  ends : iv.2 = stop ∨ ∃ s ∈ kept, s.1 = iv.2
  free : ∀ s ∈ kept, s.2 ≤ iv.1 ∨ iv.2 ≤ s.1

/-- Some intervals are the spans and the gaps around them, in ascending order. -/
structure Parts (start stop : Nat) (kept ivs : List (Nat × Nat)) : Prop where
  ordered : ivs.Pairwise fun a b => a.2 ≤ b.1
  mem_iff : ∀ iv, iv ∈ ivs ↔ iv ∈ kept ∨ Gap start stop kept iv

def between (i j : Nat) : List (Nat × Nat) := if i < j then [(i, j)] else []

theorem mem_between {i j : Nat} : iv ∈ between i j ↔ i < j ∧ iv = (i, j) := by
  unfold between
  split <;> simp [*]

def fill (stop start : Nat) : List (Nat × Nat) → List (Nat × Nat)
  | [] => between start stop
  | span :: rest => between start span.1 ++ span :: fill stop span.2 rest

/-- A word is cut into the spans that are kept and the gaps around them. -/
theorem cutAt_eq : cutAt word start spans =
    (fill word.length start (keptFrom start spans)).map fun iv => slice word iv.1 iv.2 := by
  induction spans generalizing start with
  | nil =>
    unfold cutAt keptFrom fill between
    split <;> rfl
  | cons span rest ih =>
    obtain ⟨enter, leave⟩ := span
    unfold cutAt keptFrom
    split
    · exact ih
    · rw [ih, fill, List.map_append, List.map_cons, between]
      dsimp only
      split <;> rfl

theorem gap_nil_iff : Gap start stop [] iv ↔ start < stop ∧ iv = (start, stop) := by
  constructor
  · rintro ⟨nonempty, begins, ends, -⟩
    obtain ⟨i, j⟩ := iv
    simp only [List.not_mem_nil, false_and, exists_false, or_false] at begins ends
    subst begins ends
    exact ⟨nonempty, rfl⟩
  · rintro ⟨lt, rfl⟩
    exact ⟨lt, .inl rfl, .inl rfl, by simp⟩

theorem Gap.bounds (gap : Gap start stop kept iv) (h : Spaced stop start kept) :
    start ≤ iv.1 ∧ iv.2 ≤ stop := by
  have bounds := h.bounds
  constructor
  · rcases gap.begins with begins | ⟨s, hs, begins⟩
    · exact begins.ge
    · have := bounds s hs
      omega
  · rcases gap.ends with ends | ⟨s, hs, ends⟩
    · exact ends.le
    · have := bounds s hs
      omega

section First

variable (h : Spaced stop start (span :: kept))
include h

theorem Gap.eq_first (gap : Gap start stop (span :: kept) iv) (before : iv.2 ≤ span.1) :
    iv = (start, span.1) := by
  obtain ⟨le, lt, spaced⟩ := h
  have bounds := spaced.bounds
  have last := spaced.le
  have nonempty := gap.nonempty
  refine Prod.ext ?_ ?_
  · rcases gap.begins with begins | ⟨s, hs, begins⟩
    · exact begins
    · rcases List.mem_cons.1 hs with rfl | hs
      · omega
      · have := bounds s hs
        omega
  · rcases gap.ends with ends | ⟨s, hs, ends⟩
    · dsimp only
      omega
    · rcases List.mem_cons.1 hs with rfl | hs
      · exact ends.symm
      · have := bounds s hs
        dsimp only
        omega

theorem Gap.tail (gap : Gap start stop (span :: kept) iv) (behind : span.2 ≤ iv.1) :
    Gap span.2 stop kept iv := by
  obtain ⟨le, lt, -⟩ := h
  have nonempty := gap.nonempty
  refine ⟨nonempty, ?_, ?_, (List.forall_mem_cons.1 gap.free).2⟩
  · rcases gap.begins with begins | ⟨s, hs, begins⟩
    · omega
    · rcases List.mem_cons.1 hs with rfl | hs
      · exact .inl begins.symm
      · exact .inr ⟨s, hs, begins⟩
  · refine gap.ends.imp_right ?_
    rintro ⟨s, hs, ends⟩
    rcases List.mem_cons.1 hs with rfl | hs
    · omega
    · exact ⟨s, hs, ends⟩

theorem gap_first (lt : start < span.1) : Gap start stop (span :: kept) (start, span.1) := by
  obtain ⟨-, lt', spaced⟩ := h
  refine ⟨lt, .inl rfl, .inr ⟨span, List.mem_cons_self, rfl⟩, ?_⟩
  refine List.forall_mem_cons.2 ⟨.inr (Nat.le_refl _), fun s hs => .inr ?_⟩
  exact lt'.le.trans (spaced.bounds s hs).1

theorem Gap.cons (gap : Gap span.2 stop kept iv) : Gap start stop (span :: kept) iv := by
  have behind := (gap.bounds h.2.2).1
  refine ⟨gap.nonempty, .inr ?_, gap.ends.imp_right ?_,
    List.forall_mem_cons.2 ⟨.inl behind, gap.free⟩⟩
  · rcases gap.begins with begins | ⟨s, hs, begins⟩
    · exact ⟨span, List.mem_cons_self, begins.symm⟩
    · exact ⟨s, List.mem_cons_of_mem _ hs, begins⟩
  · rintro ⟨s, hs, ends⟩
    exact ⟨s, List.mem_cons_of_mem _ hs, ends⟩

/-- The gaps around some spans are that before the first, if there is one, and those behind it. -/
theorem gap_cons_iff : Gap start stop (span :: kept) iv ↔
    start < span.1 ∧ iv = (start, span.1) ∨ Gap span.2 stop kept iv := by
  constructor
  · intro gap
    rcases (List.forall_mem_cons.1 gap.free).1 with behind | before
    · exact .inr (gap.tail h behind)
    · obtain rfl := gap.eq_first h before
      exact .inl ⟨gap.nonempty, rfl⟩
  · rintro (⟨lt, rfl⟩ | gap)
    · exact gap_first h lt
    · exact gap.cons h

end First

theorem mem_fill_iff (h : Spaced stop start kept) :
    iv ∈ fill stop start kept ↔ iv ∈ kept ∨ Gap start stop kept iv := by
  induction kept generalizing start with
  | nil => rw [fill, mem_between, gap_nil_iff, or_iff_right List.not_mem_nil]
  | cons span rest ih =>
    rw [fill, List.mem_append, mem_between, List.mem_cons, ih h.2.2, gap_cons_iff h, List.mem_cons]
    tauto

theorem start_le_of_mem_fill (h : Spaced stop start kept) : ∀ iv ∈ fill stop start kept,
    start ≤ iv.1 := by
  intro iv hiv
  rcases (mem_fill_iff h).1 hiv with hiv | gap
  · exact (h.bounds iv hiv).1
  · exact (gap.bounds h).1

/-- Filling the gaps gives the spans and the gaps around them. -/
theorem parts_fill (h : Spaced stop start kept) : Parts start stop kept (fill stop start kept) := by
  refine ⟨?_, fun iv => mem_fill_iff h⟩
  induction kept generalizing start with
  | nil =>
    unfold fill between
    split
    · exact List.pairwise_singleton _ _
    · exact .nil
  | cons span rest ih =>
    obtain ⟨le, lt, spaced⟩ := h
    have behind := start_le_of_mem_fill spaced
    rw [fill, List.pairwise_append, List.pairwise_cons]
    refine ⟨?_, ⟨behind, ih spaced⟩, fun a ha b hb => ?_⟩
    · unfold between
      split
      · exact List.pairwise_singleton _ _
      · exact .nil
    · obtain ⟨-, rfl⟩ := mem_between.1 ha
      rcases List.mem_cons.1 hb with rfl | hb
      · exact Nat.le_refl _
      · exact lt.le.trans (behind b hb)

/-! ## Spans in ascending order -/

def Before (a b : Nat × Nat) : Prop := a.1 < b.1 ∨ a.1 = b.1 ∧ a.2 ≤ b.2

def Apart (a b : Nat × Nat) : Prop := a.2 ≤ b.1 ∨ b.2 ≤ a.1

def nonemptySpans (actions : List ActionSpan) : List (Nat × Nat) :=
  (actions.filter fun s => s.enter < s.leave).map fun s => (s.enter, s.leave)

theorem sortedSpans_perm (actions : List ActionSpan) :
    (sortedSpans actions).Perm (nonemptySpans actions) := List.mergeSort_perm _ _

theorem sortedSpans_sorted (actions : List ActionSpan) :
    (sortedSpans actions).Pairwise Before := by
  have sorted : (sortedSpans actions).Pairwise fun x y =>
      decide (x.1 < y.1 ∨ (x.1 = y.1 ∧ x.2 ≤ y.2)) = true := by
    refine List.pairwise_mergeSort (fun a b c hab hbc => ?_) (fun a b => ?_) _
    · simp only [decide_eq_true_eq] at *
      omega
    · simp only [Bool.or_eq_true, decide_eq_true_eq]
      omega
  exact sorted.imp of_decide_eq_true

theorem pairwise_of_apart (sorted : spans.Pairwise Before)
    (nonempty : ∀ s ∈ spans, s.1 < s.2) (apart : spans.Pairwise Apart) :
    spans.Pairwise fun a b => a.2 ≤ b.1 := by
  refine (sorted.and apart).imp_of_mem fun ha hb h => ?_
  have := nonempty _ ha
  have := nonempty _ hb
  unfold Before Apart at h
  omega

end SymbolRegex.Tokenizer
