import Mathlib.Data.Finset.Basic
import Mathlib.Data.Finset.Card
import Mathlib.Data.Finset.Range
import Mathlib.Data.List.Sort
import Mathlib.Data.List.TakeWhile
import SymbolRegex.Alphabet.OrdinalSet
import SymbolRegex.Proofs.Exploration

/-! # Sets of ordinals as sets of numbers

However a set of ordinals is put together, its words have the bits of a set of numbers
below the width and no others. All that is asked of it follows from that set alone.
-/

namespace SymbolRegex

namespace Word

variable {w : Word} {i : Nat}

theorem getLsbD_clearLowest (h : w ≠ 0) (i : Nat) :
    (w &&& (w - 1)).getLsbD i = (w.getLsbD i && !decide (i = w.ctz.toNat)) := by
  have lit : w.toNat.testBit w.ctz.toNat = true := BitVec.getLsbD_true_ctz_of_ne_zero h
  have dark : ∀ j < w.ctz.toNat, w.toNat.testBit j = false :=
    fun j hj => BitVec.getLsbD_false_of_lt_ctz hj
  generalize w.ctz.toNat = k at lit dark
  have tail : w.toNat % 2 ^ (k + 1) = 2 ^ k := by
    refine Nat.eq_of_testBit_eq fun j => ?_
    rw [Nat.testBit_mod_two_pow, Nat.testBit_two_pow]
    rcases Nat.lt_trichotomy j k with lt | rfl | gt
    · simp [dark j lt, Nat.ne_of_gt lt]
    · simp [lit]
    · simp [Nat.ne_of_lt gt, Nat.not_lt.2 gt]
  have split := Nat.div_add_mod w.toNat (2 ^ (k + 1))
  rw [tail] at split
  have pos : 1 ≤ 2 ^ k := Nat.one_le_two_pow
  have lt : 2 ^ k < 2 ^ (k + 1) := Nat.pow_lt_pow_right Nat.one_lt_two (Nat.lt_succ_self k)
  have pred : (w - 1).toNat = 2 ^ (k + 1) * (w.toNat / 2 ^ (k + 1)) + (2 ^ k - 1) := by
    have le : (1 : Word) ≤ w := by
      rw [BitVec.le_def]
      change 1 ≤ w.toNat
      omega
    rw [BitVec.toNat_sub_of_le le]
    change w.toNat - 1 = _
    omega
  rw [BitVec.getLsbD_and]
  rcases Nat.lt_trichotomy i k with less | rfl | more
  · have : w.getLsbD i = false := dark i less
    simp [this]
  · have : (w - 1).getLsbD i = false := by
      rw [BitVec.getLsbD, pred, Nat.testBit_two_pow_mul_add _ (by omega),
        if_pos (Nat.lt_succ_self i), Nat.testBit_two_pow_sub_one, decide_eq_false (Nat.lt_irrefl i)]
    rw [this]
    simp
  · have : (w - 1).getLsbD i = w.getLsbD i := by
      rw [BitVec.getLsbD, BitVec.getLsbD, pred, Nat.testBit_two_pow_mul_add _ (by omega)]
      conv_rhs => rw [← split, Nat.testBit_two_pow_mul_add _ lt]
      rw [if_neg (Nat.not_lt.2 more), if_neg (Nat.not_lt.2 more)]
    rw [this]
    simp [Nat.ne_of_gt more]

theorem mem_places : i ∈ w.places ↔ w.getLsbD i = true := by
  induction w using places.induct with
  | case1 => simp [places]
  | case2 w h ih =>
    rw [places, if_neg h, List.mem_cons, ih, getLsbD_clearLowest h]
    have lit := BitVec.getLsbD_true_ctz_of_ne_zero h
    by_cases e : i = w.ctz.toNat
    · simp [e, lit]
    · simp [e]

theorem places_ascending (w : Word) : w.places.Pairwise (· < ·) := by
  induction w using places.induct with
  | case1 => simp [places]
  | case2 w h ih =>
    rw [places, if_neg h]
    refine List.pairwise_cons.2 ⟨fun i hi => ?_, ih⟩
    rw [mem_places, getLsbD_clearLowest h, Bool.and_eq_true] at hi
    obtain ⟨lit, other⟩ := hi
    refine Nat.lt_of_le_of_ne (Nat.le_of_not_lt fun lt => ?_) ?_
    · rw [BitVec.getLsbD_false_of_lt_ctz lt] at lit
      cases lit
    · have other : i ≠ w.ctz.toNat := by simpa using other
      exact other.symm

theorem places_eq_filter (w : Word) : w.places = (List.range 64).filter w.getLsbD := by
  refine (places_ascending w).eq_of_mem_iff (List.pairwise_lt_range.filter _) fun i => ?_
  rw [mem_places, List.mem_filter, List.mem_range]
  exact ⟨fun lit => ⟨BitVec.lt_of_getLsbD lit, lit⟩, And.right⟩

theorem length_places (w : Word) : w.places.length = w.cpop.toNat := by
  have upTo (n : Nat) : w.cpopNatRec n 0 = ((List.range n).filter w.getLsbD).length := by
    induction n with
    | zero => rfl
    | succ n ih =>
      rw [BitVec.cpopNatRec_succ, BitVec.cpopNatRec_add, ih, List.range_succ, List.filter_append,
        List.length_append]
      cases lit : w.getLsbD n <;> simp [lit]
  rw [places_eq_filter, BitVec.toNat_cpop, upTo]

end Word

namespace OrdinalSet

variable {s t : OrdinalSet} {i width : Nat}

/-! ## Listing and counting -/

theorem lt_width_of_mem_places {w : Word} {k : Nat} (hw : s.words[k]? = some w)
    (h : i ∈ w.places) : 64 * k + i < s.width := by
  rw [Word.mem_places] at h
  refine Nat.lt_of_not_le fun le => ?_
  have clear := s.clear _ le
  rw [bit_mul_add hw (BitVec.lt_of_getLsbD h), h] at clear
  cases clear

/-- Members of a set that an alphabet can have are all listed. -/
theorem members_eq (h : s.width ≤ UInt32.size) :
    s.members = s.words.zipIdx.flatMap fun (w, k) => w.places.map (64 * k + ·) := by
  refine List.flatMap_congr fun ⟨w, k⟩ hw => List.takeWhile_eq_self_iff.2 fun i hi => ?_
  obtain ⟨j, hj, rfl⟩ := List.mem_map.1 hi
  have hw := List.mem_zipIdx_iff_getElem?.1 hw
  exact decide_eq_true (Nat.lt_of_lt_of_le (lt_width_of_mem_places hw hj) h)

theorem mem_members (h : s.width ≤ UInt32.size) : i ∈ s.members ↔ s.contains i = true := by
  rw [members_eq h, List.mem_flatMap, contains_eq_bit]
  constructor
  · rintro ⟨⟨w, k⟩, hw, hi⟩
    obtain ⟨j, hj, rfl⟩ := List.mem_map.1 hi
    have lit := Word.mem_places.1 hj
    rwa [bit_mul_add (List.mem_zipIdx_iff_getElem?.1 hw) (BitVec.lt_of_getLsbD lit)]
  · intro lit
    obtain ⟨w, hw, lit⟩ := exists_word lit
    exact ⟨(w, i / 64), List.mem_zipIdx_iff_getElem?.2 hw,
      List.mem_map.2 ⟨i % 64, Word.mem_places.2 lit, Nat.div_add_mod i 64⟩⟩

theorem members_ascending (h : s.width ≤ UInt32.size) : s.members.Pairwise (· < ·) := by
  rw [members_eq h, List.pairwise_flatMap]
  refine ⟨fun ⟨w, k⟩ _ => ?_, (zipIdx_pairwise s.words).imp ?_⟩
  · exact List.pairwise_map.2 ((Word.places_ascending w).imp fun lt => Nat.add_lt_add_left lt _)
  · rintro ⟨v, k⟩ ⟨w, l⟩ lt i hi j hj
    obtain ⟨a, ha, rfl⟩ := List.mem_map.1 hi
    obtain ⟨b, -, rfl⟩ := List.mem_map.1 hj
    have := BitVec.lt_of_getLsbD (Word.mem_places.1 ha)
    have : k < l := lt
    omega

theorem length_members (h : s.width ≤ UInt32.size) : s.members.length = s.count := by
  have words (ws : List Word) (k n : Nat) :
      ws.foldl (fun n w => n + w.cpop.toNat) n = n +
        ((ws.zipIdx k).flatMap fun (w, k) => w.places.map (64 * k + ·)).length := by
    induction ws generalizing k n with
    | nil => rfl
    | cons w ws ih =>
      rw [List.foldl_cons, ih (k + 1), List.zipIdx_cons, List.flatMap_cons, List.length_append,
        List.length_map, Word.length_places, Nat.add_assoc]
  rw [members_eq h, count, words, Nat.zero_add]

theorem isEmpty_iff : s.isEmpty = true ↔ ∀ i, s.contains i = false := by
  rw [isEmpty, List.all_eq_true]
  simp only [beq_iff_eq, contains_eq_bit]
  constructor
  · intro zero i
    refine Bool.eq_false_iff.2 fun lit => ?_
    obtain ⟨w, hw, lit⟩ := exists_word lit
    rw [zero w (List.mem_of_getElem? hw)] at lit
    simp at lit
  · intro clear w mem
    obtain ⟨k, hw⟩ := List.mem_iff_getElem?.1 mem
    refine BitVec.eq_of_getLsbD_eq fun j hj => ?_
    rw [← bit_mul_add hw hj, clear]
    exact BitVec.getLsbD_zero.symm

/-! ## Putting sets together -/

/-- A way to put a set together from sets of one width. -/
inductive Assembly where
  | empty
  | full
  | singleton (i : Nat)
  | insert (a : Assembly) (i : Nat)
  | erase (a : Assembly) (i : Nat)
  | union (a b : Assembly)
  | inter (a b : Assembly)
  | compl (a : Assembly)

namespace Assembly

def build (width : Nat) : Assembly → OrdinalSet
  | empty => .empty width
  | full => .full width
  | singleton i => .singleton width i
  | insert a i => (a.build width).insert i
  | erase a i => (a.build width).erase i
  | union a b => (a.build width).union (b.build width)
  | inter a b => (a.build width).inter (b.build width)
  | compl a => (a.build width).compl

def elements (width : Nat) : Assembly → Finset Nat
  | empty => ∅
  | full => .range width
  | singleton i => .range width ∩ {i}
  | insert a i => a.elements width ∪ .range width ∩ {i}
  | erase a i => (a.elements width).erase i
  | union a b => a.elements width ∪ b.elements width
  | inter a b => a.elements width ∩ b.elements width
  | compl a => .range width \ a.elements width

variable {a b : Assembly} {width' : Nat}

@[simp] theorem width_build (width : Nat) (a : Assembly) : (a.build width).width = width := by
  induction a with
  | empty | full => rfl
  | singleton i => exact width_insert _ i
  | insert a i ih => exact (width_insert _ i).trans ih
  | erase a i ih => exact (width_erase _ i).trans ih
  | union a b iha _ => exact (width_union _ _).trans iha
  | inter a b iha _ => exact (width_inter _ _).trans iha
  | compl a ih => exact ih

theorem mem_range_inter_iff {j : Nat} : i ∈ Finset.range width ∩ {j} ↔ j < width ∧ i = j := by
  rw [Finset.mem_inter, Finset.mem_range, Finset.mem_singleton]
  exact and_congr_left fun e => by rw [e]

theorem contains_build_iff : (a.build width).contains i = true ↔ i ∈ a.elements width := by
  induction a with
  | empty => simp [build, elements]
  | full => simp [build, elements]
  | singleton j =>
    rw [build, OrdinalSet.singleton, contains_insert, elements, mem_range_inter_iff, width_empty]
    simp
  | insert a j ih =>
    rw [build, contains_insert, Bool.or_eq_true, ih, width_build, elements, Finset.mem_union,
      mem_range_inter_iff]
    simp
  | erase a j ih =>
    rw [build, contains_erase, Bool.and_eq_true, ih]
    simp [elements, and_comm]
  | union a b iha ihb =>
    rw [build, contains_union (by simp), Bool.or_eq_true, iha, ihb, elements, Finset.mem_union]
  | inter a b iha ihb =>
    rw [build, contains_inter (by simp), Bool.and_eq_true, iha, ihb, elements, Finset.mem_inter]
  | compl a ih =>
    rw [build, contains_compl, width_build]
    simp [elements, ← ih]

theorem elements_subset : a.elements width ⊆ .range width := by
  intro i hi
  rw [← contains_build_iff] at hi
  simpa using lt_width_of_contains hi

theorem toFinset_members (h : width ≤ UInt32.size) :
    (a.build width).members.toFinset = a.elements width := by
  ext i
  rw [List.mem_toFinset, mem_members (by simpa), contains_build_iff]

theorem count_build (h : width ≤ UInt32.size) :
    (a.build width).count = (a.elements width).card := by
  have wide : (a.build width).width ≤ UInt32.size := by simpa
  rw [← length_members wide, ← toFinset_members h,
    List.toFinset_card_of_nodup (members_ascending wide).nodup]

theorem isEmpty_build_iff : (a.build width).isEmpty = true ↔ a.elements width = ∅ := by
  rw [isEmpty_iff, Finset.eq_empty_iff_forall_notMem]
  exact forall_congr' fun i => by rw [← contains_build_iff, Bool.not_eq_true]

theorem build_eq_iff :
    a.build width = b.build width' ↔ width = width' ∧ a.elements width = b.elements width' := by
  constructor
  · intro same
    have := congrArg OrdinalSet.width same
    refine ⟨by simpa using this, ?_⟩
    ext i
    rw [← contains_build_iff, ← contains_build_iff, same]
  · rintro ⟨rfl, same⟩
    refine eq_of_contains (by simp) fun i => Bool.eq_iff_iff.2 ?_
    rw [contains_build_iff, contains_build_iff, same]

/-- A set of ordinals is the set of numbers below its width that its making describes: no bit past
the width is set, and membership, the listing, the count, emptiness, the complement, common members
and equality are those of the numbers. -/
theorem build_behaves (h : width ≤ UInt32.size) (a : Assembly) :
    (a.build width).width = width ∧ a.elements width ⊆ .range width ∧
    (∀ k w, (a.build width).words[k]? = some w → ∀ j, width ≤ 64 * k + j → w.getLsbD j = false) ∧
    (∀ i, (a.build width).contains i = true ↔ i ∈ a.elements width) ∧
    (a.build width).members.Pairwise (· < ·) ∧
    (∀ i, i ∈ (a.build width).members ↔ i ∈ a.elements width) ∧
    (a.build width).count = (a.elements width).card ∧
    ((a.build width).isEmpty = true ↔ a.elements width = ∅) ∧
    (∀ i, (a.build width).compl.contains i = true ↔ i < width ∧ i ∉ a.elements width) ∧
    (∀ width' (b : Assembly), (a.build width).intersects (b.build width') = true ↔
      ∃ i, i ∈ a.elements width ∧ i ∈ b.elements width') ∧
    ∀ width' (b : Assembly), a.build width = b.build width' ↔
      width = width' ∧ a.elements width = b.elements width' := by
  have wide : (a.build width).width ≤ UInt32.size := by simpa
  refine ⟨width_build width a, elements_subset, fun k w hw j le => ?_, fun i => contains_build_iff,
    members_ascending wide, fun i => (mem_members wide).trans contains_build_iff, count_build h,
    isEmpty_build_iff, fun i => ?_, fun width' b => ?_, fun width' b => build_eq_iff⟩
  · refine Bool.eq_false_iff.2 fun lit => Nat.not_lt.2 le ?_
    simpa using lt_width_of_mem_places hw (Word.mem_places.2 lit)
  · rw [contains_compl, width_build, Bool.and_eq_true, decide_eq_true_eq, Bool.not_eq_true',
      ← Bool.not_eq_true, contains_build_iff]
  · rw [intersects_iff]
    simp only [contains_build_iff]

/-- All ordinals below 66 but two, in two words of which the second has two bits. -/
theorem build_behaves_negated : 66 ≤ UInt32.size ∧
    let s := (compl (insert (singleton 64) 1)).build 66
    s.count = 64 ∧ s.contains 64 = false ∧ s.contains 65 = true ∧
      ∀ w, s.words[1]? = some w → ∀ j, 2 ≤ j → w.getLsbD j = false := by
  have width : 66 ≤ UInt32.size := by decide
  obtain ⟨-, -, clear, contains, -, -, count, -⟩ :=
    build_behaves width (compl (insert (singleton 64) 1))
  refine ⟨width, count, ?_, (contains 65).2 (by decide), fun w hw j hj => clear 1 w hw j (by omega)⟩
  rw [← Bool.not_eq_true, contains]
  decide

end Assembly
end OrdinalSet
end SymbolRegex
