import SymbolRegex.Alphabet.Binding
import SymbolRegex.Proofs.Growth

/-! # Setting patterns up

Setting a pattern up gives ordinals to the texts that it mentions and that the alphabet
lacks, from left to right, and touches no other. What is set up already is set up again
without a change. The order of the patterns decides which ordinal a symbol gets, and not
which symbols there are.
-/

namespace SymbolRegex
namespace Alphabet

variable {a a' b : Alphabet} {texts more : List String}

/-- If one of the texts was new, then the alphabet was open and keeps an ordinal for the others. -/
theorem room_of_new (h : a.registerAll texts = (a', none)) (new : ¬ texts ⊆ a.texts) :
    a.frozen = false ∧ a'.size < capacity := by
  induction texts generalizing a with
  | nil => exact absurd (List.nil_subset _) new
  | cons text rest ih =>
    rw [registerAll] at h
    split at h
    · next i b hb =>
      obtain ⟨known, rfl⟩ | ⟨thawed, left, -, fresh, rfl⟩ := register_eq_ok_iff.1 hb
      · exact ih h fun sub => new (List.cons_subset.2 ⟨mem_of_ordinal? known, sub⟩)
      · have room : (a.push text fresh).size < capacity := by
          rwa [size, texts_push, List.length_append]
        have := room_of_registerAll rest room
        rw [h] at this
        exact ⟨thawed, this⟩
    · cases (Prod.mk.inj h).2

theorem exists_registerAll_of_perm (perm : texts.Perm more)
    (h : a.registerAll texts = (b, none)) :
    ∃ c, a.registerAll more = (c, none) ∧ c.texts.Perm b.texts := by
  by_cases known : texts ⊆ a.texts
  · obtain rfl : a = b := (Prod.mk.inj ((registerAll_of_subset known).symm.trans h)).1
    exact ⟨a, registerAll_of_subset fun text mem => known (perm.mem_iff.2 mem), .rfl⟩
  · obtain ⟨thawed, left⟩ := room_of_new h known
    have gathered := perm_eraseDups (perm.symm.append_left a.texts)
    rw [size, texts_of_registerAll h, append_missing, ← gathered.length_eq] at left
    obtain ⟨c, hc⟩ := exists_registerAll_of_room thawed left
    refine ⟨c, hc, ?_⟩
    rwa [texts_of_registerAll h, texts_of_registerAll hc, append_missing, append_missing]

theorem registerAll_append_eq (h : a.registerAll texts = (b, none)) (more : List String) :
    a.registerAll (texts ++ more) = b.registerAll more := by
  rw [registerAll_append, h]

/-- Setting up appends the texts that a pattern mentions and the alphabet lacks, from left to right
and each once; all ordinals stay, and the same pattern is set up again without a change. An open
alphabet takes them all while there are ordinals, or else all before the first that has none. A
closed alphabet stays as it is, and refuses the first text that it lacks. If two patterns can be set
up one after the other, then they can be in the other order, with the same symbols. -/
theorem setUp_registers (a : Alphabet) (p : TextPattern) :
    let new := a.missing p.symbols
    (∀ a', a.setUp p = (a', none) → a'.texts = a.texts ++ new ∧ a'.frozen = a.frozen ∧
      (∀ text i, a.ordinal? text = some i → a'.ordinal? text = some i) ∧
      a'.setUp p = (a', none)) ∧
    (a.frozen = false → a.size + new.length < capacity → ∃ a', a.setUp p = (a', none)) ∧
    (a.frozen = false → ∀ a' fault, a.setUp p = (a', some fault) →
      ∃ text rest, fault = .full text ∧ capacity ≤ a'.size + 1 ∧
        a.texts ++ new = a'.texts ++ text :: rest) ∧
    (a.frozen = true → a.setUp p = (a, (p.symbols.find? (· ∉ a.texts)).map .frozen) ∧
      (a.setUp p = (a, none) ↔ ∀ text ∈ p.symbols, text ∈ a.texts)) ∧
    ∀ q b b', a.setUp p = (b, none) → b.setUp q = (b', none) →
      ∃ c c', a.setUp q = (c, none) ∧ c.setUp p = (c', none) ∧ c'.texts.Perm b'.texts := by
  intro new
  simp only [setUp_eq]
  refine ⟨fun a' h => ?_, fun thawed room => exists_registerAll_of_room thawed ?_,
    fun thawed a' fault h => stop_of_registerAll thawed h, fun frozen => ?_,
    fun q b b' h h' => ?_⟩
  · have grows := a.grows_registerAll p.symbols
    rw [h] at grows
    exact ⟨texts_of_registerAll h, grows.frozen, fun text i => ordinal?_of_prefix grows.texts,
      registerAll_of_subset (subset_of_registerAll h)⟩
  · rwa [← append_missing, List.length_append]
  · rw [registerAll_frozen frozen]
    refine ⟨rfl, ?_⟩
    simp
  · have both := (registerAll_append_eq h q.symbols).trans h'
    obtain ⟨c', hc', perm⟩ := exists_registerAll_of_perm List.perm_append_comm both
    rw [registerAll_append] at hc'
    split at hc'
    · next c hc => exact ⟨c, c', hc, hc', perm⟩
    · cases (Prod.mk.inj hc').2

theorem setUp_registers_set :
    let p : TextPattern :=
      .sequence [.leaf (.set true [.literal "b", .range "a" "c"]), .leaf (.literal "b")]
    (∃ a, setUp {} p = (a, none) ∧ a.texts = ["b", "a", "c"] ∧ a.setUp p = (a, none)) ∧
      (freeze {}).setUp p = (freeze {}, some (.frozen "b")) := by
  intro p
  obtain ⟨finished, taken, -, -, -⟩ := setUp_registers {} p
  obtain ⟨-, -, -, closed, -⟩ := setUp_registers (freeze {}) p
  obtain ⟨a, ha⟩ := taken rfl (by decide)
  obtain ⟨texts, -, -, again⟩ := finished a ha
  exact ⟨⟨a, ha, texts.trans (by decide), again⟩, (closed rfl).1.trans rfl⟩

end Alphabet
end SymbolRegex
