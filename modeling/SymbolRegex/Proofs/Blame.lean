import SymbolRegex.Proofs.Registering
import SymbolRegex.Proofs.Reporting

/-! # Why binding fails

Binding goes through the literals and ranges of a pattern from left to right and fails
at the first that is at fault: its text is not registered, or one of its ends is not,
or the range does not go up. The texts of an engine's patterns are all registered, so
there the fault of a pattern is its first range that does not go up, and an engine
reports one fault for each pattern that has one.
-/

namespace SymbolRegex

section Failures

variable {α β ε : Type} {x : Except ε α} {e : ε}

def failure? : Except ε α → Option ε
  | .ok _ => none
  | .error e => some e

theorem failure?_eq_some_iff : failure? x = some e ↔ x = .error e := by
  cases x <;> simp [failure?]

theorem failure?_eq_none_iff : failure? x = none ↔ ∃ y, x = .ok y := by
  cases x <;> simp [failure?]

theorem failure?_map (f : α → β) (x : Except ε α) : failure? (f <$> x) = failure? x := by
  cases x <;> rfl

theorem failure?_bind {f : α → Except ε β} {later : Option ε} (h : ∀ y, failure? (f y) = later)
    (x : Except ε α) : failure? (x >>= f) = (failure? x).or later := by
  cases x with
  | ok y => exact h y
  | error e => rfl

theorem failure?_bind_of_ok {f : α → Except ε β} (h : ∀ y, failure? (f y) = none)
    (x : Except ε α) : failure? (x >>= f) = failure? x := by
  rw [failure?_bind h, Option.or_none]

theorem findSome?_cons_eq_or (f : α → Option β) (x : α) (xs : List α) :
    (x :: xs).findSome? f = (f x).or (xs.findSome? f) := by
  rw [List.findSome?_cons]
  cases f x <;> rfl

theorem findSome?_flatMap {γ : Type} (f : α → List β) (g : β → Option γ) (xs : List α) :
    (xs.flatMap f).findSome? g = xs.findSome? fun x => (f x).findSome? g := by
  induction xs with
  | nil => rfl
  | cons x xs ih =>
    rw [List.flatMap_cons, List.findSome?_append, ih, findSome?_cons_eq_or]

end Failures

/-! ## What a pattern mentions -/

def Leaf.items : Leaf → List SetItem
  | literal text => [.literal text]
  | range low high => [.range low high]
  | set _ items => items
  | any => []

def TextPattern.items (p : TextPattern) : List SetItem := p.leaves.flatMap Leaf.items

/-- The first range of a pattern that does not go up. -/
def TextPattern.inverted? (p : TextPattern) : Option (String × String) :=
  p.ranges.find? fun r => r.2 ≤ r.1

theorem Leaf.symbols_eq (l : Leaf) : l.symbols = l.items.flatMap SetItem.symbols := by
  cases l <;> simp [symbols, items, SetItem.symbols]

theorem Leaf.ranges_eq (l : Leaf) : l.ranges = l.items.flatMap SetItem.ranges := by
  cases l <;> simp [ranges, items, SetItem.ranges]

namespace TextPattern

theorem symbols_eq (p : TextPattern) : p.symbols = p.items.flatMap SetItem.symbols := by
  rw [symbols, items, List.flatMap_assoc]
  exact List.flatMap_congr fun l _ => l.symbols_eq

theorem ranges_eq (p : TextPattern) : p.ranges = p.items.flatMap SetItem.ranges := by
  rw [ranges, items, List.flatMap_assoc]
  exact List.flatMap_congr fun l _ => l.ranges_eq

end TextPattern

/-! ## The fault of a pattern -/

@[simp] theorem BindFault.isError_diagnostic (fault : BindFault) :
    fault.diagnostic.isError = true := by
  cases fault <;> rfl

namespace Alphabet

/-- What is wrong with a literal or a range; of a range the lower end is looked at first. -/
inductive Blames (a : Alphabet) : SetItem → BindFault → Prop where

  | literal {text : String} : text ∉ a.texts → Blames a (.literal text) (.unregistered text)

  | low {low high : String} : low ∉ a.texts → Blames a (.range low high) (.unregistered low)

  | high {low high : String} : low ∈ a.texts → high ∉ a.texts →
      Blames a (.range low high) (.unregistered high)

  | inverted {low high : String} : low ∈ a.texts → high ∈ a.texts → high ≤ low →
      Blames a (.range low high) (.inverted low high)

/-- A fault is that of the first item that has one. -/
def BlamesFirst (a : Alphabet) (items : List SetItem) (fault : BindFault) : Prop :=
  ∃ before item after, items = before ++ item :: after ∧ a.Blames item fault ∧
    ∀ i ∈ before, ∀ f, ¬ a.Blames i f

variable {a : Alphabet} {text : String} {item : SetItem} {fault : BindFault} {p : TextPattern}

theorem bindText_of_not_mem (h : text ∉ a.texts) :
    a.bindText text = .error (.unregistered text) := by
  rw [bindText, ordinal?_eq_none_iff.2 h]

theorem bindItem_of_blames (h : a.Blames item fault) : a.bindItem item = .error fault := by
  cases h with
  | literal new =>
    rw [bindItem, bindLiteral, bindText_of_not_mem new]
    rfl
  | low new =>
    rw [bindItem, bindRange, bindText_of_not_mem new]
    rfl
  | high mem new =>
    obtain ⟨i, hi⟩ := exists_bindText_iff.2 mem
    rw [bindItem, bindRange, hi, bindText_of_not_mem new]
    rfl
  | inverted mem mem' le =>
    obtain ⟨i, hi⟩ := exists_bindText_iff.2 mem
    obtain ⟨j, hj⟩ := exists_bindText_iff.2 mem'
    rw [bindItem, bindRange, hi, hj]
    exact if_pos le

theorem exists_blames (h : ¬ ∃ set, a.bindItem item = .ok set) : ∃ fault, a.Blames item fault := by
  rw [exists_bindItem_iff] at h
  cases item with
  | literal text =>
    simp only [SetItem.symbols, SetItem.ranges, Ascending, List.cons_subset] at h
    exact ⟨_, .literal fun mem => h (by simp [mem])⟩
  | range low high =>
    by_cases mem : low ∈ a.texts
    · by_cases mem' : high ∈ a.texts
      · refine ⟨_, .inverted mem mem' ?_⟩
        by_contra up
        refine h ⟨by simp [SetItem.symbols, mem, mem'], fun r hr => ?_⟩
        rw [List.mem_singleton.1 hr]
        exact up
      · exact ⟨_, .high mem mem'⟩
    · exact ⟨_, .low mem⟩

theorem failure?_bindItem_eq_some_iff :
    failure? (a.bindItem item) = some fault ↔ a.Blames item fault := by
  rw [failure?_eq_some_iff]
  constructor
  · intro h
    obtain ⟨fault', blames⟩ : ∃ fault, a.Blames item fault :=
      exists_blames fun ⟨set, hset⟩ => by rw [h] at hset; cases hset
    rw [bindItem_of_blames blames] at h
    exact Except.error.inj h ▸ blames
  · exact bindItem_of_blames

theorem failure?_bindItem_eq_none_iff :
    failure? (a.bindItem item) = none ↔ ∀ fault, ¬ a.Blames item fault := by
  rw [Option.eq_none_iff_forall_ne_some]
  exact forall_congr' fun _ => not_congr failure?_bindItem_eq_some_iff

theorem failure?_bindItems (a : Alphabet) (start : OrdinalSet) (items : List SetItem) :
    failure? (a.bindItems start items) =
      items.findSome? fun item => failure? (a.bindItem item) := by
  induction items generalizing start with
  | nil => rfl
  | cons item items ih =>
    rw [findSome?_cons_eq_or]
    exact failure?_bind (fun set => ih _) (a.bindItem item)

theorem failure?_bindLeaf (a : Alphabet) (l : Leaf) :
    failure? (a.bindLeaf l) = l.items.findSome? fun item => failure? (a.bindItem item) := by
  cases l with
  | literal text =>
    rw [Leaf.items, findSome?_cons_eq_or]
    exact (Option.or_none).symm
  | range low high =>
    rw [Leaf.items, findSome?_cons_eq_or]
    exact (Option.or_none).symm
  | set negated items =>
    rw [Leaf.items, ← failure?_bindItems a (.empty a.width) items]
    exact failure?_bind_of_ok (fun _ => rfl) _
  | any => rfl

end Alphabet

namespace Pattern

variable {α β ε : Type} {f : α → Except ε β}

mutual

/-- A pattern fails where its first leaf does. -/
theorem failure?_mapLeaves : ∀ p : Pattern α,
    failure? (p.mapLeaves f) = p.leaves.findSome? fun l => failure? (f l)
  | .leaf l => by
    rw [mapLeaves, leaves, failure?_map, findSome?_cons_eq_or]
    exact (Option.or_none).symm
  | .sequence ps => (failure?_map _ _).trans (failure?_mapAllLeaves ps)
  | .choice ps => (failure?_map _ _).trans (failure?_mapAllLeaves ps)
  | .optional p => (failure?_map _ _).trans (failure?_mapLeaves p)
  | .counted p _ _ => (failure?_map _ _).trans (failure?_mapLeaves p)
  | .oneOrMore p => (failure?_map _ _).trans (failure?_mapLeaves p)
  | .zeroOrMore p => (failure?_map _ _).trans (failure?_mapLeaves p)
  | .action _ p => (failure?_map _ _).trans (failure?_mapLeaves p)

theorem failure?_mapAllLeaves : ∀ ps : List (Pattern α),
    failure? (mapAllLeaves f ps) = (allLeaves ps).findSome? fun l => failure? (f l)
  | [] => rfl
  | p :: ps => by
    rw [allLeaves, List.findSome?_append, ← failure?_mapLeaves p, ← failure?_mapAllLeaves ps]
    refine failure?_bind (fun q => ?_) (p.mapLeaves f)
    exact failure?_bind_of_ok (fun _ => rfl) _

end

end Pattern

namespace Alphabet

variable {a : Alphabet} {fault : BindFault} {p : TextPattern}

theorem failure?_bindPattern (a : Alphabet) (p : TextPattern) :
    failure? (a.bindPattern p) = p.items.findSome? fun item => failure? (a.bindItem item) := by
  rw [bindPattern, Pattern.failure?_mapLeaves, TextPattern.items, findSome?_flatMap]
  simp only [failure?_bindLeaf]

theorem bindPattern_eq_error_iff :
    a.bindPattern p = .error fault ↔ a.BlamesFirst p.items fault := by
  rw [← failure?_eq_some_iff, failure?_bindPattern, List.findSome?_eq_some_iff]
  simp only [failure?_bindItem_eq_some_iff, failure?_bindItem_eq_none_iff]
  rfl

theorem exists_bindPattern_iff_blames :
    (∃ b, a.bindPattern p = .ok b) ↔ ∀ item ∈ p.items, ∀ fault, ¬ a.Blames item fault := by
  rw [← failure?_eq_none_iff, failure?_bindPattern, List.findSome?_eq_none_iff]
  simp only [failure?_bindItem_eq_none_iff]

theorem findSome?_failure?_of_known {items : List SetItem}
    (known : items.flatMap SetItem.symbols ⊆ a.texts) :
    items.findSome? (fun item => failure? (a.bindItem item)) =
      ((items.flatMap SetItem.ranges).find? fun r => r.2 ≤ r.1).map
        fun r => .inverted r.1 r.2 := by
  induction items with
  | nil => rfl
  | cons item items ih =>
    rw [List.flatMap_cons, List.append_subset] at known
    rw [findSome?_cons_eq_or, ih known.2, List.flatMap_cons, List.find?_append, Option.map_or]
    congr 1
    have known := known.1
    cases item with
    | literal text =>
      rw [SetItem.symbols, List.cons_subset] at known
      refine failure?_bindItem_eq_none_iff.2 fun fault blames => ?_
      cases blames with
      | literal new => exact new known.1
    | range low high =>
      simp only [SetItem.symbols, List.cons_subset, List.nil_subset, and_true] at known
      by_cases le : high ≤ low
      · rw [failure?_bindItem_eq_some_iff.2 (.inverted known.1 known.2 le)]
        simp [SetItem.ranges, le]
      · have sound : failure? (a.bindItem (.range low high)) = none := by
          refine failure?_bindItem_eq_none_iff.2 fun fault blames => ?_
          cases blames with
          | low new => exact new known.1
          | high _ new => exact new known.2
          | inverted _ _ le' => exact le le'
        rw [sound]
        simp [SetItem.ranges, le]

theorem failure?_bindPattern_of_known (known : p.symbols ⊆ a.texts) :
    failure? (a.bindPattern p) = p.inverted?.map fun r => .inverted r.1 r.2 := by
  rw [TextPattern.symbols_eq] at known
  rw [failure?_bindPattern, findSome?_failure?_of_known known, TextPattern.inverted?,
    TextPattern.ranges_eq]

end Alphabet

/-! ## The faults of an engine -/

namespace Engine

variable {e : Engine}

theorem getD_failure?_bindAll (a : Alphabet) (ps : List TextPattern) :
    (failure? (bindAll a ps)).getD [] = ps.filterMap fun p => failure? (a.bindPattern p) := by
  induction ps with
  | nil => rfl
  | cons p ps ih =>
    rw [bindAll, List.filterMap_cons, ← ih]
    cases a.bindPattern p <;> cases bindAll a ps <;> rfl

theorem bind_faults_eq (hs : e.stage = .collecting) :
    e.bind.2 = e.patterns.filterMap fun p => failure? (e.alphabet.freeze.bindPattern p) := by
  rw [← getD_failure?_bindAll, bind, hs]
  dsimp only
  cases bindAll e.alphabet.freeze e.patterns <;> rfl

theorem stage_after {ops : List Operation} (h : .bind ∉ ops) :
    (after ops).stage = .collecting := by
  induction ops using List.reverseRecOn with
  | nil => rfl
  | append_singleton ops op ih =>
    rw [List.mem_append, not_or, List.mem_singleton] at h
    rw [after_concat, stage_perform _ (Ne.symm h.2)]
    exact ih h.1

/-- The faults of the patterns of an engine are ranges that do not go up, at most one for each. -/
theorem Supplied.bind_faults_eq (supplied : e.Supplied) (hs : e.stage = .collecting) :
    e.bind.2 = (e.patterns.filterMap TextPattern.inverted?).map fun r => .inverted r.1 r.2 := by
  rw [Engine.bind_faults_eq hs, List.map_filterMap]
  apply List.filterMap_congr
  intro p hp
  exact Alphabet.failure?_bindPattern_of_known (a := e.alphabet.freeze) (supplied.known p hp)

theorem exists_eq_inverted (supplied : e.Supplied) {fault : BindFault} (h : fault ∈ e.bind.2) :
    ∃ low high, fault = .inverted low high := by
  by_cases hs : e.stage = .collecting
  · rw [supplied.bind_faults_eq hs] at h
    obtain ⟨r, -, rfl⟩ := List.mem_map.1 h
    exact ⟨r.1, r.2, rfl⟩
  · rw [bind_of_ne_collecting hs] at h
    exact absurd h List.not_mem_nil

/-- Binding a pattern fails exactly if one of its literals or ranges is at fault, and what it
reports is the fault of the first of these. An engine can be bound exactly if all ranges of its
patterns go up; otherwise it reports for each pattern, in their order, the first range that does
not, and nothing else. -/
theorem binding_reports_first_faults (q : Queue) (hq : q.config = .unlimited) :
    (∀ (a : Alphabet) (p : TextPattern),
      let q' := q.addAll ((failure? (a.bindPattern p)).toList.map BindFault.diagnostic)
      ((∃ b, a.bindPattern p = .ok b) ↔ ∀ item ∈ p.items, ∀ fault, ¬ a.Blames item fault) ∧
      ((∃ b, a.bindPattern p = .ok b) → q' = q) ∧
      ∀ fault, a.bindPattern p = .error fault → a.BlamesFirst p.items fault ∧
        q'.diagnostics = q.diagnostics ++ [fault.diagnostic] ∧
        q'.errorCount = q.errorCount + 1) ∧
    ∀ ops : List Operation,
      let reported := (after ops).offers (.change .bind)
      ((after (ops ++ [.bind])).isBound = true ↔
        ∀ p ∈ (after ops).patterns, ∀ r ∈ p.ranges, ¬ r.2 ≤ r.1) ∧
      (∀ d ∈ reported, d.code = .invertedRange) ∧
      (.bind ∉ ops → (q.addAll reported).diagnostics = q.diagnostics ++
        ((after ops).patterns.filterMap TextPattern.inverted?).map
          fun r => (BindFault.inverted r.1 r.2).diagnostic) := by
  constructor
  · intro a p q'
    refine ⟨Alphabet.exists_bindPattern_iff_blames, ?_, fun fault h => ?_⟩
    · rintro ⟨b, hb⟩
      simp only [q', hb]
      rfl
    · refine ⟨Alphabet.bindPattern_eq_error_iff.1 h, ?_⟩
      simp only [q', h]
      rw [Queue.addAll_unlimited _ hq]
      simp [failure?]
  · intro ops reported
    have supplied := supplied_after ops
    refine ⟨isBound_after_bind_iff ops, fun d hd => ?_, fun first => ?_⟩
    · obtain ⟨fault, hfault, rfl⟩ := List.mem_map.1 hd
      obtain ⟨low, high, rfl⟩ := exists_eq_inverted supplied hfault
      rfl
    · rw [Queue.addAll_unlimited _ hq]
      simp only [reported, offers, supplied.bind_faults_eq (stage_after first), List.map_map]
      rfl

/-- The calls for two patterns that cannot be bound, one of them with two reasons, and one between
them that can. -/
def descending : List Operation :=
  [.add (.sequence [.leaf (.range "b" "a"), .leaf (.range "d" "c")]),
    .add (.leaf (.literal "x")),
    .add (.optional (.leaf (.set true [.literal "x", .range "x" "x"])))]

theorem binding_reports_first_faults_descending :
    let q : Queue := { config := .unlimited }
    q.config = .unlimited ∧
      (q.addAll ((after descending).offers (.change .bind))).messages =
        ["error[E2001]: invalid range `b`-`a`\n  = note: the upper bound must sort after the lower bound",
          "error[E2001]: invalid range `x`-`x`\n  = note: the upper bound must sort after the lower bound"] := by
  intro q
  obtain ⟨-, -, reports⟩ := (binding_reports_first_faults q rfl).2 descending
  refine ⟨rfl, ?_⟩
  rw [Queue.messages, reports (by simp [descending])]
  decide +kernel

end Engine

end SymbolRegex
