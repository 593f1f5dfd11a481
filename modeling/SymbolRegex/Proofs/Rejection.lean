import Mathlib.Data.Finset.Card
import SymbolRegex.Proofs.Blame
import SymbolRegex.Proofs.Filtering

/-! # What a compilation blames

Patterns that can be read leave no trace in the queue that all of them report to. So
the first pattern that cannot be read is reported as if it were read alone, and
binding, which comes after all patterns are read, can only report ranges that do not
go up.
-/

namespace SymbolRegex

namespace Queue

theorem prefix_add (q : Queue) (d : Diagnostic) : q.diagnostics <+: (q.add d).diagnostics := by
  have added := q.adds_add d
  generalize q.add d = q' at added
  cases added with
  | silenced | repeated => exact List.prefix_refl _
  | noted | queued => exact List.prefix_append _ _

theorem prefix_addAll (q : Queue) (ds : List Diagnostic) :
    q.diagnostics <+: (q.addAll ds).diagnostics := by
  induction ds generalizing q with
  | nil => exact List.prefix_refl _
  | cons d ds ih => exact (q.prefix_add d).trans (ih (q.add d))

theorem head?_addAll_new (d : Diagnostic) (ds : List Diagnostic) :
    (({} : Queue).addAll (d :: ds)).diagnostics.head? = some d := by
  have first : (({} : Queue).add d).diagnostics = [d] := rfl
  obtain ⟨more, h⟩ := (({} : Queue).add d).prefix_addAll ds
  rw [addAll_cons, ← h, first]
  rfl

theorem messages_ne_nil {q : Queue} {d : Diagnostic} (h : q.diagnostics.head? = some d) :
    q.messages ≠ [] := by
  intro none
  rw [List.map_eq_nil_iff.1 none] at h
  cases h

end Queue

theorem TextPattern.inverted?_eq_none_iff {p : TextPattern} :
    p.inverted? = none ↔ Ascending p.ranges := by
  simp [inverted?, Ascending]

namespace Compilation

variable {mode : Mode} {sets : SetTable} {byteAlphabet : Bool} {s : Finset String}
  {before after entries : List PatternEntry} {entry : PatternEntry} {output : Parser.Output}
  {outputs : List Parser.Output}

theorem ReadAs.readPattern_eq (h : ReadAs mode sets entry output) :
    readPattern mode sets entry.pattern = ⟨[], some output⟩ := by
  cases hp : parseSource mode sets entry.pattern with
  | ok o =>
    rw [ReadAs, (readPattern_of_ok hp).1] at h
    obtain rfl := Option.some.inj h
    exact (readPattern_of_ok hp).1
  | error e =>
    rw [ReadAs, output?_of_error hp] at h
    cases h

/-- What the entries are read as, up to the first that cannot be read. -/
def readable (mode : Mode) (sets : SetTable) : List PatternEntry → List Parser.Output
  | [] => []
  | entry :: rest =>
    match (readPattern mode sets entry.pattern).output? with
    | some output => output :: readable mode sets rest
    | none => []

/-- The texts that are registered before anything is bound or blamed. -/
def mentioned (mode : Mode) (sets : SetTable) (byteAlphabet : Bool) (entries : List PatternEntry) :
    List String :=
  (if byteAlphabet then Alphabet.byteTexts else []) ++
    (readable mode sets entries).flatMap (·.pattern.symbols)

theorem readable_append (reads : List.Forall₂ (ReadAs mode sets) before outputs) :
    readable mode sets (before ++ after) = outputs ++ readable mode sets after := by
  induction reads with
  | nil => rfl
  | cons h _ ih =>
    rw [List.cons_append, readable, h]
    dsimp only
    rw [ih]
    rfl

theorem exists_reads (h : ∀ e ∈ entries, (readPattern mode sets e.pattern).output?.isSome) :
    ∃ outputs, List.Forall₂ (ReadAs mode sets) entries outputs := by
  induction entries with
  | nil => exact ⟨[], .nil⟩
  | cons e entries ih =>
    rw [List.forall_mem_cons] at h
    obtain ⟨output, houtput⟩ := Option.isSome_iff_exists.1 h.1
    obtain ⟨outputs, houtputs⟩ := ih h.2
    exact ⟨output :: outputs, .cons houtput houtputs⟩

theorem map_outputs {α : Type} (reads : List.Forall₂ (ReadAs mode sets) entries outputs)
    (f : Parser.Output → α) : (outputs.map f).map some =
      entries.map fun e => (readPattern mode sets e.pattern).output?.map f := by
  induction reads with
  | nil => rfl
  | cons h _ ih =>
    rw [List.map_cons, List.map_cons, List.map_cons, ih, h]
    rfl

theorem isSome_of_reads (reads : List.Forall₂ (ReadAs mode sets) entries outputs) :
    ∀ e ∈ entries, (readPattern mode sets e.pattern).output?.isSome := by
  induction reads with
  | nil => simp
  | cons h _ ih => exact List.forall_mem_cons.2 ⟨by rw [h]; rfl, ih⟩

def invertedRanges (mode : Mode) (sets : SetTable) (entries : List PatternEntry) :
    List (String × String) :=
  entries.filterMap fun e => (readPattern mode sets e.pattern).output?.bind (·.pattern.inverted?)

theorem invertedRanges_eq (reads : List.Forall₂ (ReadAs mode sets) entries outputs) :
    invertedRanges mode sets entries = outputs.filterMap (·.pattern.inverted?) := by
  induction reads with
  | nil => rfl
  | cons h _ ih => rw [invertedRanges, List.filterMap_cons, List.filterMap_cons, h, ← ih]; rfl

theorem forall_ascending_iff : (∀ e ∈ entries, ∃ o,
      (readPattern mode sets e.pattern).output? = some o ∧ Ascending o.pattern.ranges) ↔
    (∀ e ∈ entries, (readPattern mode sets e.pattern).output?.isSome) ∧
      invertedRanges mode sets entries = [] := by
  simp only [invertedRanges, List.filterMap_eq_nil_iff, ← forall₂_and]
  refine forall₂_congr fun e _ => ?_
  cases (readPattern mode sets e.pattern).output? with
  | none => simp
  | some o => simp [TextPattern.inverted?_eq_none_iff]

theorem addEntries_of_reads (index : Nat) {engine : Engine} (queue : Queue)
    (ready : engine.Ready s) (room : s.card < Alphabet.capacity)
    (reads : List.Forall₂ (ReadAs mode sets) before outputs)
    (mem : ∀ o ∈ outputs, ∀ text ∈ o.pattern.symbols, text ∈ s) :
    ∃ engine', engine'.Ready s ∧ ∀ after,
      addEntries mode sets index engine queue (before ++ after) =
        (addEntries mode sets (index + before.length) engine' queue after).map
          fun r => (r.1, r.2.1, outputs ++ r.2.2) := by
  induction reads generalizing index engine with
  | nil =>
    refine ⟨engine, ready, fun after => ?_⟩
    rw [List.nil_append, List.length_nil, Nat.add_zero]
    cases addEntries mode sets index engine queue after <;> rfl
  | @cons entry output before outputs h _ ih =>
    rw [List.forall_mem_cons] at mem
    obtain ⟨added, i, hadd, ready⟩ := ready.add room mem.1
    obtain ⟨engine', ready', hrest⟩ := ih (index + 1) ready mem.2
    refine ⟨engine', ready', fun after => ?_⟩
    rw [List.cons_append, addEntries, h.readPattern_eq]
    dsimp only
    rw [Queue.addAll_nil, hadd]
    dsimp only
    rw [hrest after, List.length_cons, Nat.add_right_comm index 1, Nat.add_assoc index]
    cases addEntries mode sets (index + (before.length + 1)) engine' queue after <;> rfl

theorem exists_ready_start (room : s.card < Alphabet.capacity)
    (mem : ∀ text ∈ if byteAlphabet then Alphabet.byteTexts else [], text ∈ s) :
    ∃ first : Engine, (if byteAlphabet then Engine.registerBytes {} else ({}, none)) =
      (first, none) ∧ first.Ready s := by
  have new : ({} : Engine).Ready s := ⟨rfl, rfl, by simp⟩
  cases byteAlphabet with
  | false => exact ⟨{}, rfl, new⟩
  | true =>
    rw [if_pos rfl] at mem ⊢
    rw [Engine.registerBytes]
    exact new.registerAll room mem

theorem bind_of_patterns {engine : Engine} {ops : List Engine.Operation}
    (made : engine = Engine.after ops) (collecting : engine.stage = .collecting)
    (patterns : engine.patterns = outputs.map (·.pattern)) :
    let inverted := outputs.filterMap (·.pattern.inverted?)
    engine.bind.2 = inverted.map (fun r => .inverted r.1 r.2) ∧
      (engine.bind.1.isBound = true ↔ inverted = []) := by
  intro inverted
  subst made
  constructor
  · rw [(Engine.supplied_after ops).bind_faults_eq collecting, patterns, List.filterMap_map]
    rfl
  · have bound := Engine.isBound_after_bind_iff ops
    rw [Engine.after_concat, patterns, List.forall_mem_map] at bound
    refine bound.trans ?_
    simp only [inverted, List.filterMap_eq_nil_iff, TextPattern.inverted?_eq_none_iff]

section Room

variable (room : (mentioned mode sets byteAlphabet entries).toFinset.card < Alphabet.capacity)
include room

/-- The entries before some others are read, and what comes of the compilation is left to these. -/
theorem exists_addEntries (split : entries = before ++ after)
    (reads : List.Forall₂ (ReadAs mode sets) before outputs) :
    ∃ first engine : Engine,
      (if byteAlphabet then Engine.registerBytes {} else ({}, none)) = (first, none) ∧
      engine.stage = .collecting ∧
      addEntries mode sets 0 first {} entries =
        (addEntries mode sets before.length engine {} after).map
          fun r => (r.1, r.2.1, outputs ++ r.2.2) := by
  have mem (text : String) (h : text ∈ mentioned mode sets byteAlphabet entries) :
      text ∈ (mentioned mode sets byteAlphabet entries).toFinset := List.mem_toFinset.2 h
  obtain ⟨first, hfirst, ready⟩ := exists_ready_start room fun text h =>
    mem text (List.mem_append_left _ h)
  obtain ⟨engine, ready', hadd⟩ := addEntries_of_reads 0 {} ready room reads
    fun o ho text ht => mem text (List.mem_append_right _ (by
      rw [split, readable_append reads]
      exact List.mem_flatMap.2 ⟨o, List.mem_append_left _ ho, ht⟩))
  rw [Nat.zero_add] at hadd
  exact ⟨first, engine, hfirst, ready'.collecting, split ▸ hadd after⟩

/-- The first entry that cannot be read is blamed as if it were read alone. -/
theorem ofEntries_of_unreadable (split : entries = before ++ entry :: after)
    (reads : List.Forall₂ (ReadAs mode sets) before outputs)
    (unread : (readPattern mode sets entry.pattern).output? = none) :
    let alone := ({} : Queue).addAll (readPattern mode sets entry.pattern).diagnostics
    ofEntries entries mode sets byteAlphabet =
      .error (.pattern before.length entry.pattern (firstCode alone) alone.messages) := by
  intro alone
  obtain ⟨first, engine, hfirst, -, hadd⟩ := exists_addEntries room split reads
  rw [addEntries, unread] at hadd
  unfold ofEntries
  rw [hfirst]
  dsimp only
  rw [hadd]
  rfl

/-- Entries that are all read are bound, unless there are ranges among them that do not go up. -/
theorem ofEntries_of_reads (reads : List.Forall₂ (ReadAs mode sets) entries outputs) :
    let inverted := outputs.filterMap (·.pattern.inverted?)
    (inverted = [] → ∃ c, ofEntries entries mode sets byteAlphabet = .ok c ∧
      c.outputs = outputs ∧ c.engine.isBound = true) ∧
    (inverted ≠ [] → ofEntries entries mode sets byteAlphabet = .error (bindingFault
      (({} : Queue).addAll (inverted.map fun r => (BindFault.inverted r.1 r.2).diagnostic)))) := by
  intro inverted
  obtain ⟨first, engine, hfirst, collecting, hadd⟩ :=
    exists_addEntries room (List.append_nil entries).symm reads
  have hadd : addEntries mode sets 0 first {} entries = .ok (engine, {}, outputs) := by
    rw [hadd, addEntries]
    simp [Except.map]
  obtain ⟨⟨more, hmore⟩, patterns, -⟩ := addEntries_eq_ok hadd
  obtain ⟨⟨ops, hops⟩, none⟩ := exists_start {} byteAlphabet
  rw [hfirst] at hops none
  have patterns : engine.patterns = outputs.map (·.pattern) := by
    rw [patterns, none, List.nil_append]
  have made : engine = Engine.after (ops ++ more) := by
    rw [Engine.after, List.foldl_append, hops, hmore]
  obtain ⟨faults, bound⟩ := bind_of_patterns made collecting patterns
  have result : ofEntries entries mode sets byteAlphabet =
      if engine.bind.1.isBound then .ok ⟨engine.bind.1, outputs⟩
      else .error (bindingFault (({} : Queue).addAll (engine.bind.2.map BindFault.diagnostic))) := by
    unfold ofEntries
    rw [hfirst]
    dsimp only
    rw [hadd]
    rfl
  constructor
  · intro sound
    rw [if_pos (bound.2 sound)] at result
    exact ⟨_, result, rfl, bound.2 sound⟩
  · intro unsound
    rw [result, if_neg (mt bound.1 unsound), faults, List.map_map]
    rfl

/-- A compilation succeeds if all entries can be read and all ranges go up. -/
theorem exists_ofEntries_iff : (∃ c, ofEntries entries mode sets byteAlphabet = .ok c) ↔
    (∀ e ∈ entries, (readPattern mode sets e.pattern).output?.isSome) ∧
      invertedRanges mode sets entries = [] := by
  constructor
  · rintro ⟨c, h⟩
    have reads := (holds_of_ofEntries h).outputs
    refine ⟨isSome_of_reads reads, ?_⟩
    rw [invertedRanges_eq reads]
    by_contra unsound
    have failed := (ofEntries_of_reads room reads).2 unsound
    rw [h] at failed
    cases failed
  · rintro ⟨reads, sound⟩
    obtain ⟨outputs, reads⟩ := exists_reads reads
    rw [invertedRanges_eq reads] at sound
    obtain ⟨c, h, -⟩ := (ofEntries_of_reads room reads).1 sound
    exact ⟨c, h⟩

end Room

theorem exists_first_of_unreadable (unread : (readPattern mode sets entry.pattern).output? = none) :
    let alone := ({} : Queue).addAll (readPattern mode sets entry.pattern).diagnostics
    ∃ first, alone.diagnostics.head? = some first ∧ firstCode alone = first.code := by
  intro alone
  cases hp : parseSource mode sets entry.pattern with
  | ok o =>
    rw [(readPattern_of_ok hp).1] at unread
    cases unread
  | error e =>
    obtain ⟨d, ds, hd⟩ := List.exists_cons_of_ne_nil (diagnostics_ne_nil hp)
    have first : alone.diagnostics.head? = some d := by
      simp only [alone, hd]
      exact Queue.head?_addAll_new d ds
    exact ⟨d, first, by rw [firstCode, first]; rfl⟩

theorem bindingFault_inverted {ranges : List (String × String)} (h : ranges ≠ []) :
    let reported := ({} : Queue).addAll
      (ranges.map fun r => (BindFault.inverted r.1 r.2).diagnostic)
    reported.messages ≠ [] ∧ bindingFault reported = .binding .invertedRange reported.messages := by
  intro reported
  obtain ⟨r, ranges, rfl⟩ := List.exists_cons_of_ne_nil h
  have first : reported.diagnostics.head? = some (BindFault.inverted r.1 r.2).diagnostic :=
    Queue.head?_addAll_new _ _
  refine ⟨Queue.messages_ne_nil first, ?_⟩
  rw [bindingFault, firstCode, first]
  rfl

theorem Holds.isBound {c : Compilation} (h : c.Holds mode sets entries) :
    c.engine.isBound = true := by
  obtain ⟨bounds, compiled⟩ := h.compiled
  exact (Engine.isBound_eq _).2 ⟨_, compiled.stage⟩

/-- If there is room for the symbols, a compilation succeeds exactly if all its entries can be read
and all their ranges go up. The first entry that cannot be read is blamed, with what is reported
when it is read alone. If all can be read, the ranges that do not go up are blamed, the first of
each pattern. A compilation that succeeds holds a bound engine, and counts and names the actions of
each pattern. -/
theorem ofEntries_blames (mode : Mode) (sets : SetTable) (byteAlphabet : Bool)
    (entries : List PatternEntry)
    (room : (mentioned mode sets byteAlphabet entries).toFinset.card < Alphabet.capacity) :
    let result := ofEntries entries mode sets byteAlphabet
    ((∃ c, result = .ok c) ↔ ∀ e ∈ entries, ∃ o,
      (readPattern mode sets e.pattern).output? = some o ∧ Ascending o.pattern.ranges) ∧
    (∀ before entry after, entries = before ++ entry :: after →
      (∀ e ∈ before, (readPattern mode sets e.pattern).output?.isSome) →
      (readPattern mode sets entry.pattern).output? = none →
      let alone := ({} : Queue).addAll (readPattern mode sets entry.pattern).diagnostics
      alone.messages ≠ [] ∧ ∃ first ∈ alone.diagnostics.head?,
        result = .error (.pattern before.length entry.pattern first.code alone.messages)) ∧
    ((∀ e ∈ entries, (readPattern mode sets e.pattern).output?.isSome) → (∀ c, result ≠ .ok c) →
      let reported := ({} : Queue).addAll
        ((invertedRanges mode sets entries).map fun r => (BindFault.inverted r.1 r.2).diagnostic)
      reported.messages ≠ [] ∧ result = .error (.binding .invertedRange reported.messages)) ∧
    ∀ c, result = .ok c → c.engine.isBound = true ∧
      c.slotCounts.map some = entries.map (fun e =>
        (readPattern mode sets e.pattern).output?.map (·.pattern.slotCount)) ∧
      c.actionNames.map some = entries.map (fun e =>
        (readPattern mode sets e.pattern).output?.map (·.actionNames)) := by
  intro result
  refine ⟨(exists_ofEntries_iff room).trans forall_ascending_iff.symm,
    fun before entry after split reads unread => ?_, fun reads failed => ?_, fun c h => ?_⟩
  · intro alone
    obtain ⟨outputs, reads⟩ := exists_reads reads
    obtain ⟨first, head, code⟩ := exists_first_of_unreadable unread
    refine ⟨Queue.messages_ne_nil head, first, head, ?_⟩
    rw [← code]
    exact ofEntries_of_unreadable room split reads unread
  · intro reported
    have unsound : invertedRanges mode sets entries ≠ [] := by
      intro sound
      obtain ⟨c, h⟩ := (exists_ofEntries_iff room).2 ⟨reads, sound⟩
      exact failed c h
    obtain ⟨messages, fault⟩ := bindingFault_inverted unsound
    obtain ⟨outputs, reads⟩ := exists_reads reads
    refine ⟨messages, ?_⟩
    rw [← fault]
    rw [invertedRanges_eq reads] at unsound ⊢
    exact (ofEntries_of_reads room reads).2 unsound
  · have holds := holds_of_ofEntries h
    exact ⟨holds.isBound, map_outputs holds.outputs _, map_outputs holds.outputs _⟩

/-- The second pattern is a word over characters, which is reported three times and blamed once. -/
theorem ofEntries_blames_word :
    let entries : List PatternEntry := [{ pattern := "." }, { pattern := "xyz" }]
    (mentioned .char {} false entries).toFinset.card < Alphabet.capacity ∧
      ofEntries entries .char {} false = .error (.pattern 1 "xyz" .unrecognizedChar
        ["error[E0002] 1:1: unrecognized character 'x'",
          "error[E0002] 1:2: unrecognized character 'y'",
          "error[E0002] 1:3: unrecognized character 'z'"]) := by
  intro entries
  let dot : Terminal (.punct .dot) := ⟨⟨.punct .dot, ".", ⟨1, 1⟩⟩, rfl⟩
  let any : Phrase.Choice .char {} := .single (.single (.mk none (.any dot) none))
  have hread : readPattern .char {} "." = ⟨[], some ⟨.leaf .any, []⟩⟩ :=
    readPattern_of_phrase any (by decide +kernel)
  have room : (mentioned .char {} false entries).toFinset.card < Alphabet.capacity := by
    have none : mentioned .char {} false entries = [] := by
      simp only [mentioned, entries, readable, hread, readPattern_word]
      rfl
    rw [none]
    decide
  obtain ⟨-, blames, -⟩ := ofEntries_blames .char {} false entries room
  obtain ⟨-, first, head, h⟩ := blames [{ pattern := "." }] { pattern := "xyz" } [] rfl
    (by simp [hread]) (by rw [readPattern_word])
  rw [readPattern_word] at head h
  obtain rfl := Option.some.inj head
  refine ⟨room, h.trans (congrArg (Except.error ∘ ConfigFault.pattern 1 "xyz" _) ?_)⟩
  decide +kernel

end Compilation
end SymbolRegex
