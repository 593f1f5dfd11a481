import SymbolRegex.Proofs.Candidates
import SymbolRegex.Proofs.Classification
import SymbolRegex.Proofs.FirstOccurrences
import SymbolRegex.Proofs.Rejection
import SymbolRegex.Record.Symbolizer

/-! # Ambiguous tokens

A token that several patterns match stands for the symbols of all of them, and for
itself. The symbol that it has when it is read as one is the first of these, so that a
record that is classified symbol by symbol is classified from the candidates as well,
and not by a later pattern.
-/

namespace SymbolRegex

/-! ## Matches of all patterns -/

namespace Program

variable {a : Automaton} {input : List Input} {extent : Extent} {i j : Nat} {s : Scratch}
  {fragments : List Automaton.Fragment}

theorem le_of_mem_allFrom {m : Match} (h : m ∈ allFrom a input extent i s fragments) :
    i ≤ m.pattern := by
  induction fragments generalizing i s with
  | nil => exact absurd h List.not_mem_nil
  | cons fragment fragments ih =>
    rw [allFrom_cons, List.mem_append, Option.mem_toList, Option.map_eq_some_iff] at h
    rcases h with ⟨accepted, -, rfl⟩ | h
    · exact Nat.le_refl i
    · exact Nat.le_of_succ_le (ih h)

theorem allFrom_ascending :
    (allFrom a input extent i s fragments).Pairwise fun m m' => m.pattern < m'.pattern := by
  induction fragments generalizing i s with
  | nil => exact .nil
  | cons fragment fragments ih =>
    rw [allFrom_cons]
    cases (a.run fragment input extent s).1 with
    | none => exact ih
    | some accepted => exact .cons (fun m hm => le_of_mem_allFrom hm) ih

theorem exists_mem_allFrom (wf : a.WellFormed) (hstart : ∀ c ∈ fragments, c.start < a.nodeCount)
    (ready : a.Ready (stepsUpTo fragments input) s) {c : Automaton.Fragment}
    (hc : fragments[j]? = some c) (accepts : (a.lengths c input extent).Nonempty) :
    ∃ m ∈ allFrom a input extent i s fragments, m.pattern = i + j := by
  induction fragments generalizing i j s with
  | nil => cases hc
  | cons fragment fragments ih =>
    obtain ⟨hfirst, hstart⟩ := List.forall_mem_cons.1 hstart
    rw [stepsUpTo_cons] at ready
    obtain ⟨outcome, ready⟩ := Automaton.outcome_run wf hfirst input extent ready
    rw [allFrom_cons]
    cases j with
    | zero =>
      obtain rfl := Option.some_inj.1 hc
      cases hrun : (a.run fragment input extent s).1 with
      | none =>
        rw [hrun] at outcome
        exact absurd outcome accepts.ne_empty
      | some accepted => exact ⟨toMatch i accepted, List.mem_cons_self, rfl⟩
    | succ j =>
      obtain ⟨m, hm, hp⟩ := ih hstart ready hc
      exact ⟨m, List.mem_append_right _ hm, by omega⟩

end Program

namespace Engine

variable {e : Engine} {bounds : List BoundPattern} {text : String} {i : Nat}

/-- The patterns that match a text are those that recognize it, in their order. -/
theorem Compiled.mem_allTextMatches_iff (h : Compiled e bounds)
    (room : e.RoomFor text.toList.length) : i ∈ (e.allTextMatches text .whole).map (·.pattern) ↔
      e.Recognizes i (text.toList.map Char.toString) := by
  have reads := reads_text e.alphabet
  rw [List.mem_map]
  constructor
  · rintro ⟨m, hm, rfl⟩
    obtain ⟨w, p, os, admits, parses⟩ := h.parses_of_yields reads (h.yields_of_mem_all hm)
    rw [(admits_whole_iff.1 admits).2]
    exact ⟨p, parses.pattern, (Pattern.mem_language_iff 0).2 ⟨os, parses.derives⟩⟩
  · intro hr
    obtain ⟨p, hp, -⟩ := id hr
    obtain ⟨c, hc⟩ := h.exists_fragment hp
    have accepts := (h.mem_lengths_iff reads hc).2 ⟨_, admits_whole_iff.2 ⟨rfl, rfl⟩, hr⟩
    have room : e.RoomFor (text.toList.map Char.toString).length := by rwa [List.length_map]
    obtain ⟨m, hm, hi⟩ := Program.exists_mem_allFrom h.laid.wellFormed h.laid.start_lt
      (h.ready _ room) hc ⟨_, accepts⟩
    exact ⟨m, hm, hi.trans (Nat.zero_add i)⟩

/-- If a word is matched, so is an input that has its symbols among the candidates, and not by a
later pattern. -/
theorem Compiled.matchCandidates_of_matchSymbols (h : Compiled e bounds)
    {candidates : List (List String)} {w : List String} {m : Match} (room : e.RoomFor w.length)
    (mem : List.Forall₂ (fun options s => s ∈ options) candidates w)
    (hm : e.matchSymbols w .whole = some m) :
    ∃ m', e.matchCandidates candidates .whole = some m' ∧ m'.pattern ≤ m.pattern := by
  obtain ⟨n, u, admits, hr⟩ := (h.find_eq_some (reads_text e.alphabet) room hm).1.1
  rw [← (admits_whole_iff.1 admits).2] at hr
  rw [← mem.length_eq] at room
  have chooses : Chooses candidates .whole candidates.length w :=
    ⟨rfl, by rwa [List.take_length]⟩
  have reads := reads_candidates e.alphabet
  obtain ⟨m', hm'⟩ := (h.exists_find_iff reads room).2 ⟨m.pattern, _, w, chooses, hr⟩
  exact ⟨m', hm', (h.find_eq_some reads room hm').1.2 ⟨_, w, chooses, hr⟩⟩

end Engine

/-! ## Candidates -/

namespace Symbolizer

variable {s : Symbolizer} {config : SymbolizerConfig} {token : String}

theorem entrySymbols_eq_ok {index : Nat} {entries : List PatternEntry} {symbols : List String}
    (h : entrySymbols index entries = .ok symbols) :
    List.Forall₂ (fun entry symbol => entry.symbol? = some symbol) entries symbols := by
  induction entries generalizing index symbols with
  | nil =>
    obtain rfl := Except.ok.inj h
    exact .nil
  | cons entry entries ih =>
    unfold entrySymbols at h
    split at h
    · cases h
    · next symbol hsymbol =>
      obtain ⟨rest, hrest, rfl⟩ := map_eq_ok_iff.1 h
      exact .cons hsymbol (ih hrest)

/-- A symbolizer with the settings of a configuration. -/
structure Follows (s : Symbolizer) (config : SymbolizerConfig) : Prop where
  default : s.default? = config.default?
  compiled : ∃ bounds, s.engine.Compiled bounds
  length : s.engine.patterns.length = config.patterns.length
  symbols : List.Forall₂ (fun entry symbol => entry.symbol? = some symbol) config.patterns s.symbols

theorem follows_of_ofConfig (h : ofConfig config = .ok s) : s.Follows config := by
  obtain ⟨symbols, hsymbols, h⟩ := bind_eq_ok_iff.1 h
  obtain ⟨sets, -, h⟩ := bind_eq_ok_iff.1 h
  obtain ⟨compiled, hcompiled, h⟩ := bind_eq_ok_iff.1 h
  obtain rfl := Except.ok.inj h
  have holds := Compilation.holds_of_ofEntries hcompiled
  constructor
  case default => rfl
  case compiled => exact holds.compiled
  case length =>
    dsimp only
    rw [holds.patterns, List.length_map, holds.outputs.length_eq]
  case symbols => exact entrySymbols_eq_ok hsymbols

def Symbol (config : SymbolizerConfig) (i : Nat) (symbol : String) : Prop :=
  ∃ entry, config.patterns[i]? = some entry ∧ entry.symbol? = some symbol

theorem Follows.symbolOf (h : s.Follows config) {i : Nat} (lt : i < s.engine.patterns.length) :
    Symbol config i (s.symbolOf i) := by
  rw [h.length] at lt
  have hentry := List.getElem?_eq_getElem lt
  obtain ⟨symbol, hsymbol, he⟩ := exists_of_forall₂ h.symbols hentry
  refine ⟨_, hentry, ?_⟩
  rw [Symbolizer.symbolOf, List.getD_eq_getElem?_getD, hsymbol]
  exact he

/-- What a token may stand for: the symbols of the patterns that match it, and itself. -/
structure Offers (s : Symbolizer) (config : SymbolizerConfig) (token : String)
    (indices : List Nat) (symbols : List String) : Prop where
  ascending : indices.Pairwise (· < ·)
  matching : ∀ i, i ∈ indices ↔ s.engine.Recognizes i (token.toList.map Char.toString)
  named : List.Forall₂ (Symbol config) indices symbols
  candidates : s.candidates token = (symbols ++ [token]).eraseDups
  symbolize : s.symbolize token = symbols.head?.getD (config.default?.getD token)

theorem candidates_eq (s : Symbolizer) (token : String) : s.candidates token =
    (((s.engine.allTextMatches token .whole).map (s.symbolOf ·.pattern)) ++ [token]).foldl
      SetTable.appendNew [] := by
  rw [List.foldl_append]
  rfl

theorem Follows.offers (h : s.Follows config) (token : String)
    (room : s.engine.RoomFor token.toList.length) :
    ∃ indices symbols, s.Offers config token indices symbols := by
  obtain ⟨bounds, compiled⟩ := h.compiled
  refine ⟨(s.engine.allTextMatches token .whole).map (·.pattern),
    (s.engine.allTextMatches token .whole).map (s.symbolOf ·.pattern), ?_⟩
  constructor
  case ascending => exact List.pairwise_map.2 Program.allFrom_ascending
  case matching => exact fun i => compiled.mem_allTextMatches_iff room
  case named =>
    rw [List.forall₂_map_left_iff, List.forall₂_map_right_iff, List.forall₂_same]
    intro m hm
    obtain ⟨p, hp, -⟩ := (compiled.mem_allTextMatches_iff room).1 (List.mem_map_of_mem hm)
    exact h.symbolOf (List.getElem?_eq_some_iff.1 hp).1
  case candidates => rw [candidates_eq, SetTable.foldl_appendNew]
  case symbolize =>
    rw [symbolize, ← Engine.head?_allTextMatches, List.head?_map, h.default]
    cases (s.engine.allTextMatches token .whole).head? <;> rfl

theorem nodup_candidates (s : Symbolizer) (token : String) : (s.candidates token).Nodup := by
  rw [candidates_eq, SetTable.foldl_appendNew]
  exact nodup_eraseDups _

variable {indices : List Nat} {symbols : List String}

theorem Offers.mem_candidates (h : s.Offers config token indices symbols) :
    token ∈ s.candidates token := by
  rw [h.candidates, List.mem_eraseDups]
  exact List.mem_append_right _ (List.mem_singleton_self token)

/-- A token that some pattern matches, or that has no default, is read as its first candidate. -/
theorem Offers.head?_candidates (h : s.Offers config token indices symbols)
    (known : (∃ i, s.engine.Recognizes i (token.toList.map Char.toString)) ∨
      config.default? = none) : (s.candidates token).head? = some (s.symbolize token) := by
  rw [h.candidates, h.symbolize]
  cases symbols with
  | nil =>
    have default : config.default? = none := by
      refine known.resolve_left ?_
      rintro ⟨i, hi⟩
      have mem := (h.matching i).2 hi
      rw [List.forall₂_nil_right_iff.1 h.named] at mem
      exact absurd mem List.not_mem_nil
    rw [default]
    rfl
  | cons symbol symbols =>
    rw [List.cons_append, List.eraseDups_cons]
    rfl

/-- A token for which there is room stands for the symbols of the patterns that match it, each once
and in the order of their first patterns, and then for itself. If tokens are matched, or there is no
default, they are read as the first of these symbols; a record of such tokens that is classified as
they are read is classified from all their candidates as well, and not by a later pattern. -/
theorem candidates_subsume {config : SymbolizerConfig} {config' : ClassifierConfig}
    {s : Symbolizer} {c : Classifier} (hs : ofConfig config = .ok s)
    (hc : Classifier.ofConfig config' = .ok c) (tokens : List String)
    (known : ∀ token ∈ tokens, (∃ i, s.engine.Recognizes i (token.toList.map Char.toString)) ∨
      config.default? = none)
    (room : ∀ token ∈ tokens, s.engine.RoomFor token.toList.length)
    (room' : c.engine.RoomFor tokens.length) :
    (∀ token ∈ tokens, (s.candidates token).Nodup ∧ token ∈ s.candidates token ∧
      (s.candidates token).head? = some (s.symbolize token) ∧
      ∃ indices symbols, s.Offers config token indices symbols) ∧
    ∀ r, c.process (tokens.map s.symbolize) = some r →
      ∃ r', c.processCandidates (tokens.map s.candidates) = some r' ∧ r'.pattern ≤ r.pattern := by
  have follows := follows_of_ofConfig hs
  have head (token : String) (h : token ∈ tokens) :
      (s.candidates token).head? = some (s.symbolize token) := by
    obtain ⟨indices, symbols, offers⟩ := follows.offers token (room token h)
    exact offers.head?_candidates (known token h)
  constructor
  · intro token htoken
    obtain ⟨indices, symbols, offers⟩ := follows.offers token (room token htoken)
    exact ⟨s.nodup_candidates token, offers.mem_candidates, head token htoken, indices, symbols,
      offers⟩
  · intro r hr
    obtain ⟨m, hm, rfl⟩ := Option.map_eq_some_iff.1 hr
    obtain ⟨sets, -, follows'⟩ := Classifier.follows_of_ofConfig hc
    obtain ⟨bounds, compiled⟩ := follows'.compiled
    have mem : List.Forall₂ (fun options symbol => symbol ∈ options) (tokens.map s.candidates)
        (tokens.map s.symbolize) := by
      rw [List.forall₂_map_left_iff, List.forall₂_map_right_iff, List.forall₂_same]
      exact fun token h => List.mem_of_mem_head? (head token h)
    rw [← List.length_map s.symbolize] at room'
    obtain ⟨m', hm', le⟩ := compiled.matchCandidates_of_matchSymbols room' mem hm
    exact ⟨_, Option.map_eq_some_iff.2 ⟨m', hm', rfl⟩, le⟩

/-- Both patterns of the symbolizer match the token, and the classifier takes any symbol. -/
theorem candidates_subsume_two :
    let config : SymbolizerConfig := { patterns :=
      [{ pattern := ".", symbol? := some "any" }, { pattern := "'x'", symbol? := some "ex" }] }
    let config' : ClassifierConfig := { patterns := [{ pattern := "." }] }
    ∃ s c, ofConfig config = .ok s ∧ Classifier.ofConfig config' = .ok c ∧
      (s.candidates "x").head? = some (s.symbolize "x") ∧
      c.process [s.symbolize "x"] = some ⟨0, [""]⟩ ∧
      ∃ r, c.processCandidates [s.candidates "x"] = some r ∧ r.pattern ≤ 0 := by
  intro config config'
  let dot : Terminal (.punct .dot) := ⟨⟨.punct .dot, ".", ⟨1, 1⟩⟩, rfl⟩
  let x : SymbolToken .char := ⟨⟨.literal, "x", ⟨1, 1⟩⟩, .inl rfl⟩
  let any (mode : Mode) : Phrase.Choice mode {} := .single (.single (.mk none (.any dot) none))
  let d : Phrase.Choice .char {} := .single (.single (.mk none (.symbol x) none))
  have hdot : readPattern .char {} "." = ⟨[], some (any .char).output⟩ :=
    readPattern_of_phrase _ (by decide +kernel)
  have hx : readPattern .char {} "'x'" = ⟨[], some d.output⟩ :=
    readPattern_of_phrase _ (by decide +kernel)
  have hdot' : readPattern .symbol {} "." = ⟨[], some (any .symbol).output⟩ :=
    readPattern_of_phrase _ (by decide +kernel)
  let e : Engine := (Engine.add (Engine.add { alphabet := .ofBytes } (any .char).output.pattern).1
    d.output.pattern).1.bind.1
  have hc : Compilation.ofEntries config.patterns .char {} true =
      .ok ⟨e, [(any .char).output, d.output]⟩ :=
    Compilation.ofEntries_of_addEntries ((if_pos rfl).trans Engine.registerBytes_new)
      (Compilation.addEntries_cons hdot (by decide +kernel)
        (Compilation.addEntries_cons hx (by decide +kernel) rfl)) (by decide +kernel)
  have hs : ofConfig config = .ok ⟨e, ["any", "ex"], none⟩ :=
    bind_eq_ok_iff.2 ⟨_, rfl, bind_eq_ok_iff.2 ⟨{}, rfl, bind_eq_ok_iff.2 ⟨_, hc, rfl⟩⟩⟩
  let e' : Engine := (Engine.add {} (any .symbol).output.pattern).1.bind.1
  have hc' : Compilation.ofEntries config'.patterns .symbol {} false =
      .ok ⟨e', [(any .symbol).output]⟩ :=
    Compilation.ofEntries_of_addEntries rfl (Compilation.addEntries_cons hdot' rfl rfl) rfl
  have hs' : Classifier.ofConfig config' = .ok ⟨e', [[]], ""⟩ :=
    bind_eq_ok_iff.2 ⟨{}, rfl, bind_eq_ok_iff.2 ⟨_, hc', rfl⟩⟩
  have hm : e'.program.find [.symbol 0] .whole = some ⟨0, 1, []⟩ := by
    cbv
  have hr (symbol : String) : Classifier.process ⟨e', [[]], ""⟩ [symbol] = some ⟨0, [""]⟩ :=
    congrArg (Option.map _) hm
  have room : ∀ token ∈ ["x"], e.RoomFor token.toList.length := List.forall_mem_singleton.2
    ⟨numbered32_iff.2 (by decide +kernel), numbered32_iff.2 (by decide +kernel), by decide⟩
  have room' : e'.RoomFor 1 :=
    ⟨numbered32_iff.2 (by decide), numbered32_iff.2 (by decide), by decide⟩
  obtain ⟨each, record⟩ := candidates_subsume hs hs' ["x"] (fun _ _ => .inr rfl) room room'
  obtain ⟨-, -, head, -⟩ := each "x" List.mem_cons_self
  exact ⟨_, _, hs, hs', head, hr _, record _ (hr _)⟩

def crowdEntries (count : Nat) : List PatternEntry :=
  List.replicate count { pattern := ".* 'z'", symbol? := some "z" } ++
    [{ pattern := ".*", symbol? := some "last" }]

theorem exists_ofEntries_crowd (count : Nat) : ∃ c,
    Compilation.ofEntries (crowdEntries count) .char {} true = .ok c ∧
      c.engine.patterns = Engine.crowd count := by
  let dot : Terminal (.punct .dot) := ⟨⟨.punct .dot, ".", ⟨1, 1⟩⟩, rfl⟩
  let star : Terminal (.punct .star) := ⟨⟨.punct .star, "*", ⟨1, 2⟩⟩, rfl⟩
  let z : SymbolToken .char := ⟨⟨.literal, "z", ⟨1, 4⟩⟩, .inl rfl⟩
  let any : Phrase.Term .char {} := .mk none (.any dot) (some (.star star))
  let toZ : Phrase.Sequence .char {} := .more any (.single (.mk none (.symbol z) none))
  have hany : Compilation.ReadAs .char {} { pattern := ".*", symbol? := some "last" }
      ⟨Engine.anything, []⟩ :=
    congrArg Reading.output? (readPattern_of_phrase (.single (.single any)) (by decide +kernel))
  have hz : Compilation.ReadAs .char {} { pattern := ".* 'z'", symbol? := some "z" }
      ⟨Engine.anythingToZ, []⟩ :=
    congrArg Reading.output? (readPattern_of_phrase (.single toZ) (by decide +kernel))
  let outputs : List Parser.Output :=
    List.replicate count ⟨Engine.anythingToZ, []⟩ ++ [⟨Engine.anything, []⟩]
  have patterns : outputs.map (·.pattern) = Engine.crowd count := by simp [outputs, Engine.crowd]
  have of_crowd {P : TextPattern → Prop} (first : P Engine.anythingToZ) (last : P Engine.anything) :
      ∀ o ∈ outputs, P o.pattern :=
    List.forall_mem_map.1 (patterns ▸ Engine.forall_mem_crowd first last)
  have reads : List.Forall₂ (Compilation.ReadAs .char {}) (crowdEntries count) outputs := by
    refine List.rel_append ?_ (.cons hany .nil)
    clear outputs patterns of_crowd
    induction count with
    | zero => exact .nil
    | succ count ih => exact .cons hz ih
  have within : ∀ text ∈ Compilation.mentioned .char {} true (crowdEntries count),
      text ∈ Alphabet.byteTexts := by
    have readable : Compilation.readable .char {} (crowdEntries count ++ []) =
        outputs ++ Compilation.readable .char {} [] := Compilation.readable_append reads
    rw [List.append_nil, Compilation.readable, List.append_nil] at readable
    rw [Compilation.mentioned, readable]
    refine List.forall_mem_append.2 ⟨fun text h => h, List.forall_mem_flatMap.2 ?_⟩
    exact of_crowd (P := fun p => ∀ text ∈ p.symbols, text ∈ Alphabet.byteTexts)
      (by decide +kernel) (by decide +kernel)
  have room : (Compilation.mentioned .char {} true (crowdEntries count)).toFinset.card <
      Alphabet.capacity := by
    have sub : (Compilation.mentioned .char {} true (crowdEntries count)).toFinset ⊆
        Alphabet.byteTexts.toFinset := fun text h => by simpa using within text (by simpa using h)
    refine Nat.lt_of_le_of_lt ((Finset.card_le_card sub).trans (List.toFinset_card_le _)) ?_
    rw [Alphabet.length_byteTexts]
    decide
  have sound : outputs.filterMap (·.pattern.inverted?) = [] :=
    List.filterMap_eq_nil_iff.2 (of_crowd (P := fun p => p.inverted? = none) rfl rfl)
  obtain ⟨c, h, houtputs, -⟩ := (Compilation.ofEntries_of_reads room reads).1 sound
  exact ⟨c, h, (Compilation.holds_of_ofEntries h).patterns.trans (houtputs ▸ patterns)⟩

theorem exists_entrySymbols {entries : List PatternEntry} (named : ∀ e ∈ entries, e.symbol?.isSome)
    (index : Nat) : ∃ symbols, entrySymbols index entries = .ok symbols := by
  induction entries generalizing index with
  | nil => exact ⟨[], rfl⟩
  | cons entry entries ih =>
    obtain ⟨hentry, named⟩ := List.forall_mem_cons.1 named
    obtain ⟨symbol, hsymbol⟩ := Option.isSome_iff_exists.1 hentry
    obtain ⟨symbols, hsymbols⟩ := ih named (index + 1)
    exact ⟨symbol :: symbols, by rw [entrySymbols, hsymbol, hsymbols]; rfl⟩

theorem candidates_crowd {count n : Nat} (steps : count * (n + 1) + 1 = UInt32.size) :
    let config : SymbolizerConfig := { patterns := crowdEntries count }
    let token := String.ofList (List.replicate n 'a')
    ∃ s, ofConfig config = .ok s ∧ s.engine.Recognizes count (token.toList.map Char.toString) ∧
      Symbol config count "last" ∧ s.candidates token = [token] := by
  intro config token
  obtain ⟨c, hc, patterns⟩ := exists_ofEntries_crowd count
  obtain ⟨symbols, hsymbols⟩ : ∃ symbols, entrySymbols 0 config.patterns = .ok symbols := by
    refine exists_entrySymbols (List.forall_mem_append.2 ⟨fun e he => ?_, ?_⟩) 0
    · rw [List.eq_of_mem_replicate he]
      rfl
    · exact List.forall_mem_singleton.2 rfl
  have hs : ofConfig config = .ok ⟨c.engine, symbols, none⟩ :=
    bind_eq_ok_iff.2 ⟨_, hsymbols, bind_eq_ok_iff.2 ⟨{}, rfl, bind_eq_ok_iff.2 ⟨_, hc, rfl⟩⟩⟩
  obtain ⟨bounds, compiled⟩ := (Compilation.holds_of_ofEntries hc).compiled
  have none := compiled.all_crowd (reads_text _) patterns steps (fun s => eq_comm) (Eq.refl "z")
  have letter : 'a'.toString = "a" := rfl
  have chars : token.toList.map Char.toString = List.replicate n "a" := by
    rw [String.toList_ofList, List.map_replicate, letter]
  have all : c.engine.allTextMatches token .whole = [] := by
    rw [Engine.allTextMatches, Engine.charInput, chars]
    exact none
  have last : config.patterns[count]? = some { pattern := ".*", symbol? := some "last" } := by
    show (crowdEntries count)[count]? = _
    rw [crowdEntries, List.getElem?_append_right (by simp)]
    simp
  refine ⟨_, hs, Engine.recognizes_crowd patterns _, ⟨_, last, rfl⟩, ?_⟩
  rw [candidates_eq, all]
  rfl

/-- The symbol of the last pattern, which recognizes the token, is not among its candidates. -/
theorem candidates_miss_last :
    let config : SymbolizerConfig := { patterns := crowdEntries 3855 }
    let token := String.ofList (List.replicate 1114128 'a')
    ∃ s, ofConfig config = .ok s ∧ s.engine.Recognizes 3855 (token.toList.map Char.toString) ∧
      Symbol config 3855 "last" ∧ "last" ∉ s.candidates token := by
  intro config token
  have steps : 3855 * (1114128 + 1) + 1 = UInt32.size := by decide
  obtain ⟨s, hs, recognizes, symbol, only⟩ := candidates_crowd steps
  refine ⟨s, hs, recognizes, symbol, fun mem => ?_⟩
  have same : "last" = token := List.mem_singleton.1 (only ▸ mem)
  have letter : 'l' ∈ token.toList := same ▸ by decide
  rw [String.toList_ofList] at letter
  exact absurd (List.eq_of_mem_replicate letter) (by decide)

end Symbolizer
end SymbolRegex
