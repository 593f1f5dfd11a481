import SymbolRegex.Proofs.Gaps

/-! # Splitting words at spans

The first pattern that matches all of a word gives the spans at which it is split. Each
word of a record is split for itself, wherever it stands.
-/

namespace SymbolRegex.Tokenizer

variable {word : List Char}

/-! ## The match of a word -/

variable {t : Tokenizer} {sets : SetTable} {entries : List PatternEntry} {e? : Option Engine}
  {m : Match}

inductive Built (sets : SetTable) : List PatternEntry → Option Engine → Prop where

  | none : Built sets [] none

  | some {entries : List PatternEntry} {c : Compilation} : c.Holds .char sets entries →
      Built sets entries (some c.engine)

theorem built_engine? (h : engine? sets entries = .ok e?) : Built sets entries e? := by
  unfold engine? at h
  split at h
  · next none =>
    obtain rfl := Except.ok.inj h
    obtain rfl := List.isEmpty_iff.1 none
    exact .none
  · obtain ⟨c, hc, rfl⟩ := map_eq_ok_iff.1 h
    exact .some (Compilation.holds_of_ofEntries hc)

/-- Some pattern matches all of a word. -/
def Matches (e? : Option Engine) (word : List Char) : Prop :=
  ∃ e ∈ e?, ∃ i, e.Recognizes i (word.map Char.toString)

theorem matchText_ofList (e : Engine) (word : List Char) : e.matchText (.ofList word) .whole =
    e.program.find (e.symbolInput (word.map Char.toString)) .whole := by
  rw [Engine.matchText, Engine.charInput, String.toList_ofList]

/-- There is room for a word in every engine. -/
def RoomFor (e? : Option Engine) (word : List Char) : Prop :=
  ∀ e ∈ e?, e.RoomFor (word.map Char.toString).length

theorem isSome_matchWord?_iff (ready : Ready e?) (room : RoomFor e? word) :
    (matchWord? e? word).isSome ↔ Matches e? word := by
  cases e? with
  | none => simp [matchWord?, Matches]
  | some e =>
    obtain ⟨bounds, compiled⟩ := ready e rfl
    have found :
        (∃ m, e.program.find (e.symbolInput (word.map Char.toString)) .whole = some m) ↔ _ :=
      compiled.exists_find_iff (reads_text e.alphabet) (room e rfl)
    simp only [Engine.exists_admits_whole_iff] at found
    simp only [matchWord?, Option.bind_eq_bind, Option.bind_some, matchText_ofList,
      Option.isSome_iff_exists, Matches, Option.mem_some_iff, exists_eq_left']
    exact found

theorem exists_explained_of_matchWord? (ready : Ready e?) (h : matchWord? e? word = some m) :
    ∃ e ∈ e?, ((e.allTextMatches (.ofList word) .whole).head? = some m ∧
        (RoomFor e? word → IsLeast {i | e.Recognizes i (word.map Char.toString)} m.pattern)) ∧
      ∃ p os, e.Explained m (word.map Char.toString) p os := by
  obtain ⟨e, he, hm⟩ := Option.bind_eq_some_iff.1 h
  obtain ⟨bounds, compiled⟩ := ready e he
  have first : (e.allTextMatches (.ofList word) .whole).head? = some m :=
    (e.head?_allTextMatches ..).trans hm
  rw [matchText_ofList] at hm
  have least (room : RoomFor e? word) :
      IsLeast {i | e.Recognizes i (word.map Char.toString)} m.pattern := by
    have := (compiled.find_eq_some (reads_text e.alphabet) (room e he) hm).1
    simpa only [Engine.exists_admits_whole_iff] using this
  obtain ⟨p, os, explained⟩ := compiled.explained_symbols (compiled.yields_of_find hm)
  obtain ⟨w, -, -, admits, -⟩ := compiled.parses_of_yields (reads_text e.alphabet)
    (compiled.yields_of_find hm)
  rw [(Engine.admits_whole_iff.1 admits).1, List.take_length] at explained
  exact ⟨e, he, ⟨first, least⟩, p, os, explained⟩

/-! ## Words of a record -/

variable {before after : List Char}

theorem takeWhile_append_of_head {p : Char → Bool} (h : ∀ d ∈ after.head?, p d = false)
    (before : List Char) : (before ++ after).takeWhile p = before.takeWhile p ∧
      (before ++ after).dropWhile p = before.dropWhile p ++ after := by
  induction before with
  | nil =>
    cases after with
    | nil => exact ⟨rfl, rfl⟩
    | cons d after => simp [h d rfl]
  | cons c before ih => cases hc : p c <;> simp [hc, ih]

theorem pieces_append (h : ∀ d ∈ after.head?, t.isWordChar d = false) :
    t.pieces (before ++ after) = t.pieces before ++ t.pieces after := by
  fun_induction t.pieces before with
  | case1 => rfl
  | case2 c rest hf ih =>
    rw [List.cons_append, pieces, if_pos hf, ih]
    rfl
  | case3 c rest hf hw ih => rw [List.cons_append, pieces, if_neg hf, if_pos hw, ih]
  | case4 c rest hf hw ih =>
    obtain ⟨take, drop⟩ := takeWhile_append_of_head h rest
    rw [List.cons_append, pieces, if_neg hf, if_neg hw, take, drop, ih]
    rfl

theorem pieces_cons {c : Char} (h : t.isWordChar c = false) (cs : List Char) :
    t.pieces (c :: cs) = t.pieces [c] ++ t.pieces cs := by
  rw [← Bool.not_eq_true, isWordChar_iff, not_and_or, not_not, not_not] at h
  rw [pieces, pieces, pieces]
  by_cases hf : t.framing.contains c
  · rw [if_pos hf, if_pos hf]
    rfl
  · have hw : t.whitespace.contains c :=
      List.contains_iff_mem.2 (h.resolve_left (mt List.contains_iff_mem.2 hf))
    rw [if_neg hf, if_neg hf, if_pos hw, if_pos hw]
    rfl

theorem pieces_word (ne : word ≠ []) (h : ∀ c ∈ word, t.isWordChar c = true) :
    t.pieces word = [.word word] := by
  obtain ⟨c, cs, rfl⟩ := List.exists_cons_of_ne_nil ne
  obtain ⟨hc, hcs⟩ := List.forall_mem_cons.1 h
  obtain ⟨hf, hw⟩ := isWordChar_iff.1 hc
  rw [pieces, if_neg (mt List.contains_iff_mem.1 hf), if_neg (mt List.contains_iff_mem.1 hw),
    List.takeWhile_eq_self_iff.2 hcs, List.dropWhile_eq_nil_iff.2 hcs, pieces]

/-- A word that is as long as possible is a piece of its own. -/
theorem pieces_around (ne : word ≠ []) (h : ∀ c ∈ word, t.isWordChar c = true)
    (hbefore : ∀ c ∈ before.getLast?, t.isWordChar c = false)
    (hafter : ∀ c ∈ after.head?, t.isWordChar c = false) :
    t.pieces (before ++ (word ++ after)) = t.pieces before ++ .word word :: t.pieces after := by
  have behind : t.pieces (word ++ after) = .word word :: t.pieces after := by
    rw [pieces_append hafter, pieces_word ne h]
    rfl
  rcases before.eq_nil_or_concat with rfl | ⟨cs, c, rfl⟩
  · rw [List.nil_append, behind, pieces, List.nil_append]
  · rw [List.concat_eq_append] at hbefore ⊢
    have hc : t.isWordChar c = false := hbefore c (by simp)
    have head {ds : List Char} : ∀ d ∈ (c :: ds).head?, t.isWordChar d = false := by
      simpa using hc
    rw [List.append_assoc, List.singleton_append, pieces_append head, pieces_append head,
      pieces_cons hc, behind, List.append_assoc]

/-- A word is split for itself, wherever it stands in a record. -/
theorem tokenize_around (ne : word ≠ []) (h : ∀ c ∈ word, t.isWordChar c = true)
    (hbefore : ∀ c ∈ before.getLast?, t.isWordChar c = false)
    (hafter : ∀ c ∈ after.head?, t.isWordChar c = false) :
    t.tokenize (.ofList (before ++ (word ++ after))) = t.tokenize (.ofList before) ++
      ((t.splitWord word).map .ofList ++ t.tokenize (.ofList after)) := by
  simp only [tokenize, String.toList_ofList, pieces_around ne h hbefore hafter, List.flatMap_append,
    List.flatMap_cons, List.map_append, pieceTokens]

/-! ## How a word is split -/

theorem splitWord_eq_self
    (h : (matchWord? t.keep? word).isSome ∨ ¬ (matchWord? t.split? word).isSome) :
    t.splitWord word = [word] := by
  unfold splitWord
  rcases h with kept | unsplit
  · rw [if_pos kept]
  · rw [Option.not_isSome_iff_eq_none.1 unsplit]
    split <;> rfl

theorem splitWord_of_match (unkept : ¬ (matchWord? t.keep? word).isSome)
    (h : matchWord? t.split? word = some m) :
    t.splitWord word = cutAt word 0 (sortedSpans m.actions) := by
  rw [splitWord, if_neg unkept, h]

theorem exists_parts (within : Within word (sortedSpans m.actions)) :
    ∃ ivs, Parts 0 word.length ((sortedSpans m.actions).foldl keep []) ivs ∧
      cutAt word 0 (sortedSpans m.actions) = ivs.map fun iv => slice word iv.1 iv.2 := by
  have kept : (sortedSpans m.actions).foldl keep [] = keptFrom 0 (sortedSpans m.actions) :=
    foldl_keep [] _
  rw [kept]
  exact ⟨_, parts_fill (spaced_keptFrom within (Nat.zero_le _)), cutAt_eq⟩

theorem foldl_keep_of_apart (within : Within word (sortedSpans m.actions))
    (apart : (nonemptySpans m.actions).Pairwise Apart) :
    (sortedSpans m.actions).foldl keep [] = sortedSpans m.actions := by
  have apart : (sortedSpans m.actions).Pairwise Apart :=
    ((sortedSpans_perm m.actions).pairwise_iff Or.symm).2 apart
  have ordered :=
    pairwise_of_apart (sortedSpans_sorted m.actions) (fun s hs => (within s hs).1) apart
  exact (foldl_keep [] _).trans (keptFrom_eq_self ordered fun _ _ => Nat.zero_le _)

/-- Every word of a record, wherever it stands, is split for itself. It is one token if a pattern
for words that are kept is found to match all of it, or no pattern for words that are split is.
Otherwise the first such pattern gives the spans: those that are not empty are put in order, those
that start before the end of the last one kept are dropped, and the tokens are the rest and the gaps
around them. Spans that are apart are all tokens of their own. The tokens can be cut out of the text
of the word. Where there is room for a word, the patterns that are found are those whose language it
is in. -/
theorem splitWord_at_spans {config : TokenizerConfig} (h : ofConfig config = .ok t) :
    (∃ sets, SetTable.ofDefinitions {} config.sets = .ok sets ∧
      Built sets config.patterns t.split? ∧ Built sets config.nosplit t.keep?) ∧
    (∀ before word after : List Char, word ≠ [] →
      (∀ c ∈ word, c ∉ config.framing.toList ∧ c ∉ config.whitespace.toList) →
      (∀ c ∈ before.getLast?, c ∈ config.framing.toList ∨ c ∈ config.whitespace.toList) →
      (∀ c ∈ after.head?, c ∈ config.framing.toList ∨ c ∈ config.whitespace.toList) →
      t.tokenize (.ofList (before ++ (word ++ after))) = t.tokenize (.ofList before) ++
        ((t.splitWord word).map .ofList ++ t.tokenize (.ofList after))) ∧
    ∀ word,
      (∀ e? ∈ [t.keep?, t.split?], RoomFor e? word →
        ((matchWord? e? word).isSome ↔ Matches e? word)) ∧
      ((matchWord? t.keep? word).isSome ∨ ¬ (matchWord? t.split? word).isSome →
        t.splitWord word = [word]) ∧
      (¬ (matchWord? t.keep? word).isSome → ∀ m, matchWord? t.split? word = some m →
        (∃ e ∈ t.split?, ((e.allTextMatches (.ofList word) .whole).head? = some m ∧
            (RoomFor t.split? word →
              IsLeast {i | e.Recognizes i (word.map Char.toString)} m.pattern)) ∧
          ∃ p os, e.Explained m (word.map Char.toString) p os) ∧
        ∃ sorted ivs : List (Nat × Nat),
          sorted.Perm (nonemptySpans m.actions) ∧ sorted.Pairwise Before ∧
          Parts 0 word.length (sorted.foldl keep []) ivs ∧
          t.splitWord word = ivs.map (fun iv => slice word iv.1 iv.2) ∧
          ((nonemptySpans m.actions).Pairwise Apart → ∀ s ∈ nonemptySpans m.actions, s ∈ ivs)) ∧
      t.splitText? word = some ((t.splitWord word).map .ofList) := by
  have follows := follows_of_ofConfig h
  obtain ⟨sets, hsets, h⟩ := bind_eq_ok_iff.1 h
  obtain ⟨split?, hsplit, h⟩ := bind_eq_ok_iff.1 h
  obtain ⟨keep?, hkeep, h⟩ := bind_eq_ok_iff.1 h
  obtain rfl := Except.ok.inj h
  have split := ready_engine? hsplit
  have kept := ready_engine? hkeep
  refine ⟨⟨sets, hsets, built_engine? hsplit, built_engine? hkeep⟩, ?_,
    fun word => ⟨?_, splitWord_eq_self, fun unkept m hm => ?_, splitText?_eq split word⟩⟩
  · rw [← follows.framing, ← follows.whitespace]
    intro before word after ne hword hbefore hafter
    have outside {c : Char} (hc : c ∈ config.framing.toList ∨ c ∈ config.whitespace.toList) :
        isWordChar ⟨config.whitespace.toList, config.framing.toList, split?, keep?⟩ c = false := by
      rw [← Bool.not_eq_true, isWordChar_iff, not_and_or, not_not, not_not]
      exact hc
    exact tokenize_around ne (fun c hc => isWordChar_iff.2 (hword c hc))
      (fun c hc => outside (hbefore c hc)) (fun c hc => outside (hafter c hc))
  · simp only [List.forall_mem_cons, List.not_mem_nil, false_implies, implies_true, and_true]
    exact ⟨isSome_matchWord?_iff kept, isSome_matchWord?_iff split⟩
  · have within := within_sortedSpans split hm
    obtain ⟨ivs, parts, cut⟩ := exists_parts within
    refine ⟨exists_explained_of_matchWord? split hm, sortedSpans m.actions, ivs,
      sortedSpans_perm _, sortedSpans_sorted _, parts, ?_, fun apart s hs => ?_⟩
    · exact (splitWord_of_match unkept hm).trans cut
    · rw [parts.mem_iff, foldl_keep_of_apart within apart]
      exact .inl ((sortedSpans_perm _).mem_iff.2 hs)

/-- The word `né` is split before its second character, between a blank and a comma. -/
theorem splitWord_at_spans_second :
    let config : TokenizerConfig := { framing := ",", patterns := [{ pattern := ". =." }] }
    ∃ t, ofConfig config = .ok t ∧
      t.tokenize (.ofList ['à', ' ', 'n', 'é', ',', 'x']) = t.tokenize (.ofList ['à', ' ']) ++
        ((t.splitWord ['n', 'é']).map .ofList ++ t.tokenize (.ofList [',', 'x'])) ∧
      (matchWord? t.split? ['n', 'é']).isSome ∧
      ∃ kept ivs, Parts 0 2 kept ivs ∧
        t.splitWord ['n', 'é'] = ivs.map fun iv => slice ['n', 'é'] iv.1 iv.2 := by
  intro config
  let first : Terminal (.punct .dot) := ⟨⟨.punct .dot, ".", ⟨1, 1⟩⟩, rfl⟩
  let equals : Terminal (.punct .equals) := ⟨⟨.punct .equals, "=", ⟨1, 3⟩⟩, rfl⟩
  let second : Terminal (.punct .dot) := ⟨⟨.punct .dot, ".", ⟨1, 4⟩⟩, rfl⟩
  let d : Phrase.Choice .char {} := .single (.more (.mk none (.any first) none)
    (.single (.mk (some (.char equals)) (.any second) none)))
  let p : TextPattern := .sequence [.leaf .any, .action 0 (.leaf .any)]
  have hread : readPattern .char {} ". =." = ⟨[], some ⟨p, []⟩⟩ :=
    readPattern_of_phrase d (by decide +kernel)
  let e : Engine := (Engine.add { alphabet := .ofBytes } p).1.bind.1
  have hc : Compilation.ofEntries config.patterns .char {} true = .ok ⟨e, [⟨p, []⟩]⟩ :=
    Compilation.ofEntries_of_addEntries ((if_pos rfl).trans Engine.registerBytes_new)
      (Compilation.addEntries_cons hread (by decide +kernel) rfl) (by decide +kernel)
  have split := engine?_of_ofEntries (List.cons_ne_nil _ _) hc
  have ht : ofConfig config = .ok ⟨" \t\r\n".toList, ",".toList, some e, none⟩ :=
    bind_eq_ok_iff.2 ⟨{}, rfl, bind_eq_ok_iff.2 ⟨_, split, bind_eq_ok_iff.2 ⟨none, rfl, rfl⟩⟩⟩
  obtain ⟨-, around, words⟩ := splitWord_at_spans ht
  have derived : p.Derives (Leaf.Accepts e.alphabet) 0 ["n", "é"] _ :=
    .cons (.leaf trivial) (.cons (.action (.leaf trivial)) .nil)
  have found : Matches (some e) ['n', 'é'] :=
    ⟨e, rfl, 0, p, rfl, (Pattern.mem_language_iff 0).2 ⟨_, derived⟩⟩
  obtain ⟨verdict, -, cut, -⟩ := words ['n', 'é']
  have room : RoomFor (some e) ['n', 'é'] := by
    rintro _ ⟨⟩
    exact ⟨numbered32_iff.2 (by decide +kernel), numbered32_iff.2 (by decide +kernel), by decide⟩
  have matched := (verdict (some e) (by simp) room).2 found
  obtain ⟨m, hm⟩ := Option.isSome_iff_exists.1 matched
  obtain ⟨-, sorted, ivs, -, -, parts, tokens, -⟩ := cut (by simp [matchWord?]) m hm
  refine ⟨_, ht, ?_, matched, _, ivs, parts, tokens⟩
  have framing : config.framing.toList = [','] := by decide +kernel
  have whitespace : config.whitespace.toList = [' ', '\t', '\r', '\n'] := by decide +kernel
  rw [framing, whitespace] at around
  exact around ['à', ' '] ['n', 'é'] [',', 'x'] (by simp) (by simp) (by simp) (by simp)

end SymbolRegex.Tokenizer
