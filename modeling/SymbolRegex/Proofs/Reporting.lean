import Mathlib.Data.List.Permutation
import SymbolRegex.Diagnostic.Queue
import SymbolRegex.Proofs.Reading

/-! # Reporting faults

A lexeme brings all its faults with its first token, one for each token that
stands for a fault. So reading that fails at such a token has the fault among
those that came to light, and reading that succeeds has none. A queue without a
filter gets the faults of the lexemes looked into, of which only the last can
have any, and after them the fault of the grammar unless reading stopped at a
token that stands for a lexical one.
-/

namespace SymbolRegex

namespace Queue

theorem addAll_unlimited (ds : List Diagnostic) {q : Queue} (h : q.config = .unlimited) :
    q.addAll ds = { q with
      diagnostics := q.diagnostics ++ ds
      errorCount := q.errorCount + ds.countP (·.isError) } := by
  induction ds generalizing q with
  | nil => simp
  | cons d ds ih =>
    have hl : q.limitReached = false := by simp [limitReached, h, QueueConfig.unlimited]
    have hr : q.repeats d = false := by simp [repeats, h, QueueConfig.unlimited]
    rw [addAll_cons, ih (by rw [config_add, h])]
    rw [add, hl, hr]
    cases hd : d.isError <;> simp [hd]
    omega

end Queue

namespace Lexed

/-- A token brings a fault exactly if it stands for one, which is where it stands. -/
def BringsOwn (x : Lexed) : Prop :=
  x.faults.map (·.position) = if x.token.kind = .error then [x.token.position] else []

def errorPositions (xs : List Lexed) : List Position :=
  ((xs.map (·.token)).filter (·.kind = .error)).map (·.position)

/-- Tokens of which the first brings the faults of all. -/
structure Together (xs : List Lexed) : Prop where
  positions : (xs.flatMap (·.faults)).map (·.position) = errorPositions xs
  silent : ∀ x ∈ xs.tail, x.faults = []

theorem positions_of_bringsOwn {xs : List Lexed} (h : ∀ x ∈ xs, x.BringsOwn) :
    (xs.flatMap (·.faults)).map (·.position) = errorPositions xs := by
  induction xs with
  | nil => rfl
  | cons x xs ih =>
    rw [List.forall_mem_cons] at h
    rw [List.flatMap_cons, List.map_append, h.1, ih h.2]
    by_cases hx : x.token.kind = .error <;> simp [errorPositions, hx]

theorem together_singleton {x : Lexed} (h : x.BringsOwn) : Together [x] :=
  ⟨positions_of_bringsOwn (by simpa using h), by simp⟩

end Lexed

namespace Lexeme

open Lexed

theorem bringsOwn_ofFault (cause : LexCause) (slice : List Char) (p : Position) :
    (ofFault cause slice p).BringsOwn := by simp [BringsOwn, ofFault]

theorem bringsOwn_withContent (l : Lexeme) {use : String → Lexed} (h : ∀ s, (use s).BringsOwn) :
    (l.withContent use).BringsOwn := by
  unfold withContent
  split
  · exact h _
  · exact bringsOwn_ofFault _ _ _

theorem bringsOwn_charLiteral (l : Lexeme) (s : String) : (l.charLiteral s).BringsOwn := by
  unfold charLiteral
  split
  · exact bringsOwn_ofFault _ _ _
  · simp [BringsOwn]
  · exact bringsOwn_ofFault _ _ _

theorem bringsOwn_symbolLiteral (l : Lexeme) (s : String) : (l.symbolLiteral s).BringsOwn := by
  unfold symbolLiteral
  split
  · exact bringsOwn_ofFault _ _ _
  · simp [BringsOwn]

theorem bringsOwn_splitWord (p : Position) (cs : List Char) :
    ∀ x ∈ splitWord p cs, x.BringsOwn := by
  fun_induction splitWord p cs with
  | case1 => simp
  | case2 p c rest hc digits ih =>
    simpa [BringsOwn] using ih
  | case3 p c rest hc head ih =>
    rw [List.forall_mem_cons]
    refine ⟨?_, ih⟩
    unfold head
    split
    · simp [BringsOwn]
    · exact bringsOwn_ofFault _ _ _

theorem map_token_reportTogether (xs : List Lexed) :
    (reportTogether xs).map (·.token) = xs.map (·.token) := by
  cases xs <;> simp [reportTogether, Function.comp_def]

theorem faults_reportTogether (xs : List Lexed) :
    (reportTogether xs).flatMap (·.faults) = xs.flatMap (·.faults) := by
  cases xs <;> simp [reportTogether, List.flatMap_map]

theorem together_reportTogether {xs : List Lexed} (h : ∀ x ∈ xs, x.BringsOwn) :
    Together (reportTogether xs) := by
  constructor
  case positions =>
    rw [faults_reportTogether, errorPositions, map_token_reportTogether]
    exact positions_of_bringsOwn h
  case silent => cases xs <;> simp [reportTogether]

theorem together_tokens (mode : Mode) (l : Lexeme) : Together (l.tokens mode) := by
  have slice (kind : TokenKind) (hk : kind ≠ .error) : Together [l.asSlice kind] :=
    together_singleton (by simp [BringsOwn, asSlice, hk])
  have faulty (cause : LexCause) : Together [l.faulty cause] :=
    together_singleton (bringsOwn_ofFault _ _ _)
  unfold tokens
  split
  · exact slice _ (by simp)
  · exact slice _ (by simp)
  · split
    · exact together_reportTogether (bringsOwn_splitWord _ _)
    · exact slice _ (by unfold symbolWordKind; split <;> (try split) <;> simp)
  · split
    · exact together_singleton (l.bringsOwn_withContent l.bringsOwn_charLiteral)
    · exact together_singleton (l.bringsOwn_withContent l.bringsOwn_symbolLiteral)
  · exact together_singleton (l.bringsOwn_withContent fun _ => by simp [BringsOwn])
  · exact faulty _
  · exact faulty _

/-- The faults that come to light when a lexeme is looked into. -/
def faults (mode : Mode) (l : Lexeme) : List LexFault := (l.tokens mode).flatMap (·.faults)

theorem faults_eq_nil_iff {mode : Mode} {l : Lexeme} :
    l.faults mode = [] ↔ ∀ x ∈ l.tokens mode, x.token.kind ≠ .error := by
  rw [faults, ← List.map_eq_nil_iff (f := (·.position)), (together_tokens mode l).positions]
  simp [errorPositions]

theorem length_tokens_symbol (l : Lexeme) : (l.tokens .symbol).length = 1 := by
  unfold tokens; cases l.shape <;> rfl

theorem length_faults_symbol (l : Lexeme) : (l.faults .symbol).length ≤ 1 := by
  have h := congrArg List.length (together_tokens .symbol l).positions
  rw [List.length_map, errorPositions, List.length_map] at h
  rw [faults, h, ← l.length_tokens_symbol]
  exact Nat.le_trans (List.length_filter_le _ _) (by simp)

theorem exists_fault {mode : Mode} {l : Lexeme} {x : Lexed} (hx : x ∈ l.tokens mode)
    (hk : x.token.kind = .error) : ∃ f ∈ l.faults mode, f.position = x.token.position := by
  have h : x.token.position ∈ (l.faults mode).map (·.position) := by
    rw [faults, (together_tokens mode l).positions]
    simp only [errorPositions, List.mem_map, List.mem_filter, decide_eq_true_eq]
    exact ⟨x.token, ⟨⟨x, hx, rfl⟩, hk⟩, rfl⟩
  exact List.mem_map.1 h

theorem faults_of_prefix {mode : Mode} {l : Lexeme} {part : List Lexed} (hne : part ≠ [])
    (h : part <+: l.tokens mode) : part.flatMap (·.faults) = l.faults mode := by
  obtain ⟨rest, h⟩ := h
  obtain ⟨x, xs, rfl⟩ := List.exists_cons_of_ne_nil hne
  have hs := (together_tokens mode l).silent
  rw [← h, List.cons_append, List.tail_cons, List.forall_mem_append] at hs
  rw [faults, ← h, List.flatMap_append, List.flatMap_eq_nil_iff.2 hs.2, List.append_nil]

/-- What is at the front of the tokens of some lexemes is all tokens of the first of them, and
some of the next. -/
theorem exists_entered {mode : Mode} {ls : List Lexeme} {ys : List Lexed} (hne : ys ≠ [])
    (h : ys <+: ls.flatMap (tokens mode)) :
    ∃ whole last part, whole ++ [last] <+: ls ∧ part ≠ [] ∧ part <+: last.tokens mode ∧
      ys = whole.flatMap (tokens mode) ++ part := by
  induction ls generalizing ys with
  | nil => exact absurd (List.prefix_nil.1 h) hne
  | cons l ls ih =>
    rw [List.flatMap_cons] at h
    have first (h : ys <+: l.tokens mode) : ∃ whole last part, whole ++ [last] <+: l :: ls ∧
        part ≠ [] ∧ part <+: last.tokens mode ∧ ys = whole.flatMap (tokens mode) ++ part :=
      ⟨[], l, ys, by simp, hne, h, rfl⟩
    rcases List.prefix_or_prefix_of_prefix h (List.prefix_append _ _) with hf | ⟨zs, rfl⟩
    · exact first hf
    · by_cases hz : zs = []
      · exact first (by simp [hz])
      · rw [List.prefix_append_right_inj] at h
        obtain ⟨whole, last, part, hw, hp, hl, rfl⟩ := ih hz h
        exact ⟨l :: whole, last, part, by simpa using hw, hp, hl, by simp⟩

theorem faults_entered {mode : Mode} {whole : List Lexeme} {last : Lexeme} {part : List Lexed}
    (hne : part ≠ []) (h : part <+: last.tokens mode) :
    (whole.flatMap (tokens mode) ++ part).flatMap (·.faults) =
      (whole ++ [last]).flatMap (faults mode) := by
  rw [List.flatMap_append, List.flatMap_assoc, faults_of_prefix hne h, List.flatMap_append,
    List.flatMap_singleton]
  rfl

end Lexeme

namespace Parser

theorem whole_of_error {g : Grammar} {t : Token} {ts : List Token} (h : t.kind = .error) :
    whole g (t :: ts) = .error ⟨⟨.lexical, t.position⟩, ts.length⟩ := by
  rw [whole, branches, terms, term, atom]
  obtain ⟨_ | _, sets, eof⟩ := g <;>
    simp [lead, h, bind, Except.bind, isSymbol, Grammar.expectedTerm, Grammar.faultHere,
      Grammar.current]

/-- What was looked at before reading stopped: all of it but the last token is readable, and the
last one too if the fault is not lexical and the pattern is over symbols. -/
theorem Stops.exists_seen {mode : Mode} {ts : List Token} {e : Failure} (h : Stops mode ts e) :
    ∃ seen rest, ts = seen ++ rest ∧ e.unseen = rest.length ∧ Phrase.Readable seen.dropLast ∧
      (e.fault.cause = .lexical → ∃ t ∈ seen, t.kind = .error ∧ t.position = e.fault.position) ∧
      (e.fault.cause ≠ .lexical → mode = .symbol → Phrase.Readable seen) := by
  cases h with
  | @unreadable seen rest t hs ht =>
    exact ⟨seen ++ [t], rest, by simp, rfl, by simpa using hs, fun _ => ⟨t, by simp, ht, rfl⟩,
      fun hc => absurd rfl hc⟩
  | @misplaced seen rest cause p hs hc =>
    exact ⟨seen, rest, rfl, rfl, fun t ht => hs t (List.dropLast_subset _ ht),
      fun h => absurd h hc, fun _ _ => hs⟩
  | @integer seen rest i t hm hs hi ht =>
    have hr : Phrase.Readable (seen ++ [i]) :=
      Phrase.readable_append.2 ⟨hs, Phrase.readable_singleton.2 (by simp [hi])⟩
    refine ⟨seen ++ [i] ++ [t], rest, by simp, rfl, by simpa using hr, fun h => by simp at h,
      fun _ h => ?_⟩
    rw [hm] at h; cases h

end Parser

/-! ## What a reading reports -/

section Reports

variable (mode : Mode) (sets : SetTable) (source : String)

def parseSource : Except Parser.Failure Parser.Output :=
  Parser.whole ⟨mode, sets, (lex mode source).eof⟩ ((lex mode source).ahead.map (·.token))

variable {mode sets source}

theorem flatMap_faults {ls : List Lexeme} (h : ∀ l ∈ ls, l.faults mode = []) :
    (ls.flatMap (Lexeme.tokens mode)).flatMap (·.faults) = [] := by
  rw [List.flatMap_assoc]
  exact List.flatMap_eq_nil_iff.2 h

theorem readPattern_of_ok {o : Parser.Output} (h : parseSource mode sets source = .ok o) :
    readPattern mode sets source = ⟨[], some o⟩ ∧
      ∀ x ∈ (lex mode source).ahead, x.token.kind ≠ .error := by
  have hw := Parser.whole_outcome (g := ⟨mode, sets, (lex mode source).eof⟩) rfl
    ((lex mode source).ahead.map (·.token))
  unfold parseSource at h
  rw [h] at hw
  obtain ⟨d, hd, -⟩ := hw
  have hr (x : Lexed) (hx : x ∈ (lex mode source).ahead) : x.token.kind ≠ .error :=
    d.readable _ (hd ▸ List.mem_map_of_mem hx)
  have hf : (lex mode source).ahead.flatMap (·.faults) = [] :=
    flatMap_faults fun l hl => Lexeme.faults_eq_nil_iff.2 fun x hx =>
      hr x (List.mem_flatMap.2 ⟨l, hl, hx⟩)
  refine ⟨?_, hr⟩
  simp only [readPattern, Reading.ofStream, h, hf, List.map_nil]

/-- A source that is not read is looked at up to a fault. -/
theorem readPattern_of_error {e : Parser.Failure} (h : parseSource mode sets source = .error e) :
    ∃ seen : List Lexed, seen <+: (lex mode source).ahead ∧
      readPattern mode sets source =
        ⟨(seen.flatMap (·.faults)).map LexFault.diagnostic ++ e.fault.diagnostic?.toList, none⟩ ∧
      (∀ x ∈ seen.dropLast, x.token.kind ≠ .error) ∧
      (e.fault.cause = .lexical →
        ∃ x ∈ seen, x.token.kind = .error ∧ x.token.position = e.fault.position) ∧
      (e.fault.cause ≠ .lexical → mode = .symbol → ∀ x ∈ seen, x.token.kind ≠ .error) := by
  have hw := Parser.whole_outcome (g := ⟨mode, sets, (lex mode source).eof⟩) rfl
    ((lex mode source).ahead.map (·.token))
  unfold parseSource at h
  rw [h] at hw
  obtain ⟨us, vs, ht, hu, hr, hl, hs⟩ := Parser.Stops.exists_seen hw
  obtain ⟨seen, rest, hsr, rfl, rfl⟩ := List.map_eq_append_iff.1 ht
  refine ⟨seen, ⟨rest, hsr.symm⟩, ?_, fun x hx => hr _ ?_, ?_, fun hc hm x hx =>
    hs hc hm _ (List.mem_map_of_mem hx)⟩
  · have hk : (lex mode source).ahead.take ((lex mode source).ahead.length - e.unseen) = seen := by
      rw [hu, hsr]; simp
    simp only [readPattern, Reading.ofStream, h, hk]
  · rw [← List.map_dropLast]; exact List.mem_map_of_mem hx
  · intro hc
    obtain ⟨t, ht, hk, hp⟩ := hl hc
    obtain ⟨x, hx, rfl⟩ := List.mem_map.1 ht
    exact ⟨x, hx, hk, hp⟩

theorem output?_of_error {e : Parser.Failure} (h : parseSource mode sets source = .error e) :
    (readPattern mode sets source).output? = none := by
  obtain ⟨seen, -, hr, -⟩ := readPattern_of_error h
  rw [hr]

theorem isError_diagnostic {f : ParseFault} {d : Diagnostic} (h : f.diagnostic? = some d) :
    d.isError = true := by
  obtain ⟨cause, p⟩ := f
  cases cause <;> simp [ParseFault.diagnostic?] at h <;> subst h <;> rfl

theorem isError_of_mem_diagnostics {d : Diagnostic}
    (h : d ∈ (readPattern mode sets source).diagnostics) : d.isError = true := by
  cases hp : parseSource mode sets source with
  | ok o => rw [(readPattern_of_ok hp).1] at h; cases h
  | error e =>
    obtain ⟨seen, -, hr, -⟩ := readPattern_of_error hp
    rw [hr, List.mem_append] at h
    rcases h with h | h
    · obtain ⟨f, -, rfl⟩ := List.mem_map.1 h; rfl
    · exact isError_diagnostic (Option.mem_toList.1 h)

theorem exists_fault_of_lexical {e : Parser.Failure} (h : parseSource mode sets source = .error e)
    (hc : e.fault.cause = .lexical) :
    ∃ f ∈ (lex mode source).faults, f.position = e.fault.position ∧
      f.diagnostic ∈ (readPattern mode sets source).diagnostics := by
  obtain ⟨seen, hseen, hr, -, hl, -⟩ := readPattern_of_error h
  obtain ⟨x, hx, hk, hp⟩ := hl hc
  obtain ⟨whole, last, part, -, hne, hpart, rfl⟩ :=
    Lexeme.exists_entered (List.ne_nil_of_mem hx) hseen
  obtain ⟨l, hl, hxl⟩ : ∃ l ∈ whole ++ [last], x ∈ l.tokens mode := by
    rcases List.mem_append.1 hx with hx | hx
    · obtain ⟨l, hl, hx⟩ := List.mem_flatMap.1 hx
      exact ⟨l, List.mem_append_left _ hl, hx⟩
    · exact ⟨last, by simp, hpart.subset hx⟩
  obtain ⟨f, hf, hfp⟩ := Lexeme.exists_fault hxl hk
  have hmem : f ∈ (whole.flatMap (Lexeme.tokens mode) ++ part).flatMap (·.faults) := by
    rw [Lexeme.faults_entered hne hpart]
    exact List.mem_flatMap.2 ⟨l, hl, hf⟩
  refine ⟨f, ?_, hfp.trans hp, ?_⟩
  · obtain ⟨y, hy, hfy⟩ := List.mem_flatMap.1 hmem
    exact List.mem_flatMap.2 ⟨y, hseen.subset hy, hfy⟩
  · rw [hr]
    exact List.mem_append_left _ (List.mem_map_of_mem hmem)

theorem diagnostics_ne_nil {e : Parser.Failure} (h : parseSource mode sets source = .error e) :
    (readPattern mode sets source).diagnostics ≠ [] := by
  by_cases hc : e.fault.cause = .lexical
  · obtain ⟨f, -, -, hf⟩ := exists_fault_of_lexical h hc
    exact List.ne_nil_of_mem hf
  · obtain ⟨seen, -, hr, -⟩ := readPattern_of_error h
    have hd : e.fault.diagnostic? ≠ none := mt ParseFault.diagnostic?_eq_none_iff.1 hc
    obtain ⟨d, hd⟩ := Option.ne_none_iff_exists'.1 hd
    rw [hr, hd]
    simp

/-- Reading a pattern fails exactly when it reports: a queue without a filter, whatever it holds,
gets errors if and only if no pattern comes of the source. A source with an unreadable token gives
no pattern, and reading that stops at such a token has reported it. -/
theorem readPattern_fails_iff_reports (mode : Mode) (sets : SetTable) (source : String) (q : Queue)
    (hq : q.config = .unlimited) :
    let r := readPattern mode sets source
    let q' := q.addAll r.diagnostics
    q'.diagnostics = q.diagnostics ++ r.diagnostics ∧
    q'.errorCount = q.errorCount + r.diagnostics.length ∧
    (r.output?.isSome ↔ q'.diagnostics = q.diagnostics) ∧
    (r.output? = none ↔ ∃ d ∈ r.diagnostics, d.isError) ∧
    (r.output?.isSome → ∀ x ∈ (lex mode source).ahead, x.token.kind ≠ .error) ∧
    ∀ e, parseSource mode sets source = .error e → e.fault.cause = .lexical →
      ∃ f ∈ (lex mode source).faults, f.position = e.fault.position ∧
        f.diagnostic ∈ r.diagnostics := by
  intro r q'
  have hadd : q' = { q with
      diagnostics := q.diagnostics ++ r.diagnostics
      errorCount := q.errorCount + r.diagnostics.length } := by
    have hall : r.diagnostics.countP (·.isError) = r.diagnostics.length :=
      List.countP_eq_length.2 fun d hd => isError_of_mem_diagnostics hd
    rw [← hall]
    exact Queue.addAll_unlimited _ hq
  refine ⟨by rw [hadd], by rw [hadd], ?_, ?_, ?_, fun e => exists_fault_of_lexical⟩
  · rw [hadd]
    dsimp only
    rw [List.append_right_eq_self]
    cases hp : parseSource mode sets source with
    | ok o => simp [r, (readPattern_of_ok hp).1]
    | error e => simp [r, diagnostics_ne_nil hp, output?_of_error hp]
  · cases hp : parseSource mode sets source with
    | ok o => simp [r, (readPattern_of_ok hp).1]
    | error e =>
      obtain ⟨d, hd⟩ := List.exists_mem_of_ne_nil _ (diagnostics_ne_nil hp)
      simp only [r, output?_of_error hp, true_iff]
      exact ⟨d, hd, isError_of_mem_diagnostics hd⟩
  · cases hp : parseSource mode sets source with
    | ok o => exact fun _ => (readPattern_of_ok hp).2
    | error e => simp [r, output?_of_error hp]

/-- A parenthesis that is not closed, read with a warning in the queue. -/
theorem readPattern_fails_iff_reports_unclosed :
    let q : Queue := ⟨.unlimited, [Queue.limitWarning 3], 0, true⟩
    let r := readPattern .char {} "(."
    q.config = .unlimited ∧ r.output? = none ∧ (q.addAll r.diagnostics).diagnostics =
      [Queue.limitWarning 3,
        .errorAt ⟨1, 3⟩ .unclosedDelimiter "unclosed `(`" ["opened at 1:1"]] := by
  intro q r
  have hl : lex .char "(." = ⟨[⟨⟨.punct .leftParen, "(", ⟨1, 1⟩⟩, []⟩,
      ⟨⟨.punct .dot, ".", ⟨1, 2⟩⟩, []⟩], .eof ⟨1, 3⟩⟩ := by decide +kernel
  have hd : (readPattern .char {} "(.").diagnostics =
      [.errorAt ⟨1, 3⟩ .unclosedDelimiter "unclosed `(`" ["opened at 1:1"]] := by
    rw [readPattern, hl]; cbv
  have h := readPattern_fails_iff_reports .char {} "(." q rfl
  refine ⟨rfl, h.2.2.2.1.2 ?_, ?_⟩
  · rw [hd]; exact ⟨_, List.mem_singleton_self _, rfl⟩
  · rw [h.1, hd]; rfl

/-- Over symbols, the lexeme that reading stopped in has a fault or the grammar does. -/
theorem Lexeme.length_report_symbol (last : Lexeme) {fault : ParseFault} {part : List Lexed}
    (hne : part ≠ []) (hpart : part <+: last.tokens .symbol)
    (hlexical : fault.cause = .lexical → last.faults .symbol ≠ [])
    (hown : fault.cause ≠ .lexical → ∀ x ∈ part, x.token.kind ≠ .error) :
    ((last.faults .symbol).map LexFault.diagnostic ++ fault.diagnostic?.toList).length = 1 := by
  rw [List.length_append, List.length_map]
  by_cases hc : fault.cause = .lexical
  · have hpos := List.length_pos_iff.2 (hlexical hc)
    have hle := last.length_faults_symbol
    rw [ParseFault.diagnostic?_eq_none_iff.2 hc]
    simp; omega
  · obtain ⟨d, hd⟩ := Option.ne_none_iff_exists'.1 (mt ParseFault.diagnostic?_eq_none_iff.1 hc)
    have heq : part = last.tokens .symbol := by
      apply hpart.eq_of_length_le
      rw [last.length_tokens_symbol]
      exact List.length_pos_iff.2 hne
    have hf : last.faults .symbol = [] :=
      Lexeme.faults_eq_nil_iff.2 fun x hx => hown hc x (heq ▸ hx)
    rw [hf, hd]
    rfl

/-- What a failed reading reports: it has looked into some lexemes, of which only the last has
faults, and it reports these and then the fault of the grammar, unless it stopped at a token that
stands for a lexical fault. Over symbols that is one diagnostic. -/
theorem readPattern_failure_report (mode : Mode) (sets : SetTable) (source : String)
    (h : (readPattern mode sets source).output? = none) :
    ∃ (entered : List Lexeme) (own? : Option Diagnostic),
      entered <+: Lexeme.scan .start source.toList ∧
      (∀ l ∈ entered.dropLast, l.faults mode = []) ∧
      (readPattern mode sets source).diagnostics =
        (entered.flatMap (Lexeme.faults mode)).map LexFault.diagnostic ++ own?.toList ∧
      (own? = none → ∃ l ∈ entered.getLast?, l.faults mode ≠ []) ∧
      (mode = .symbol → (readPattern mode sets source).diagnostics.length = 1) := by
  cases hp : parseSource mode sets source with
  | ok o => rw [(readPattern_of_ok hp).1] at h; cases h
  | error e =>
    obtain ⟨seen, hseen, hr, hd, hl, hs⟩ := readPattern_of_error hp
    by_cases hne : seen = []
    · subst hne
      have hc : e.fault.cause ≠ .lexical := fun hc => by simpa using hl hc
      obtain ⟨d, hd⟩ := Option.ne_none_iff_exists'.1 (mt ParseFault.diagnostic?_eq_none_iff.1 hc)
      exact ⟨[], some d, by simp, by simp, by simp [hr, hd], by simp, fun _ => by simp [hr, hd]⟩
    · obtain ⟨whole, last, part, hw, hpne, hpart, rfl⟩ := Lexeme.exists_entered hne hseen
      have hwhole (l : Lexeme) (hl : l ∈ whole) : l.faults mode = [] := by
        refine Lexeme.faults_eq_nil_iff.2 fun x hx => hd x ?_
        rw [List.dropLast_append_of_ne_nil hpne]
        exact List.mem_append_left _ (List.mem_flatMap.2 ⟨l, hl, hx⟩)
      have hlast : e.fault.cause = .lexical → last.faults mode ≠ [] := by
        intro hc hf
        obtain ⟨x, hx, hk, -⟩ := hl hc
        rcases List.mem_append.1 hx with hx | hx
        · obtain ⟨l, hl, hx⟩ := List.mem_flatMap.1 hx
          exact Lexeme.faults_eq_nil_iff.1 (hwhole l hl) x hx hk
        · exact Lexeme.faults_eq_nil_iff.1 hf x (hpart.subset hx) hk
      rw [Lexeme.faults_entered hpne hpart] at hr
      refine ⟨whole ++ [last], e.fault.diagnostic?, hw, by simpa using hwhole, by rw [hr],
        fun hn => ⟨last, by simp, hlast (ParseFault.diagnostic?_eq_none_iff.1 hn)⟩, ?_⟩
      rintro rfl
      have hall : (whole ++ [last]).flatMap (Lexeme.faults .symbol) = last.faults .symbol := by
        rw [List.flatMap_append, List.flatMap_eq_nil_iff.2 hwhole]; simp
      rw [hr, hall]
      exact last.length_report_symbol hpne hpart hlast fun hc x hx =>
        hs hc rfl x (List.mem_append_right _ hx)

theorem readPattern_word : readPattern .char {} "xyz" =
    ⟨[LexFault.diagnostic ⟨.unrecognized 'x', ⟨1, 1⟩⟩,
      LexFault.diagnostic ⟨.unrecognized 'y', ⟨1, 2⟩⟩,
      LexFault.diagnostic ⟨.unrecognized 'z', ⟨1, 3⟩⟩], none⟩ := by
  have hl : lex .char "xyz" = ⟨[⟨⟨.error, "x", ⟨1, 1⟩⟩, [⟨.unrecognized 'x', ⟨1, 1⟩⟩,
      ⟨.unrecognized 'y', ⟨1, 2⟩⟩, ⟨.unrecognized 'z', ⟨1, 3⟩⟩]⟩, ⟨⟨.error, "y", ⟨1, 2⟩⟩, []⟩,
      ⟨⟨.error, "z", ⟨1, 3⟩⟩, []⟩], .eof ⟨1, 4⟩⟩ := by decide +kernel
  simp [readPattern, hl, Reading.ofStream, Parser.whole_of_error, ParseFault.diagnostic?]

theorem readPattern_failure_report_word :
    (readPattern .char {} "xyz").output? = none ∧
      ∃ (entered : List Lexeme) (own? : Option Diagnostic),
        entered <+: Lexeme.scan .start "xyz".toList ∧
        (readPattern .char {} "xyz").diagnostics =
          (entered.flatMap (Lexeme.faults .char)).map LexFault.diagnostic ++ own?.toList := by
  have h : (readPattern .char {} "xyz").output? = none := by rw [readPattern_word]
  obtain ⟨entered, own?, hp, -, hd, -⟩ := readPattern_failure_report .char {} "xyz" h
  exact ⟨h, entered, own?, hp, hd⟩

/-- A failed reading can report more than one fault: a word over characters brings those of all
its characters. -/
theorem readPattern_reports_three :
    let q : Queue := ⟨.unlimited, [], 0, false⟩
    let r := readPattern .char {} "xyz"
    r.output? = none ∧ (q.addAll r.diagnostics).messages =
      ["error[E0002] 1:1: unrecognized character 'x'",
        "error[E0002] 1:2: unrecognized character 'y'",
        "error[E0002] 1:3: unrecognized character 'z'"] := by
  dsimp only
  rw [readPattern_word]
  decide +kernel

end Reports
end SymbolRegex
