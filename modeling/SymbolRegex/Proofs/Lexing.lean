import SymbolRegex.Proofs.Slices
import SymbolRegex.Proofs.Spelling

/-! # Error tokens and what is reported of them

A fault leaves an error token in its place, and the fault and the token are at one
position. A lexeme brings all its faults with its first token, so while tokens are
taken the queue can be ahead of them by the rest of one word, and never behind. Over
symbols no word has a fault.
-/

namespace SymbolRegex

/-- A diagnostic is the one that an error token is owed. -/
structure Token.ReportedAs (t : Token) (d : Diagnostic) : Prop where
  position : d.position = t.position
  error : d.isError = true
  lexical : d.code.phase = .lexical

theorem LexFault.reportedAs {f : LexFault} {t : Token} (h : t.position = f.position) :
    t.ReportedAs f.diagnostic where
  position := h.symm
  error := rfl
  lexical := f.cause.phase_code

theorem LexFault.forall_reportedAs {fs : List LexFault} {ts : List Token}
    (h : fs.map (·.position) = ts.map (·.position)) :
    List.Forall₂ Token.ReportedAs ts (fs.map LexFault.diagnostic) := by
  rw [List.forall₂_map_right_iff]
  induction ts generalizing fs with
  | nil =>
    rw [List.map_eq_nil_iff.1 h]
    exact .nil
  | cons t ts ih =>
    obtain ⟨f, fs, rfl, hf, hfs⟩ := List.map_eq_cons_iff.1 h
    exact .cons (reportedAs hf.symm) (ih hfs)

namespace Queue

theorem addAll_faults {fs : List LexFault} {q : Queue} (h : q.config = .unlimited) :
    q.addAll (fs.map LexFault.diagnostic) = { q with
      diagnostics := q.diagnostics ++ fs.map LexFault.diagnostic
      errorCount := q.errorCount + fs.length } := by
  have all : (fs.map LexFault.diagnostic).countP (·.isError) = fs.length := by
    rw [List.countP_eq_length.2, List.length_map]
    intro d hd
    obtain ⟨f, -, rfl⟩ := List.mem_map.1 hd
    rfl
  rw [addAll_unlimited _ h, all]

end Queue

/-! ## Tokens that are taken one by one -/

namespace Lexed

def errors (xs : List Lexed) : List Token := (xs.map (·.token)).filter (·.kind = .error)

theorem errors_append (xs ys : List Lexed) : errors (xs ++ ys) = errors xs ++ errors ys := by
  rw [errors, List.map_append, List.filter_append, errors, errors]

theorem positions_flatMap_faults (mode : Mode) (ls : List Lexeme) :
    (ls.flatMap (Lexeme.faults mode)).map (·.position) =
      (errors (ls.flatMap (Lexeme.tokens mode))).map (·.position) := by
  induction ls with
  | nil => rfl
  | cons l ls ih =>
    have first : (l.faults mode).map (·.position) = (errors (l.tokens mode)).map (·.position) :=
      (Lexeme.together_tokens mode l).positions
    rw [List.flatMap_cons, List.flatMap_cons, List.map_append, errors_append, List.map_append, ih,
      first]

/-- Once some tokens are taken, what came to light are the faults of the error tokens among them
and of the next ones in the same lexeme, of which there are none over symbols. -/
theorem exists_early {mode : Mode} {ls : List Lexeme} {seen rest : List Lexed}
    (h : ls.flatMap (Lexeme.tokens mode) = seen ++ rest) :
    ∃ early, early <+: errors rest ∧ (mode = .symbol → early = []) ∧
      (seen.flatMap (·.faults)).map (·.position) = (errors seen ++ early).map (·.position) := by
  by_cases hne : seen = []
  · subst hne
    exact ⟨[], List.nil_prefix, fun _ => rfl, rfl⟩
  obtain ⟨whole, last, part, ⟨more, rfl⟩, hpne, ⟨tail, htail⟩, rfl⟩ :=
    Lexeme.exists_entered hne ⟨rest, h.symm⟩
  have hrest : rest = tail ++ more.flatMap (Lexeme.tokens mode) := by
    rw [List.flatMap_append, List.flatMap_append, List.flatMap_singleton, ← htail] at h
    simpa using h.symm
  refine ⟨errors tail, ?_, ?_, ?_⟩
  · rw [hrest, errors_append]
    exact List.prefix_append _ _
  · rintro rfl
    have one := last.length_tokens_symbol
    have some := List.length_pos_iff.2 hpne
    rw [← htail, List.length_append] at one
    rw [List.eq_nil_of_length_eq_zero (by omega : tail.length = 0)]
    rfl
  · rw [Lexeme.faults_entered hpne ⟨tail, htail⟩, ← errors_append, List.append_assoc, htail]
    simpa using positions_flatMap_faults mode (whole ++ [last])

end Lexed

/-! ## Words over symbols -/

theorem WrittenAs.ne_error {mode : Mode} {slice : List Char} {kind : TokenKind}
    (h : WrittenAs mode slice kind) : kind ≠ .error := by
  cases h <;> simp

namespace Lexeme

variable {l : Lexeme}

theorem exists_measure {p : Position} {cs : List Char} : ∀ l ∈ scan p cs, ∃ c rest n,
    measure c rest = (l.shape, n) ∧ l.slice = c :: rest.take n := by
  fun_induction scan p cs with
  | case1 => simp
  | case2 p c rest hb ih => exact ih
  | case3 p c rest hb shape n hm slice ih =>
    rw [List.forall_mem_cons]
    exact ⟨⟨c, rest, n, hm, rfl⟩, ih⟩

theorem exists_kind_of_word {p : Position} {cs : List Char} (hl : l ∈ scan p cs) {c : Char}
    (hc : c ∈ l.slice.head?) (hw : isWordChar c = true) :
    (∀ d ∈ l.slice, isWordChar d = true) ∧
      ∃ kind, WrittenAs .symbol l.slice kind ∧ l.tokens .symbol = [l.asSlice kind] := by
  obtain ⟨c', rest, n, hm, hslice⟩ := exists_measure l hl
  obtain rfl : c' = c := by simpa [hslice] using hc
  have shaped := shaped_measure hm
  rw [measure_of_isWordChar hw] at hm
  obtain ⟨hshape, rfl⟩ := Prod.mk.inj hm
  have htake : rest.take (rest.takeWhile isWordChar).length = rest.takeWhile isWordChar :=
    (List.prefix_iff_eq_take.1 (List.takeWhile_prefix _)).symm
  rw [← hslice] at shaped
  have hword : ∀ d ∈ l.slice, isWordChar d = true := by
    rw [hslice, htake, List.forall_mem_cons]
    exact ⟨hw, fun _ => List.mem_takeWhile_imp⟩
  refine ⟨hword, ?_⟩
  unfold wordShape at hshape
  split at hshape
  · rw [← hshape] at shaped
    cases shaped with
    | digits hd => exact ⟨.integer, .integer hd, by rw [tokens, ← hshape]⟩
  · exact ⟨_, writtenAs_symbolWordKind hword, by rw [tokens, ← hshape]⟩

theorem text_withContent {use : String → Lexed}
    (h : ∀ s, (use s).token.kind = .error → (use s).token.text = String.ofList l.slice)
    (hk : (l.withContent use).token.kind = .error) :
    (l.withContent use).token.text = String.ofList l.slice := by
  unfold withContent at hk ⊢
  split at hk
  · exact h _ hk
  · rfl

theorem text_of_error {x : Lexed} (hx : x ∈ l.tokens .symbol) (hk : x.token.kind = .error) :
    x.token.text = String.ofList l.slice := by
  unfold tokens at hx
  split at hx <;> obtain rfl := List.mem_singleton.1 hx
  · rfl
  · rfl
  · rfl
  · refine text_withContent (fun s => ?_) hk
    unfold symbolLiteral
    split
    · exact fun _ => rfl
    · exact fun h => by cases h
  · exact text_withContent (fun _ h => by cases h) hk
  · rfl
  · rfl

/-- No error token over symbols begins like a word. -/
theorem error_begins {p : Position} {cs : List Char} {x : Lexed}
    (hx : x ∈ (scan p cs).flatMap (tokens .symbol)) (hk : x.token.kind = .error) :
    ∀ c ∈ x.token.text.toList.head?, isWordChar c = false := by
  obtain ⟨l, hl, hx⟩ := List.mem_flatMap.1 hx
  rw [text_of_error hx hk, String.toList_ofList]
  intro c hc
  rw [← Bool.not_eq_true]
  intro hw
  obtain ⟨-, kind, hkind, htokens⟩ := exists_kind_of_word hl hc hw
  rw [htokens, List.mem_singleton] at hx
  subst hx
  exact hkind.ne_error hk

end Lexeme

/-! ## Literals over characters -/

theorem TokenOf.length_of_literal {before slice : List Char} {x : Lexed}
    (h : TokenOf .char before slice x) (hk : x.token.kind = .literal) :
    x.token.text.length = 1 := by
  cases h with
  | slice h =>
    cases h with
    | name hm => cases hm
    | _ => cases hk
  | literal _ hone => rw [String.length, String.toList_ofList]; exact hone
  | string | fault | invalidEscape => cases hk

namespace TokenStream

variable {mode : Mode} {source : String} {t : Token}

theorem mem_tokens_lex : t ∈ (lex mode source).tokens ↔
    (∃ x ∈ (lex mode source).ahead, x.token = t) ∨ t = (lex mode source).eof := by
  simp [tokens, toList, or_comm]

theorem errors_tokens_lex : (lex mode source).tokens.filter (·.kind = .error) =
    Lexed.errors (lex mode source).ahead := by
  simp [tokens, toList, Lexed.errors, lex, Token.eof]

theorem length_of_literal (ht : t ∈ (lex .char source).tokens) (hk : t.kind = .literal) :
    t.text.length = 1 := by
  obtain ⟨xs, hcut, hxs, -⟩ := Lexeme.exists_cut_scan .char .start source.toList [] rfl
  obtain ⟨x, hx, rfl⟩ | rfl := mem_tokens_lex.1 ht
  · have mem : x.token ∈ xs.map (·.token) := by rw [hxs]; exact List.mem_map_of_mem hx
    obtain ⟨y, hy, same⟩ := List.mem_map.1 mem
    rw [← same] at hk ⊢
    exact hcut.forall_mem (P := fun x => x.token.kind = .literal → x.token.text.length = 1)
      TokenOf.length_of_literal y hy hk
  · cases hk

end TokenStream

/-- A queue without a filter gets one error for each error token of a source, in the order of the
tokens and each at the position of its token, and nothing else. While tokens are taken it has at
least those of the tokens taken, and over symbols no others. Over symbols a word becomes one token
that is no error, and over characters a literal holds one character. -/
theorem errors_reported (mode : Mode) (source : String) {q : Queue} (hq : q.config = .unlimited) :
    let stream := lex mode source
    (∃ reported, List.Forall₂ Token.ReportedAs (stream.tokens.filter (·.kind = .error)) reported ∧
      q.addAll (stream.faults.map LexFault.diagnostic) = { q with
        diagnostics := q.diagnostics ++ reported
        errorCount := q.errorCount + reported.length }) ∧
    (∀ seen rest, stream.ahead = seen ++ rest → ∃ reported early,
      early <+: Lexed.errors rest ∧ (mode = .symbol → early = []) ∧
      List.Forall₂ Token.ReportedAs (Lexed.errors seen ++ early) reported ∧
      q.addAll ((seen.flatMap (·.faults)).map LexFault.diagnostic) = { q with
        diagnostics := q.diagnostics ++ reported
        errorCount := q.errorCount + reported.length }) ∧
    (mode = .symbol →
      (∀ l ∈ Lexeme.scan .start source.toList, ∀ c ∈ l.slice.head?, Lexeme.isWordChar c = true →
        (∀ d ∈ l.slice, Lexeme.isWordChar d = true) ∧ ∃ kind, WrittenAs mode l.slice kind ∧
          kind ≠ .error ∧ l.tokens mode = [l.asSlice kind]) ∧
      ∀ t ∈ stream.tokens, t.kind = .error →
        ∀ c ∈ t.text.toList.head?, Lexeme.isWordChar c = false) ∧
    (mode = .char → ∀ t ∈ stream.tokens, t.kind = .literal → t.text.length = 1) := by
  intro stream
  have taken (seen rest) (h : stream.ahead = seen ++ rest) : ∃ reported early,
      early <+: Lexed.errors rest ∧ (mode = .symbol → early = []) ∧
      List.Forall₂ Token.ReportedAs (Lexed.errors seen ++ early) reported ∧
      q.addAll ((seen.flatMap (·.faults)).map LexFault.diagnostic) = { q with
        diagnostics := q.diagnostics ++ reported
        errorCount := q.errorCount + reported.length } := by
    obtain ⟨early, hearly, hsymbol, positions⟩ := Lexed.exists_early h
    refine ⟨_, early, hearly, hsymbol, LexFault.forall_reportedAs positions, ?_⟩
    rw [Queue.addAll_faults hq, List.length_map]
  refine ⟨?_, taken, ?_, ?_⟩
  · obtain ⟨reported, early, hearly, -, hreported, hq'⟩ :=
      taken stream.ahead [] (List.append_nil _).symm
    rw [List.prefix_nil.1 hearly, List.append_nil] at hreported
    rw [TokenStream.errors_tokens_lex]
    exact ⟨reported, hreported, hq'⟩
  · rintro rfl
    constructor
    · intro l hl c hc hw
      obtain ⟨hword, kind, hkind, htokens⟩ := Lexeme.exists_kind_of_word hl hc hw
      exact ⟨hword, kind, hkind, hkind.ne_error, htokens⟩
    · intro t ht hk
      obtain ⟨x, hx, rfl⟩ | rfl := TokenStream.mem_tokens_lex.1 ht
      · exact Lexeme.error_begins hx hk
      · cases hk
  · rintro rfl t ht hk
    exact TokenStream.length_of_literal ht hk

/-- The word is taken apart when its first token is taken, and the escape is reported inside its
literal. -/
theorem errors_reported_word :
    let q : Queue := ⟨.unlimited, [], 0, false⟩
    q.config = .unlimited ∧ ∃ reported,
      List.Forall₂ Token.ReportedAs
        [⟨.error, "x", ⟨1, 1⟩⟩, ⟨.error, "y", ⟨1, 3⟩⟩, ⟨.error, "'\\q'", ⟨1, 7⟩⟩] reported ∧
      (q.addAll ((lex .char "xdy '\\q'").faults.map LexFault.diagnostic)).diagnostics =
        reported := by
  intro q
  refine ⟨rfl, ?_⟩
  obtain ⟨⟨reported, hreported, hq⟩, -⟩ := errors_reported .char "xdy '\\q'" (q := q) rfl
  have errors : (lex .char "xdy '\\q'").tokens.filter (·.kind = .error) =
      [⟨.error, "x", ⟨1, 1⟩⟩, ⟨.error, "y", ⟨1, 3⟩⟩, ⟨.error, "'\\q'", ⟨1, 7⟩⟩] := by
    decide +kernel
  rw [errors] at hreported
  exact ⟨reported, hreported, by rw [hq]; rfl⟩

end SymbolRegex
