import Mathlib.Data.List.TakeWhile
import SymbolRegex.Proofs.Compiling
import SymbolRegex.Proofs.Cutting
import SymbolRegex.Proofs.Spans

/-! # Tokens of a record

The words and framing characters of a record hold all its characters but the whitespace
between them. A word is split at spans that lie within it, because they come from a match
of the word, so its tokens hold it without loss.
-/

namespace SymbolRegex.Tokenizer

variable {t : Tokenizer} {config : TokenizerConfig} {sets : SetTable}
  {entries : List PatternEntry} {e? : Option Engine} {word cs : List Char} {found : Match}

/-! ## Engines of a tokenizer -/

def Ready (e? : Option Engine) : Prop := ∀ e ∈ e?, ∃ bounds, e.Compiled bounds

theorem ready_engine? (h : engine? sets entries = .ok e?) : Ready e? := by
  unfold engine? at h
  split at h
  · obtain rfl := Except.ok.inj h
    exact fun _ h => nomatch h
  · obtain ⟨c, hc, rfl⟩ := map_eq_ok_iff.1 h
    rintro _ ⟨⟩
    exact (Compilation.holds_of_ofEntries hc).compiled

theorem engine?_of_ofEntries {c : Compilation} (ne : entries ≠ [])
    (h : Compilation.ofEntries entries .char sets true = .ok c) :
    engine? sets entries = .ok (some c.engine) := by
  rw [engine?, if_neg (mt List.isEmpty_iff.1 ne), h]
  rfl

structure Follows (t : Tokenizer) (config : TokenizerConfig) : Prop where
  whitespace : t.whitespace = config.whitespace.toList
  framing : t.framing = config.framing.toList
  split : Ready t.split?

theorem follows_of_ofConfig (h : ofConfig config = .ok t) : t.Follows config := by
  obtain ⟨sets, -, h⟩ := bind_eq_ok_iff.1 h
  obtain ⟨split?, hsplit, h⟩ := bind_eq_ok_iff.1 h
  obtain ⟨keep?, -, h⟩ := bind_eq_ok_iff.1 h
  obtain rfl := Except.ok.inj h
  exact ⟨rfl, rfl, ready_engine? hsplit⟩

theorem within_sortedSpans (ready : Ready e?) (h : matchWord? e? word = some found) :
    Within word (sortedSpans found.actions) := by
  obtain ⟨e, he, hm⟩ := Option.bind_eq_some_iff.1 h
  obtain ⟨bounds, compiled⟩ := ready e he
  obtain ⟨p, os, explained⟩ := compiled.explained_symbols (compiled.yields_of_find hm)
  have length := explained.length
  rw [List.length_take, List.length_map, String.toList_ofList] at length
  intro s hs
  rw [sortedSpans, List.mem_mergeSort, List.mem_map] at hs
  obtain ⟨span, hspan, rfl⟩ := hs
  obtain ⟨mem, lt⟩ := List.mem_filter.1 hspan
  have := (explained.within span mem).2
  exact ⟨of_decide_eq_true lt, by dsimp only; omega⟩

/-! ## Tokens of a word -/

/-- Split the text of a word as `splitWord` splits its characters, unless a part cannot be cut
out. -/
def splitText? (t : Tokenizer) (word : List Char) : Option (List String) :=
  if (matchWord? t.keep? word).isSome then some [.ofList word]
  else match matchWord? t.split? word with
    | none => some [.ofList word]
    | some found => cutText? word 0 (sortedSpans found.actions)

theorem splitText?_eq (ready : Ready t.split?) (word : List Char) :
    t.splitText? word = some ((t.splitWord word).map .ofList) := by
  unfold splitText? splitWord
  split
  · rfl
  · cases h : matchWord? t.split? word with
    | none => rfl
    | some found => exact cutText?_eq (within_sortedSpans ready h)

theorem flatten_splitWord (ready : Ready t.split?) (word : List Char) :
    (t.splitWord word).flatten = word := by
  unfold splitWord
  split
  · exact List.flatten_singleton
  · split
    · exact List.flatten_singleton
    · next found h => exact flatten_cutAt (within_sortedSpans ready h)

theorem ne_nil_of_mem_splitWord (ready : Ready t.split?) (ne : word ≠ []) :
    ∀ part ∈ t.splitWord word, part ≠ [] := by
  unfold splitWord
  split
  · exact List.forall_mem_singleton.2 ne
  · split
    · exact List.forall_mem_singleton.2 ne
    · next found h => exact ne_nil_of_mem_cutAt (within_sortedSpans ready h)

theorem subset_of_mem_splitWord (ready : Ready t.split?) {part : List Char}
    (h : part ∈ t.splitWord word) : part ⊆ word :=
  flatten_splitWord ready word ▸ fun _ hc => List.mem_flatten.2 ⟨part, h, hc⟩

/-! ## Pieces of a record -/

/-- Whether a character gets into the tokens. -/
def keeps (t : Tokenizer) (c : Char) : Bool := c ∈ t.framing ∨ c ∉ t.whitespace

def Piece.chars : Piece → List Char
  | .word chars => chars
  | .frame c => [c]

def Piece.Fits (t : Tokenizer) : Piece → Prop
  | .word chars => chars ≠ [] ∧ ∀ c ∈ chars, c ∉ t.framing ∧ c ∉ t.whitespace
  | .frame c => c ∈ t.framing

theorem isWordChar_iff {c : Char} : t.isWordChar c = true ↔ c ∉ t.framing ∧ c ∉ t.whitespace := by
  simp [isWordChar]

theorem fits_of_mem_pieces : ∀ piece ∈ t.pieces cs, piece.Fits t := by
  fun_induction t.pieces cs with
  | case1 => exact fun _ h => absurd h List.not_mem_nil
  | case2 c rest hf ih => exact List.forall_mem_cons.2 ⟨List.contains_iff_mem.1 hf, ih⟩
  | case3 c rest hf hw ih => exact ih
  | case4 c rest hf hw ih =>
    rw [List.contains_iff_mem] at hf hw
    have all : ∀ x ∈ c :: rest.takeWhile t.isWordChar, x ∉ t.framing ∧ x ∉ t.whitespace :=
      List.forall_mem_cons.2 ⟨⟨hf, hw⟩, fun x hx => isWordChar_iff.1 (List.mem_takeWhile_imp hx)⟩
    exact List.forall_mem_cons.2 ⟨⟨List.cons_ne_nil _ _, all⟩, ih⟩

/-- The pieces of a record hold all that gets into the tokens. -/
theorem flatMap_chars_pieces : (t.pieces cs).flatMap Piece.chars = cs.filter t.keeps := by
  fun_induction t.pieces cs with
  | case1 => rfl
  | case2 c rest hf ih =>
    rw [List.contains_iff_mem] at hf
    rw [List.flatMap_cons, ih, List.filter_cons_of_pos (by simp [keeps, hf])]
    rfl
  | case3 c rest hf hw ih =>
    rw [List.contains_iff_mem] at hf hw
    rw [ih, List.filter_cons_of_neg (by simp [keeps, hf, hw])]
  | case4 c rest hf hw ih =>
    rw [List.contains_iff_mem] at hf hw
    have all : (rest.takeWhile t.isWordChar).filter t.keeps = rest.takeWhile t.isWordChar := by
      refine List.filter_eq_self.2 fun x hx => ?_
      have := isWordChar_iff.1 (List.mem_takeWhile_imp hx)
      simp [keeps, this.2]
    calc (Piece.word (c :: rest.takeWhile t.isWordChar) ::
          t.pieces (rest.dropWhile t.isWordChar)).flatMap Piece.chars
        = c :: ((rest.takeWhile t.isWordChar).filter t.keeps ++
            (rest.dropWhile t.isWordChar).filter t.keeps) := by
          rw [List.flatMap_cons, ih, Piece.chars, all, List.cons_append]
      _ = c :: rest.filter t.keeps := by
          rw [← List.filter_append, List.takeWhile_append_dropWhile]
      _ = (c :: rest).filter t.keeps := by
          rw [List.filter_cons_of_pos (by simp [keeps, hw])]

/-! ## Tokens of a piece -/

variable {piece : Piece}

theorem flatten_pieceTokens (ready : Ready t.split?) (piece : Piece) :
    (t.pieceTokens piece).flatten = piece.chars := by
  cases piece with
  | word chars => exact flatten_splitWord ready chars
  | frame c => rfl

theorem ne_nil_of_mem_pieceTokens (ready : Ready t.split?) (fits : piece.Fits t) :
    ∀ token ∈ t.pieceTokens piece, token ≠ [] := by
  cases piece with
  | word chars => exact ne_nil_of_mem_splitWord ready fits.1
  | frame c => exact List.forall_mem_singleton.2 (List.cons_ne_nil _ _)

/-- A token of a piece is a framing character or part of a word. -/
theorem frame_or_word (ready : Ready t.split?) (fits : piece.Fits t) {token : List Char}
    (h : token ∈ t.pieceTokens piece) :
    (∃ c ∈ t.framing, token = [c]) ∨ ∀ c ∈ token, c ∉ t.framing ∧ c ∉ t.whitespace := by
  cases piece with
  | word chars => exact .inr fun c hc => fits.2 c (subset_of_mem_splitWord ready h hc)
  | frame c => exact .inl ⟨c, fits, List.mem_singleton.1 h⟩

theorem filter_pieceTokens (ready : Ready t.split?) (fits : piece.Fits t) :
    (t.pieceTokens piece).filter (·.any (· ∈ t.framing)) =
      (piece.chars.filter (· ∈ t.framing)).map ([·]) := by
  cases piece with
  | word chars =>
    have none : chars.filter (· ∈ t.framing) = [] :=
      List.filter_eq_nil_iff.2 fun c hc => by simpa using (fits.2 c hc).1
    rw [Piece.chars, none, List.map_nil, List.filter_eq_nil_iff]
    intro token htoken
    simpa using fun c hc => (fits.2 c (subset_of_mem_splitWord ready htoken hc)).1
  | frame c =>
    have hc : c ∈ t.framing := fits
    simp [pieceTokens, Piece.chars, hc]

/-! ## Tokens of a record -/

theorem join_map_ofList (parts : List (List Char)) :
    String.join (parts.map .ofList) = .ofList parts.flatten := by
  rw [← String.toList_inj, String.toList_join, String.toList_ofList, List.flatMap_map,
    List.flatten_eq_flatMap]
  exact List.flatMap_congr fun part _ => String.toList_ofList

theorem flatten_tokens (ready : Ready t.split?) :
    ((t.pieces cs).flatMap t.pieceTokens).flatten = cs.filter t.keeps := by
  have each : (List.flatten ∘ t.pieceTokens) = Piece.chars :=
    funext (flatten_pieceTokens ready)
  rw [← flatMap_chars_pieces, ← each, List.flatMap, List.flatten_flatten, List.map_map,
    List.flatMap]

theorem filter_tokens (ready : Ready t.split?) :
    ((t.pieces cs).flatMap t.pieceTokens).filter (·.any (· ∈ t.framing)) =
      (cs.filter (· ∈ t.framing)).map ([·]) := by
  have kept : cs.filter (· ∈ t.framing) = (cs.filter t.keeps).filter (· ∈ t.framing) := by
    rw [List.filter_filter]
    refine List.filter_congr fun c _ => ?_
    by_cases h : c ∈ t.framing <;> simp [keeps, h]
  rw [kept, ← flatMap_chars_pieces, List.filter_flatMap, List.filter_flatMap, List.map_flatMap]
  exact List.flatMap_congr fun piece h => filter_pieceTokens ready (fits_of_mem_pieces piece h)

/-- Tokenizing loses nothing of a record but the whitespace: its tokens hold all other characters in
order. No token is empty; the framing characters are tokens of their own, and the other tokens hold
neither framing characters nor whitespace. The parts of a word that become tokens lie between
character boundaries of its text, so that they can be cut out of it. -/
theorem tokenize_lossless {config : TokenizerConfig} (h : ofConfig config = .ok t)
    (record : String) :
    String.join (t.tokenize record) = .ofList (record.toList.filter fun c =>
      c ∈ config.framing.toList ∨ c ∉ config.whitespace.toList) ∧
    (∀ token ∈ t.tokenize record, token ≠ "") ∧
    (t.tokenize record).filter (·.toList.any (· ∈ config.framing.toList)) =
      (record.toList.filter (· ∈ config.framing.toList)).map Char.toString ∧
    (∀ token ∈ t.tokenize record, (∃ c ∈ config.framing.toList, token = c.toString) ∨
      ∀ c ∈ token.toList, c ∉ config.framing.toList ∧ c ∉ config.whitespace.toList) ∧
    ∀ word, t.splitText? word = some ((t.splitWord word).map .ofList) := by
  have follows := follows_of_ofConfig h
  have ready := follows.split
  rw [← follows.framing, ← follows.whitespace]
  refine ⟨?_, ?_, ?_, ?_, splitText?_eq ready⟩
  · rw [tokenize, join_map_ofList, flatten_tokens ready]
    rfl
  · intro token htoken
    obtain ⟨part, hpart, rfl⟩ := List.mem_map.1 htoken
    obtain ⟨piece, hpiece, hpart⟩ := List.mem_flatMap.1 hpart
    have := ne_nil_of_mem_pieceTokens ready (fits_of_mem_pieces piece hpiece) part hpart
    simpa using this
  · rw [tokenize, List.filter_map]
    have toList : ((fun token : String => token.toList.any (· ∈ t.framing)) ∘ String.ofList) =
        fun part : List Char => part.any (· ∈ t.framing) := by
      ext part
      simp
    rw [toList, filter_tokens ready, List.map_map]
    rfl
  · intro token htoken
    obtain ⟨part, hpart, rfl⟩ := List.mem_map.1 htoken
    obtain ⟨piece, hpiece, hpart⟩ := List.mem_flatMap.1 hpart
    rw [String.toList_ofList]
    refine (frame_or_word ready (fits_of_mem_pieces piece hpiece) hpart).imp_left ?_
    rintro ⟨c, hc, rfl⟩
    exact ⟨c, hc, rfl⟩

/-- Words of two characters are split between them. -/
theorem tokenize_lossless_halves :
    ∃ t, ofConfig { framing := ",", patterns := [{ pattern := "=. ." }] } = .ok t ∧
      String.join (t.tokenize "né, à") = "né,à" ∧
      (t.tokenize "né, à").filter (·.toList.any (· ∈ [','])) = [","] := by
  let equals : Terminal (.punct .equals) := ⟨⟨.punct .equals, "=", ⟨1, 1⟩⟩, rfl⟩
  let first : Terminal (.punct .dot) := ⟨⟨.punct .dot, ".", ⟨1, 2⟩⟩, rfl⟩
  let second : Terminal (.punct .dot) := ⟨⟨.punct .dot, ".", ⟨1, 4⟩⟩, rfl⟩
  let d : Phrase.Choice .char {} := .single (.more (.mk (some (.char equals)) (.any first) none)
    (.single (.mk none (.any second) none)))
  have hread : readPattern .char {} "=. ." = ⟨[], some d.output⟩ :=
    readPattern_of_phrase d (by decide +kernel)
  have hc : Compilation.ofEntries [{ pattern := "=. ." }] .char {} true = .ok ⟨_, [d.output]⟩ :=
    Compilation.ofEntries_of_addEntries ((if_pos rfl).trans Engine.registerBytes_new)
      (Compilation.addEntries_cons hread (by decide +kernel) rfl) (by decide +kernel)
  have split := engine?_of_ofEntries (List.cons_ne_nil _ _) hc
  have ht : ofConfig { framing := ",", patterns := [{ pattern := "=. ." }] } = .ok _ :=
    bind_eq_ok_iff.2 ⟨{}, rfl, bind_eq_ok_iff.2 ⟨_, split, bind_eq_ok_iff.2 ⟨none, rfl, rfl⟩⟩⟩
  obtain ⟨join, -, framing, -⟩ := tokenize_lossless ht "né, à"
  exact ⟨_, ht, join.trans (by decide +kernel), framing.trans (by decide +kernel)⟩

end SymbolRegex.Tokenizer
