import Mathlib.Data.List.Induction
import Mathlib.Data.List.TakeWhile
import SymbolRegex.Proofs.Reporting

/-! # Tokens and their slices

A source is cut into slices with blanks between them. Every token stands where its
slice begins, in the true line and column, and its text is its slice or what the
slice has between its quotes. Only an escape without a meaning is placed inside its
slice, at the character that is escaped.
-/

namespace SymbolRegex

namespace Position

/-- The place behind some characters: line feeds end lines, and columns count characters. -/
def behind (cs : List Char) : Position :=
  ⟨cs.count '\n' + 1, (cs.reverse.takeWhile (· ≠ '\n')).length + 1⟩

variable {cs ds : List Char}

theorem start_after (cs : List Char) : start.after cs = behind cs := by
  induction cs using List.reverseRecOn with
  | nil => rfl
  | append_singleton cs c ih =>
    rw [after_append, ih, after_cons, after_nil]
    by_cases hc : c = '\n' <;> simp [next, behind, hc]

theorem behind_append (cs ds : List Char) : behind (cs ++ ds) = (behind cs).after ds := by
  rw [← start_after, after_append, start_after]

theorem after_of_notMem (p : Position) (h : '\n' ∉ cs) : p.after cs = p.right cs.length := by
  induction cs generalizing p with
  | nil => rfl
  | cons c cs ih =>
    rw [List.mem_cons, not_or] at h
    rw [after_cons, ih _ h.2, next, if_neg (Ne.symm h.1)]
    simp [right, Nat.add_assoc, Nat.add_comm 1]

theorem behind_right (h : '\n' ∉ ds) : (behind cs).right ds.length = behind (cs ++ ds) := by
  rw [behind_append, after_of_notMem _ h]

end Position

/-! ## Quoted runs -/

namespace Escape

/-- A text is what some content comes to when its escapes are resolved. -/
inductive Resolves : List Char → List Char → Prop where

  | nil : Resolves [] []

  | plain {c : Char} {content text : List Char} : c ≠ '\\' → Resolves content text →
      Resolves (c :: content) (c :: text)

  | escape {c d : Char} {content text : List Char} : resolve c = some d → Resolves content text →
      Resolves ('\\' :: c :: content) (d :: text)

/-- What may stand between two quotes: a backslash always has a character behind it, and a quote or
a line feed has a backslash before it. -/
inductive Enclosed (quote : Char) : List Char → Prop where

  | nil : Enclosed quote []

  | plain {c : Char} {content : List Char} : c ≠ '\\' → c ≠ quote → c ≠ '\n' →
      Enclosed quote content → Enclosed quote (c :: content)

  | escape {c : Char} {content : List Char} : Enclosed quote content →
      Enclosed quote ('\\' :: c :: content)

variable {quote : Char} {content : List Char}

def Resolved (offset : Nat) (content : List Char) : Except Invalid (List Char) → Prop
  | .ok text => Resolves content text
  | .error e => ∃ u v text, content = u ++ '\\' :: e.char :: v ∧ Resolves u text ∧ '\n' ∉ u ∧
      resolve e.char = none ∧ e.offset = offset + u.length + 1

theorem Resolved.plain {offset : Nat} {c : Char} (hb : c ≠ '\\') (hn : c ≠ '\n')
    {r : Except Invalid (List Char)} (h : Resolved (offset + 1) content r) :
    Resolved offset (c :: content) (r.map (c :: ·)) := by
  cases r with
  | ok text => exact Resolves.plain hb h
  | error e =>
    obtain ⟨u, v, text, rfl, hu, hl, he, ho⟩ := h
    refine ⟨c :: u, v, c :: text, rfl, Resolves.plain hb hu, ?_, he, ?_⟩
    · simp [Ne.symm hn, hl]
    · rw [ho, List.length_cons]
      omega

theorem Resolved.escape {offset : Nat} {c d : Char} (hc : resolve c = some d)
    {r : Except Invalid (List Char)} (h : Resolved (offset + 2) content r) :
    Resolved offset ('\\' :: c :: content) (r.map (d :: ·)) := by
  cases r with
  | ok text => exact Resolves.escape hc h
  | error e =>
    obtain ⟨u, v, text, rfl, hu, hl, he, ho⟩ := h
    have hn : c ≠ '\n' := by
      rintro rfl
      cases hc
    refine ⟨'\\' :: c :: u, v, d :: text, rfl, Resolves.escape hc hu, ?_, he, ?_⟩
    · simp [Ne.symm hn, hl]
    · rw [ho, List.length_cons, List.length_cons]
      omega

/-- A run that is closed does not end in a lone backslash, and its first escape without a meaning
stands in the line of its quote. -/
theorem Enclosed.resolved (h : Enclosed quote content) (offset : Nat) :
    Resolved offset content (resolveFrom offset content) := by
  induction h generalizing offset with
  | nil => exact .nil
  | @plain c content hb _ hn _ ih =>
    have : resolveFrom offset (c :: content) = (resolveFrom (offset + 1) content).map (c :: ·) := by
      cases content <;> simp [resolveFrom, hb]
    rw [this]
    exact (ih (offset + 1)).plain hb hn
  | @escape c content _ ih =>
    rw [resolveFrom]
    cases hc : resolve c with
    | none => exact ⟨[], content, [], rfl, .nil, by simp, hc, rfl⟩
    | some d => exact (ih (offset + 2)).escape hc

end Escape

namespace Lexeme

theorem exists_enclosed {quote : Char} {cs : List Char} {n : Nat}
    (h : quotedRun quote cs = (n, true)) : ∃ content rest,
      cs = content ++ quote :: rest ∧ n = content.length + 1 ∧ Escape.Enclosed quote content := by
  fun_induction quotedRun quote cs generalizing n with
  | case1 => simp at h
  | case2 => simp at h
  | case3 c rest m closed hrun ih =>
    obtain ⟨rfl, rfl⟩ := Prod.mk.inj h
    obtain ⟨content, rest, rfl, rfl, henc⟩ := ih hrun
    exact ⟨'\\' :: c :: content, rest, rfl, rfl, .escape henc⟩
  | case4 => simp at h
  | case5 =>
    obtain ⟨rfl, -⟩ := Prod.mk.inj h
    exact ⟨[], _, rfl, rfl, .nil⟩
  | case6 c rest h₁ h₂ hl hq m closed hrun ih =>
    have hb : c ≠ '\\' := by
      intro hc
      cases rest with
      | nil => exact h₁ hc rfl
      | cons d ds => exact h₂ d ds hc rfl
    obtain ⟨rfl, rfl⟩ := Prod.mk.inj h
    obtain ⟨content, rest, rfl, rfl, henc⟩ := ih hrun
    exact ⟨c :: content, rest, rfl, rfl, .plain hb hq hl henc⟩

end Lexeme

/-! ## The token of a slice -/

/-- The kinds of token that have their slice as text. -/
inductive WrittenAs (mode : Mode) : List Char → TokenKind → Prop where

  | punct (p : Punctuation) : WrittenAs mode [p.char] (.punct p)

  | charClass (k : CharClass) : WrittenAs mode [k.letter] (.charClass k)

  | integer {digits : List Char} : (∀ c ∈ digits, c.isDigit = true) →
      WrittenAs mode digits .integer

  | name {word : List Char} : mode = .symbol → (∀ c ∈ word, Lexeme.isWordChar c = true) →
      WrittenAs mode word .literal

/-- What a literal may hold: one character, or over symbols any name but the empty one. -/
def Mode.Holds : Mode → List Char → Prop
  | .char, text => text.length = 1
  | .symbol, text => text ≠ []

inductive Faulty (mode : Mode) : List Char → LexCause → Prop where

  | unterminated {quote : Char} {cs : List Char} : quote = '\'' ∨ quote = '"' →
      Faulty mode (quote :: cs) (.unterminated quote)

  | unrecognized (c : Char) : Faulty mode [c] (.unrecognized c)

  | emptyLiteral : Faulty mode ['\'', '\''] .emptyLiteral

  | multiChar {content text : List Char} : mode = .char → Escape.Resolves content text →
      1 < text.length →
      Faulty mode ('\'' :: (content ++ ['\''])) (.multiChar (String.ofList text))

inductive TokenOf (mode : Mode) (before : List Char) : List Char → Lexed → Prop where

  | slice {slice : List Char} {kind : TokenKind} : WrittenAs mode slice kind →
      TokenOf mode before slice ⟨⟨kind, String.ofList slice, .behind before⟩, []⟩

  | literal {content text : List Char} : Escape.Resolves content text → mode.Holds text →
      TokenOf mode before ('\'' :: (content ++ ['\'']))
        ⟨⟨.literal, String.ofList text, .behind before⟩, []⟩

  | string {content text : List Char} : Escape.Resolves content text →
      TokenOf mode before ('"' :: (content ++ ['"']))
        ⟨⟨.string, String.ofList text, .behind before⟩, []⟩

  | fault {slice : List Char} {cause : LexCause} : Faulty mode slice cause →
      TokenOf mode before slice (.ofFault cause slice (.behind before))

  /-- The first escape without a meaning is placed at the character that is escaped. -/
  | invalidEscape {quote c : Char} {u v text : List Char} : quote = '\'' ∨ quote = '"' →
      Escape.Resolves u text → Escape.resolve c = none →
      TokenOf mode before (quote :: (u ++ '\\' :: c :: v ++ [quote]))
        (.ofFault (.invalidEscape c) (quote :: (u ++ '\\' :: c :: v ++ [quote]))
          (.behind (before ++ quote :: (u ++ ['\\']))))

/-- What stands behind the given characters is cut into tokens: each of them has a slice of its own,
and only blanks are between the slices. -/
inductive Cut (mode : Mode) : List Char → List Char → List Lexed → Prop where

  | blanks {before gap : List Char} : (∀ c ∈ gap, Text.isBlank c = true) → Cut mode before gap []

  | token {before gap slice rest : List Char} {x : Lexed} {xs : List Lexed} :
      (∀ c ∈ gap, Text.isBlank c = true) → slice ≠ [] → TokenOf mode (before ++ gap) slice x →
      Cut mode (before ++ gap ++ slice) rest xs →
      Cut mode before (gap ++ (slice ++ rest)) (x :: xs)

variable {mode : Mode} {before slice rest : List Char} {x : Lexed} {xs : List Lexed}

namespace Cut

variable {cs ds : List Char} {ys : List Lexed}

theorem cons_blank {c : Char} (hc : Text.isBlank c = true) (h : Cut mode (before ++ [c]) cs xs) :
    Cut mode before (c :: cs) xs := by
  cases h with
  | blanks hgap => exact .blanks (List.forall_mem_cons.2 ⟨hc, hgap⟩)
  | @token _ gap _ _ _ _ hgap hne ht hrest =>
    rw [List.append_assoc before, List.singleton_append] at ht hrest
    exact @Cut.token _ _ (c :: gap) _ _ _ _ (List.forall_mem_cons.2 ⟨hc, hgap⟩) hne ht hrest

theorem single (hne : slice ≠ []) (ht : TokenOf mode before slice x) :
    Cut mode before slice [x] := by
  have h : Cut mode before ([] ++ (slice ++ [])) [x] := by
    refine .token (by simp) hne ?_ (.blanks (by simp))
    rwa [List.append_nil]
  simpa using h

theorem append (h : Cut mode before cs xs) (h' : Cut mode (before ++ cs) ds ys) :
    Cut mode before (cs ++ ds) (xs ++ ys) := by
  induction h with
  | @blanks before gap hgap =>
    induction gap generalizing before with
    | nil => simpa using h'
    | cons c gap ih =>
      rw [List.forall_mem_cons] at hgap
      refine cons_blank hgap.1 (ih hgap.2 ?_)
      rwa [List.append_assoc]
  | @token before gap slice rest x xs hgap hne ht _ ih =>
    rw [List.append_assoc, List.append_assoc]
    refine .token hgap hne ht (ih ?_)
    simpa using h'

theorem forall_mem {P : Lexed → Prop} (hP : ∀ {before slice x}, TokenOf mode before slice x → P x)
    (h : Cut mode before rest xs) : ∀ x ∈ xs, P x := by
  induction h with
  | blanks => simp
  | token _ _ ht _ ih => exact List.forall_mem_cons.2 ⟨hP ht, ih⟩

end Cut

namespace Lexed

/-- Tokens that bring the same faults as others, but may bring them with other tokens. -/
structure Regrouped (xs ys : List Lexed) : Prop where
  tokens : xs.map (·.token) = ys.map (·.token)
  faults : xs.flatMap (·.faults) = ys.flatMap (·.faults)

theorem Regrouped.append {xs xs' ys ys' : List Lexed} (h : Regrouped xs ys)
    (h' : Regrouped xs' ys') : Regrouped (xs ++ xs') (ys ++ ys') where
  tokens := by rw [List.map_append, List.map_append, h.tokens, h'.tokens]
  faults := by rw [List.flatMap_append, List.flatMap_append, h.faults, h'.faults]

theorem regrouped_reportTogether (xs : List Lexed) :
    Regrouped xs (Lexeme.reportTogether xs) where
  tokens := (Lexeme.map_token_reportTogether xs).symm
  faults := (Lexeme.faults_reportTogether xs).symm

end Lexed

/-! ## Cutting a source -/

theorem CharClass.letter_of_ofLetter? {c : Char} {k : CharClass} (h : ofLetter? c = some k) :
    k.letter = c := by
  simpa using List.find?_some h

namespace Lexeme

theorem newline_notMem {cs : List Char} (h : ∀ c ∈ cs, isWordChar c = true) : '\n' ∉ cs := by
  intro hn
  have := h '\n' hn
  revert this
  decide

theorem cut_splitWord (p : Position) {cs : List Char} (hn : '\n' ∉ cs) :
    ∀ before, p = .behind before → Cut mode before cs (splitWord p cs) := by
  fun_induction splitWord p cs with
  | case1 => exact fun _ _ => .blanks (by simp)
  | case2 p c cs hc digits ih =>
    rintro before rfl
    have split : c :: cs = digits ++ cs.dropWhile Char.isDigit := by
      simp [digits, List.takeWhile_append_dropWhile]
    rw [split, List.mem_append, not_or] at hn
    have all : ∀ d ∈ digits, d.isDigit = true :=
      List.forall_mem_cons.2 ⟨hc, fun d hd => List.mem_takeWhile_imp hd⟩
    rw [split]
    have first : Cut mode before digits [⟨⟨.integer, String.ofList digits, .behind before⟩, []⟩] :=
      .single (List.cons_ne_nil _ _) (.slice (.integer all))
    exact first.append (ih hn.2 _ (Position.behind_right hn.1))
  | case3 p c cs hc head ih =>
    rintro before rfl
    rw [List.mem_cons, not_or] at hn
    have ht : TokenOf mode before [c] head := by
      unfold head
      split
      · next k hk =>
        obtain rfl := CharClass.letter_of_ofLetter? hk
        exact .slice (.charClass k)
      · exact .fault (.unrecognized c)
    have first : Cut mode before [c] [head] := .single (List.cons_ne_nil _ _) ht
    have hc : '\n' ∉ [c] := by simpa using hn.1
    exact first.append (ih hn.2 _ (Position.behind_right hc))

inductive Shaped : Shape → List Char → Prop where

  | punct (p : Punctuation) : Shaped (.punct p) [p.char]

  | digits {word : List Char} : (∀ c ∈ word, c.isDigit = true) → Shaped .digits word

  | word {word : List Char} : (∀ c ∈ word, isWordChar c = true) → Shaped .word word

  | quoted {content : List Char} : Escape.Enclosed '\'' content →
      Shaped .quoted ('\'' :: (content ++ ['\'']))

  | string {content : List Char} : Escape.Enclosed '"' content →
      Shaped .string ('"' :: (content ++ ['"']))

  | unterminated {quote : Char} {cs : List Char} : quote = '\'' ∨ quote = '"' →
      Shaped .unterminated (quote :: cs)

  | stray (c : Char) : Shaped .stray [c]

theorem shaped_measure {c : Char} {rest : List Char} {shape : Shape} {n : Nat}
    (h : measure c rest = (shape, n)) : Shaped shape (c :: rest.take n) := by
  unfold measure at h
  split at h
  · next hq =>
    dsimp only at h
    obtain ⟨rfl, rfl⟩ := Prod.mk.inj h
    generalize hrun : quotedRun c rest = run
    obtain ⟨n, closed⟩ := run
    cases closed with
    | false => exact .unterminated hq
    | true =>
      obtain ⟨content, rest, rfl, rfl, henc⟩ := exists_enclosed hrun
      have htake : (content ++ c :: rest).take (content.length + 1) = content ++ [c] := by
        rw [List.append_cons]
        exact List.take_left' (by simp)
      simp only [htake]
      rcases hq with rfl | rfl
      · exact .quoted henc
      · exact .string henc
  · split at h
    · next p hp =>
      obtain ⟨rfl, rfl⟩ := Prod.mk.inj h
      obtain rfl := Punctuation.ofChar?_eq_some_iff.1 hp
      exact .punct p
    · split at h
      · next hw =>
        obtain ⟨rfl, rfl⟩ := Prod.mk.inj h
        have htake : rest.take (rest.takeWhile isWordChar).length = rest.takeWhile isWordChar :=
          (List.prefix_iff_eq_take.1 (List.takeWhile_prefix _)).symm
        rw [htake, wordShape]
        split
        · next hd => exact .digits (List.all_eq_true.1 hd)
        · exact .word (List.forall_mem_cons.2 ⟨hw, fun _ => List.mem_takeWhile_imp⟩)
      · obtain ⟨rfl, rfl⟩ := Prod.mk.inj h
        exact .stray c

theorem tokenOf_withContent {quote : Char} {content : List Char} {use : String → Lexed}
    (hq : quote = '\'' ∨ quote = '"') (henc : Escape.Enclosed quote content) (shape : Shape)
    (huse : ∀ text, Escape.Resolves content text →
      TokenOf mode before (quote :: (content ++ [quote])) (use (String.ofList text))) :
    TokenOf mode before (quote :: (content ++ [quote]))
      (withContent ⟨shape, quote :: (content ++ [quote]), .behind before⟩ use) := by
  have hcontent : Lexeme.content ⟨shape, quote :: (content ++ [quote]), .behind before⟩ =
      content := by simp [Lexeme.content]
  have hres := henc.resolved 0
  unfold withContent Escape.unescape
  rw [hcontent]
  revert hres
  cases Escape.resolveFrom 0 content with
  | ok text => exact huse text
  | error e =>
    rintro ⟨u, v, text, rfl, hu, hl, he, ho⟩
    have hline : '\n' ∉ quote :: (u ++ ['\\']) := by
      rcases hq with rfl | rfl <;> simpa using hl
    have hpos : (Position.behind before).right (1 + e.offset) =
        .behind (before ++ quote :: (u ++ ['\\'])) := by
      rw [← Position.behind_right hline, ho]
      simp [Nat.add_comm]
    dsimp only
    rw [hpos]
    exact .invalidEscape hq hu he

theorem writtenAs_symbolWordKind {word : List Char} (hw : ∀ c ∈ word, isWordChar c = true) :
    WrittenAs .symbol word (symbolWordKind word) := by
  unfold symbolWordKind
  split
  · split
    · next c k hk =>
      obtain rfl := CharClass.letter_of_ofLetter? hk
      exact .charClass k
    · exact .name rfl hw
  · exact .name rfl hw

theorem tokenOf_charLiteral {content text : List Char} (h : Escape.Resolves content text)
    (shape : Shape) :
    TokenOf .char before ('\'' :: (content ++ ['\'']))
      (charLiteral ⟨shape, '\'' :: (content ++ ['\'']), .behind before⟩ (String.ofList text)) := by
  unfold charLiteral
  rw [String.toList_ofList]
  cases text with
  | nil =>
    cases h
    exact .fault .emptyLiteral
  | cons c text =>
    cases text with
    | nil => exact .literal h rfl
    | cons d text => exact .fault (.multiChar rfl h (by simp))

theorem tokenOf_symbolLiteral {content text : List Char} (h : Escape.Resolves content text)
    (shape : Shape) :
    TokenOf .symbol before ('\'' :: (content ++ ['\'']))
      (symbolLiteral ⟨shape, '\'' :: (content ++ ['\'']), .behind before⟩
        (String.ofList text)) := by
  unfold symbolLiteral
  cases text with
  | nil =>
    cases h
    exact .fault .emptyLiteral
  | cons c text =>
    rw [if_neg (by simp)]
    exact .literal h (List.cons_ne_nil c text)

/-- The tokens of a lexeme cut its slice, once each of them has its own faults. -/
theorem exists_cut_tokens {shape : Shape} {slice : List Char} (mode : Mode) (before : List Char)
    (h : Shaped shape slice) (hne : slice ≠ []) :
    ∃ xs, Cut mode before slice xs ∧
      Lexed.Regrouped xs (tokens mode ⟨shape, slice, .behind before⟩) := by
  have one {x : Lexed} (hx : TokenOf mode before slice x) :
      ∃ xs, Cut mode before slice xs ∧ Lexed.Regrouped xs [x] := ⟨[x], .single hne hx, rfl, rfl⟩
  cases h with
  | punct p => exact one (.slice (.punct p))
  | digits hd => exact one (.slice (.integer hd))
  | word hw =>
    cases mode with
    | char => exact ⟨_, cut_splitWord _ (newline_notMem hw) _ rfl, Lexed.regrouped_reportTogether _⟩
    | symbol => exact one (.slice (writtenAs_symbolWordKind hw))
  | quoted henc =>
    cases mode with
    | char => exact one (tokenOf_withContent (.inl rfl) henc _ fun _ ht => tokenOf_charLiteral ht _)
    | symbol =>
      exact one (tokenOf_withContent (.inl rfl) henc _ fun _ ht => tokenOf_symbolLiteral ht _)
  | string henc => exact one (tokenOf_withContent (.inr rfl) henc _ fun _ ht => .string ht)
  | unterminated hq => exact one (.fault (.unterminated hq))
  | stray c => exact one (.fault (.unrecognized c))

theorem exists_cut_scan (mode : Mode) (p : Position) (cs : List Char) :
    ∀ before, p = .behind before → ∃ xs, Cut mode before cs xs ∧
      Lexed.Regrouped xs ((scan p cs).flatMap (tokens mode)) := by
  fun_induction scan p cs with
  | case1 => exact fun _ _ => ⟨[], .blanks (by simp), rfl, rfl⟩
  | case2 p c rest hb ih =>
    rintro before rfl
    obtain ⟨xs, hcut, hxs⟩ := ih _ (Position.behind_append before [c]).symm
    exact ⟨xs, hcut.cons_blank hb, hxs⟩
  | case3 p c rest hb shape n hm slice ih =>
    rintro before rfl
    have hsplit : c :: rest = slice ++ rest.drop n := by simp [slice]
    obtain ⟨xs, hcut, hxs⟩ :=
      exists_cut_tokens mode before (shaped_measure hm) (List.cons_ne_nil _ _)
    obtain ⟨ys, hcut', hys⟩ := ih _ (Position.behind_append before slice).symm
    rw [hsplit]
    exact ⟨xs ++ ys, hcut.append hcut', hxs.append hys⟩

end Lexeme

/-- An escaped line feed in a run is a fault itself, and it stands in the line of the quote. -/
example : lex .symbol "ab '\\\n\\x'" =
    ⟨[⟨⟨.literal, "ab", ⟨1, 1⟩⟩, []⟩,
      ⟨⟨.error, "'\\\n\\x'", ⟨1, 6⟩⟩, [⟨.invalidEscape '\n', ⟨1, 6⟩⟩]⟩], .eof ⟨2, 4⟩⟩ := by
  decide +kernel

end SymbolRegex
