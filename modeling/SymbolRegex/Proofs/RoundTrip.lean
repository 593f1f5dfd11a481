import SymbolRegex.Proofs.Recognition
import SymbolRegex.Proofs.Reporting
import SymbolRegex.Proofs.Spelling

/-! # Reading written patterns

Tokens that a pattern is written with are those of a phrase over symbols, which
stands for the flattened pattern when the actions of the pattern are numbered in
their order. So a pattern that was read can be written and read again.
-/

namespace SymbolRegex

open Phrase

namespace Phrase

theorem exists_token {ts : List Token} {kind : TokenKind} {text : String} {w : List Spelling}
    (h : ts.map Token.spelling = (kind, text) :: w) :
    ∃ (t : Terminal kind) (us : List Token), ts = t.val :: us ∧ t.val.text = text ∧
      us.map Token.spelling = w := by
  obtain ⟨t, us, rfl, ht, rfl⟩ := List.map_eq_cons_iff.1 h
  exact ⟨⟨t, congrArg Prod.fst ht⟩, us, rfl, congrArg Prod.snd ht, rfl⟩

theorem exists_last {ts : List Token} {kind : TokenKind} {text : String}
    (h : ts.map Token.spelling = [(kind, text)]) :
    ∃ t : Terminal kind, ts = [t.val] ∧ t.val.text = text := by
  obtain ⟨t, us, rfl, ht, hu⟩ := exists_token h
  obtain rfl := List.map_eq_nil_iff.1 hu
  exact ⟨t, rfl, ht⟩

def ofLiteral (t : Terminal .literal) : SymbolToken .symbol := ⟨t.val, .inl t.property⟩

/-! ## Set members and repetitions -/

theorem exists_member {ts : List Token} {i : SetItem} (h : ts.map Token.spelling = i.spell) :
    ∃ m : Member .symbol, m.tokens = ts ∧ m.items {} = [i] := by
  cases i with
  | literal text =>
    obtain ⟨t, rfl, rfl⟩ := exists_last h
    exact ⟨.symbol (ofLiteral t), rfl, rfl⟩
  | range low high =>
    obtain ⟨l, us, rfl, rfl, hu⟩ := exists_token h
    obtain ⟨dash, vs, rfl, -, hv⟩ := exists_token hu
    obtain ⟨u, rfl, rfl⟩ := exists_last hv
    exact ⟨.range (ofLiteral l) dash (ofLiteral u), rfl, rfl⟩

theorem exists_members {items : List SetItem} : ∀ {ts : List Token},
    ts.map Token.spelling = items.flatMap SetItem.spell → ∃ ms : List (Member .symbol),
      ms.flatMap Member.tokens = ts ∧ ms.flatMap (Member.items {}) = items := by
  induction items with
  | nil =>
    intro ts h
    obtain rfl := List.map_eq_nil_iff.1 h
    exact ⟨[], rfl, rfl⟩
  | cons i items ih =>
    intro ts h
    obtain ⟨us, vs, rfl, hu, hv⟩ := List.map_eq_append_iff.1 (by rwa [List.flatMap_cons] at h)
    obtain ⟨m, rfl, hm⟩ := exists_member hu
    obtain ⟨ms, rfl, hms⟩ := ih hv
    exact ⟨m :: ms, by simp, by simp [hm, hms]⟩

theorem exists_caret {ts : List Token} {negated : Bool}
    (h : ts.map Token.spelling = if negated then [.punct .caret] else []) :
    ∃ caret? : Option (Terminal (.punct .caret)),
      ts = caret?.elim [] (fun t => [t.val]) ∧ caret?.isSome = negated := by
  cases negated with
  | false => exact ⟨none, List.map_eq_nil_iff.1 h, rfl⟩
  | true =>
    obtain ⟨caret, rfl, -⟩ := exists_last h
    exact ⟨some caret, rfl, rfl⟩

theorem count_of_text {t : Terminal .integer} {n : Nat} (h : t.val.text = toString n) :
    count t = n := by
  rw [count, h, decimal_toString]

theorem exists_repetition {min max : Nat} (hv : ValidBounds min max) {ts : List Token}
    (h : ts.map Token.spelling = spellBounds min max) :
    ∃ q : Repetition, q.tokens = ts ∧ ∀ p, q.pattern p = .counted p min max := by
  unfold spellBounds at h
  split at h
  · next heq =>
    obtain ⟨opening, us, rfl, -, hu⟩ := exists_token h
    obtain ⟨n, vs, rfl, hn, hc⟩ := exists_token hu
    obtain ⟨closing, rfl, -⟩ := exists_last hc
    obtain rfl := count_of_text hn
    subst heq
    exact ⟨.exactly opening n closing hv, rfl, fun _ => rfl⟩
  · obtain ⟨opening, us, rfl, -, hu⟩ := exists_token h
    obtain ⟨n, us, rfl, hn, hu₁⟩ := exists_token hu
    obtain ⟨comma, us, rfl, -, hu₂⟩ := exists_token hu₁
    obtain ⟨m, us, rfl, hm, hc⟩ := exists_token hu₂
    obtain ⟨closing, rfl, -⟩ := exists_last hc
    obtain rfl := count_of_text hn
    obtain rfl := count_of_text hm
    exact ⟨.between opening n comma m closing hv, rfl, fun _ => rfl⟩

/-! ## Phrases of written patterns -/

/-- A phrase with these labels, which stands for `value n` when its first action is number `n`,
names the actions by their indices, and stands for `result` if these are numbered in order. -/
structure Denotes {β : Type} (labels : List (Label .symbol)) (value : Nat → β) (actions : List Nat)
    (result : β) : Prop where
  names : labels.filterMap Label.name? = actions.map toString
  value_eq : ∀ n, actions = List.range' n actions.length → value n = result

section Denotes

variable {β γ δ : Type} {ls ms : List (Label .symbol)} {v : Nat → β} {u : Nat → γ}
  {is js : List Nat} {b : β} {c : γ}

theorem Denotes.length_eq (h : Denotes ls v is b) : ls.length = is.length := by
  have hn : (ls.filterMap Label.name?).length = ls.length := by
    rw [List.filterMap_length_eq_length]
    rintro (_ | _) _
    rfl
  rw [← hn, h.names, List.length_map]

theorem denotes_const (b : β) : Denotes [] (fun _ => b) [] b := ⟨rfl, fun _ _ => rfl⟩

theorem Denotes.map (f : β → γ) (h : Denotes ls v is b) :
    Denotes ls (fun n => f (v n)) is (f b) :=
  ⟨h.names, fun n hn => congrArg f (h.value_eq n hn)⟩

theorem Denotes.append (f : β → γ → δ) (h : Denotes ls v is b) (h' : Denotes ms u js c) :
    Denotes (ls ++ ms) (fun n => f (v n) (u (n + ls.length))) (is ++ js) (f b c) := by
  refine ⟨by rw [List.filterMap_append, h.names, h'.names, List.map_append], fun n hn => ?_⟩
  rw [List.length_append, ← List.range'_append_1] at hn
  obtain ⟨hi, hj⟩ := List.append_inj hn (by simp)
  rw [h.value_eq n hi, h.length_eq, h'.value_eq _ hj]

theorem Denotes.action {v : Nat → TextPattern} {p : TextPattern} (name : SymbolToken .symbol)
    (equals : Terminal (.punct .equals)) {i : Nat} (hn : name.val.text = toString i)
    (h : Denotes ls v is p) :
    Denotes (.symbol name equals :: ls) (fun n => Pattern.action n (v (n + 1))) (i :: is)
      (Pattern.action i p) := by
  constructor
  case names => simp [Label.name?, hn, h.names]
  case value_eq =>
    intro n hr
    rw [List.length_cons, List.range'_succ, List.cons.injEq] at hr
    obtain ⟨rfl, hr⟩ := hr
    rw [h.value_eq _ hr]

end Denotes

/-- The tokens are those of a choice whose branches are the alternatives of the pattern. -/
def ReadsChoice (p : TextPattern) (ts : List Token) : Prop :=
  ∃ d : Choice .symbol {}, d.tokens = ts ∧
    Denotes d.labels (fun n => d.branches n) p.actions p.flatten.alternatives

def ReadsTerm (p : TextPattern) (ts : List Token) : Prop :=
  ∃ d : Term .symbol {}, d.tokens = ts ∧ Denotes d.labels (fun n => d.pattern n) p.actions p.flatten

def ReadsAtom (p : TextPattern) (ts : List Token) : Prop :=
  ∃ d : Atom .symbol {}, d.tokens = ts ∧ Denotes d.labels (fun n => d.pattern n) p.actions p.flatten

/-- The tokens that a pattern is written with are those of a choice, and of a single term unless
the pattern is a list. -/
structure ReadsBack (p : TextPattern) : Prop where
  choice : ∀ ts : List Token, ts.map Token.spelling = p.spell → ReadsChoice p ts
  term : p.isList = false → ∀ ts : List Token, ts.map Token.spelling = p.spell → ReadsTerm p ts

variable {p : TextPattern} {ts : List Token}

theorem readsBack_of_term (hl : p.isList = false)
    (h : ∀ ts : List Token, ts.map Token.spelling = p.spell → ReadsTerm p ts) : ReadsBack p where
  choice ts ht := by
    obtain ⟨d, hd, hv⟩ := h ts ht
    refine ⟨.single (.single d), hd, ?_⟩
    rw [Pattern.alternatives_of_not_list (by simpa using hl)]
    exact hv.map ([·])
  term _ := h

theorem readsAtom_leaf {a : Leaf} (ha : a.Writable) (h : ts.map Token.spelling = a.spell) :
    ReadsAtom (.leaf a) ts := by
  cases a with
  | literal text =>
    obtain ⟨t, rfl, rfl⟩ := exists_last h
    exact ⟨.symbol (ofLiteral t), rfl, denotes_const _⟩
  | range => cases ha
  | any =>
    obtain ⟨t, rfl, -⟩ := exists_last h
    exact ⟨.any t, rfl, denotes_const _⟩
  | set negated items =>
    obtain ⟨us, close, rfl, hu, hc⟩ := List.map_eq_append_iff.1 h
    obtain ⟨us, members, rfl, hu, hm⟩ := List.map_eq_append_iff.1 hu
    obtain ⟨opening, carets, rfl, -, hk⟩ := exists_token hu
    obtain ⟨caret?, rfl, rfl⟩ := exists_caret hk
    obtain ⟨ms, rfl, rfl⟩ := exists_members hm
    obtain ⟨closing, rfl, -⟩ := exists_last hc
    exact ⟨.set ⟨opening, caret?, ms, closing, ha.1⟩,
      by simp [Atom.tokens, Bracketed.tokens], denotes_const _⟩

theorem ReadsAtom.term (h : ReadsAtom p ts) : ReadsTerm p ts := by
  obtain ⟨a, rfl, hd⟩ := h
  exact ⟨.mk none a none, by simp [Term.tokens], hd⟩

theorem ReadsBack.atom (hw : p.Writable) (h : ReadsBack p)
    (ht : ts.map Token.spelling = Pattern.encloseSpelling (!p.isLeaf) p.spell) :
    ReadsAtom p ts := by
  cases hl : p.isLeaf with
  | true =>
    cases hw with
    | leaf ha => exact readsAtom_leaf ha ht
    | _ => contradiction
  | false =>
    rw [hl] at ht
    obtain ⟨us, vs, rfl, hu, hv⟩ := List.map_eq_append_iff.1 ht
    obtain ⟨opening, us, rfl, -, hinner⟩ := exists_token hu
    obtain ⟨closing, rfl, -⟩ := exists_last hv
    obtain ⟨d, rfl, hd⟩ := h.choice us hinner
    refine ⟨.group opening d closing, rfl, ?_⟩
    rw [← Pattern.ofChoice_alternatives hw]
    exact hd.map Pattern.ofChoice

theorem ReadsBack.item (hw : p.Writable) (h : ReadsBack p)
    (ht : ts.map Token.spelling = Pattern.encloseSpelling p.isList p.spell) : ReadsTerm p ts := by
  cases hl : p.isList with
  | false => exact h.term hl ts (by rwa [hl] at ht)
  | true =>
    have hleaf : p.isLeaf = false := by cases p <;> first | rfl | contradiction
    have hatom : ts.map Token.spelling = Pattern.encloseSpelling (!p.isLeaf) p.spell := by
      rw [hleaf]
      rwa [hl] at ht
    exact (h.atom hw hatom).term

theorem readsBack_leaf {a : Leaf} (ha : a.Writable) : ReadsBack (.leaf a) :=
  readsBack_of_term rfl fun _ ht => (readsAtom_leaf ha ht).term

theorem readsBack_repeated {p' : TextPattern} {w : List Spelling} (hw : p.Writable)
    (h : ReadsBack p) (hl : p'.isList = false)
    (hs : p'.spell = Pattern.encloseSpelling (!p.isLeaf) p.spell ++ w)
    (ha : p'.actions = p.actions)
    (hq : ∀ us : List Token, us.map Token.spelling = w →
      ∃ q : Repetition, q.tokens = us ∧ q.pattern p.flatten = p'.flatten) : ReadsBack p' := by
  refine readsBack_of_term hl fun ts ht => ?_
  rw [hs] at ht
  obtain ⟨us, vs, rfl, hu, hv⟩ := List.map_eq_append_iff.1 ht
  obtain ⟨a, rfl, hd⟩ := h.atom hw hu
  obtain ⟨q, rfl, hq⟩ := hq vs hv
  refine ⟨.mk none a (some q), rfl, ?_⟩
  rw [ha, ← hq]
  exact hd.map q.pattern

theorem readsBack_action {i : Nat} (hw : p.Writable) (h : ReadsBack p) :
    ReadsBack (.action i p) := by
  refine readsBack_of_term rfl fun ts ht => ?_
  obtain ⟨n, ts, rfl, hn, h₁⟩ := exists_token ht
  obtain ⟨equals, ts, rfl, -, h₂⟩ := exists_token h₁
  obtain ⟨a, rfl, hd⟩ := h.atom hw h₂
  refine ⟨.mk (some (.symbol ⟨n.val, .inr ⟨n.property, rfl⟩⟩ equals)) a none,
    by simp [Term.tokens, Label.tokens], ?_⟩
  exact hd.action _ equals hn

theorem exists_sequence {ps : List TextPattern} (hne : ps ≠ []) (hw : ∀ p ∈ ps, p.Writable)
    (h : ∀ p ∈ ps, ReadsBack p) : ∀ {ts : List Token},
    ts.map Token.spelling = (Pattern.spellItems ps).flatten → ∃ d : Sequence .symbol {},
      d.tokens = ts ∧ Denotes d.labels (fun n => d.items n) (Pattern.allActions ps)
        (Pattern.flattenItems ps) := by
  induction ps with
  | nil => contradiction
  | cons p ps ih =>
    intro ts ht
    rw [List.forall_mem_cons] at hw h
    obtain ⟨us, vs, rfl, hu, hv⟩ := List.map_eq_append_iff.1 ht
    obtain ⟨t, rfl, hp⟩ := h.1.item hw.1 hu
    rw [Pattern.allActions_cons, Pattern.flattenItems]
    cases ps with
    | nil =>
      obtain rfl := List.map_eq_nil_iff.1 hv
      refine ⟨.single t, by simp [Sequence.tokens], ?_⟩
      rw [Pattern.flattenItems, Pattern.allActions_nil, List.append_nil]
      exact hp.map ([·])
    | cons q qs =>
      obtain ⟨d, rfl, hd⟩ := ih (List.cons_ne_nil q qs) hw.2 h.2 hv
      exact ⟨.more t d, rfl, hp.append List.cons hd⟩

theorem readsBack_sequence {ps : List TextPattern} (hl : 2 ≤ ps.length)
    (hw : ∀ p ∈ ps, p.Writable) (h : ∀ p ∈ ps, ReadsBack p) : ReadsBack (.sequence ps) where
  choice ts ht := by
    obtain ⟨d, rfl, hd⟩ := exists_sequence (List.ne_nil_of_length_pos (by omega)) hw h ht
    refine ⟨.single d, rfl, ?_⟩
    have hs : Pattern.ofSequence (Pattern.flattenItems ps) = .sequence (Pattern.flattenItems ps) :=
      Pattern.ofSequence_of_two_le (by rwa [Pattern.length_flattenItems])
    have := hd.map fun qs => [Pattern.ofSequence qs]
    rwa [hs] at this
  term hlist := by contradiction

/-! ## Choices that are branches -/

def Choice.append {mode : Mode} {sets : SetTable} (c : Choice mode sets)
    (bar : Terminal (.punct .bar)) (rest : Choice mode sets) : Choice mode sets :=
  match c with
  | .single s => .more s bar rest
  | .more s bar' c => .more s bar' (c.append bar rest)

section Append

variable {mode : Mode} {sets : SetTable} (bar : Terminal (.punct .bar)) (rest : Choice mode sets)

theorem Choice.tokens_append (c : Choice mode sets) :
    (c.append bar rest).tokens = c.tokens ++ bar.val :: rest.tokens := by
  fun_induction Choice.append c bar rest with
  | case1 s => rfl
  | case2 s bar' c ih => simp [Choice.tokens, ih]

theorem Choice.labels_append (c : Choice mode sets) :
    (c.append bar rest).labels = c.labels ++ rest.labels := by
  fun_induction Choice.append c bar rest with
  | case1 s => rfl
  | case2 s bar' c ih => simp [Choice.labels, ih]

theorem Choice.branches_append (c : Choice mode sets) (n : Nat) :
    (c.append bar rest).branches n = c.branches n ++ rest.branches (n + c.labels.length) := by
  fun_induction Choice.append c bar rest generalizing n with
  | case1 s => rfl
  | case2 s bar' c ih => simp [Choice.branches, Choice.labels, ih, Nat.add_assoc]

end Append

theorem exists_choice {ps : List TextPattern} (hne : ps ≠ []) (h : ∀ p ∈ ps, ReadsBack p) :
    ∀ {ts : List Token},
    ts.map Token.spelling = List.intercalate [.punct .bar] (Pattern.spellBranches ps) →
      ∃ d : Choice .symbol {}, d.tokens = ts ∧ Denotes d.labels (fun n => d.branches n)
        (Pattern.allActions ps) (Pattern.flattenBranches ps) := by
  induction ps with
  | nil => contradiction
  | cons p ps ih =>
    intro ts ht
    rw [List.forall_mem_cons] at h
    rw [Pattern.allActions_cons, Pattern.flattenBranches]
    cases ps with
    | nil =>
      rw [Pattern.flattenBranches, Pattern.allActions_nil, List.append_nil, List.append_nil]
      exact h.1.choice ts (by simpa [Pattern.spellBranches] using ht)
    | cons q qs =>
      rw [Pattern.spellBranches, Pattern.spellBranches, List.intercalate_cons_cons,
        ← Pattern.spellBranches, List.append_assoc] at ht
      obtain ⟨us, vs, rfl, hu, hv⟩ := List.map_eq_append_iff.1 ht
      obtain ⟨bar, vs, rfl, -, hrest⟩ := exists_token hv
      obtain ⟨c, rfl, hc⟩ := h.1.choice us hu
      obtain ⟨d, rfl, hd⟩ := ih (List.cons_ne_nil q qs) h.2 hrest
      refine ⟨c.append bar d, Choice.tokens_append bar d c, ?_⟩
      simp only [Choice.labels_append, Choice.branches_append]
      exact hc.append (· ++ ·) hd

theorem readsBack_choice {ps : List TextPattern} (hl : 2 ≤ ps.length)
    (h : ∀ p ∈ ps, ReadsBack p) : ReadsBack (.choice ps) where
  choice _ ht := exists_choice (List.ne_nil_of_length_pos (by omega)) h ht
  term hlist := by contradiction

/-- What can be written is what a phrase stands for. -/
theorem readsBack_of_writable (h : p.Writable) : ReadsBack p := by
  induction h with
  | leaf ha => exact readsBack_leaf ha
  | sequence hl hw ih => exact readsBack_sequence hl hw ih
  | choice hl _ ih => exact readsBack_choice hl ih
  | optional hw ih =>
    refine readsBack_repeated hw ih rfl rfl rfl fun us hu => ?_
    obtain ⟨t, rfl, -⟩ := exists_last hu
    exact ⟨.question t, rfl, rfl⟩
  | counted hb hw ih =>
    refine readsBack_repeated hw ih rfl rfl rfl fun us hu => ?_
    obtain ⟨q, hq, hp⟩ := exists_repetition hb hu
    exact ⟨q, hq, hp _⟩
  | oneOrMore hw ih =>
    refine readsBack_repeated hw ih rfl rfl rfl fun us hu => ?_
    obtain ⟨t, rfl, -⟩ := exists_last hu
    exact ⟨.plus t, rfl, rfl⟩
  | zeroOrMore hw ih =>
    refine readsBack_repeated hw ih rfl rfl rfl fun us hu => ?_
    obtain ⟨t, rfl, -⟩ := exists_last hu
    exact ⟨.star t, rfl, rfl⟩
  | action hw ih => exact readsBack_action hw ih

end Phrase

/-! ## The texts of tokens -/

namespace Lexeme

theorem slice_ne_nil {p : Position} {cs : List Char} : ∀ l ∈ scan p cs, l.slice ≠ [] := by
  fun_induction scan p cs with
  | case1 => simp
  | case2 p c rest hb ih => exact ih
  | case3 p c rest hb shape n hm slice ih =>
    rw [List.forall_mem_cons]
    exact ⟨List.cons_ne_nil c _, ih⟩

theorem worded_splitWord (p : Position) (cs : List Char) :
    Worded ((splitWord p cs).map (·.token)) := by
  fun_induction splitWord p cs with
  | case1 => simp [Worded]
  | case2 p c rest hc digits ih =>
    rw [List.map_cons, worded_cons]
    exact ⟨fun _ => by simp [digits], ih⟩
  | case3 p c rest hc head ih =>
    rw [List.map_cons, worded_cons]
    refine ⟨?_, ih⟩
    unfold head
    split
    · simp
    · simp [Lexed.ofFault]

variable {l : Lexeme} {mode : Mode}

theorem worded_asSlice (h : l.slice ≠ []) (kind : TokenKind) :
    Worded [(l.asSlice kind).token] := by
  simp [Worded, asSlice, h]

theorem worded_faulty (l : Lexeme) (cause : LexCause) : Worded [(l.faulty cause).token] := by
  simp [Worded, faulty, Lexed.ofFault]

theorem worded_withContent {use : String → Lexed} (h : ∀ text, Worded [(use text).token]) :
    Worded [(l.withContent use).token] := by
  unfold withContent
  split
  · exact h _
  · simp [Worded, Lexed.ofFault]

theorem worded_charLiteral (l : Lexeme) (text : String) : Worded [(l.charLiteral text).token] := by
  unfold charLiteral
  split
  · exact l.worded_faulty _
  · next c hc =>
    refine worded_cons.2 ⟨fun _ => ?_, by simp [Worded]⟩
    rintro rfl
    contradiction
  · exact l.worded_faulty _

theorem worded_symbolLiteral (l : Lexeme) (text : String) :
    Worded [(l.symbolLiteral text).token] := by
  unfold symbolLiteral
  split
  · exact l.worded_faulty _
  · next h => exact worded_cons.2 ⟨fun _ => by simpa using h, by simp [Worded]⟩

theorem worded_tokens (h : l.slice ≠ []) : Worded ((l.tokens mode).map (·.token)) := by
  unfold tokens
  split
  · exact worded_asSlice h _
  · exact worded_asSlice h _
  · split
    · rw [map_token_reportTogether]
      exact worded_splitWord _ _
    · exact worded_asSlice h _
  · split
    · exact worded_withContent l.worded_charLiteral
    · exact worded_withContent l.worded_symbolLiteral
  · exact worded_withContent fun _ => by simp [Worded]
  · exact l.worded_faulty _
  · exact l.worded_faulty _

end Lexeme

theorem worded_lex (mode : Mode) (source : String) :
    Worded ((lex mode source).ahead.map (·.token)) := by
  intro t ht
  simp only [lex, List.map_flatMap, List.mem_flatMap] at ht
  obtain ⟨l, hl, ht⟩ := ht
  exact Lexeme.worded_tokens (Lexeme.slice_ne_nil l hl) t ht

/-- A pattern that can be written and has its actions numbered in order is read again, flattened. -/
theorem readPattern_of_writable {p : TextPattern} (hw : p.Writable)
    (ha : p.actions = List.range' 0 p.actions.length) :
    readPattern .symbol {} p.write = ⟨[], some ⟨p.flatten, p.actions.map toString⟩⟩ := by
  obtain ⟨d, hd, hv⟩ := (readsBack_of_writable hw).choice _ (lex_write hw)
  have ho : d.output = ⟨p.flatten, p.actions.map toString⟩ := by
    rw [Choice.output, hv.names, hv.value_eq 0 ha, Pattern.ofChoice_alternatives hw]
  rw [← ho]
  exact (readPattern_of_ok ((Parser.whole_eq_ok_iff rfl).2 ⟨d, hd, rfl⟩)).1

/-- A pattern that was read from a source can be written and read again over symbols, which reports
nothing. This gives the pattern with its nested choices flattened and each action named by its
index: the actions stay as they are, the pattern is written in the same way, and bound to any
alphabet it adds the same automaton to a program. -/
theorem readPattern_write {mode : Mode} {source : String} {o : Parser.Output}
    (h : (readPattern mode {} source).output? = some o) :
    readPattern .symbol {} o.pattern.write =
      ⟨[], some ⟨o.pattern.flatten, o.pattern.actions.map toString⟩⟩ ∧
    o.pattern.flatten.actions = o.pattern.actions ∧
    o.pattern.flatten.write = o.pattern.write ∧
    ∀ (a : Alphabet) (program : Program),
      program.add <$> a.bindPattern o.pattern.flatten =
        program.add <$> a.bindPattern o.pattern := by
  rw [readPattern, Reading.output?_eq_some_iff,
    Parser.whole_eq_ok_iff (g := ⟨mode, {}, (lex mode source).eof⟩) rfl] at h
  obtain ⟨c, hc, rfl⟩ := h
  have hw : c.output.pattern.Writable :=
    Pattern.writable_ofChoice (c.branches_ne_nil 0) (Choice.writable (hc ▸ worded_lex mode source))
  have ha : c.output.pattern.actions = List.range' 0 c.output.pattern.actions.length := by
    simp [Choice.output, actions_ofChoice, c.actions_branches]
  obtain ⟨d, hd, hv⟩ := (readsBack_of_writable hw).choice _ (lex_write hw)
  have ho : d.output = ⟨c.output.pattern.flatten, c.output.pattern.actions.map toString⟩ := by
    rw [Choice.output, hv.names, hv.value_eq 0 ha, Pattern.ofChoice_alternatives hw]
  have hparse : parseSource .symbol {} c.output.pattern.write = .ok d.output :=
    (Parser.whole_eq_ok_iff rfl).2 ⟨d, hd, rfl⟩
  refine ⟨?_, c.output.pattern.actions_flatten, Pattern.write_flatten hw, fun a program =>
    program.add_bind_flatten a _⟩
  rw [(readPattern_of_ok hparse).1, ho]

/-- The source `('x'|'y')|='z'` over characters. -/
theorem readPattern_write_nested :
    let x : TextPattern := .leaf (.literal "x")
    let y : TextPattern := .leaf (.literal "y")
    let z : TextPattern := .leaf (.literal "z")
    (readPattern .char {} "('x'|'y')|='z'").output? =
      some ⟨.choice [.choice [x, y], .action 0 z], []⟩ ∧
    readPattern .symbol {} "'x' | 'y' | 0='z'" =
      ⟨[], some ⟨.choice [x, y, .action 0 z], ["0"]⟩⟩ := by
  intro x y z
  let opening : Terminal (.punct .leftParen) := ⟨⟨.punct .leftParen, "(", ⟨1, 1⟩⟩, rfl⟩
  let tx : SymbolToken .char := ⟨⟨.literal, "x", ⟨1, 2⟩⟩, .inl rfl⟩
  let bar : Terminal (.punct .bar) := ⟨⟨.punct .bar, "|", ⟨1, 5⟩⟩, rfl⟩
  let ty : SymbolToken .char := ⟨⟨.literal, "y", ⟨1, 6⟩⟩, .inl rfl⟩
  let closing : Terminal (.punct .rightParen) := ⟨⟨.punct .rightParen, ")", ⟨1, 9⟩⟩, rfl⟩
  let bar' : Terminal (.punct .bar) := ⟨⟨.punct .bar, "|", ⟨1, 10⟩⟩, rfl⟩
  let equals : Terminal (.punct .equals) := ⟨⟨.punct .equals, "=", ⟨1, 11⟩⟩, rfl⟩
  let tz : SymbolToken .char := ⟨⟨.literal, "z", ⟨1, 12⟩⟩, .inl rfl⟩
  let inner : Choice .char {} := .more (.single (.mk none (.symbol tx) none)) bar
    (.single (.single (.mk none (.symbol ty) none)))
  let d : Choice .char {} := .more (.single (.mk none (.group opening inner closing) none)) bar'
    (.single (.single (.mk (some (.char equals)) (.symbol tz) none)))
  have ht : (lex .char "('x'|'y')|='z'").ahead.map (·.token) =
      [opening.val, tx.val, bar.val, ty.val, closing.val, bar'.val, equals.val, tz.val] := by
    decide +kernel
  have h : (readPattern .char {} "('x'|'y')|='z'").output? =
      some ⟨.choice [.choice [x, y], .action 0 z], []⟩ := by
    rw [readPattern, Reading.output?_eq_some_iff]
    exact (Parser.whole_eq_ok_iff rfl).2 ⟨d, ht.symm, rfl⟩
  have hwrite : Pattern.write (.choice [.choice [x, y], .action 0 z]) = "'x' | 'y' | 0='z'" := by
    decide +kernel
  have hflat : Pattern.flatten (.choice [.choice [x, y], .action 0 z]) =
      .choice [x, y, .action 0 z] := rfl
  have hnames : (Pattern.actions (.choice [.choice [x, y], .action 0 z])).map toString = ["0"] := by
    decide +kernel
  have hread := (readPattern_write h).1
  dsimp only at hread
  rw [hwrite, hflat, hnames] at hread
  exact ⟨h, hread⟩

end SymbolRegex
