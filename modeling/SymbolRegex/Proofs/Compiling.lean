import Mathlib.Data.List.Nodup
import SymbolRegex.Proofs.Binding
import SymbolRegex.Proofs.History
import SymbolRegex.Proofs.Recognition
import SymbolRegex.Proofs.Reporting
import SymbolRegex.Record.Compilation

/-! # Compiled patterns

A compilation that succeeds holds a bound engine whose patterns are those that the entries
are read as, one for each entry and in the same order.
-/

namespace SymbolRegex

theorem exists_of_forall₂ {α β : Type} {R : α → β → Prop} {xs : List α} {ys : List β} {i : Nat}
    {x : α} (h : List.Forall₂ R xs ys) (hx : xs[i]? = some x) : ∃ y, ys[i]? = some y ∧ R x y := by
  induction h generalizing i with
  | nil => cases hx
  | cons hr _ ih =>
    cases i with
    | zero =>
      obtain rfl := Option.some_inj.1 hx
      exact ⟨_, rfl, hr⟩
    | succ i => exact ih hx

/-- A source with the tokens of a phrase is read without a diagnostic. -/
theorem readPattern_of_phrase {mode : Mode} {sets : SetTable} {source : String}
    (d : Phrase.Choice mode sets) (h : (lex mode source).ahead.map (·.token) = d.tokens) :
    readPattern mode sets source = ⟨[], some d.output⟩ :=
  (readPattern_of_ok ((Parser.whole_eq_ok_iff rfl).2 ⟨d, h.symm, rfl⟩)).1

namespace Alphabet

theorem sorted_byteTexts : byteTexts.Pairwise (· < ·) := by
  refine List.pairwise_map.2 (List.pairwise_lt_range.imp_of_mem fun {n m} hn hm lt => ?_)
  rw [List.mem_range] at hn hm
  have val (k : Nat) (hk : k < 256) : (Char.ofNat k).toNat = k := by
    have valid : k.isValidChar := .inl (by omega)
    rw [Char.ofNat, dif_pos valid]
    rfl
  have chars : Char.ofNat n < Char.ofNat m := by
    change (Char.ofNat n).toNat < (Char.ofNat m).toNat
    rwa [val n hn, val m hm]
  rw [String.lt_iff]
  simpa [List.cons_lt_cons_iff] using chars

theorem length_byteTexts : byteTexts.length = 256 := by simp [byteTexts]

def ofBytes : Alphabet where
  texts := byteTexts
  entries := byteTexts.zipIdx
  unknown := 256
  sorted := by
    have := sorted_byteTexts
    rwa [← List.zipIdx_map_fst 0 byteTexts, List.pairwise_map] at this
  mem_entries_iff _ _ := List.mem_zipIdx_iff_getElem?
  unknown_eq := length_byteTexts.symm

end Alphabet

namespace Engine

theorem registerAll_of_eq {e : Engine} {texts : List String} {a : Alphabet}
    {fault? : Option RegistrationFault} (h : e.alphabet.registerAll texts = (a, fault?)) :
    e.registerAll texts = ({ e with alphabet := a }, fault?) := by
  rw [registerAll, h]

theorem registerBytes_new : registerBytes {} = ({ alphabet := .ofBytes }, none) := by
  have distinct : (({} : Alphabet).texts ++ Alphabet.byteTexts).eraseDups = Alphabet.byteTexts := by
    rw [List.nil_append]
    exact eraseDups_of_nodup Alphabet.ofBytes.nodup
  obtain ⟨a, all⟩ : ∃ a, Alphabet.registerAll {} Alphabet.byteTexts = (a, none) := by
    refine Alphabet.exists_registerAll_of_room rfl ?_
    rw [distinct, Alphabet.length_byteTexts]
    decide
  have grows := Alphabet.grows_registerAll {} Alphabet.byteTexts
  have texts := Alphabet.texts_of_registerAll all
  rw [all] at grows
  rw [Alphabet.append_missing, distinct] at texts
  obtain rfl : a = .ofBytes := Alphabet.eq_of_texts texts grows.frozen
  exact registerAll_of_eq all

theorem patterns_of_add {e e' : Engine} {p : TextPattern} {i : Nat} (h : e.add p = (e', .ok i)) :
    e'.patterns = e.patterns ++ [p] := by
  unfold add at h
  split at h
  · cases (Prod.mk.inj h).2
  · cases (Prod.mk.inj h).2
  · split at h
    · cases (Prod.mk.inj h).2
    · obtain ⟨rfl, -⟩ := Prod.mk.inj h
      rfl

theorem patterns_bind (e : Engine) : e.bind.1.patterns = e.patterns := by
  unfold bind
  split
  · rfl
  · rfl
  · dsimp only
    split <;> rfl

end Engine

namespace Compilation

variable {mode : Mode} {sets : SetTable} {entries : List PatternEntry} {c : Compilation}
  {byteAlphabet : Bool}

/-- An output is what an entry is read as. -/
def ReadAs (mode : Mode) (sets : SetTable) (entry : PatternEntry) (output : Parser.Output) : Prop :=
  (readPattern mode sets entry.pattern).output? = some output

/-- What a compilation of some entries holds. -/
structure Holds (c : Compilation) (mode : Mode) (sets : SetTable) (entries : List PatternEntry) :
    Prop where
  compiled : ∃ bounds, c.engine.Compiled bounds
  patterns : c.engine.patterns = c.outputs.map (·.pattern)
  outputs : List.Forall₂ (ReadAs mode sets) entries c.outputs

theorem addEntries_eq_ok {index : Nat} {engine engine' : Engine} {queue queue' : Queue}
    {outputs : List Parser.Output}
    (h : addEntries mode sets index engine queue entries = .ok (engine', queue', outputs)) :
    (∃ ops : List Engine.Operation, engine' = ops.foldl .perform engine) ∧
      engine'.patterns = engine.patterns ++ outputs.map (·.pattern) ∧
      List.Forall₂ (ReadAs mode sets) entries outputs := by
  induction entries generalizing index engine queue queue' outputs with
  | nil =>
    obtain ⟨rfl, -, rfl⟩ := by simpa [addEntries] using h
    exact ⟨⟨[], rfl⟩, (List.append_nil _).symm, .nil⟩
  | cons entry rest ih =>
    unfold addEntries at h
    dsimp only at h
    split at h
    · cases h
    · next output houtput =>
      split at h
      · cases h
      · next added i hadd =>
        obtain ⟨⟨_, _, more⟩, hrest, he⟩ := bind_eq_ok_iff.1 h
        obtain ⟨rfl, -, rfl⟩ := by simpa [pure, Except.pure] using he
        obtain ⟨⟨ops, rfl⟩, patterns, reads⟩ := ih hrest
        have step : engine.perform (.add output.pattern) = added := congrArg Prod.fst hadd
        refine ⟨⟨.add output.pattern :: ops, by rw [List.foldl_cons, step]⟩, ?_,
          .cons houtput reads⟩
        rw [patterns, Engine.patterns_of_add hadd, List.append_assoc]
        rfl

theorem exists_start (e : Engine) (byteAlphabet : Bool) :
    let first := if byteAlphabet then e.registerBytes else (e, none)
    (∃ ops : List Engine.Operation, ops.foldl .perform e = first.1) ∧
      first.1.patterns = e.patterns := by
  cases byteAlphabet with
  | false => exact ⟨⟨[], rfl⟩, rfl⟩
  | true => exact ⟨⟨[.registerBytes], rfl⟩, rfl⟩

/-- A compilation that succeeds holds the patterns of its entries. -/
theorem holds_of_ofEntries (h : ofEntries entries mode sets byteAlphabet = .ok c) :
    c.Holds mode sets entries := by
  obtain ⟨ops, none⟩ := exists_start {} byteAlphabet
  unfold ofEntries at h
  generalize (if byteAlphabet then Engine.registerBytes {} else ({}, Option.none)) = first
    at h ops none
  obtain ⟨engine, fault?⟩ := first
  obtain ⟨ops, rfl⟩ := ops
  cases fault? with
  | some fault => cases h
  | none =>
    obtain ⟨⟨engine, queue, outputs⟩, hadd, h⟩ := bind_eq_ok_iff.1 h
    obtain ⟨⟨more, rfl⟩, patterns, reads⟩ := addEntries_eq_ok hadd
    dsimp only at h
    split at h
    · next hbound =>
      obtain rfl := Except.ok.inj h
      constructor
      case compiled =>
        have made : Engine.after (ops ++ more ++ [.bind]) =
            (more.foldl Engine.perform (ops.foldl Engine.perform {})).bind.1 := by
          simp [Engine.after, Engine.perform]
        exact made ▸ Engine.exists_compiled _ (made ▸ hbound)
      case patterns =>
        dsimp only at none
        rw [Engine.patterns_bind, patterns, none, List.nil_append]
      case outputs => exact reads
    · cases h

/-! ## Compilations that succeed -/

theorem addEntries_cons {index : Nat} {engine engine' : Engine} {queue queue' : Queue}
    {entry : PatternEntry} {rest : List PatternEntry} {output : Parser.Output}
    {outputs : List Parser.Output}
    (hread : readPattern mode sets entry.pattern = ⟨[], some output⟩)
    (hadd : (engine.add output.pattern).2.toOption.isSome = true)
    (hrest : addEntries mode sets (index + 1) (engine.add output.pattern).1 queue rest =
      .ok (engine', queue', outputs)) :
    addEntries mode sets index engine queue (entry :: rest) =
      .ok (engine', queue', output :: outputs) := by
  unfold addEntries
  rw [hread]
  dsimp only
  rw [Queue.addAll_nil]
  generalize engine.add output.pattern = added at hadd hrest
  obtain ⟨added, result⟩ := added
  cases result with
  | error => cases hadd
  | ok i => exact bind_eq_ok_iff.2 ⟨_, hrest, rfl⟩

theorem ofEntries_of_addEntries {first engine : Engine} {queue : Queue}
    {outputs : List Parser.Output}
    (hstart : (if byteAlphabet then Engine.registerBytes {} else ({}, none)) = (first, none))
    (hadd : addEntries mode sets 0 first {} entries = .ok (engine, queue, outputs))
    (hbound : engine.bind.1.isBound = true) :
    ofEntries entries mode sets byteAlphabet = .ok ⟨engine.bind.1, outputs⟩ := by
  unfold ofEntries
  rw [hstart]
  refine bind_eq_ok_iff.2 ⟨_, hadd, ?_⟩
  dsimp only
  rw [if_pos hbound]
  rfl

end Compilation
end SymbolRegex
