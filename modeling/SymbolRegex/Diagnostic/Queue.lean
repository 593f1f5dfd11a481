import SymbolRegex.Diagnostic.Basic

/-! # Diagnostic queue

The queue collects diagnostics in the order in which they are offered. It drops
a diagnostic that repeats the one before it, and it stops at an error limit: the
first offer past the limit leaves a warning in its place.
-/

namespace SymbolRegex

/-- What a queue filters out. A limit of zero means that there is none. -/
structure QueueConfig where
  errorLimit : Nat := 50
  deduplicate : Bool := true
deriving DecidableEq, Repr

def QueueConfig.unlimited : QueueConfig := ⟨0, false⟩

structure Queue where
  config : QueueConfig := {}
  diagnostics : List Diagnostic := []
  /-- How many of the diagnostics are errors. -/
  errorCount : Nat := 0
  /-- Whether the warning about the limit was left. -/
  limitNoted : Bool := false
deriving DecidableEq, Repr

namespace Queue

/-- The warning that takes the place of everything past the limit. -/
def limitWarning (limit : Nat) : Diagnostic :=
  ⟨.tooManyErrors, .warning, s!"stopped reporting after {limit} errors", .none, []⟩

def limitReached (q : Queue) : Bool :=
  0 < q.config.errorLimit && q.config.errorLimit ≤ q.errorCount

/-- Whether `d` would be dropped as a repetition. -/
def repeats (q : Queue) (d : Diagnostic) : Bool :=
  q.config.deduplicate && q.diagnostics.getLast? = some d

def accepts (q : Queue) (d : Diagnostic) : Bool := !q.limitReached && !q.repeats d

def add (q : Queue) (d : Diagnostic) : Queue :=
  if q.limitReached then
    if q.limitNoted then q
    else { q with
      diagnostics := q.diagnostics ++ [limitWarning q.config.errorLimit], limitNoted := true }
  else if q.repeats d then q
  else { q with
    diagnostics := q.diagnostics ++ [d]
    errorCount := if d.isError then q.errorCount + 1 else q.errorCount }

def addAll (q : Queue) (ds : List Diagnostic) : Queue := ds.foldl add q

/-- Empty the queue and start counting again. -/
def flush (q : Queue) : Queue := { config := q.config }

def hasErrors (q : Queue) : Bool := 0 < q.errorCount

def containsCode (q : Queue) (code : Code) : Bool := q.diagnostics.any (·.code = code)

def messages (q : Queue) : List String := q.diagnostics.map Diagnostic.render

@[simp] theorem addAll_nil (q : Queue) : q.addAll [] = q := rfl

@[simp] theorem addAll_cons (q : Queue) (d : Diagnostic) (ds : List Diagnostic) :
    q.addAll (d :: ds) = (q.add d).addAll ds := rfl

theorem addAll_append (q : Queue) (ds es : List Diagnostic) :
    q.addAll (ds ++ es) = (q.addAll ds).addAll es := List.foldl_append

@[simp] theorem config_add (q : Queue) (d : Diagnostic) : (q.add d).config = q.config := by
  simp only [add]; split <;> (try split) <;> rfl

end Queue
end SymbolRegex
