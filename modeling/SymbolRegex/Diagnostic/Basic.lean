import SymbolRegex.Diagnostic.Code

/-! # Diagnostics

A diagnostic is one reported problem: its code and severity, a message, further
notes, and a position in the pattern source when it has one. Lines and columns
count from one, and line zero means that there is no position.
-/

namespace SymbolRegex

/-- A place in a source text. Lines and columns are numbers of 32 bits, of which there are enough
since sources are assumed to be shorter than `2 ^ 32` characters. -/
structure Position where
  line : Nat
  column : Nat
deriving DecidableEq, Repr

namespace Position

def start : Position := ⟨1, 1⟩

/-- The position of diagnostics that concern no source text. -/
def none : Position := ⟨0, 0⟩

def next (p : Position) (c : Char) : Position :=
  if c = '\n' then ⟨p.line + 1, 1⟩ else ⟨p.line, p.column + 1⟩

def after (p : Position) (cs : List Char) : Position := cs.foldl next p

def right (p : Position) (count : Nat) : Position := ⟨p.line, p.column + count⟩

@[simp] theorem after_nil (p : Position) : p.after [] = p := rfl

@[simp] theorem after_cons (p : Position) (c : Char) (cs : List Char) :
    p.after (c :: cs) = (p.next c).after cs := rfl

theorem after_append (p : Position) (cs ds : List Char) :
    p.after (cs ++ ds) = (p.after cs).after ds := List.foldl_append

end Position

inductive Severity where
  | error | warning | note
deriving DecidableEq, Repr

namespace Severity

def name : Severity → String
  | error => "error"
  | warning => "warning"
  | note => "note"

end Severity

structure Diagnostic where
  code : Code
  severity : Severity
  message : String
  position : Position
  notes : List String
deriving DecidableEq, Repr

namespace Diagnostic

/-- An error in a source text. -/
def errorAt (position : Position) (code : Code) (message : String)
    (notes : List String := []) : Diagnostic :=
  ⟨code, .error, message, position, notes⟩

/-- An error that concerns no source text. -/
def error (code : Code) (message : String) (notes : List String := []) : Diagnostic :=
  errorAt .none code message notes

def isError (d : Diagnostic) : Bool := d.severity = .error

def hasPosition (d : Diagnostic) : Bool := 0 < d.position.line

/-- The diagnostic as text: a headline, then one line for each note. -/
def render (d : Diagnostic) : String :=
  let place := if d.hasPosition then s!" {d.position.line}:{d.position.column}" else ""
  let headline := d.severity.name ++ "[" ++ d.code.label ++ "]" ++ place ++ ": " ++ d.message
  headline ++ String.join (d.notes.map ("\n  = note: " ++ ·))

@[simp] theorem isError_errorAt (p : Position) (c : Code) (m : String) (ns : List String) :
    (errorAt p c m ns).isError = true := rfl

@[simp] theorem isError_error (c : Code) (m : String) (ns : List String) :
    (error c m ns).isError = true := rfl

end Diagnostic
end SymbolRegex
