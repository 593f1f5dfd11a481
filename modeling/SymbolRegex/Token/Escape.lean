/-! # Escapes in quoted content

Inside quotes a backslash gives the next character a meaning: the backslash and
both quotes stand for themselves, and `n`, `t` and `r` for control characters.
-/

namespace SymbolRegex.Escape

def resolve : Char → Option Char
  | '\\' => some '\\'
  | '\'' => some '\''
  | '"' => some '"'
  | 'n' => some '\n'
  | 't' => some '\t'
  | 'r' => some '\r'
  | _ => none

/-- An escape without a meaning: the character escaped, and its place in the content. -/
structure Invalid where
  char : Char
  offset : Nat
deriving DecidableEq, Repr

/-- Resolve the escapes of what follows `offset` characters; a backslash at the very end is
placed after the content. -/
def resolveFrom (offset : Nat) : List Char → Except Invalid (List Char)
  | [] => .ok []
  | ['\\'] => .error ⟨'\\', offset + 1⟩
  | '\\' :: c :: rest =>
    match resolve c with
    | none => .error ⟨c, offset + 1⟩
    | some r => (resolveFrom (offset + 2) rest).map (r :: ·)
  | c :: rest => (resolveFrom (offset + 1) rest).map (c :: ·)

def unescape (content : List Char) : Except Invalid (List Char) := resolveFrom 0 content

end SymbolRegex.Escape
