/-! # Lines of a byte stream

A line ends at a line feed, which is dropped together with one carriage return
before it; the last line may lack its line feed and then keeps all its bytes.
Lines are decoded one by one, and the first that is not UTF-8 ends the reading.
-/

namespace SymbolRegex.Text

/-- A finished line, given backwards, without the carriage return before its line feed. -/
def finishLine : List UInt8 → List UInt8
  | 0x0D :: line => line.reverse
  | line => line.reverse

/-- Cut bytes into lines; `line` holds, backwards, what the current one has so far. -/
def cutLines (line : List UInt8) : List UInt8 → List (List UInt8)
  | [] => if line.isEmpty then [] else [line.reverse]
  | b :: bs => if b = 0x0A then finishLine line :: cutLines [] bs else cutLines (b :: line) bs

structure Lines where
  texts : List String
  complete : Bool
deriving DecidableEq, Repr

/-- Decode lines up to the first that is not UTF-8. -/
def Lines.decode : List (List UInt8) → Lines
  | [] => ⟨[], true⟩
  | line :: rest =>
    match String.fromUTF8? ⟨line.toArray⟩ with
    | none => ⟨[], false⟩
    | some text => let lines := decode rest; ⟨text :: lines.texts, lines.complete⟩

def Lines.ofBytes (bytes : ByteArray) : Lines := decode (cutLines [] bytes.toList)

end SymbolRegex.Text
