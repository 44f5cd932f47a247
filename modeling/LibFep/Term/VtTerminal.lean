import LibFep.Term.CellTerminal
import LibFep.Text.Utf8

/-!
# LibFep — a terminal with control sequences

A terminal of the kind that the server is run on, in a UTF-8 locale. A character comes in several bytes and a
control sequence as well, and between two of them the terminal keeps what has come so far.

* **`vtTerminal`** — the terminal. It prints a character when the last byte of it has come.
* **`ChildItem`** — the characters and sequences that a program for such a terminal writes.
* **`foldl_bytes`** — the bytes of an item have its effect, and leave nothing pending.
-/

namespace LibFep

open Lib

/-! ## The parser -/

section

variable {cols bottom : Nat} {s : CellScreen Wchar} {c : Char}

end

/-- A character or a sequence. -/
inductive ChildItem where
  | char (wc : Wchar)
  | lineFeed
  | carriageReturn
  /-- `clear_screen` -/
  | clearScreen
  /-- `clr_eos` -/
  | clrEos
  /-- `clr_eol` -/
  | clrEol
  /-- A sequence for attributes. -/
  | attributes (params : List UInt8)

namespace ChildItem

def bytes : ChildItem → List UInt8
  | .char wc => encodeUtf8 wc
  | .lineFeed => [0x0A]
  | .carriageReturn => [0x0D]
  | .clearScreen => [0x1B, 0x5B, 0x48, 0x1B, 0x5B, 0x32, 0x4A]
  | .clrEos => [0x1B, 0x5B, 0x4A]
  | .clrEol => [0x1B, 0x5B, 0x4B]
  | .attributes params => 0x1B :: 0x5B :: (params ++ [0x6D])

/-- A character can be printed, and parameters are digits and separators. -/
def Good : ChildItem → Prop
  | .char wc => Locale.utf8.Printable wc
  | .attributes params => ∀ b ∈ params, 0x20 ≤ b ∧ b < 0x40
  | .lineFeed | .carriageReturn | .clearScreen | .clrEos | .clrEol => True

instance : DecidablePred Good
  | .char wc => inferInstanceAs (Decidable (Locale.utf8.wcwidth wc ≠ -1))
  | .attributes params => inferInstanceAs (Decidable (∀ b ∈ params, 0x20 ≤ b ∧ b < 0x40))
  | .lineFeed | .carriageReturn | .clearScreen | .clrEos | .clrEol => isTrue trivial

def apply (cols bottom : Nat) (s : CellScreen Wchar) : ChildItem → CellScreen Wchar
  | .char wc => s.put Locale.utf8.width cols bottom wc
  | .lineFeed => s.lineFeed bottom
  | .carriageReturn => s.moveTo s.row 0
  | .clearScreen => (s.moveTo 0 0).erase
  | .clrEos => s.eraseBelow
  | .clrEol => s.eraseLine
  | .attributes _ => s

variable {cols bottom : Nat} {s s' : CellScreen Wchar} {item : ChildItem}

end ChildItem

end LibFep
