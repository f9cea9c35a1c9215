import ArithTree.Text.CodePoint

/-!
# Text from bytes that need not be UTF-8

A file may hold anything. It is read as UTF-8, and what is not UTF-8 is read
as U+FFFD, once for each maximal piece that begins like a character and
breaks off, and once for each byte that begins none. A byte order mark is a
character like any other.

The reader is a machine that takes one byte at a time. Between characters it
holds nothing; inside one it holds how many bytes are still due, the bits so
far and the range of the next byte. The range is narrower than 80..BF after
the four first bytes E0, ED, F0 and F4, and this is all that keeps overlong
forms, surrogates and numbers past U+10FFFF out: a piece stops being UTF-8 at
the first byte that rules it out, so maximal pieces need no looking ahead.
-/

namespace ArithTree.Lossy

/-- A character whose first bytes have been read. -/
structure Pending where
  /-- How many bytes are due. -/
  due : Nat
  /-- The bits read so far. -/
  bits : Nat
  /-- The least and the greatest byte that may come next. -/
  low : UInt8 := 0x80
  high : UInt8 := 0xBF

/-- One byte between two characters. -/
def begin (b : UInt8) : Text × Option Pending :=
  let n := b.toNat
  if n < 0x80 then ([.ofNat n], none)
  else if n < 0xC2 then ([.replacement], none)
  else if n < 0xE0 then ([], some { due := 1, bits := n - 0xC0 })
  else if n = 0xE0 then ([], some { due := 2, bits := 0, low := 0xA0 })
  else if n = 0xED then ([], some { due := 2, bits := n - 0xE0, high := 0x9F })
  else if n < 0xF0 then ([], some { due := 2, bits := n - 0xE0 })
  else if n = 0xF0 then ([], some { due := 3, bits := 0, low := 0x90 })
  else if n < 0xF4 then ([], some { due := 3, bits := n - 0xF0 })
  else if n = 0xF4 then ([], some { due := 3, bits := n - 0xF0, high := 0x8F })
  else ([.replacement], none)

/-- One byte: the text it completes and what is left pending. -/
def step : Option Pending → UInt8 → Text × Option Pending
  | none, b => begin b
  | some p, b =>
    if p.low ≤ b ∧ b ≤ p.high then
      let bits := p.bits * 0x40 + b.toNat % 0x40
      if p.due ≤ 1 then ([.ofNat bits], none)
      else ([], some { due := p.due - 1, bits })
    else
      let (text, pending) := begin b
      (.replacement :: text, pending)

/-- The text of the bytes after what is pending. -/
def decodeFrom : Option Pending → List UInt8 → Text
  | none, [] => []
  | some _, [] => [.replacement]
  | pending, b :: rest =>
    let (text, pending) := step pending b
    text ++ decodeFrom pending rest

/-- The text of any bytes whatever. -/
def decode (bytes : List UInt8) : Text := decodeFrom none bytes

end ArithTree.Lossy
