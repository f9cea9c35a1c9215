import ArithTree.Text.Utf8

/-!
# Locations

Where in a text a byte offset lies, by line and column, both counted from 1.
A line ends after each newline. A column is a code point, and so the bytes
that continue an encoding are not counted: an offset in the middle of a code
point has the location of the offset right after it.

Offsets are not checked. One past the end counts as the end, and a negative
one counts from the end backwards, as far as the beginning. The bytes need
not be an encoding either.
-/

namespace ArithTree

structure Location where
  index : Int
  line : Nat
  column : Nat
deriving DecidableEq

namespace Location

/-- The byte that ends a line. -/
def newline : UInt8 := 0x0A

/-- How many bytes lie before an index. -/
def cut (length : Nat) (index : Int) : Nat :=
  if index < 0 then (length + index).toNat else min index.toNat length

/-- The location of an index in the bytes of a text. -/
def of (bytes : List UInt8) (index : Int) : Location :=
  let before := bytes.take (cut bytes.length index)
  let current := before.reverse.takeWhile (· != newline)
  { index
    line := before.count newline + 1
    column := current.countP (!Utf8.isContinuation ·) + 1 }

/-- The line and the column with a colon between them. -/
def text (l : Location) : String := toString l.line ++ ":" ++ toString l.column

end Location

end ArithTree
