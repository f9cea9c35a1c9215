import ArithTree.Text.CodePoint

/-!
# Lines

A newline, and nothing else, parts one line from the next. Text that comes
from outside may part its lines with a carriage return, alone or before a
newline; `unifyNewlines` turns both into newlines first.

There are two ways to cut a text. `splitLines` cuts at every newline, so a
text with n newlines has n + 1 lines, some of them empty. `readLines` gives
what a reader that takes a line at a time sees: it stops at the end of the
text, and an empty rest there is no line.

A line with nothing in it but blanks may count for nothing. The code points
that are blank are the white space of Unicode together with the four
information separators U+001C to U+001F.
-/

namespace ArithTree

def CodePoint.isBlank (c : CodePoint) : Bool :=
  let n := c.val
  (0x09 ≤ n && n ≤ 0x0D) || (0x1C ≤ n && n ≤ 0x20) || n == 0x85 || n == 0xA0
    || n == 0x1680 || (0x2000 ≤ n && n ≤ 0x200A) || n == 0x2028 || n == 0x2029
    || n == 0x202F || n == 0x205F || n == 0x3000

namespace Text

/-- Text with nothing in it but blanks. -/
def isBlank (t : Text) : Bool := t.all CodePoint.isBlank

/-- Reads on after a carriage return, or not. -/
def unifyFrom (afterReturn : Bool) : Text → Text
  | [] => []
  | c :: rest =>
    if c = .carriageReturn then .newline :: unifyFrom true rest
    else if afterReturn ∧ c = .newline then unifyFrom false rest
    else c :: unifyFrom false rest

/-- Every carriage return, with the newline after it if there is one, as one
newline. -/
def unifyNewlines (t : Text) : Text := unifyFrom false t

/-- The pieces between newlines. -/
def splitLines (t : Text) : List Text := t.splitOn .newline

/-- The lines in the order a reader meets them, without their newlines. -/
def readLines (t : Text) : List Text :=
  let pieces := t.splitLines
  if pieces.getLast? = some [] then pieces.dropLast else pieces

end Text

end ArithTree
