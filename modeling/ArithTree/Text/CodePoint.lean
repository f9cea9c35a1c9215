/-!
# Code points

The programs of this library read text that need not be well formed: an
argument may hold a surrogate on its own, which no `Char` can be. Text is
therefore a list of code points, surrogates included, and meets `String` at
two places only. A `String` becomes text without loss, and text becomes a
`String` with every surrogate replaced by U+FFFD, which is what a terminal
can show.
-/

namespace ArithTree

/-- A Unicode code point, surrogates included. -/
structure CodePoint where
  val : Nat
  val_lt : val < 0x110000
deriving DecidableEq

namespace CodePoint

/-- U+FFFD, which stands for what cannot be shown. -/
def replacement : CodePoint := ⟨0xFFFD, by decide⟩

/-- The code point of a number, U+FFFD where the number is too large. -/
def ofNat (n : Nat) : CodePoint :=
  if h : n < 0x110000 then ⟨n, h⟩ else replacement

def ofChar (c : Char) : CodePoint :=
  ⟨c.toNat, by
    have := c.valid
    simp only [UInt32.isValidChar, Nat.isValidChar] at this
    simp only [Char.toNat]
    omega⟩

def isSurrogate (c : CodePoint) : Bool := 0xD800 ≤ c.val && c.val ≤ 0xDFFF

/-- The character of a code point, U+FFFD for a surrogate. -/
def toChar (c : CodePoint) : Char :=
  if c.isSurrogate then Char.ofNat replacement.val else Char.ofNat c.val

/-- The code points that end, or may end, a line. -/
def newline : CodePoint := ofChar '\n'

def carriageReturn : CodePoint := ofChar '\r'

/-- A character is no surrogate. -/
theorem isSurrogate_ofChar (c : Char) : (ofChar c).isSurrogate = false := by
  have := c.valid
  simp only [UInt32.isValidChar, Nat.isValidChar] at this
  have : (ofChar c).val < 0xD800 ∨ 0xDFFF < (ofChar c).val := by
    show c.val.toNat < _ ∨ _ < c.val.toNat
    omega
  simp only [isSurrogate, Bool.and_eq_false_iff]
  rcases this with h | h
  · exact .inl (decide_eq_false (by omega))
  · exact .inr (decide_eq_false (by omega))

@[simp] theorem toChar_ofChar (c : Char) : (ofChar c).toChar = c := by
  rw [toChar, isSurrogate_ofChar]
  simp [ofChar]

end CodePoint

/-- Text that may hold surrogates. -/
abbrev Text := List CodePoint

namespace Text

def ofString (s : String) : Text := s.toList.map CodePoint.ofChar

/-- The text as a `String`, with U+FFFD for every surrogate. -/
def display (t : Text) : String := String.ofList (t.map CodePoint.toChar)

@[simp] theorem display_ofString (s : String) : (ofString s).display = s := by
  have h : CodePoint.toChar ∘ CodePoint.ofChar = id := funext CodePoint.toChar_ofChar
  simp [display, ofString, h]

end Text

end ArithTree
