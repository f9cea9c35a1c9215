import ArithTree.Text.Utf8
import ArithTree.Token.Basic

/-!
# Cursors

Tokens are read from the bytes of a source, from left to right. A cursor is
the offset that the reading has come to, with the bytes from there on. A step
gives an answer or an error, and the cursor after it in either case: one that
fails leaves the cursor where it has come to, and the next goes on from
there.

A cursor may be put anywhere, also past the end or into the middle of an
encoding. No character begins there, and this is what the last two errors
say. Reading a text from its beginning never meets them, because the cursor
only ever moves over bytes that are characters on their own.

A literal is a run of decimal digits, and it has to fit in 64 bits. Runs may
be very long, so a run is refused by its length before it is read: without
the zeros in front, more than twenty digits are too many, because the
greatest value allowed has twenty.
-/

namespace ArithTree

namespace Literal

/-- The greatest value of a literal, 2^64 - 1. -/
def greatest : Nat := 18446744073709551615

/-- The digits without the zeros in front, a zero if nothing else is there. -/
def significant (digits : List Char) : List Char :=
  let stripped := digits.dropWhile (· == '0')
  if stripped.isEmpty then ['0'] else stripped

/-- Reads a run by means of `convert`. What turns digits into a number is a
parameter, in any monad, so that it may refuse what it is asked. It is never
asked about more than twenty digits, and never about none. -/
def readWith {m : Type → Type} [Monad m] (convert : List Char → m Nat)
    (digits : List Char) : m (Option Nat) :=
  if (Nat.toDigits 10 greatest).length < (significant digits).length then return none
  else do
    let value ← convert (significant digits)
    return if greatest < value then none else some value

/-- The value of a run of digits, if it fits. -/
def read? (digits : List Char) : Option Nat :=
  Id.run (readWith (fun ds => return Nat.ofDigitChars 10 ds 0) digits)

end Literal

/-- Why there is no next token. -/
inductive LexError where
  /-- The character at an offset belongs to no token. -/
  | invalidChar (char : CodePoint) (offset : Nat)
  /-- The literal does not fit in 64 bits. -/
  | overflow (lexeme : String) (span : Span)
  /-- A byte was asked for at the end of the text. -/
  | unexpectedEnd (offset : Nat)
  /-- No character begins at the cursor, which is inside an encoding. -/
  | splitChar (offset : Nat)
  /-- No character begins at the cursor, which is at the end or past it. -/
  | noChar (offset : Nat)
deriving DecidableEq

/-- A place in the bytes of a source. -/
structure Cursor where
  offset : Nat
  rest : List UInt8
deriving DecidableEq

namespace Cursor

/-- The cursor at an offset, which may lie past the end. -/
def ofOffset (bytes : List UInt8) (offset : Nat) : Cursor := ⟨offset, bytes.drop offset⟩

/-- The cursor `n` bytes further on. -/
def skip (c : Cursor) (n : Nat) : Cursor := ⟨c.offset + n, c.rest.drop n⟩

/-- The span of the `n` bytes from the cursor on. -/
def span (c : Cursor) (n : Nat) : Span := ⟨c.offset, c.offset + n⟩

end Cursor

/-- A step of a cursor. -/
abbrev CursorStep := EStateM LexError Cursor

namespace Cursor

/-- The bytes that may stand between tokens: space, newline and tab. -/
def isWhitespace (b : UInt8) : Bool := b == 0x20 || b == 0x0A || b == 0x09

def isDigit (b : UInt8) : Bool := 0x30 ≤ b && b ≤ 0x39

def current : CursorStep (Option UInt8) := fun c => .ok c.rest.head? c

/-- Takes the next byte, whatever it is. -/
def advance : CursorStep (Option UInt8) := fun c =>
  match c.rest with
  | [] => .ok none c
  | b :: _ => .ok (some b) (c.skip 1)

/-- What there is to say about the character at the cursor when it fits
nowhere. -/
def invalidChar (c : Cursor) : LexError :=
  match Utf8.firstChar? c.rest with
  | some char => .invalidChar char c.offset
  | none => if c.rest.isEmpty then .noChar c.offset else .splitChar c.offset

/-- Takes the next byte, which has to be `b`. -/
def expect (b : UInt8) : CursorStep UInt8 := fun c =>
  match c.rest with
  | [] => .error (.unexpectedEnd c.offset) c
  | b' :: _ => if b' = b then .ok b (c.skip 1) else .error (invalidChar c) c

def skipWhitespace : CursorStep Unit := fun c =>
  .ok () (c.skip (c.rest.takeWhile isWhitespace).length)

/-- Takes all digits that follow as one number. None at all read as zero. -/
def number : CursorStep Token := fun c =>
  let digits := c.rest.takeWhile isDigit
  let span := c.span digits.length
  let lexeme := digits.map fun b => Char.ofNat b.toNat
  match Literal.read? lexeme with
  | some n => .ok { kind := .number, span, value := some (n : Int) } (c.skip digits.length)
  | none => .error (.overflow (String.ofList lexeme) span) (c.skip digits.length)

/-- The token that begins at the cursor, or nothing at the end. -/
def word : CursorStep (Option Token) := fun c =>
  match c.rest with
  | [] => .ok none c
  | b :: _ =>
    if isDigit b then (some <$> number) c
    else
      match Token.Kind.ofByte? b with
      | some kind => .ok (some { kind, span := c.span 1 }) (c.skip 1)
      | none => .error (invalidChar c) c

/-- The next token, or nothing at the end. -/
def next : CursorStep (Option Token) := do
  skipWhitespace
  word

theorem word_rest_lt {c c' : Cursor} {t : Token} (h : word c = .ok (some t) c') :
    c'.rest.length < c.rest.length := by
  unfold word at h
  split at h
  · cases h
  · rename_i b rest hrest
    split at h
    · rename_i hdigit
      simp only [Functor.map, EStateM.map, number, hrest, List.takeWhile_cons, hdigit] at h
      split at h
      · rename_i hnumber
        split at hnumber <;> cases hnumber
        cases h
        simp only [Cursor.skip, hrest, List.length_drop, List.length_cons]
        exact Nat.sub_lt (Nat.succ_pos _) (Nat.succ_pos _)
      · cases h
    · split at h
      · cases h
        simp [Cursor.skip, hrest]
      · cases h

/-- Every token that is found moves the cursor on. -/
theorem next_rest_lt {c c' : Cursor} {t : Token} (h : next c = .ok (some t) c') :
    c'.rest.length < c.rest.length :=
  Nat.lt_of_lt_of_le (word_rest_lt h) (by simp [Cursor.skip])

end Cursor

end ArithTree
