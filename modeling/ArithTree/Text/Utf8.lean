import ArithTree.Text.CodePoint

/-!
# UTF-8

Positions in a source text are byte offsets into its UTF-8 encoding. The
encoding here is the usual one carried over to surrogates, which take three
bytes like their neighbours, so that every text has an encoding and every
code point in it an offset.

`firstChar?` goes the other way for one code point: it answers the code
point whose encoding the bytes begin with, and nothing where they begin with
none, above all in the middle of an encoding.
-/

namespace ArithTree

namespace Utf8

/-- A byte that never begins the encoding of a code point. -/
def isContinuation (b : UInt8) : Bool := 0x80 ≤ b && b < 0xC0

/-- The continuation byte that carries the low six bits of `n`. -/
def continuation (n : Nat) : UInt8 := UInt8.ofNat (0x80 + n % 0x40)

theorem continuation_toNat (n : Nat) : (continuation n).toNat = 0x80 + n % 0x40 := by
  simp only [continuation, UInt8.toNat_ofNat']
  omega

end Utf8

open Utf8 in
/-- The encoding of one code point, in one to four bytes. -/
def CodePoint.utf8 (c : CodePoint) : List UInt8 :=
  let n := c.val
  if n < 0x80 then
    [UInt8.ofNat n]
  else if n < 0x800 then
    [UInt8.ofNat (0xC0 + n / 0x40), continuation n]
  else if n < 0x10000 then
    [UInt8.ofNat (0xE0 + n / 0x1000), continuation (n / 0x40), continuation n]
  else
    [UInt8.ofNat (0xF0 + n / 0x40000), continuation (n / 0x1000),
      continuation (n / 0x40), continuation n]

/-- The encoding of a text: the encodings of its code points in order. -/
def Text.utf8 (t : Text) : List UInt8 := t.flatMap CodePoint.utf8

theorem Text.utf8_append (s t : Text) : utf8 (s ++ t) = s.utf8 ++ t.utf8 :=
  List.flatMap_append

namespace Utf8

/-- The low six bits of the byte at `i`, zero past the end. -/
def payload (bytes : List UInt8) (i : Nat) : Nat := (bytes[i]?.getD 0).toNat % 0x40

/-- The number that the first bytes spell if they are an encoding. The
first byte tells how many there are. -/
def spelled (bytes : List UInt8) : Nat :=
  let lead := (bytes[0]?.getD 0).toNat
  if lead < 0x80 then
    lead
  else if lead < 0xE0 then
    (lead - 0xC0) * 0x40 + payload bytes 1
  else if lead < 0xF0 then
    (lead - 0xE0) * 0x1000 + payload bytes 1 * 0x40 + payload bytes 2
  else
    (lead - 0xF0) * 0x40000 + payload bytes 1 * 0x1000 + payload bytes 2 * 0x40
      + payload bytes 3

/-- The code point whose encoding the bytes begin with. -/
def firstChar? (bytes : List UInt8) : Option CodePoint :=
  let c := CodePoint.ofNat (spelled bytes)
  if c.utf8.isPrefixOf bytes then some c else none

theorem spelled_utf8_append (c : CodePoint) (rest : List UInt8) :
    spelled (c.utf8 ++ rest) = c.val := by
  have hlt := c.val_lt
  have tail : ∀ n, (continuation n).toNat % 0x40 = n % 0x40 := by
    intro n
    rw [continuation_toNat]
    omega
  have lead : ∀ n, n < 0x100 → (UInt8.ofNat n).toNat = n := by
    intro n hn
    simp only [UInt8.toNat_ofNat']
    omega
  unfold CodePoint.utf8
  simp only []
  split
  · simp only [spelled, List.cons_append, List.getElem?_cons_zero, Option.getD_some]
    rw [lead _ (by omega), if_pos (by omega)]
  · split
    · simp only [spelled, payload, List.cons_append, List.getElem?_cons_zero,
        List.getElem?_cons_succ, Option.getD_some, tail]
      rw [lead _ (by omega), if_neg (by omega), if_pos (by omega)]
      omega
    · split
      · simp only [spelled, payload, List.cons_append, List.getElem?_cons_zero,
          List.getElem?_cons_succ, Option.getD_some, tail]
        rw [lead _ (by omega), if_neg (by omega), if_neg (by omega), if_pos (by omega)]
        omega
      · simp only [spelled, payload, List.cons_append, List.getElem?_cons_zero,
          List.getElem?_cons_succ, Option.getD_some, tail]
        rw [lead _ (by omega), if_neg (by omega), if_neg (by omega), if_neg (by omega)]
        omega

/-- The answer is the one code point whose encoding comes first. -/
theorem firstChar?_eq_some_iff {bytes : List UInt8} {c : CodePoint} :
    firstChar? bytes = some c ↔ c.utf8 <+: bytes := by
  constructor
  · intro h
    simp only [firstChar?] at h
    split at h
    · rename_i hpre
      cases h
      exact List.isPrefixOf_iff_prefix.1 hpre
    · cases h
  · rintro ⟨rest, rfl⟩
    have hc : CodePoint.ofNat c.val = c := by simp [CodePoint.ofNat, c.val_lt]
    simp [firstChar?, spelled_utf8_append, hc]

end Utf8

end ArithTree
