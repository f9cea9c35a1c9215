import ArithTree.Proofs.Places

/-!
# A location in one pass and in three

A location can be kept up while bytes are read, from the first column of the first
line on: a newline begins the next line, a byte that continues a code point changes
nothing, and any other byte is one column more. Read up to an index, or up to where
the index comes to lie if it is negative or past the end, this gives the location
of the index.

It can be looked up as well, in three passes that know nothing of one another: the
last newline before the index, all the newlines before it, and what begins a code
point from behind that last newline on. Here everything lies in slices, and the
bound of a slice comes to lie in the same way. The passes agree with the one
because what is behind the last newline is what the column counts
(`drop_lastOffset`), and this is seen from the end of the bytes.
-/

namespace ArithTree

namespace Location

/-- The location behind one byte more, of the same index. -/
def readByte (l : Location) (b : UInt8) : Location :=
  if b = 0x0A then { l with line := l.line + 1, column := 1 }
  else if 0x80 ≤ b ∧ b ≤ 0xBF then l
  else { l with column := l.column + 1 }

theorem readByte_location (p : Place) (index : Int) (b : UInt8) :
    (p.location index).readByte b = (p.nextByte b).location index := by
  unfold readByte Place.nextByte
  split
  · rfl
  · split <;> rfl

theorem foldl_readByte (index : Int) (bytes : List UInt8) (p : Place) :
    bytes.foldl readByte (p.location index) =
      (bytes.foldl Place.nextByte p).location index := by
  induction bytes generalizing p with
  | nil => rfl
  | cons b bytes ih => rw [List.foldl_cons, readByte_location, ih, List.foldl_cons]

/-- The bytes from one bound up to another. -/
def slice (bytes : List UInt8) (i j : Int) : List UInt8 :=
  (bytes.take (cut bytes.length j)).drop (cut bytes.length i)

/-- The offset at which a byte stands last, or −1. -/
def lastOffset (b : UInt8) (bytes : List UInt8) : Int :=
  bytes.zipIdx.foldl (fun last x => if x.1 = b then (x.2 : Int) else last) (-1)

section

variable {b c : UInt8} {bytes : List UInt8}

theorem lastOffset_append_singleton :
    lastOffset b (bytes ++ [c]) = if c = b then (bytes.length : Int) else lastOffset b bytes := by
  rw [lastOffset, List.zipIdx_append, List.foldl_append, Nat.zero_add]
  rfl

theorem lastOffset_bounds : -1 ≤ lastOffset b bytes ∧ lastOffset b bytes < bytes.length := by
  induction bytes using List.reverseRecOn with
  | nil => exact ⟨Int.le_refl _, show (-1 : Int) < 0 by decide⟩
  | append_singleton bytes c ih =>
      rw [lastOffset_append_singleton, List.length_append, List.length_singleton]
      split <;> omega

/-- Behind the last of a kind are the bytes before the first of it from the end. -/
theorem drop_lastOffset :
    bytes.drop (lastOffset b bytes + 1).toNat = (bytes.reverse.takeWhile (· != b)).reverse := by
  induction bytes using List.reverseRecOn with
  | nil => rfl
  | append_singleton bytes c ih =>
      rw [lastOffset_append_singleton, List.reverse_append, List.reverse_singleton,
        List.singleton_append]
      by_cases hc : c = b
      · rw [if_pos hc, List.takeWhile_cons_of_neg (by simp [hc])]
        exact List.drop_eq_nil_of_le (by simp)
      · have hle : (lastOffset b bytes + 1).toNat ≤ bytes.length := by
          have hbounds := @lastOffset_bounds b bytes
          omega
        rw [if_neg hc, List.takeWhile_cons_of_pos (by simp [hc]), List.reverse_cons, ← ih,
          List.drop_append_of_le_length hle]

end

theorem cut_eq (length : Nat) (index : Int) :
    cut length index =
      (if 0 ≤ index then min index length else max 0 (length + index)).toNat := by
  unfold cut
  split <;> split <;> omega

theorem slice_zero (bytes : List UInt8) (index : Int) :
    slice bytes 0 index = bytes.take (cut bytes.length index) := by
  have hzero : cut bytes.length 0 = 0 := by rw [cut_eq, if_pos (Int.le_refl 0)]; omega
  rw [slice, hzero, List.drop_zero]

/-- The slice from behind the last newline on is the line that has begun. -/
theorem slice_line (bytes : List UInt8) (index : Int) :
    slice bytes (lastOffset newline (slice bytes 0 index) + 1) index =
      ((bytes.take (cut bytes.length index)).reverse.takeWhile (· != newline)).reverse := by
  rw [slice_zero, ← drop_lastOffset, slice]
  generalize htake : bytes.take (cut bytes.length index) = before
  have hlength : before.length ≤ bytes.length := by
    rw [← htake]
    exact List.length_take_le' _ _
  have hbounds := @lastOffset_bounds newline before
  have hcut : cut bytes.length (lastOffset newline before + 1) =
      (lastOffset newline before + 1).toNat := by
    rw [cut_eq, if_pos (by omega)]
    omega
  rw [hcut]

/-- The location of an index is where one pass comes to that reads the bytes before the
index, for any bytes and any index. And it is what the three passes over slices give. -/
theorem of_eq_foldl_readByte (bytes : List UInt8) (index : Int) :
    of bytes index =
      (bytes.take (if 0 ≤ index then min index bytes.length
        else max 0 (bytes.length + index)).toNat).foldl readByte ⟨index, 1, 1⟩ ∧
    of bytes index =
      { index
        line := (slice bytes 0 index).count newline + 1
        column := (slice bytes (lastOffset newline (slice bytes 0 index) + 1) index).countP
          (!Utf8.isContinuation ·) + 1 } := by
  constructor
  · rw [of_eq_placeAfter, ← cut_eq, placeAfter, ← foldl_readByte]
    rfl
  · rw [slice_line, List.countP_reverse, slice_zero]
    rfl

end Location

end ArithTree
