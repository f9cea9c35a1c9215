import ArithTree.Location
import ArithTree.Proofs.ScanListing
import ArithTree.Text.Lines
import Mathlib.Data.List.Induction

/-!
# Places in a text

A place in a text is told by what stands before it: how many lines, and how
many code points on the line that has begun. It can be kept up while the text
is read, a newline begins the next line and anything else is one step to the
right, and it can be kept up just as well while the bytes are read, because
the bytes that continue a code point change nothing. This is what a location
is, for any bytes whatever (`of_eq_placeAfter`).

Read back, a place is a beginning of the text: `place_splitLines` has the lines
above it and what stands to the left of it, and how the line goes on is a
matter of what follows. So a place is as good as an offset as long as the
offset is not inside a code point, and inside it is the place behind.
-/

namespace ArithTree

/-- How many lines are above, and how many code points to the left. -/
structure Place where
  row : Nat
  column : Nat
deriving DecidableEq

namespace Place

def origin : Place := ⟨0, 0⟩

def nextLine (p : Place) : Place := ⟨p.row + 1, 0⟩

def right (p : Place) : Place := ⟨p.row, p.column + 1⟩

/-- The place behind one code point more. -/
def next (p : Place) (c : CodePoint) : Place := if c = .newline then p.nextLine else p.right

/-- The place behind one byte more. -/
def nextByte (p : Place) (b : UInt8) : Place :=
  if b = 0x0A then p.nextLine
  else if 0x80 ≤ b ∧ b ≤ 0xBF then p
  else p.right

/-- The place as it is told, both counts from 1. -/
def location (p : Place) (index : Int) : Location := ⟨index, p.row + 1, p.column + 1⟩

end Place

namespace Location

/-- Further down, or on the same line further to the right. -/
def Before (l m : Location) : Prop := l.line < m.line ∨ l.line = m.line ∧ l.column < m.column

/-- The same line and column, whatever the indices. -/
def SamePlace (l m : Location) : Prop := l.line = m.line ∧ l.column = m.column

theorem Before.trans {l m n : Location} (h : l.Before m) (h' : m.Before n) : l.Before n := by
  unfold Before at h h' ⊢
  omega

theorem before_next (p : Place) (c : CodePoint) (i j : Int) :
    (p.location i).Before ((p.next c).location j) := by
  unfold Place.next
  split
  · exact .inl (Nat.lt_succ_self _)
  · exact .inr ⟨rfl, Nat.lt_succ_self _⟩

end Location

open Place

/-- The place behind a text. -/
def Text.place (t : Text) : Place := t.foldl next origin

/-- The place behind some bytes. -/
def placeAfter (bytes : List UInt8) : Place := bytes.foldl nextByte origin

theorem Utf8.isContinuation_iff {b : UInt8} :
    isContinuation b = true ↔ 0x80 ≤ b ∧ b ≤ 0xBF := by
  simp only [isContinuation, Bool.and_eq_true, decide_eq_true_eq, UInt8.le_iff_toNat_le,
    UInt8.lt_iff_toNat_lt]
  exact and_congr_right fun _ => Nat.lt_succ_iff

namespace CodePoint

theorem isContinuation_continuation (n : Nat) :
    Utf8.isContinuation (Utf8.continuation n) = true := by
  simp only [Utf8.isContinuation, Bool.and_eq_true, decide_eq_true_eq, UInt8.le_iff_toNat_le,
    UInt8.lt_iff_toNat_lt, Utf8.continuation_toNat]
  show 0x80 ≤ _ ∧ _ < 0xC0
  omega

/-- The bytes behind the lead continue the code point, and the lead does not. -/
theorem utf8_parts (c : CodePoint) :
    Utf8.isContinuation c.lead = false ∧
      ∃ bytes, c.utf8 = c.lead :: bytes ∧ ∀ b ∈ bytes, Utf8.isContinuation b = true := by
  have hlt := c.val_lt
  have hbyte : ∀ n, n < 0x80 ∨ 0xC0 ≤ n → n < 0x100 →
      Utf8.isContinuation (UInt8.ofNat n) = false := by
    intro n hn hlarge
    have hnat : (UInt8.ofNat n).toNat = n := by
      simp only [UInt8.toNat_ofNat']
      omega
    simp only [Utf8.isContinuation, Bool.and_eq_false_iff, decide_eq_false_iff_not,
      UInt8.le_iff_toNat_le, UInt8.lt_iff_toNat_lt, hnat]
    show ¬ 0x80 ≤ n ∨ ¬ n < 0xC0
    omega
  unfold lead utf8
  simp only []
  split
  · exact ⟨hbyte _ (.inl ‹_›) (by omega), [], rfl, by simp⟩
  · split
    · exact ⟨hbyte _ (.inr (by omega)) (by omega), _, rfl, by
        simp [isContinuation_continuation]⟩
    · split
      · exact ⟨hbyte _ (.inr (by omega)) (by omega), _, rfl, by
          simp [isContinuation_continuation]⟩
      · exact ⟨hbyte _ (.inr (by omega)) (by omega), _, rfl, by
          simp [isContinuation_continuation]⟩

theorem lead_eq_newline_iff (c : CodePoint) : c.lead = Location.newline ↔ c = .newline :=
  @lead_eq_iff c '\n' (by decide)

end CodePoint

namespace Place

/-- A byte is read by the tests that a location makes of it. -/
theorem nextByte_eq (p : Place) (b : UInt8) :
    p.nextByte b =
      if b = Location.newline then p.nextLine
      else if Utf8.isContinuation b then p
      else p.right := by
  simp only [nextByte, Utf8.isContinuation_iff]
  rfl

theorem nextByte_lead (p : Place) (c : CodePoint) : p.nextByte c.lead = p.next c := by
  rw [nextByte_eq, next, c.utf8_parts.1]
  simp only [c.lead_eq_newline_iff, Bool.false_eq_true, if_false]

theorem nextByte_continuation (p : Place) {b : UInt8} (hb : Utf8.isContinuation b = true) :
    p.nextByte b = p := by
  have hne : b ≠ Location.newline := by
    rintro rfl
    exact absurd hb (by decide)
  rw [nextByte_eq, if_neg hne, if_pos hb]

theorem foldl_continuations (p : Place) {bytes : List UInt8}
    (h : ∀ b ∈ bytes, Utf8.isContinuation b = true) : bytes.foldl nextByte p = p := by
  induction bytes with
  | nil => rfl
  | cons b bytes ih =>
      rw [List.foldl_cons, p.nextByte_continuation (h b List.mem_cons_self)]
      exact ih fun b' hb' => h b' (List.mem_cons_of_mem b hb')

/-- Any part of an encoding that is not empty leads behind the code point. -/
theorem foldl_take_utf8 (p : Place) (c : CodePoint) {n : Nat} (hn : 0 < n) :
    (c.utf8.take n).foldl nextByte p = p.next c := by
  obtain ⟨-, bytes, hutf8, hmore⟩ := c.utf8_parts
  obtain ⟨n, rfl⟩ := Nat.exists_eq_succ_of_ne_zero (Nat.ne_of_gt hn)
  rw [hutf8, List.take_succ_cons, List.foldl_cons, nextByte_lead]
  exact foldl_continuations _ fun b hb => hmore b (List.mem_of_mem_take hb)

theorem foldl_char (p : Place) (c : CodePoint) : c.utf8.foldl nextByte p = p.next c := by
  have hall := p.foldl_take_utf8 c (List.length_pos_iff.mpr c.utf8_ne_nil)
  rwa [List.take_length] at hall

theorem foldl_utf8 (t : Text) : ∀ p : Place, t.utf8.foldl nextByte p = t.foldl next p := by
  induction t with
  | nil => exact fun _ => rfl
  | cons c t ih =>
      intro p
      rw [Text.utf8_cons, List.foldl_append, foldl_char, ih, List.foldl_cons]

end Place

theorem placeAfter_eq (bytes : List UInt8) :
    placeAfter bytes =
      ⟨bytes.count Location.newline,
        (bytes.reverse.takeWhile (· != Location.newline)).countP (!Utf8.isContinuation ·)⟩ := by
  induction bytes using List.reverseRecOn with
  | nil => rfl
  | append_singleton bytes b ih =>
      rw [placeAfter, List.foldl_append, ← placeAfter, ih, List.foldl_cons, List.foldl_nil,
        List.reverse_append, List.reverse_singleton, List.singleton_append, List.count_append,
        List.takeWhile_cons, nextByte_eq]
      by_cases hb : b = Location.newline
      · simp [hb, nextLine]
      · cases hcontinues : Utf8.isContinuation b <;>
          simp [hb, hcontinues, right]

namespace Location

/-- A location is the place behind the bytes that lie before the index. -/
theorem of_eq_placeAfter (bytes : List UInt8) (index : Int) :
    of bytes index = (placeAfter (bytes.take (cut bytes.length index))).location index := by
  rw [placeAfter_eq]
  rfl

theorem cut_natCast (length n : Nat) : cut length n = min n length := by
  rw [cut, if_neg (by omega), Int.toNat_natCast]

theorem of_natCast (bytes : List UInt8) (n : Nat) :
    of bytes n = (placeAfter (bytes.take n)).location n := by
  have htake : bytes.take (min n bytes.length) = bytes.take n :=
    List.take_eq_take_iff.mpr (by omega)
  rw [of_eq_placeAfter, cut_natCast, htake]

/-- The location of what comes behind a text. -/
theorem of_size (a b : Text) : of (a ++ b).utf8 a.size = a.place.location a.size := by
  rw [of_natCast, Text.utf8_append, Text.size, List.take_left', placeAfter, foldl_utf8]
  · rfl
  · rfl

/-- Inside a code point and at the end of it is one and the same place. -/
theorem of_inside (a b : Text) (c : CodePoint) {n : Nat} (hn : 0 < n)
    (hle : n ≤ c.utf8.length) :
    of (a ++ c :: b).utf8 (a.size + n : Nat) = (a.place.next c).location (a.size + n : Nat) := by
  rw [of_natCast, Text.utf8_append, Text.utf8_cons, Text.size, List.take_length_add_append,
    List.take_append_of_le_length hle, placeAfter, List.foldl_append, foldl_utf8,
    foldl_take_utf8 _ c hn]
  rfl

theorem foldl_take_utf8_prefix (t : Text) :
    ∀ (n : Nat) (p : Place), ∃ a b : Text, t = a ++ b ∧
      (t.utf8.take n).foldl nextByte p = a.foldl next p := by
  induction t with
  | nil => exact fun n p => ⟨[], [], rfl, by rw [Text.utf8, List.flatMap_nil, List.take_nil]; rfl⟩
  | cons c t ih =>
      intro n p
      rw [Text.utf8_cons]
      rcases Nat.eq_zero_or_pos n with rfl | hpos
      · exact ⟨[], c :: t, rfl, rfl⟩
      · by_cases hle : n ≤ c.utf8.length
        · refine ⟨[c], t, rfl, ?_⟩
          rw [List.take_append_of_le_length hle, foldl_take_utf8 p c hpos]
          rfl
        · obtain ⟨a, b, rfl, hab⟩ := ih (n - c.utf8.length) (p.next c)
          refine ⟨c :: a, b, rfl, ?_⟩
          rw [List.take_append, List.take_of_length_le (by omega), List.foldl_append,
            p.foldl_char c, hab]
          rfl

/-- Any index at all, in the middle of a code point, past the end or negative,
has the location of some place of the text. -/
theorem of_prefix (t : Text) (index : Int) :
    ∃ a b : Text, t = a ++ b ∧ of t.utf8 index = a.place.location index := by
  obtain ⟨a, b, hsplit, hplace⟩ := foldl_take_utf8_prefix t (cut t.utf8.length index) origin
  exact ⟨a, b, hsplit, by rw [of_eq_placeAfter, placeAfter, hplace]; rfl⟩

end Location

namespace Text

/-- What stands before the first newline. -/
def untilNewline (t : Text) : Text := t.takeWhile (· ≠ .newline)

theorem untilNewline_newline (t : Text) : untilNewline (.newline :: t) = [] :=
  List.takeWhile_cons_of_neg (by simp)

theorem untilNewline_cons {c : CodePoint} (hc : c ≠ .newline) (t : Text) :
    untilNewline (c :: t) = c :: t.untilNewline :=
  List.takeWhile_cons_of_pos (by simpa using hc)

theorem splitLines_newline (t : Text) :
    splitLines (.newline :: t) = [] :: splitLines t := by
  rw [splitLines, List.splitOn_cons_eq_if_modifyHead, if_pos (beq_self_eq_true _)]
  rfl

theorem splitLines_cons {c : CodePoint} (hc : c ≠ .newline) (t : Text) :
    splitLines (c :: t) = (splitLines t).modifyHead (c :: ·) := by
  rw [splitLines, List.splitOn_cons_eq_if_modifyHead, if_neg (by simpa using hc)]
  rfl

theorem splitLines_eq_cons (t : Text) :
    t.splitLines = t.untilNewline :: t.splitLines.tail := by
  induction t with
  | nil => rfl
  | cons c t ih =>
      by_cases hc : c = .newline
      · rw [hc, splitLines_newline, untilNewline_newline]
        rfl
      · rw [splitLines_cons hc, ih, untilNewline_cons hc]
        rfl

theorem place_append (a b : Text) : place (a ++ b) = b.foldl next a.place :=
  List.foldl_append

theorem place_append_singleton (a : Text) (c : CodePoint) :
    place (a ++ [c]) = a.place.next c := place_append a [c]

/-- The place behind a text has so many lines above it and so much to the left
of it, and its line goes on up to the next newline of what follows. The induction is
from the end, because a place changes with what comes last. -/
theorem place_splitLines (a : Text) :
    ∃ (above : List Text) (left : Text), above.length = a.place.row ∧
      left.length = a.place.column ∧
      ∀ b : Text, (a ++ b).splitLines =
        above ++ (left ++ b.untilNewline) :: b.splitLines.tail := by
  induction a using List.reverseRecOn with
  | nil => exact ⟨[], [], rfl, rfl, splitLines_eq_cons⟩
  | append_singleton a c ih =>
      obtain ⟨above, left, habove, hleft, hsplit⟩ := ih
      rw [place_append_singleton, next]
      by_cases hc : c = .newline
      · subst hc
        rw [if_pos rfl]
        refine ⟨above ++ [left], [], by simp [habove, nextLine], rfl, fun b => ?_⟩
        rw [List.append_assoc, List.singleton_append, hsplit, splitLines_newline,
          untilNewline_newline, List.append_nil, List.tail_cons, List.append_assoc,
          List.singleton_append, List.nil_append, ← splitLines_eq_cons]
      · rw [if_neg hc]
        refine ⟨above, left ++ [c], habove, by simp [hleft, right], fun b => ?_⟩
        rw [List.append_assoc, List.singleton_append, hsplit, splitLines_cons hc,
          List.tail_modifyHead, untilNewline_cons hc, List.append_assoc, List.singleton_append]

/-- The lines above a place and what is left of it are the text before it. -/
theorem place_recovers (a b : Text) :
    ∃ line, (a ++ b).splitLines[a.place.row]? = some line ∧
      line.length = a.place.column + b.untilNewline.length ∧
      [CodePoint.newline].intercalate
        ((a ++ b).splitLines.take a.place.row ++ [line.take a.place.column]) = a := by
  obtain ⟨above, left, habove, hleft, hsplit⟩ := a.place_splitLines
  have hself : a.splitLines = above ++ [left] := by
    have := hsplit []
    rwa [List.append_nil, untilNewline, List.takeWhile_nil, List.append_nil] at this
  refine ⟨left ++ b.untilNewline, ?_, by rw [List.length_append, hleft], ?_⟩
  · rw [hsplit, ← habove, List.getElem?_append_right (Nat.le_refl _), Nat.sub_self]
    rfl
  · rw [hsplit, ← habove, ← hleft, List.take_left, List.take_left, ← hself, splitLines,
      List.intercalate_splitOn]

theorem place_before (a b : Text) (c : CodePoint) (i j : Int) :
    (a.place.location i).Before ((place (a ++ c :: b)).location j) := by
  induction b using List.reverseRecOn with
  | nil =>
      rw [place_append_singleton]
      exact Location.before_next _ c i j
  | append_singleton b d ih =>
      rw [← List.cons_append, ← List.append_assoc, place_append_singleton]
      exact ih.trans (Location.before_next _ d j j)

/-- The location of a code point of a text, or of the end, by its index. -/
def locationAt (t : Text) (i : Nat) : Location := .of t.utf8 (size (t.take i))

theorem locationAt_eq (t : Text) (i : Nat) :
    t.locationAt i = (place (t.take i)).location (size (t.take i)) := by
  have h := Location.of_size (t.take i) (t.drop i)
  rwa [List.take_append_drop] at h

theorem locationAt_before {t : Text} {i j : Nat} (hij : i < j) (hj : j ≤ t.length) :
    (t.locationAt i).Before (t.locationAt j) := by
  obtain ⟨k, rfl⟩ := Nat.exists_eq_add_of_lt hij
  have hdrop : t.drop i = t[i] :: t.drop (i + 1) := List.drop_eq_getElem_cons (by omega)
  rw [locationAt_eq, locationAt_eq, Nat.add_assoc, List.take_add, hdrop, List.take_succ_cons]
  exact place_before _ _ _ _ _

end Text

open Text

/-- The location of a code point has in it the text before the code point, and
locations go forward as the text does. Inside a code point the location is
that of its end. -/
theorem location_recovers_text (s : Text) :
    (∀ i ≤ s.length, ∃ (row column : Nat) (line : Text),
      s.locationAt i = ⟨size (s.take i), row + 1, column + 1⟩ ∧
      s.splitLines[row]? = some line ∧ column ≤ line.length ∧
      [CodePoint.newline].intercalate (s.splitLines.take row ++ [line.take column]) =
        s.take i) ∧
    (∀ (a b : Text) (c : CodePoint), s = a ++ c :: b → ∀ n, 0 < n → n < c.utf8.length →
      (Location.of s.utf8 (a.size + n : Nat)).SamePlace
        (Location.of s.utf8 (a.size + c.utf8.length : Nat))) ∧
    ∀ i j, i ≤ s.length → j ≤ s.length →
      ((s.locationAt i).Before (s.locationAt j) ↔ i < j) ∧
      ((s.locationAt i).SamePlace (s.locationAt j) ↔ i = j) := by
  refine ⟨fun i hi => ?_, ?_, fun i j hi hj => ?_⟩
  · obtain ⟨line, hline, hlength, hrecovers⟩ := place_recovers (s.take i) (s.drop i)
    rw [List.take_append_drop] at hline hrecovers
    exact ⟨_, _, line, locationAt_eq s i, hline, by omega, hrecovers⟩
  · rintro a b c rfl n hn hlt
    rw [Location.of_inside a b c hn (Nat.le_of_lt hlt),
      Location.of_inside a b c (by omega) (Nat.le_refl _)]
    exact ⟨rfl, rfl⟩
  · unfold Location.Before Location.SamePlace
    rcases Nat.lt_trichotomy i j with hlt | rfl | hlt
    · have hbefore := locationAt_before hlt hj
      unfold Location.Before at hbefore
      omega
    · omega
    · have hbefore := locationAt_before hlt hi
      unfold Location.Before at hbefore
      omega

end ArithTree
