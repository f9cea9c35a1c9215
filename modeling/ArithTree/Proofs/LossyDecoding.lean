import ArithTree.Proofs.ScanWords
import ArithTree.Text.Lossy
import Mathlib.Algebra.Group.Nat.Defs

/-!
# What bytes are read as

Bytes fall into pieces, and each piece is read as one code point. Where a
character begins, the piece is the character. Where none does, the piece is as
much of it as still begins like a character, or else a single byte, and what
it is read as is U+FFFD. This says it all, and it says it by encodings alone:
a piece that begins like a character is the beginning of an encoding
(`Opens`), and there are no ranges of bytes in it.

The ranges are the business of the reader, and that they are right is the one
thing to see. A pending character stands for the code points that it may still
become, those whose next six bits are in range with the bits above them
(`Pending.Admits`), and no other encoding begins with the bytes held
(`Awaits`). So a byte within the range goes on with the character, and one
outside of it ends the piece.
-/

namespace ArithTree

open Utf8

namespace Utf8

/-- The bytes that carry the low six bits of a number, so many times six. -/
def tailBytes : Nat → Nat → List UInt8
  | 0, _ => []
  | n + 1, v => continuation (v / 0x40 ^ n) :: tailBytes n v

theorem tailBytes_of_pos {n : Nat} (h : 0 < n) (v : Nat) :
    tailBytes n v = continuation (v / 0x40 ^ (n - 1)) :: tailBytes (n - 1) v := by
  cases n with
  | zero => exact absurd h (Nat.lt_irrefl 0)
  | succ n => rfl

end Utf8

namespace CodePoint

/-- How many bytes come after the lead. -/
def following (c : CodePoint) : Nat :=
  if c.val < 0x80 then 0 else if c.val < 0x800 then 1 else if c.val < 0x10000 then 2 else 3

theorem utf8_eq_lead_tailBytes (c : CodePoint) :
    c.utf8 = c.lead :: tailBytes c.following c.val := by
  unfold lead utf8 following
  simp only []
  split
  · rfl
  · split
    · simp [tailBytes]
    · split <;> simp [tailBytes]

/-- The lead by the number of bytes that follow it. -/
theorem lead_cases (c : CodePoint) :
    (c.val < 0x80 ∧ c.following = 0 ∧ c.lead.toNat = c.val) ∨
    (0x80 ≤ c.val ∧ c.val < 0x800 ∧ c.following = 1 ∧ c.lead.toNat = 0xC0 + c.val / 0x40) ∨
    (0x800 ≤ c.val ∧ c.val < 0x10000 ∧ c.following = 2 ∧
      c.lead.toNat = 0xE0 + c.val / 0x1000) ∨
    (0x10000 ≤ c.val ∧ c.val < 0x110000 ∧ c.following = 3 ∧
      c.lead.toNat = 0xF0 + c.val / 0x40000) := by
  have hlt := c.val_lt
  unfold lead utf8 following
  simp only []
  repeat' split
  all_goals
    simp only [List.headD_cons, UInt8.toNat_ofNat', true_and]
    omega

theorem singleton_prefix_utf8 {b : UInt8} (c : CodePoint) :
    [b] <+: c.utf8 ↔ c.lead.toNat = b.toNat := by
  rw [utf8_eq_lead_tailBytes, List.cons_prefix_cons, UInt8.toNat_inj]
  exact ⟨fun h => h.1.symm, fun h => ⟨h.symm, List.nil_prefix⟩⟩

/-- No encoding is the beginning of another. -/
theorem eq_of_utf8_begins {bytes : List UInt8} {c d : CodePoint} (hc : c.utf8 <+: bytes)
    (hd : d.utf8 <+: bytes) : c = d :=
  Option.some.inj ((firstChar?_eq_some_iff.mpr hc).symm.trans (firstChar?_eq_some_iff.mpr hd))

theorem isSurrogate_eq_false_iff (c : CodePoint) :
    c.isSurrogate = false ↔ c.val < 0xD800 ∨ 0xDFFF < c.val := by
  simp only [isSurrogate, Bool.and_eq_false_iff, decide_eq_false_iff_not]
  omega

end CodePoint

namespace Lossy

open CodePoint

/-- The encoding of some character begins like this. A surrogate is none. -/
def Opens (piece : List UInt8) : Prop :=
  ∃ c : CodePoint, c.isSurrogate = false ∧ piece <+: c.utf8

theorem Opens.of_longer {piece more : List UInt8} (h : Opens more) (hp : piece <+: more) :
    Opens piece := by
  obtain ⟨c, hc, hmore⟩ := h
  exact ⟨c, hc, hp.trans hmore⟩

/-- A piece that is read as U+FFFD because no character begins there: as many
bytes as a character can begin with, and one where that is none. -/
structure Malformed (piece rest : List UInt8) : Prop where
  noChar : ∀ c : CodePoint, c.isSurrogate = false → ¬ c.utf8 <+: piece ++ rest
  begins : (Opens piece ∧ piece ≠ []) ∨ ∃ b, piece = [b]
  longest : ∀ b ∈ rest.head?, ¬ Opens (piece ++ [b])

namespace Malformed

variable {piece rest : List UInt8}

theorem ne_nil (h : Malformed piece rest) : piece ≠ [] := by
  rcases h.begins with ⟨-, hne⟩ | ⟨b, rfl⟩
  · exact hne
  · exact List.cons_ne_nil b []

/-- One byte that begins no character, whatever comes next. -/
theorem singleton {b : UInt8} (h : ¬ Opens [b]) (rest : List UInt8) : Malformed [b] rest where
  noChar c hc hbegins := by
    rw [utf8_eq_lead_tailBytes, List.singleton_append, List.cons_prefix_cons] at hbegins
    exact h ⟨c, hc, (singleton_prefix_utf8 c).mpr (by rw [hbegins.1])⟩
  begins := .inr ⟨b, rfl⟩
  longest _ _ hopens := h (hopens.of_longer (List.prefix_append _ _))

/-- No piece goes on past another. -/
theorem prefix_of_append_eq {piece' rest' : List UInt8} (h : Malformed piece rest)
    (h' : Malformed piece' rest') (heq : piece' ++ rest' = piece ++ rest) : piece' <+: piece := by
  rcases List.prefix_or_prefix_of_prefix (List.prefix_append piece rest)
    (heq ▸ List.prefix_append piece' rest') with ⟨more, rfl⟩ | hin
  · rw [List.append_assoc, List.append_cancel_left_eq] at heq
    cases more with
    | nil => simp
    | cons b more =>
        have hnot := h.longest b (heq ▸ rfl)
        rcases h'.begins with ⟨hopens, -⟩ | ⟨b', hone⟩
        · refine absurd (hopens.of_longer ?_) hnot
          rw [List.prefix_append_right_inj, List.cons_prefix_cons]
          exact ⟨rfl, List.nil_prefix⟩
        · have hlength := congrArg List.length hone
          have hpos := List.length_pos_iff.mpr h.ne_nil
          simp only [List.length_append, List.length_cons, List.length_nil] at hlength
          omega
  · exact hin

end Malformed

/-- What bytes are read as. -/
inductive Decodes : List UInt8 → Text → Prop where
  | nil : Decodes [] []
  | char {c : CodePoint} {rest : List UInt8} {t : Text} (hc : c.isSurrogate = false)
      (h : Decodes rest t) : Decodes (c.utf8 ++ rest) (c :: t)
  | malformed {piece rest : List UInt8} {t : Text} (hp : Malformed piece rest)
      (h : Decodes rest t) : Decodes (piece ++ rest) (.replacement :: t)

/-- Whether a pending character may become the one of this number: the next six
bits and those above them are in range, and those below are free. -/
def Pending.Admits (p : Pending) (v : Nat) : Prop :=
  p.bits * 0x40 + p.low.toNat % 0x40 ≤ v / 0x40 ^ (p.due - 1) ∧
    v / 0x40 ^ (p.due - 1) ≤ p.bits * 0x40 + p.high.toNat % 0x40

/-- The bytes held are the beginning of the encodings of the characters that
may come of them, of no others, and as many bytes are due as are missing. -/
structure Awaits (held : List UInt8) (p : Pending) : Prop where
  ne_nil : held ≠ []
  due : 0 < p.due
  range : 0x80 ≤ p.low.toNat ∧ p.low.toNat ≤ p.high.toNat ∧ p.high.toNat < 0xC0
  val_lt : ∀ v, p.Admits v → v < 0x110000
  begins_iff : ∀ c : CodePoint, c.isSurrogate = false ∧ held <+: c.utf8 ↔ p.Admits c.val
  utf8_eq : ∀ c : CodePoint, p.Admits c.val → c.utf8 = held ++ tailBytes p.due c.val

/-- What becomes of the bytes held so far. -/
inductive Reads (held : List UInt8) : Text × Option Pending → Prop where
  | char {c : CodePoint} (hc : c.isSurrogate = false) (h : held = c.utf8) :
      Reads held ([c], none)
  | pending {p : Pending} (h : Awaits held p) : Reads held ([], some p)
  | malformed (h : ¬ Opens held) (hone : ∃ b, held = [b]) : Reads held ([.replacement], none)

/-! ## The first byte

The reader has a table of leads. That the table is right is arithmetic, once
the lead of a code point is known by its number (`lead_cases`). -/

theorem awaits_lead {b : UInt8} {p : Pending} (due : 0 < p.due)
    (range : 0x80 ≤ p.low.toNat ∧ p.low.toNat ≤ p.high.toNat ∧ p.high.toNat < 0xC0)
    (val_lt : ∀ v, p.Admits v → v < 0x110000)
    (hlead : ∀ c : CodePoint,
      ((c.val < 0xD800 ∨ 0xDFFF < c.val) ∧ c.lead.toNat = b.toNat ↔ p.Admits c.val) ∧
      (p.Admits c.val → c.following = p.due)) : Awaits [b] p where
  ne_nil := List.cons_ne_nil b []
  due := due
  range := range
  val_lt := val_lt
  begins_iff c := by rw [isSurrogate_eq_false_iff, singleton_prefix_utf8, (hlead c).1]
  utf8_eq c hc := by
    have hb : c.lead = b := UInt8.toNat_inj.mp ((hlead c).1.mpr hc).2
    rw [utf8_eq_lead_tailBytes, hb, (hlead c).2 hc, List.singleton_append]

theorem not_opens_singleton {b : UInt8} (h : 0x80 ≤ b.toNat ∧ b.toNat < 0xC2 ∨ 0xF5 ≤ b.toNat) :
    ¬ Opens [b] := by
  rintro ⟨c, -, hbegins⟩
  have hlead := (singleton_prefix_utf8 c).mp hbegins
  have hcases := lead_cases c
  omega

theorem reads_begin (b : UInt8) : Reads [b] (begin b) := by
  unfold begin
  simp only []
  split
  case isTrue h =>
    have hval : (CodePoint.ofNat b.toNat).val = b.toNat := by
      rw [CodePoint.ofNat, dif_pos (by omega)]
    refine .char ?_ ?_
    · rw [isSurrogate_eq_false_iff, hval]
      omega
    · rw [utf8_of_ascii (by rwa [hval]), hval, UInt8.ofNat_toNat]
  split
  case isTrue => exact .malformed (not_opens_singleton (by omega)) ⟨b, rfl⟩
  repeat' split
  rotate_right 1
  · exact .malformed (not_opens_singleton (by omega)) ⟨b, rfl⟩
  all_goals
    refine .pending (awaits_lead (by simp) (by simp) (fun v => ?_) fun c => ?_)
    · simp only [Pending.Admits, UInt8.reduceToNat, Nat.reduceMod, Nat.reduceSub, Nat.reducePow]
      omega
    · have hcases := lead_cases c
      simp only [Pending.Admits, UInt8.reduceToNat, Nat.reduceMod, Nat.reduceSub, Nat.reducePow]
      omega

/-! ## The bytes that follow

One byte behind those held is a matter of six bits (`begins_append_iff`), and
this leaves three ways to read it: it is out of range, it is the last one, or
there are more to come. -/

namespace Awaits

variable {held : List UInt8} {p : Pending}

theorem opens (h : Awaits held p) : Opens held := by
  have hrange := h.range
  let v := (p.bits * 0x40 + p.low.toNat % 0x40) * 0x40 ^ (p.due - 1)
  have hv : p.Admits v := by
    rw [Pending.Admits, Nat.mul_div_cancel _ (Nat.pow_pos (by decide))]
    omega
  obtain ⟨hc, hbegins⟩ := (h.begins_iff ⟨v, h.val_lt v hv⟩).mpr hv
  exact ⟨_, hc, hbegins⟩

/-- One byte more is in range where it goes on, and then the six bits are
those of the byte. -/
theorem begins_append_iff (h : Awaits held p) (b : UInt8) (c : CodePoint) :
    c.isSurrogate = false ∧ held ++ [b] <+: c.utf8 ↔
      (p.low ≤ b ∧ b ≤ p.high) ∧
        c.val / 0x40 ^ (p.due - 1) = p.bits * 0x40 + b.toNat % 0x40 := by
  have hrange := h.range
  have hnext : p.Admits c.val → (held ++ [b] <+: c.utf8 ↔
      0x80 + c.val / 0x40 ^ (p.due - 1) % 0x40 = b.toNat) := by
    intro hadmits
    rw [h.utf8_eq c hadmits, tailBytes_of_pos h.due, List.prefix_append_right_inj,
      List.cons_prefix_cons, ← UInt8.toNat_inj, continuation_toNat]
    exact ⟨fun hb => hb.1.symm, fun hb => ⟨hb.symm, List.nil_prefix⟩⟩
  rw [UInt8.le_iff_toNat_le, UInt8.le_iff_toNat_le]
  constructor
  · rintro ⟨hc, hbegins⟩
    have hadmits := (h.begins_iff c).mp ⟨hc, (List.prefix_append _ _).trans hbegins⟩
    have hbyte := (hnext hadmits).mp hbegins
    rw [Pending.Admits] at hadmits
    omega
  · rintro ⟨hb, hval⟩
    have hadmits : p.Admits c.val := by
      rw [Pending.Admits]
      omega
    exact ⟨((h.begins_iff c).mpr hadmits).1, (hnext hadmits).mpr (by omega)⟩

theorem not_opens_append (h : Awaits held p) {b : UInt8} (hb : ¬ (p.low ≤ b ∧ b ≤ p.high)) :
    ¬ Opens (held ++ [b]) :=
  fun ⟨c, hc⟩ => hb ((h.begins_append_iff b c).mp hc).1

theorem char_of_last (h : Awaits held p) {b : UInt8} (hb : p.low ≤ b ∧ b ≤ p.high)
    (hdue : p.due ≤ 1) :
    Reads (held ++ [b]) ([.ofNat (p.bits * 0x40 + b.toNat % 0x40)], none) := by
  let v := p.bits * 0x40 + b.toNat % 0x40
  have hone : p.due = 1 := Nat.le_antisymm hdue h.due
  have hrange := h.range
  have hadmits : p.Admits v := by
    rw [UInt8.le_iff_toNat_le, UInt8.le_iff_toNat_le] at hb
    rw [Pending.Admits, hone, Nat.sub_self, Nat.pow_zero, Nat.div_one]
    omega
  have hval : (CodePoint.ofNat v).val = v := by
    rw [CodePoint.ofNat, dif_pos (h.val_lt v hadmits)]
  have hbegins := (h.begins_append_iff b (.ofNat v)).mpr
    ⟨hb, by rw [hval, hone, Nat.sub_self, Nat.pow_zero, Nat.div_one]⟩
  refine .char hbegins.1 (hbegins.2.eq_of_length ?_)
  rw [h.utf8_eq _ (hval.symm ▸ hadmits), hone]
  simp [tailBytes]

theorem step (h : Awaits held p) {b : UInt8} (hb : p.low ≤ b ∧ b ≤ p.high) (hdue : 1 < p.due) :
    Awaits (held ++ [b]) { due := p.due - 1, bits := p.bits * 0x40 + b.toNat % 0x40 } := by
  have hrange := h.range
  have hpow : 0x40 ^ (p.due - 1) = 0x40 ^ (p.due - 1 - 1) * 0x40 := by
    rw [← Nat.pow_succ]
    congr 1
    omega
  have hadmits : ∀ v, Pending.Admits ⟨p.due - 1, p.bits * 0x40 + b.toNat % 0x40, 0x80, 0xBF⟩ v ↔
      v / 0x40 ^ (p.due - 1) = p.bits * 0x40 + b.toNat % 0x40 := by
    intro v
    rw [hpow, ← Nat.div_div_eq_div_mul]
    simp only [Pending.Admits, UInt8.reduceToNat, Nat.reduceMod]
    omega
  have hold : ∀ v, v / 0x40 ^ (p.due - 1) = p.bits * 0x40 + b.toNat % 0x40 → p.Admits v := by
    intro v hv
    rw [UInt8.le_iff_toNat_le, UInt8.le_iff_toNat_le] at hb
    rw [Pending.Admits, hv]
    omega
  refine ⟨by simp, Nat.sub_pos_of_lt hdue, by simp, fun v hv => ?_, fun c => ?_, fun c hc => ?_⟩
  · exact h.val_lt v (hold v ((hadmits v).mp hv))
  · rw [h.begins_append_iff, hadmits]
    exact and_iff_right hb
  · have hval := (hadmits c.val).mp hc
    obtain ⟨-, more, hmore⟩ := (h.begins_append_iff b c).mpr ⟨hb, hval⟩
    rw [h.utf8_eq c (hold _ hval), tailBytes_of_pos h.due, List.append_assoc,
      List.append_cancel_left_eq, List.singleton_append, List.cons.injEq] at hmore
    rw [h.utf8_eq c (hold _ hval), tailBytes_of_pos h.due, ← hmore.1, List.append_cons]

/-- What is held becomes U+FFFD where the next byte is out of range or there is
none. -/
theorem malformed (h : Awaits held p) {rest : List UInt8}
    (hnext : ∀ b ∈ rest.head?, ¬ (p.low ≤ b ∧ b ≤ p.high)) : Malformed held rest where
  noChar c hc hbegins := by
    obtain ⟨d, hd, hheld⟩ := h.opens
    have hlonger : held <+: c.utf8 := by
      rcases List.prefix_or_prefix_of_prefix hbegins (List.prefix_append held rest) with hin | hin
      · rw [eq_of_utf8_begins (hin.trans hheld) (List.prefix_refl d.utf8)]
        exact hheld
      · exact hin
    have hutf8 := h.utf8_eq c ((h.begins_iff c).mp ⟨hc, hlonger⟩)
    rw [tailBytes_of_pos h.due] at hutf8
    rw [hutf8, List.prefix_append_right_inj] at hbegins
    obtain ⟨more, rfl⟩ := hbegins
    refine hnext _ rfl ((h.begins_append_iff _ c).mp ⟨hc, ?_⟩).1
    rw [hutf8, List.prefix_append_right_inj, List.cons_prefix_cons]
    exact ⟨rfl, List.nil_prefix⟩
  begins := .inl ⟨h.opens, h.ne_nil⟩
  longest b hb := h.not_opens_append (hnext b hb)

end Awaits

namespace Decodes

/-- What becomes of the bytes held, and of the rest of the bytes after them. -/
theorem of_reads {held rest : List UInt8} {r : Text × Option Pending} (h : Reads held r)
    (hnone : Decodes rest (decodeFrom none rest))
    (hsome : ∀ held p, Awaits held p → Decodes (held ++ rest) (decodeFrom (some p) rest)) :
    Decodes (held ++ rest) (r.1 ++ decodeFrom r.2 rest) := by
  cases h with
  | char hc h =>
      subst h
      exact .char hc hnone
  | pending h => exact hsome held _ h
  | malformed h hone =>
      obtain ⟨b, rfl⟩ := hone
      exact .malformed (.singleton h rest) hnone

theorem decodeFrom_cons (pending : Option Pending) (b : UInt8) (rest : List UInt8) :
    decodeFrom pending (b :: rest) =
      (Lossy.step pending b).1 ++ decodeFrom (Lossy.step pending b).2 rest := by
  cases pending <;> rfl

/-- The reader between two characters, and inside one. A byte leads from either state
to either, so the induction has both. -/
theorem of_decodeFrom (bytes : List UInt8) :
    Decodes bytes (decodeFrom none bytes) ∧
      ∀ held p, Awaits held p → Decodes (held ++ bytes) (decodeFrom (some p) bytes) := by
  induction bytes with
  | nil =>
      exact ⟨.nil, fun held p h => .malformed (h.malformed (by simp)) .nil⟩
  | cons b rest ih =>
      have hbegin := of_reads (reads_begin b) ih.1 ih.2
      refine ⟨?_, fun held p h => ?_⟩
      · rw [decodeFrom_cons]
        exact hbegin
      · rw [decodeFrom_cons, Lossy.step]
        split
        case isTrue hb =>
          rw [List.append_cons]
          simp only []
          split
          case isTrue hdue => exact of_reads (h.char_of_last hb hdue) ih.1 ih.2
          case isFalse hdue =>
            exact of_reads (.pending (h.step hb (Nat.lt_of_not_le hdue))) ih.1 ih.2
        case isFalse hb =>
          have hnext : ∀ b' ∈ (b :: rest).head?, ¬ (p.low ≤ b' ∧ b' ≤ p.high) := by
            rintro b' ⟨⟩
            exact hb
          exact .malformed (h.malformed hnext) hbegin

theorem decode (bytes : List UInt8) : Decodes bytes (Lossy.decode bytes) := (of_decodeFrom bytes).1

/-- The beginning of a character that is not there, and one that is. -/
example : Lossy.decode [0xE2, 0x82, 0x41] = [.replacement, .ofChar 'A'] := by decide

theorem of_nil {t : Text} (h : Decodes [] t) : t = [] := by
  generalize hbytes : ([] : List UInt8) = bytes at h
  cases h with
  | nil => rfl
  | char hc h => exact absurd hbytes.symm (by simp [utf8_ne_nil])
  | malformed hp h => exact absurd hbytes.symm (by simp [hp.ne_nil])

theorem of_char {c : CodePoint} {rest : List UInt8} {t : Text} (hc : c.isSurrogate = false)
    (h : Decodes (c.utf8 ++ rest) t) : ∃ t', t = c :: t' ∧ Decodes rest t' := by
  generalize hbytes : c.utf8 ++ rest = bytes at h
  cases h with
  | nil => exact absurd hbytes (by simp [utf8_ne_nil])
  | char hd h =>
      obtain rfl := eq_of_utf8_begins ⟨rest, hbytes⟩ (List.prefix_append _ _)
      exact ⟨_, rfl, List.append_cancel_left hbytes ▸ h⟩
  | malformed hp h => exact absurd ⟨rest, hbytes⟩ (hp.noChar c hc)

theorem of_malformed {piece rest : List UInt8} {t : Text} (hp : Malformed piece rest)
    (h : Decodes (piece ++ rest) t) : ∃ t', t = .replacement :: t' ∧ Decodes rest t' := by
  generalize hbytes : piece ++ rest = bytes at h
  cases h with
  | nil => exact absurd hbytes (by simp [hp.ne_nil])
  | char hc h => exact absurd ⟨_, hbytes.symm⟩ (hp.noChar _ hc)
  | malformed hp' h =>
      obtain rfl := (hp.prefix_of_append_eq hp' hbytes.symm).eq_of_length_le
        (hp'.prefix_of_append_eq hp hbytes).length_le
      exact ⟨_, rfl, List.append_cancel_left hbytes ▸ h⟩

/-- Bytes are read in one way only. -/
theorem unique {bytes : List UInt8} {t t' : Text} (h : Decodes bytes t) (h' : Decodes bytes t') :
    t = t' := by
  induction h generalizing t' with
  | nil => exact h'.of_nil.symm
  | char hc h ih =>
      obtain ⟨t', rfl, hrest⟩ := h'.of_char hc
      rw [ih hrest]
  | malformed hp h ih =>
      obtain ⟨t', rfl, hrest⟩ := h'.of_malformed hp
      rw [ih hrest]

/-- Text without surrogates is read back from its encoding. -/
theorem utf8 {s : Text} (h : ∀ c ∈ s, c.isSurrogate = false) : Decodes s.utf8 s := by
  induction s with
  | nil => exact .nil
  | cons c s ih =>
      exact .char (h c List.mem_cons_self) (ih fun d hd => h d (List.mem_cons_of_mem c hd))

theorem not_surrogate {bytes : List UInt8} {t : Text} (h : Decodes bytes t) :
    ∀ c ∈ t, c.isSurrogate = false := by
  induction h with
  | nil => simp
  | char hc h ih => exact List.forall_mem_cons.mpr ⟨hc, ih⟩
  | malformed hp h ih => exact List.forall_mem_cons.mpr ⟨rfl, ih⟩

end Decodes

end Lossy

end ArithTree
