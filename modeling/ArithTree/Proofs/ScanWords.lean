import ArithTree.Proofs.LiteralValue
import ArithTree.Token.Scan

/-!
# Scanning by code points

The scanner goes over bytes, and what it does is told in code points. The two
come together at one place. The first byte of a code point, its lead, says
whether it is a digit, a sign or blank, and where it is one of these it is
all of the code point. Every other code point has a lead that is none of
them, so the scanner always stops at the beginning of a code point, never
inside.

So a text falls into words: a blank, a sign, or a run of digits that is as
long as can be and fits. `scanFrom_word` says that a word gives its token and
the scanner goes on behind it; `scanFrom_blocked` says that a text that begins
with anything else stops it. `Text.words` is the induction that goes with the
two, and no proof about scanning has to look at a byte again.
-/

namespace ArithTree

namespace CodePoint

/-- What may stand between tokens. -/
def isSeparator (c : CodePoint) : Bool :=
  c = .ofChar ' ' || c = .ofChar '\n' || c = .ofChar '\t'

def isDigit (c : CodePoint) : Bool := (ofChar '0').val ≤ c.val && c.val ≤ (ofChar '9').val

/-- The kind that a code point is by itself. -/
def kind? (c : CodePoint) : Option Token.Kind :=
  if c = .ofChar '+' then some .plus
  else if c = .ofChar '-' then some .minus
  else if c = .ofChar '*' then some .asterisk
  else if c = .ofChar '/' then some .slash
  else if c = .ofChar '(' then some .lparen
  else if c = .ofChar ')' then some .rparen
  else none

/-- Whether a code point has no place in an expression. -/
def isForeign (c : CodePoint) : Bool := !c.isSeparator && !c.isDigit && c.kind?.isNone

/-- The first byte of the encoding. -/
def lead (c : CodePoint) : UInt8 := c.utf8.headD 0

theorem ext_iff {c d : CodePoint} : c = d ↔ c.val = d.val := by
  cases c
  cases d
  simp

theorem utf8_of_ascii {c : CodePoint} (h : c.val < 0x80) : c.utf8 = [UInt8.ofNat c.val] := by
  simp only [utf8, if_pos h]

/-- The lead of a code point is its number if that is ASCII, and past ASCII if
it is not. -/
theorem lead_toNat (c : CodePoint) :
    if c.val < 0x80 then c.lead.toNat = c.val else 0x80 ≤ c.lead.toNat := by
  have hlt := c.val_lt
  unfold lead utf8
  simp only []
  repeat' split
  all_goals
    simp only [List.headD_cons, UInt8.toNat_ofNat']
    omega

theorem utf8_eq_lead_cons (c : CodePoint) : ∃ bytes, c.utf8 = c.lead :: bytes := by
  unfold lead utf8
  simp only []
  split
  · exact ⟨_, rfl⟩
  · split
    · exact ⟨_, rfl⟩
    · split
      · exact ⟨_, rfl⟩
      · exact ⟨_, rfl⟩

theorem utf8_ne_nil (c : CodePoint) : c.utf8 ≠ [] := by
  obtain ⟨bytes, hbytes⟩ := c.utf8_eq_lead_cons
  rw [hbytes]
  exact List.cons_ne_nil _ _

theorem lead_eq_iff {c : CodePoint} {a : Char} (ha : a.toNat < 0x80) :
    c.lead = UInt8.ofNat a.toNat ↔ c = .ofChar a := by
  have hlead := c.lead_toNat
  have ha' : (UInt8.ofNat a.toNat).toNat = a.toNat := by
    simp only [UInt8.toNat_ofNat']
    omega
  rw [← UInt8.toNat_inj, ha', ext_iff]
  show _ ↔ c.val = a.toNat
  split at hlead <;> omega

theorem isWhitespace_lead (c : CodePoint) : Cursor.isWhitespace c.lead = c.isSeparator := by
  have hspace := @lead_eq_iff c ' ' (by decide)
  have hnewline := @lead_eq_iff c '\n' (by decide)
  have htab := @lead_eq_iff c '\t' (by decide)
  unfold Cursor.isWhitespace isSeparator
  rw [Bool.eq_iff_iff]
  simp only [Bool.or_eq_true, beq_iff_eq, decide_eq_true_eq, ← hspace, ← hnewline, ← htab]
  exact Iff.rfl

theorem isDigit_lead (c : CodePoint) : Cursor.isDigit c.lead = c.isDigit := by
  have hlead := c.lead_toNat
  have hzero : (ofChar '0').val = 0x30 := rfl
  have hnine : (ofChar '9').val = 0x39 := rfl
  unfold Cursor.isDigit isDigit
  rw [Bool.eq_iff_iff, Bool.and_eq_true, Bool.and_eq_true, decide_eq_true_eq,
    decide_eq_true_eq, decide_eq_true_eq, decide_eq_true_eq, hzero, hnine,
    UInt8.le_iff_toNat_le, UInt8.le_iff_toNat_le]
  show 0x30 ≤ _ ∧ _ ≤ 0x39 ↔ _
  split at hlead <;> omega

theorem ofByte?_lead (c : CodePoint) : Token.Kind.ofByte? c.lead = c.kind? := by
  have hplus := @lead_eq_iff c '+' (by decide)
  have hminus := @lead_eq_iff c '-' (by decide)
  have hasterisk := @lead_eq_iff c '*' (by decide)
  have hslash := @lead_eq_iff c '/' (by decide)
  have hlparen := @lead_eq_iff c '(' (by decide)
  have hrparen := @lead_eq_iff c ')' (by decide)
  unfold Token.Kind.ofByte? kind?
  simp only [← hplus, ← hminus, ← hasterisk, ← hslash, ← hlparen, ← hrparen]
  rfl

theorem ascii_of_not_foreign {c : CodePoint} (h : c.isForeign = false) : c.val < 0x80 := by
  by_cases hascii : c.val < 0x80
  · exact hascii
  · have hne : ∀ a : Char, a.toNat < 0x80 → c ≠ .ofChar a := by
      rintro a ha rfl
      exact hascii ha
    have hdigit : c.isDigit = false := by
      have hnine : (ofChar '9').val = 0x39 := rfl
      simp only [isDigit, hnine, Bool.and_eq_false_iff, decide_eq_false_iff_not]
      omega
    have hseparator : c.isSeparator = false := by
      simp [isSeparator, hne ' ' (by decide), hne '\n' (by decide), hne '\t' (by decide)]
    have hkind : c.kind? = none := by
      simp [kind?, hne '+' (by decide), hne '-' (by decide), hne '*' (by decide),
        hne '/' (by decide), hne '(' (by decide), hne ')' (by decide)]
    simp [isForeign, hdigit, hseparator, hkind] at h

/-- A code point that has a place in an expression is a byte. -/
theorem utf8_of_not_foreign {c : CodePoint} (h : c.isForeign = false) : c.utf8 = [c.lead] := by
  rw [lead, utf8_of_ascii (ascii_of_not_foreign h)]
  rfl

theorem not_foreign_of_separator {c : CodePoint} (h : c.isSeparator = true) :
    c.isForeign = false := by
  simp [isForeign, h]

theorem not_foreign_of_digit {c : CodePoint} (h : c.isDigit = true) :
    c.isForeign = false := by
  simp [isForeign, h]

theorem not_foreign_of_kind {c : CodePoint} {k : Token.Kind} (h : c.kind? = some k) :
    c.isForeign = false := by
  simp [isForeign, h]

theorem ne_of_digit {c : CodePoint} {a : Char} (h : c.isDigit = true)
    (ha : (ofChar a).isDigit = false) : c ≠ .ofChar a := by
  rintro rfl
  rw [ha] at h
  cases h

theorem not_separator_of_digit {c : CodePoint} (h : c.isDigit = true) :
    c.isSeparator = false := by
  simp [isSeparator, @ne_of_digit c ' ' h rfl, @ne_of_digit c '\n' h rfl,
    @ne_of_digit c '\t' h rfl]

theorem kind?_ne_number {c : CodePoint} {k : Token.Kind} (h : c.kind? = some k) :
    k ≠ .number := by
  rintro rfl
  unfold kind? at h
  repeat' split at h
  all_goals cases h

theorem kind?_of_digit {c : CodePoint} (h : c.isDigit = true) : c.kind? = none := by
  simp [kind?, @ne_of_digit c '+' h rfl, @ne_of_digit c '-' h rfl,
    @ne_of_digit c '*' h rfl, @ne_of_digit c '/' h rfl, @ne_of_digit c '(' h rfl,
    @ne_of_digit c ')' h rfl]

theorem not_digit_of_separator {c : CodePoint} (h : c.isSeparator = true) :
    c.isDigit = false := by
  cases hdigit : c.isDigit with
  | false => rfl
  | true => rw [not_separator_of_digit hdigit] at h; cases h

theorem not_digit_of_kind {c : CodePoint} {k : Token.Kind} (h : c.kind? = some k) :
    c.isDigit = false := by
  cases hdigit : c.isDigit with
  | false => rfl
  | true => rw [kind?_of_digit hdigit] at h; cases h

theorem not_separator_of_kind {c : CodePoint} {k : Token.Kind} (h : c.kind? = some k) :
    c.isSeparator = false := by
  cases hseparator : c.isSeparator with
  | false => rfl
  | true =>
      simp only [isSeparator, Bool.or_eq_true, decide_eq_true_eq] at hseparator
      rcases hseparator with (rfl | rfl) | rfl <;> cases h

theorem toChar_of_digit {c : CodePoint} (h : c.isDigit = true) :
    c.toChar = Char.ofNat c.val ∧ c.toChar.isDigit = true := by
  have hzero : (ofChar '0').val = 0x30 := rfl
  have hnine : (ofChar '9').val = 0x39 := rfl
  simp only [isDigit, Bool.and_eq_true, decide_eq_true_eq, hzero, hnine] at h
  have hsurrogate : c.isSurrogate = false := by
    simp only [isSurrogate, Bool.and_eq_false_iff, decide_eq_false_iff_not]
    omega
  have hchar : c.toChar = Char.ofNat c.val := by
    rw [toChar, hsurrogate]
    rfl
  have hvalid : c.val.isValidChar := Or.inl (by omega)
  have hnat : (Char.ofNat c.val).toNat = c.val := by
    rw [Char.ofNat, dif_pos hvalid]
    rfl
  refine ⟨hchar, ?_⟩
  rw [hchar, Char.isDigit_iff_toNat, hnat]
  exact h

end CodePoint

namespace Text

/-- What a run of digits is worth. -/
def decimal (run : Text) : Nat := Literal.value (run.map CodePoint.toChar)

/-- No run of digits goes over from one text to the other. -/
def Seam (a b : Text) : Prop :=
  ∀ c ∈ a.getLast?, ∀ d ∈ b.head?, c.isDigit = true → d.isDigit = false

/-- A word, with the tokens that it gives at an offset. -/
inductive Word : Text → (Nat → List Token) → Prop where
  | separator {c : CodePoint} (hc : c.isSeparator = true) : Word [c] fun _ => []
  | sign {c : CodePoint} {k : Token.Kind} (hk : c.kind? = some k) :
      Word [c] fun o => [{ kind := k, span := ⟨o, o + 1⟩ }]
  | number {run : Text} (hne : run ≠ []) (hdigits : ∀ c ∈ run, c.isDigit = true)
      (hfits : run.decimal < UInt64.size) :
      Word run fun o =>
        [{ kind := .number, span := ⟨o, o + run.length⟩, value := some run.decimal }]

/-- A text that begins with no word, with the error it gives at an offset. -/
inductive Blocked : Text → (Nat → LexError) → Prop where
  | foreign {c : CodePoint} {t : Text} (hc : c.isForeign = true) :
      Blocked (c :: t) fun o => .invalidChar c o
  | overflow {run t : Text} (hne : run ≠ []) (hdigits : ∀ c ∈ run, c.isDigit = true)
      (hseam : Seam run t) (hlarge : UInt64.size ≤ run.decimal) :
      Blocked (run ++ t) fun o => .overflow run.display ⟨o, o + run.length⟩

theorem seam_of_not_digit {c : CodePoint} {t : Text} (h : c.isDigit = false) :
    Seam [c] t := by
  intro d hd e _ hdigit
  have hdc : c = d := by simpa using hd
  rw [← hdc, h] at hdigit
  cases hdigit

theorem seam_of_head {a b : Text} (h : ∀ d ∈ b.head?, d.isDigit = false) : Seam a b :=
  fun _ _ d hd _ => h d hd

/-- A run goes on to the end of the digits. -/
theorem head_of_seam {run t : Text} (hne : run ≠ []) (hdigits : ∀ c ∈ run, c.isDigit = true)
    (hseam : Seam run t) : ∀ d ∈ t.head?, d.isDigit = false := by
  intro d hd
  have hlast := List.getLast?_eq_some_getLast hne
  exact hseam _ hlast d hd (hdigits _ (List.getLast_mem hne))

theorem exists_run {c : CodePoint} {t : Text} (hc : c.isDigit = true) :
    ∃ run rest : Text, c :: t = run ++ rest ∧ run ≠ [] ∧
      (∀ d ∈ run, d.isDigit = true) ∧ Seam run rest := by
  refine ⟨(c :: t).takeWhile CodePoint.isDigit, (c :: t).dropWhile CodePoint.isDigit,
    List.takeWhile_append_dropWhile.symm, ?_, ?_, seam_of_head fun d hd => ?_⟩
  · rw [List.takeWhile_cons_of_pos hc]
    exact List.cons_ne_nil _ _
  · exact List.all_eq_true.mp List.all_takeWhile
  · have hnot := List.head?_dropWhile_not CodePoint.isDigit (c :: t)
    rw [Option.mem_def.mp hd] at hnot
    simpa using hnot

/-- A text is a word and more, or nothing, or it is blocked. -/
theorem words {motive : Text → Prop} (nil : motive [])
    (word : ∀ {w t : Text} {tokens : Nat → List Token}, Word w tokens → Seam w t →
      motive t → motive (w ++ t))
    (blocked : ∀ {t : Text} {e : Nat → LexError}, Blocked t e → motive t) :
    ∀ t : Text, motive t := by
  intro t
  induction hlength : t.length using Nat.strongRecOn generalizing t with
  | ind n ih =>
      cases t with
      | nil => exact nil
      | cons c t =>
          have htail : motive t := ih t.length (by rw [← hlength]; simp) t rfl
          cases hseparator : c.isSeparator with
          | true =>
              exact word (.separator hseparator)
                (seam_of_not_digit (CodePoint.not_digit_of_separator hseparator)) htail
          | false =>
              cases hkind : c.kind? with
              | some k =>
                  exact word (.sign hkind)
                    (seam_of_not_digit (CodePoint.not_digit_of_kind hkind)) htail
              | none =>
                  cases hdigit : c.isDigit with
                  | false =>
                      exact blocked (.foreign (by
                        simp [CodePoint.isForeign, hseparator, hkind, hdigit]))
                  | true =>
                      obtain ⟨run, rest, hsplit, hne, hdigits, hseam⟩ := exists_run hdigit
                      rw [hsplit]
                      by_cases hfits : run.decimal < UInt64.size
                      · have hshort : rest.length < n := by
                          have hpos := List.length_pos_iff.mpr hne
                          rw [← hlength, hsplit, List.length_append]
                          omega
                        exact word (.number hne hdigits hfits) hseam
                          (ih rest.length hshort rest rfl)
                      · exact blocked (.overflow hne hdigits hseam (by omega))

end Text

/-! ## The scanner at a word

First what a step does with the bytes in front of it, then the same by code
points. -/

namespace Scan

open Cursor

/-- The scan with tokens in front. -/
def prepend (tokens : List Token) (s : Scan) : Scan := { s with tokens := tokens ++ s.tokens }

theorem onward_of_end {c c' : Cursor} (h : next c = .ok none c') :
    onward c = ⟨[], none, c'⟩ := by
  rw [onward]
  split <;> simp_all

theorem onward_of_token {c c' : Cursor} {t : Token} (h : next c = .ok (some t) c') :
    onward c = (onward c').prepend [t] := by
  rw [onward]
  split <;> simp_all [prepend]

theorem onward_of_error {c c' : Cursor} {e : LexError} (h : next c = .error e c') :
    onward c = ⟨[], some e, c'⟩ := by
  rw [onward]
  split <;> simp_all

theorem onward_congr {c c' : Cursor} (h : next c = next c') : onward c = onward c' := by
  cases hnext : next c' with
  | ok t? c'' =>
      cases t? with
      | none => rw [onward_of_end (h.trans hnext), onward_of_end hnext]
      | some t => rw [onward_of_token (h.trans hnext), onward_of_token hnext]
  | error e c'' => rw [onward_of_error (h.trans hnext), onward_of_error hnext]

theorem next_eq_word {o : Nat} {b : UInt8} {bytes : List UInt8}
    (hb : isWhitespace b = false) : next ⟨o, b :: bytes⟩ = word ⟨o, b :: bytes⟩ := by
  show word (skip ⟨o, b :: bytes⟩ ((b :: bytes).takeWhile isWhitespace).length) = _
  rw [List.takeWhile_cons_of_neg (by simp [hb])]
  rfl

theorem next_whitespace {o : Nat} {b : UInt8} {bytes : List UInt8}
    (hb : isWhitespace b = true) : next ⟨o, b :: bytes⟩ = next ⟨o + 1, bytes⟩ := by
  show word (skip ⟨o, b :: bytes⟩ ((b :: bytes).takeWhile isWhitespace).length) =
    word (skip ⟨o + 1, bytes⟩ (bytes.takeWhile isWhitespace).length)
  rw [List.takeWhile_cons_of_pos hb, List.length_cons, skip, skip, List.drop_succ_cons,
    Nat.add_right_comm o 1, Nat.add_assoc]

theorem word_sign {o : Nat} {b : UInt8} {bytes : List UInt8} {k : Token.Kind}
    (hdigit : isDigit b = false) (hk : Token.Kind.ofByte? b = some k) :
    word ⟨o, b :: bytes⟩ =
      .ok (some { kind := k, span := ⟨o, o + 1⟩ }) ⟨o + 1, bytes⟩ := by
  simp only [word, hdigit, hk]
  rfl

theorem word_foreign {o : Nat} {c : CodePoint} {bytes : List UInt8}
    (h : c.isForeign = true) :
    word ⟨o, c.utf8 ++ bytes⟩ = .error (.invalidChar c o) ⟨o, c.utf8 ++ bytes⟩ := by
  simp only [CodePoint.isForeign, Bool.and_eq_true, Bool.not_eq_true', Option.isNone_iff_eq_none,
    ← CodePoint.isDigit_lead, ← CodePoint.ofByte?_lead] at h
  obtain ⟨⟨_, hdigit⟩, hkind⟩ := h
  have hchar : Utf8.firstChar? (c.utf8 ++ bytes) = some c :=
    Utf8.firstChar?_eq_some_iff.mpr (List.prefix_append _ _)
  obtain ⟨more, hmore⟩ := c.utf8_eq_lead_cons
  rw [hmore, List.cons_append] at hchar ⊢
  simp only [word, hdigit, hkind, invalidChar, hchar]
  rfl

end Scan

namespace Text

theorem utf8_cons (c : CodePoint) (t : Text) : Text.utf8 (c :: t) = c.utf8 ++ t.utf8 :=
  List.flatMap_cons

/-- Text that scanning can pass is as many bytes as code points. -/
theorem utf8_eq_map_lead {t : Text} (h : ∀ c ∈ t, c.isForeign = false) :
    t.utf8 = t.map CodePoint.lead := by
  induction t with
  | nil => rfl
  | cons c t ih =>
      rw [utf8_cons, CodePoint.utf8_of_not_foreign (h c List.mem_cons_self),
        ih fun d hd => h d (List.mem_cons_of_mem c hd)]
      rfl

theorem utf8_head_not_digit {t : Text} (h : ∀ d ∈ t.head?, d.isDigit = false) :
    t.utf8.takeWhile Cursor.isDigit = [] := by
  cases t with
  | nil => rfl
  | cons c t =>
      have hc : c.isDigit = false := h c rfl
      obtain ⟨bytes, hbytes⟩ := c.utf8_eq_lead_cons
      rw [utf8_cons, hbytes, List.cons_append, List.takeWhile_cons_of_neg]
      rw [CodePoint.isDigit_lead, hc]
      exact Bool.false_ne_true

/-- The digits that the scanner takes are the run, and what it reads of them
are its characters. -/
theorem takeWhile_run {run t : Text} (hne : run ≠ [])
    (hdigits : ∀ c ∈ run, c.isDigit = true) (hseam : Seam run t) :
    (run ++ t).utf8.takeWhile Cursor.isDigit = run.map CodePoint.lead := by
  have hforeign : ∀ c ∈ run, c.isForeign = false := fun c hc =>
    CodePoint.not_foreign_of_digit (hdigits c hc)
  rw [utf8_append, utf8_eq_map_lead hforeign, List.takeWhile_append_of_pos,
    utf8_head_not_digit (head_of_seam hne hdigits hseam), List.append_nil]
  intro b hb
  obtain ⟨c, hc, rfl⟩ := List.mem_map.mp hb
  rw [CodePoint.isDigit_lead]
  exact hdigits c hc

theorem lexeme_run {run : Text} (hdigits : ∀ c ∈ run, c.isDigit = true) :
    (run.map CodePoint.lead).map (fun b => Char.ofNat b.toNat) =
      run.map CodePoint.toChar := by
  rw [List.map_map]
  refine List.map_congr_left fun c hc => ?_
  have hdigit := hdigits c hc
  have hascii := CodePoint.ascii_of_not_foreign (CodePoint.not_foreign_of_digit hdigit)
  have hlead := c.lead_toNat
  rw [if_pos hascii] at hlead
  rw [Function.comp_apply, hlead, (CodePoint.toChar_of_digit hdigit).1]

theorem isDigit_toChar {run : Text} (hdigits : ∀ c ∈ run, c.isDigit = true) :
    ∀ a ∈ run.map CodePoint.toChar, a.isDigit = true := by
  intro a ha
  obtain ⟨c, hc, rfl⟩ := List.mem_map.mp ha
  exact (CodePoint.toChar_of_digit (hdigits c hc)).2

theorem read?_run {run : Text} (hdigits : ∀ c ∈ run, c.isDigit = true) :
    Literal.read? (run.map CodePoint.toChar) =
      if run.decimal < UInt64.size then some run.decimal else none :=
  Literal.read?_eq (isDigit_toChar hdigits)

theorem skip_run {run t : Text} (o : Nat) (hdigits : ∀ c ∈ run, c.isDigit = true) :
    Cursor.skip ⟨o, (run ++ t).utf8⟩ run.length = ⟨o + run.length, t.utf8⟩ := by
  rw [Cursor.skip, utf8_append, utf8_eq_map_lead fun c hc =>
    CodePoint.not_foreign_of_digit (hdigits c hc)]
  congr 1
  exact List.drop_left' (List.length_map _)

theorem number_run {run t : Text} (o : Nat) (hne : run ≠ [])
    (hdigits : ∀ c ∈ run, c.isDigit = true) (hseam : Seam run t) :
    Cursor.number ⟨o, (run ++ t).utf8⟩ =
      if run.decimal < UInt64.size then
        .ok { kind := .number, span := ⟨o, o + run.length⟩, value := some run.decimal }
          ⟨o + run.length, t.utf8⟩
      else .error (.overflow run.display ⟨o, o + run.length⟩) ⟨o + run.length, t.utf8⟩ := by
  simp only [Cursor.number, takeWhile_run hne hdigits hseam, lexeme_run hdigits,
    read?_run hdigits, List.length_map, skip_run o hdigits, Cursor.span]
  by_cases hfits : run.decimal < UInt64.size
  · simp only [if_pos hfits]
  · simp only [if_neg hfits]
    rfl

theorem next_run {run t : Text} (o : Nat) (hne : run ≠ [])
    (hdigits : ∀ c ∈ run, c.isDigit = true) :
    Cursor.next ⟨o, (run ++ t).utf8⟩ = (some <$> Cursor.number) ⟨o, (run ++ t).utf8⟩ := by
  obtain ⟨c, rest, rfl⟩ := List.exists_cons_of_ne_nil hne
  have hdigit := hdigits c List.mem_cons_self
  obtain ⟨bytes, hbytes⟩ := c.utf8_eq_lead_cons
  have hwhite : Cursor.isWhitespace c.lead = false := by
    rw [CodePoint.isWhitespace_lead, CodePoint.not_separator_of_digit hdigit]
  rw [List.cons_append, utf8_cons, hbytes, List.cons_append, Scan.next_eq_word hwhite]
  have hlead : Cursor.isDigit c.lead = true := by rw [CodePoint.isDigit_lead, hdigit]
  simp only [Cursor.word, hlead]
  rfl

end Text

open Text

/-- The scan of a text that begins at an offset. -/
def scanFrom (o : Nat) (t : Text) : Scan := Scan.onward ⟨o, t.utf8⟩

theorem scanFrom_nil (o : Nat) : scanFrom o [] = ⟨[], none, ⟨o, []⟩⟩ :=
  Scan.onward_of_end rfl

/-- At a word the scanner takes its token and goes on behind it. -/
theorem scanFrom_word {w t : Text} {tokens : Nat → List Token} (o : Nat)
    (hw : Word w tokens) (hseam : Seam w t) :
    scanFrom o (w ++ t) = (scanFrom (o + w.length) t).prepend (tokens o) := by
  cases hw with
  | @separator c hc =>
      have hwhite : Cursor.isWhitespace c.lead = true := by
        rw [CodePoint.isWhitespace_lead, hc]
      refine Scan.onward_congr ?_
      rw [utf8_append, utf8_eq_map_lead (t := [c]) (by
        simpa using CodePoint.not_foreign_of_separator hc)]
      exact Scan.next_whitespace hwhite
  | @sign c k hk =>
      have hwhite : Cursor.isWhitespace c.lead = false := by
        rw [CodePoint.isWhitespace_lead, CodePoint.not_separator_of_kind hk]
      have hdigit : Cursor.isDigit c.lead = false := by
        rw [CodePoint.isDigit_lead, CodePoint.not_digit_of_kind hk]
      refine Scan.onward_of_token ?_
      rw [utf8_append, utf8_eq_map_lead (t := [c]) (by
        simpa using CodePoint.not_foreign_of_kind hk)]
      exact (Scan.next_eq_word hwhite).trans
        (Scan.word_sign hdigit ((CodePoint.ofByte?_lead c).trans hk))
  | number hne hdigits hfits =>
      refine Scan.onward_of_token ((next_run o hne hdigits).trans ?_)
      show EStateM.map some Cursor.number _ = _
      rw [EStateM.map, number_run o hne hdigits hseam, if_pos hfits]

/-- At anything else the scanner stops. -/
theorem scanFrom_blocked {t : Text} {e : Nat → LexError} (o : Nat) (h : Blocked t e) :
    ∃ c, scanFrom o t = ⟨[], some (e o), c⟩ := by
  cases h with
  | @foreign c t hc =>
      refine ⟨⟨o, Text.utf8 (c :: t)⟩, Scan.onward_of_error ?_⟩
      have hwhite : Cursor.isWhitespace c.lead = false := by
        rw [CodePoint.isWhitespace_lead]
        simp only [CodePoint.isForeign, Bool.and_eq_true, Bool.not_eq_true'] at hc
        exact hc.1.1
      obtain ⟨bytes, hbytes⟩ := c.utf8_eq_lead_cons
      have hnext := @Scan.next_eq_word o c.lead (bytes ++ t.utf8) hwhite
      rw [← List.cons_append, ← hbytes] at hnext
      rw [utf8_cons]
      exact hnext.trans (Scan.word_foreign hc)
  | @overflow run t hne hdigits hseam hlarge =>
      refine ⟨⟨o + run.length, t.utf8⟩, Scan.onward_of_error ((next_run o hne hdigits).trans ?_)⟩
      show EStateM.map some Cursor.number _ = _
      rw [EStateM.map, number_run o hne hdigits hseam, if_neg (by omega)]

end ArithTree
