import ArithTree.Proofs.Places

/-!
# The next token from any offset

A cursor may be put at any offset of a source, and asked for the next token from
there. The cursor passes what is blank and looks at one byte. A byte that is a
digit begins a number, which goes on to the last of the digits, and a byte that is
a token by itself is one. Anything else stops the cursor, and it stays where it is.

The offset need not be one that a scan comes to. Behind it there may be the rest
of a run of digits, and this is then read as a number. There may be the rest of
the encoding of a code point. It begins with a byte that continues an encoding,
which is neither blank nor a digit nor a token; so the cursor stops there, and as
no code point begins there it has none to blame.

`NextFrom` says this by offsets and bytes, and by code points only where one is
blamed. What it says is all there is to say: it leaves no result out and allows no
two (`next_iff_nextFrom`).
-/

namespace ArithTree

open Text Cursor

/-- `j` is the first offset from `i` on that has no byte of the class. -/
structure FirstWithout (inClass : UInt8 → Bool) (bytes : List UInt8) (i j : Nat) : Prop where
  le : i ≤ j
  between : ∀ k, i ≤ k → k < j → ∃ b, bytes[k]? = some b ∧ inClass b = true
  stop : ∀ b, bytes[j]? = some b → inClass b = false

section

variable {inClass : UInt8 → Bool} {bytes : List UInt8} {i j j' : Nat}

theorem FirstWithout.not_lt (h : FirstWithout inClass bytes i j)
    (h' : FirstWithout inClass bytes i j') : ¬ j < j' := by
  intro hlt
  obtain ⟨b, hb, hclass⟩ := h'.between j h.le hlt
  rw [h.stop b hb] at hclass
  cases hclass

theorem FirstWithout.unique (h : FirstWithout inClass bytes i j)
    (h' : FirstWithout inClass bytes i j') : j = j' :=
  Nat.le_antisymm (Nat.not_lt.mp (h'.not_lt h)) (Nat.not_lt.mp (h.not_lt h'))

theorem firstWithout_of_drop {run rest : List UInt8} (hdrop : bytes.drop i = run ++ rest)
    (hrun : ∀ b ∈ run, inClass b = true) (hrest : ∀ b ∈ rest.head?, inClass b = false) :
    FirstWithout inClass bytes i (i + run.length) := by
  refine ⟨Nat.le_add_right _ _, fun k hik hk => ?_, fun b hb => ?_⟩
  · obtain ⟨n, rfl⟩ := Nat.exists_eq_add_of_le hik
    have hn : n < run.length := by omega
    refine ⟨run[n], ?_, hrun _ (List.getElem_mem hn)⟩
    rw [← List.getElem?_drop, hdrop, List.getElem?_append_left hn, List.getElem?_eq_getElem hn]
  · rw [← List.getElem?_drop, hdrop, List.getElem?_append_right (Nat.le_refl _), Nat.sub_self,
      ← List.head?_eq_getElem?] at hb
    exact hrest b hb

/-- There is always one, and passing the bytes of the class leads to it. -/
theorem firstWithout_takeWhile (inClass : UInt8 → Bool) (bytes : List UInt8) (i : Nat) :
    FirstWithout inClass bytes i (i + ((bytes.drop i).takeWhile inClass).length) := by
  refine firstWithout_of_drop List.takeWhile_append_dropWhile.symm
    (List.all_eq_true.mp List.all_takeWhile) fun b hb => ?_
  have hnot := List.head?_dropWhile_not inClass (bytes.drop i)
  rw [Option.mem_def.mp hb] at hnot
  simpa using hnot

theorem FirstWithout.length_eq (h : FirstWithout inClass bytes i j) :
    ((bytes.drop i).takeWhile inClass).length = j - i := by
  rw [h.unique (firstWithout_takeWhile inClass bytes i)]
  exact (Nat.add_sub_cancel_left _ _).symm

theorem FirstWithout.takeWhile_eq (h : FirstWithout inClass bytes i j) :
    (bytes.drop i).takeWhile inClass = (bytes.drop i).take (j - i) := by
  rw [← h.length_eq]
  exact List.prefix_iff_eq_take.mp (List.takeWhile_prefix inClass)

theorem FirstWithout.self (h : FirstWithout inClass bytes i j) :
    FirstWithout inClass bytes j j :=
  ⟨Nat.le_refl j, fun _ hle hlt => absurd hle (Nat.not_le.mpr hlt), h.stop⟩

theorem FirstWithout.le_max (h : FirstWithout inClass bytes i j) :
    j ≤ max i bytes.length := by
  by_contra hlt
  obtain ⟨b, hb, -⟩ := h.between (max i bytes.length) (by omega) (by omega)
  have hlength := (List.getElem?_eq_some_iff.mp hb).1
  omega

/-- Without a byte to stop at it is the end. -/
theorem FirstWithout.eq_max (h : FirstWithout inClass bytes i j) (hend : bytes[j]? = none) :
    j = max i bytes.length := by
  have hle := List.getElem?_eq_none_iff.mp hend
  have hij := h.le
  have hmax := h.le_max
  omega

end

namespace Text

/-- The cursor at an offset of a text. -/
def cursor (t : Text) (offset : Nat) : Cursor := .ofOffset t.utf8 offset

/-- The bytes from an offset up to another, as characters, for bytes that are
digits. -/
def charsBetween (t : Text) (i j : Nat) : List Char :=
  ((t.utf8.drop i).take (j - i)).map fun b => Char.ofNat b.toNat

end Text

/-- What asking for the next token at an offset comes to. In each case `q` is where
the first byte is that is not blank. -/
inductive NextFrom (source : Text) (p : Nat) :
    EStateM.Result LexError Cursor (Option Token) → Prop where
  | finished {q : Nat} (hq : FirstWithout isWhitespace source.utf8 p q)
      (hend : source.utf8[q]? = none) :
      NextFrom source p (.ok none (source.cursor (max p source.size)))
  | number {q r : Nat} {b : UInt8} (hq : FirstWithout isWhitespace source.utf8 p q)
      (hb : source.utf8[q]? = some b) (hdigit : isDigit b = true)
      (hr : FirstWithout isDigit source.utf8 q r)
      (hfits : Literal.value (source.charsBetween q r) < UInt64.size) :
      NextFrom source p
        (.ok (some { kind := .number, span := ⟨q, r⟩,
                     value := some (Literal.value (source.charsBetween q r)) })
          (source.cursor r))
  | overflow {q r : Nat} {b : UInt8} (hq : FirstWithout isWhitespace source.utf8 p q)
      (hb : source.utf8[q]? = some b) (hdigit : isDigit b = true)
      (hr : FirstWithout isDigit source.utf8 q r)
      (hlarge : UInt64.size ≤ Literal.value (source.charsBetween q r)) :
      NextFrom source p
        (.error (.overflow (String.ofList (source.charsBetween q r)) ⟨q, r⟩) (source.cursor r))
  | sign {q : Nat} {b : UInt8} {k : Token.Kind}
      (hq : FirstWithout isWhitespace source.utf8 p q) (hb : source.utf8[q]? = some b)
      (hk : Token.Kind.ofByte? b = some k) :
      NextFrom source p
        (.ok (some { kind := k, span := ⟨q, q + 1⟩ }) (source.cursor (q + 1)))
  | foreign {q : Nat} {before after : Text} {c : CodePoint}
      (hq : FirstWithout isWhitespace source.utf8 p q) (hsource : source = before ++ c :: after)
      (hsize : before.size = q) (hc : c.isForeign = true) :
      NextFrom source p (.error (.invalidChar c q) (source.cursor q))
  | split {q : Nat} {b : UInt8} (hq : FirstWithout isWhitespace source.utf8 p q)
      (hb : source.utf8[q]? = some b) (hcontinues : Utf8.isContinuation b = true) :
      NextFrom source p (.error (.splitChar q) (source.cursor q))

section

variable {source : Text} {p q r : Nat} {b : UInt8}

theorem cursor_skip (h : q ≤ r) : (source.cursor q).skip (r - q) = source.cursor r := by
  simp only [cursor, ofOffset, skip, List.drop_drop, Nat.add_sub_cancel' h]

theorem cursor_span (h : q ≤ r) : (source.cursor q).span (r - q) = ⟨q, r⟩ := by
  have hstop : (q : Int) + (r - q : Nat) = r := by omega
  exact congrArg (Span.mk q) hstop

theorem cursor_rest (hb : source.utf8[q]? = some b) :
    (source.cursor q).rest = b :: source.utf8.drop (q + 1) := by
  obtain ⟨hlt, rfl⟩ := List.getElem?_eq_some_iff.mp hb
  exact List.drop_eq_getElem_cons hlt

theorem next_eq_word (hq : FirstWithout isWhitespace source.utf8 p q) :
    Cursor.next (source.cursor p) = word (source.cursor q) := by
  show word ((source.cursor p).skip ((source.utf8.drop p).takeWhile isWhitespace).length) = _
  rw [hq.length_eq, cursor_skip hq.le]

theorem isDigit_ofNat (h : isDigit b = true) : (Char.ofNat b.toNat).isDigit = true := by
  have hbounds : 0x30 ≤ b.toNat ∧ b.toNat ≤ 0x39 := by
    simpa [isDigit, UInt8.le_iff_toNat_le] using h
  have hnat : (Char.ofNat b.toNat).toNat = b.toNat := by
    rw [Char.ofNat, dif_pos (Or.inl (by omega))]
    rfl
  rw [Char.isDigit_iff_toNat, hnat]
  exact hbounds

theorem number_eq (hr : FirstWithout isDigit source.utf8 q r) :
    number (source.cursor q) =
      if Literal.value (source.charsBetween q r) < UInt64.size then
        .ok { kind := .number, span := ⟨q, r⟩,
              value := some (Literal.value (source.charsBetween q r)) } (source.cursor r)
      else .error (.overflow (String.ofList (source.charsBetween q r)) ⟨q, r⟩)
        (source.cursor r) := by
  have hlexeme : ((source.utf8.drop q).takeWhile isDigit).map (fun b => Char.ofNat b.toNat) =
      source.charsBetween q r := by rw [hr.takeWhile_eq]; rfl
  have hread : Literal.read? (source.charsBetween q r) = _ := Literal.read?_eq fun c hc => by
    rw [← hlexeme] at hc
    obtain ⟨b, hb, rfl⟩ := List.mem_map.mp hc
    exact isDigit_ofNat (List.all_eq_true.mp List.all_takeWhile b hb)
  have hrest : (source.cursor q).rest = source.utf8.drop q := rfl
  simp only [number, hrest, hlexeme, hread, hr.length_eq, cursor_skip hr.le, cursor_span hr.le]
  by_cases hfits : Literal.value (source.charsBetween q r) < UInt64.size
  · simp only [if_pos hfits]
  · simp only [if_neg hfits]

theorem word_of_digits (hb : source.utf8[q]? = some b) (hdigit : isDigit b = true)
    (hr : FirstWithout isDigit source.utf8 q r) :
    word (source.cursor q) =
      if Literal.value (source.charsBetween q r) < UInt64.size then
        .ok (some { kind := .number, span := ⟨q, r⟩,
                    value := some (Literal.value (source.charsBetween q r)) })
          (source.cursor r)
      else .error (.overflow (String.ofList (source.charsBetween q r)) ⟨q, r⟩)
        (source.cursor r) := by
  simp only [word, cursor_rest hb, hdigit, if_true]
  show EStateM.map some number _ = _
  rw [EStateM.map, number_eq hr]
  by_cases hfits : Literal.value (source.charsBetween q r) < UInt64.size
  · simp only [if_pos hfits]
  · simp only [if_neg hfits]

theorem sign_ascii {k : Token.Kind} (hk : Token.Kind.ofByte? b = some k) :
    isDigit b = false ∧ b.toNat < 0x80 := by
  have hsigns : ∀ b' ∈ ([0x2B, 0x2D, 0x2A, 0x2F, 0x28, 0x29] : List UInt8),
      isDigit b' = false ∧ b'.toNat < 0x80 := by decide +kernel
  refine hsigns b ?_
  by_contra hnot
  simp only [List.mem_cons, List.not_mem_nil, or_false, not_or] at hnot
  simp [Token.Kind.ofByte?, hnot] at hk

theorem word_of_sign {k : Token.Kind} (hb : source.utf8[q]? = some b)
    (hk : Token.Kind.ofByte? b = some k) :
    word (source.cursor q) =
      .ok (some { kind := k, span := ⟨q, q + 1⟩ }) (source.cursor (q + 1)) := by
  have hskip : (source.cursor q).skip 1 = source.cursor (q + 1) := by
    simpa using @cursor_skip source q (q + 1) (Nat.le_add_right q 1)
  simp only [word, cursor_rest hb, (sign_ascii hk).1, Bool.false_eq_true, if_false, hk, hskip]
  rfl

theorem word_of_foreign {before after : Text} {c : CodePoint}
    (hsource : source = before ++ c :: after) (hsize : before.size = q)
    (hc : c.isForeign = true) :
    word (source.cursor q) = .error (.invalidChar c q) (source.cursor q) := by
  have hcursor : source.cursor q = ⟨q, c.utf8 ++ after.utf8⟩ := by
    rw [hsource, ← hsize, cursor, utf8_append, utf8_cons, ofOffset, size, List.drop_left]
  rw [hcursor]
  exact Scan.word_foreign hc

theorem firstChar?_of_continuation {bytes : List UInt8} (hb : Utf8.isContinuation b = true) :
    Utf8.firstChar? (b :: bytes) = none := by
  cases hfirst : Utf8.firstChar? (b :: bytes) with
  | none => rfl
  | some c =>
      obtain ⟨hlead, more, hutf8, -⟩ := c.utf8_parts
      have hpre := Utf8.firstChar?_eq_some_iff.mp hfirst
      rw [hutf8, List.cons_prefix_cons] at hpre
      rw [hpre.1, hb] at hlead
      cases hlead

theorem word_of_continuation (hb : source.utf8[q]? = some b)
    (hcontinues : Utf8.isContinuation b = true) :
    word (source.cursor q) = .error (.splitChar q) (source.cursor q) := by
  have hrange : 0x80 ≤ b.toNat := by
    simp only [Utf8.isContinuation, Bool.and_eq_true, decide_eq_true_eq] at hcontinues
    exact UInt8.le_iff_toNat_le.mp hcontinues.1
  have hdigit : isDigit b = false := by
    simp only [isDigit, Bool.and_eq_false_iff, decide_eq_false_iff_not, UInt8.le_iff_toNat_le]
    exact .inr (Nat.not_le.mpr (Nat.lt_of_lt_of_le (by decide) hrange))
  have hkind : Token.Kind.ofByte? b = none :=
    Option.eq_none_iff_forall_ne_some.mpr fun _ hk =>
      absurd hrange (Nat.not_le.mpr (sign_ascii hk).2)
  simp only [word, cursor_rest hb, hdigit, Bool.false_eq_true, if_false, hkind, invalidChar,
    firstChar?_of_continuation hcontinues, List.isEmpty_cons]
  rfl

end

namespace NextFrom

variable {source : Text} {p : Nat} {result : EStateM.Result LexError Cursor (Option Token)}

theorem next_eq (h : NextFrom source p result) : Cursor.next (source.cursor p) = result := by
  cases h with
  | @finished q hq hend =>
      have hrest : (source.cursor q).rest = [] :=
        List.drop_eq_nil_of_le (List.getElem?_eq_none_iff.mp hend)
      rw [next_eq_word hq, word, hrest, hq.eq_max hend]
      rfl
  | number hq hb hdigit hr hfits =>
      rw [next_eq_word hq, word_of_digits hb hdigit hr, if_pos hfits]
  | overflow hq hb hdigit hr hlarge =>
      rw [next_eq_word hq, word_of_digits hb hdigit hr, if_neg (Nat.not_lt.mpr hlarge)]
  | sign hq hb hk => rw [next_eq_word hq, word_of_sign hb hk]
  | foreign hq hsource hsize hc => rw [next_eq_word hq, word_of_foreign hsource hsize hc]
  | split hq hb hcontinues => rw [next_eq_word hq, word_of_continuation hb hcontinues]

/-- Where the cursor is stopped it is stopped again. -/
theorem again {e : LexError} {after : Cursor} (h : NextFrom source p (.error e after))
    (hoverflow : ∀ lexeme span, e ≠ .overflow lexeme span) :
    Cursor.next after = .error e after := by
  cases h with
  | overflow hq hb hdigit hr hlarge => exact absurd rfl (hoverflow _ _)
  | foreign hq hsource hsize hc => exact next_eq (.foreign hq.self hsource hsize hc)
  | split hq hb hcontinues => exact next_eq (.split hq.self hb hcontinues)

end NextFrom

/-- Past the lead of a code point of two bytes. -/
example : Cursor.next (cursor [.ofChar 'é', .ofChar '+'] 1) =
    .error (.splitChar 1) (cursor [.ofChar 'é', .ofChar '+'] 1) := rfl

end ArithTree
