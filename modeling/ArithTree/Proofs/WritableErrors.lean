import ArithTree.Proofs.Carets
import ArithTree.Proofs.TextParts

/-!
# Errors can be written

No terminal takes a surrogate, and a control character in a message could do
anything to one. A source may be full of both, and it gets into an error in two
ways: the line is shown, and a character is named in the message. In the line
U+FFFD stands for every surrogate, and in the message every code point that is
not printable is told by its number.

A `String` has no surrogates, however it is made, so that an error is a `String`
proves nothing. What has to be shown is that none was lost in making it. A
message is therefore told once more in code points, where a surrogate would
still be one, and the `String` turns out to be the same (`ofString_quoted`,
`SourceError.ofString_message`). A newline is a control character as well, so a
message is one line, and a rendered error is three.
-/

namespace ArithTree

open Text

namespace CodePoint

/-- What is shown of a code point. A surrogate cannot be. -/
def shown (c : CodePoint) : CodePoint := if c.isSurrogate then replacement else c

theorem shown_of_not_surrogate {c : CodePoint} (h : c.isSurrogate = false) : c.shown = c := by
  rw [shown, h]
  rfl

theorem ofChar_toChar (c : CodePoint) : ofChar c.toChar = c.shown := by
  cases h : c.isSurrogate with
  | true => simp only [toChar, shown, h, if_true]; rfl
  | false =>
      have hlt := c.val_lt
      have hvalid : c.val.isValidChar := by
        simp only [isSurrogate, Bool.and_eq_false_iff, decide_eq_false_iff_not] at h
        simp only [Nat.isValidChar]
        omega
      rw [shown_of_not_surrogate h, ext_iff, toChar, h, if_neg Bool.false_ne_true, Char.ofNat,
        dif_pos hvalid]
      rfl

end CodePoint

namespace Text

theorem ofString_append (s t : String) : ofString (s ++ t) = ofString s ++ ofString t := by
  rw [ofString, String.toList_append, List.map_append]
  rfl

theorem ofString_ofList (cs : List Char) : ofString (String.ofList cs) = cs.map .ofChar := by
  rw [ofString, String.toList_ofList]

theorem ofString_display (t : Text) : ofString t.display = t.map CodePoint.shown := by
  rw [display, ofString_ofList, List.map_map]
  exact List.map_congr_left fun c _ => c.ofChar_toChar

theorem not_surrogate_ofString (s : String) : ∀ c ∈ ofString s, c.isSurrogate = false := by
  intro c hc
  obtain ⟨a, -, rfl⟩ := List.mem_map.mp hc
  exact CodePoint.isSurrogate_ofChar a

end Text

def CodePoint.isControl (c : CodePoint) : Bool := c.val < 0x20 || c.val == 0x7F

/-- No control character is in the text. -/
def Text.Steady (t : Text) : Prop := ∀ c ∈ t, c.isControl = false

instance (t : Text) : Decidable t.Steady := inferInstanceAs (Decidable (∀ c ∈ t, _))

namespace Text

theorem Steady.append {s t : Text} (hs : Steady s) (ht : Steady t) : Steady (s ++ t) :=
  fun c hc => (List.mem_append.mp hc).elim (hs c) (ht c)

/-- Strings put together of steady ones. -/
theorem Steady.ofString_append {s t : String} (hs : Steady (ofString s))
    (ht : Steady (ofString t)) : Steady (ofString (s ++ t)) := by
  rw [Text.ofString_append]
  exact hs.append ht

/-- A newline is a control character. -/
theorem Steady.newline_not_mem {t : Text} (h : Steady t) : CodePoint.newline ∉ t :=
  fun hmem => absurd (h _ hmem) (by decide)

theorem steady_of_digits {s : String} (h : ∀ a ∈ s.toList, a.isDigit = true) :
    Steady (ofString s) := by
  intro c hc
  obtain ⟨a, ha, rfl⟩ := List.mem_map.mp hc
  have hdigit := Char.isDigit_iff_toNat.mp (h a ha)
  have hval : (CodePoint.ofChar a).val = a.toNat := rfl
  have hzero : '0'.toNat = 0x30 := rfl
  have hnine : '9'.toNat = 0x39 := rfl
  simp only [CodePoint.isControl, hval, Bool.or_eq_false_iff, decide_eq_false_iff_not,
    beq_eq_false_iff_ne]
  omega

theorem steady_nat (n : Nat) : Steady (ofString (toString n)) :=
  steady_of_digits fun _ => isDigit_of_mem_repr

theorem steady_int (n : Int) : Steady (ofString (toString n)) := by
  rw [Int.toString_eq_repr, Int.repr_eq_if]
  split
  · exact steady_nat _
  · exact Steady.ofString_append (by decide) (steady_nat _)

end Text

/-! ## Quoted text -/

namespace CodePoint

theorem not_printable {range : Nat × Nat} {c : CodePoint} (hmem : range ∈ unprintable)
    (hle : range.1 ≤ c.val) (hge : c.val ≤ range.2) : c.isPrintable = false := by
  rw [isPrintable, Bool.not_eq_false', List.any_eq_true]
  exact ⟨range, hmem, by simp [hle, hge]⟩

theorem not_printable_of_surrogate {c : CodePoint} (h : c.isSurrogate = true) :
    c.isPrintable = false := by
  simp only [isSurrogate, Bool.and_eq_true, decide_eq_true_eq] at h
  have hmem : (0xD7FC, 0xF8FF) ∈ unprintable := by decide +kernel
  exact not_printable hmem (by show 0xD7FC ≤ _; omega) (by show _ ≤ 0xF8FF; omega)

theorem not_printable_of_control {c : CodePoint} (h : c.isControl = true) :
    c.isPrintable = false := by
  simp only [isControl, Bool.or_eq_true, decide_eq_true_eq, beq_iff_eq] at h
  have hlow : (0x0, 0x1F) ∈ unprintable := by decide +kernel
  have hdelete : (0x7F, 0xA0) ∈ unprintable := by decide +kernel
  rcases h with h | h
  · exact not_printable hlow (Nat.zero_le _) (by show _ ≤ 0x1F; omega)
  · exact not_printable hdelete (by show 0x7F ≤ _; omega) (by show _ ≤ 0xA0; omega)

theorem not_surrogate_of_printable {c : CodePoint} (h : c.isPrintable = true) :
    c.isSurrogate = false := by
  by_contra hnot
  rw [not_printable_of_surrogate (by simpa using hnot)] at h
  cases h

theorem not_control_of_printable {c : CodePoint} (h : c.isPrintable = true) :
    c.isControl = false := by
  by_contra hnot
  rw [not_printable_of_control (by simpa using hnot)] at h
  cases h

/-- Whether a code point stands for itself inside quotes. -/
def standsAlone (quote : Char) (c : CodePoint) : Bool :=
  c.isPrintable && c ≠ ofChar quote && c ≠ ofChar '\\'

/-- One code point inside quotes. Where it stands for itself nothing is done to
it, so that a surrogate would stay one. -/
def escapedText (quote : Char) (c : CodePoint) : Text :=
  if c.standsAlone quote then [c] else (c.escaped quote).map ofChar

theorem escaped_of_standsAlone {quote : Char} {c : CodePoint} (h : c.standsAlone quote = true) :
    c.escaped quote = [c.toChar] := by
  simp only [standsAlone, Bool.and_eq_true, decide_eq_true_eq] at h
  obtain ⟨⟨hprintable, hquote⟩, hbackslash⟩ := h
  have hne : ∀ a : Char, (ofChar a).isPrintable = false → c ≠ ofChar a := by
    rintro a ha rfl
    rw [ha] at hprintable
    cases hprintable
  rw [escaped, if_neg (by simp [hquote, hbackslash]), if_neg (hne '\t' (by decide +kernel)),
    if_neg (hne '\n' (by decide +kernel)), if_neg (hne '\r' (by decide +kernel)),
    if_pos hprintable]

theorem map_escaped (quote : Char) (c : CodePoint) :
    (c.escaped quote).map ofChar = c.escapedText quote := by
  rw [escapedText]
  split
  · rename_i halone
    have hprintable : c.isPrintable = true := by
      simp only [standsAlone, Bool.and_eq_true] at halone
      exact halone.1.1
    rw [escaped_of_standsAlone halone, List.map_singleton, ofChar_toChar,
      shown_of_not_surrogate (not_surrogate_of_printable hprintable)]
  · rfl

theorem steady_digits (n : Nat) : Steady ((Nat.toDigits 16 n).map ofChar) := by
  have hdigit : ∀ d : Fin 16, Steady [ofChar (Nat.digitChar d)] := by decide
  induction n using Nat.strongRecOn with
  | ind n ih =>
      rw [Nat.toDigits_eq_if (by decide)]
      split
      · rename_i hlt
        exact hdigit ⟨n, hlt⟩
      · rw [List.map_append]
        exact (ih _ (by omega)).append (hdigit ⟨n % 16, by omega⟩)

theorem steady_hexadecimal (width n : Nat) : Steady ((hexadecimal width n).map ofChar) := by
  have hzeros : ∀ k, Steady ((List.replicate k '0').map ofChar) := by
    intro k c hc
    rw [List.map_replicate] at hc
    rw [List.eq_of_mem_replicate hc]
    decide
  rw [hexadecimal, List.map_append]
  exact (hzeros _).append (steady_digits n)

/-- Between steady quotes everything is steady. -/
theorem steady_escapedText {quote : Char} (hquote : Steady [ofChar quote]) (c : CodePoint) :
    Steady (c.escapedText quote) := by
  have hself : c.isControl = false → Steady [ofChar c.toChar] := by
    intro h d hd
    obtain rfl := List.mem_singleton.mp hd
    rw [ofChar_toChar, shown]
    split
    · rfl
    · exact h
  have hnumber : ∀ (a : Char) (width : Nat), Steady [ofChar '\\', ofChar a] →
      Steady (('\\' :: a :: hexadecimal width c.val).map ofChar) := fun a width ha =>
    ha.append (steady_hexadecimal width c.val)
  rw [← map_escaped, escaped]
  split_ifs with hmarked htab hnewline hreturn hprintable hbyte hshort
  · have hcontrol : c.isControl = false := by
      rcases hmarked with rfl | rfl
      · exact hquote _ List.mem_cons_self
      · decide
    exact Steady.append (s := [ofChar '\\']) (by decide) (hself hcontrol)
  · decide
  · decide
  · decide
  · exact hself (not_control_of_printable hprintable)
  · exact hnumber 'x' 2 (by decide)
  · exact hnumber 'u' 4 (by decide)
  · exact hnumber 'U' 8 (by decide)

end CodePoint

namespace Text

/-- Quoted text, code point by code point. -/
def quotedText (t : Text) : Text :=
  .ofChar t.quote :: t.flatMap (CodePoint.escapedText t.quote) ++ [.ofChar t.quote]

/-- Quoting loses nothing: no code point is replaced. -/
theorem ofString_quoted (t : Text) : ofString t.quoted = t.quotedText := by
  rw [quoted, ofString_ofList, quotedText, List.map_append, List.map_cons, List.map_flatMap]
  simp only [CodePoint.map_escaped]
  rfl

example : Text.quoted [⟨0xD83D, by decide⟩, .ofChar '\n', .ofChar '\x27'] =
    "\"\\ud83d\\n'\"" := by
  decide +kernel

theorem steady_quoted (t : Text) : Steady (ofString t.quoted) := by
  have hquote : Steady [.ofChar t.quote] := by
    rw [quote]
    split <;> decide
  rw [ofString_quoted, quotedText]
  refine (Steady.append hquote fun c hc => ?_).append hquote
  obtain ⟨d, -, hc⟩ := List.mem_flatMap.mp hc
  exact CodePoint.steady_escapedText hquote d c hc

end Text

theorem Token.steady_lexeme (t : Token) : Steady (ofString t.lexeme) := by
  rw [lexeme]
  split
  · cases t.value with
    | none => decide
    | some n => exact steady_int n
  all_goals decide

theorem Token.steady_describe (t : Token) : Steady (ofString t.describe) := by
  rw [describe]
  split
  · exact Steady.ofString_append (by decide) t.steady_lexeme
  · exact Steady.ofString_append
      (Steady.ofString_append (by decide) t.steady_lexeme) (by decide)

theorem steady_of_parseError (e : ParseError) :
    Steady (ofString (Diagnostic.ofParseError e).message) := by
  cases e with
  | notExpression t | notOperator t | redundant t =>
      exact Steady.ofString_append (by decide) t.steady_describe
  | tooDeep t =>
      exact Steady.ofString_append
        (Steady.ofString_append (by decide) (steady_int nestingLimit)) (by decide)
  | unclosed t | unexpectedEnd span =>
      show Steady (ofString (Diagnostic.Syntactic.text _))
      decide

theorem steady_invalidChar (char : Text) (span? : Option Span) :
    Steady (ofString (Diagnostic.invalidChar char span?).message) :=
  Steady.ofString_append (by decide) char.steady_quoted

/-- An overflow tells the digits as they are in the source, and they are steady
because nothing but digits is told so. -/
theorem Offends.steady_message {o : Nat} {source : Text} {e : LexError} {span : Span}
    (h : Offends o source e span) : Steady (ofString (Diagnostic.ofLexError e).message) := by
  cases h with
  | foreign ht hc => exact steady_invalidChar _ _
  | @overflow before run after ht hrun hlarge =>
      have hlexeme : Steady (ofString run.display) := steady_of_digits fun a ha =>
        isDigit_toChar hrun.digits a (by rwa [display, String.toList_ofList] at ha)
      exact Steady.ofString_append (Steady.ofString_append (by decide) hlexeme) (by decide)

namespace Text

theorem newline_not_mem_of_mem_splitLines {t line : Text} (h : line ∈ t.splitLines) :
    CodePoint.newline ∉ line := by
  induction t generalizing line with
  | nil =>
      obtain rfl := List.mem_singleton.mp h
      exact List.not_mem_nil
  | cons c t ih =>
      by_cases hc : c = .newline
      · rw [hc, splitLines_newline] at h
        rcases List.mem_cons.mp h with rfl | h
        · exact List.not_mem_nil
        · exact ih h
      · rw [splitLines_cons hc, splitLines_eq_cons] at h
        rcases List.mem_cons.mp h with rfl | h
        · rw [List.mem_cons, not_or]
          exact ⟨Ne.symm hc, ih (splitLines_eq_cons t ▸ List.mem_cons_self)⟩
        · exact ih (List.mem_of_mem_tail h)

/-- What is shown of a line is one line. -/
theorem newline_not_mem_shown {line : Text} (h : CodePoint.newline ∉ line) :
    CodePoint.newline ∉ line.map CodePoint.shown := by
  intro hmem
  obtain ⟨c, hc, hshown⟩ := List.mem_map.mp hmem
  rw [CodePoint.shown] at hshown
  split at hshown
  · cases hshown
  · exact h (hshown ▸ hc)

theorem ofString_joined (ls : List String) :
    ofString ("\n".intercalate ls) = List.intercalate [.newline] (ls.map ofString) := by
  induction ls with
  | nil => rfl
  | cons l ls ih =>
      cases ls with
      | nil =>
          rw [String.intercalate_singleton]
          exact (List.intercalate_singleton ..).symm
      | cons l' ls =>
          rw [String.intercalate_cons_cons, ofString_append, ofString_append, ih]
          exact List.intercalate_cons_cons.symm

theorem splitLines_joined {ls : List String} (h : ∀ l ∈ ls, CodePoint.newline ∉ ofString l)
    (hne : ls ≠ []) : (ofString ("\n".intercalate ls)).splitLines = ls.map ofString := by
  rw [ofString_joined, splitLines, List.splitOn_intercalate _ _ (by simpa using hne)]
  intro l hl
  obtain ⟨s, hs, rfl⟩ := List.mem_map.mp hl
  exact h s hs

/-- Bright red, code point by code point. -/
def bright (t : Text) : Text := ofString "\x1b[31m\x1b[1m" ++ t ++ ofString "\x1b[0m"

theorem ofString_bright (s : String) :
    ofString ("\x1b[31m\x1b[1m" ++ s ++ "\x1b[0m") = (ofString s).bright := by
  rw [ofString_append, ofString_append]
  rfl

theorem newline_not_mem_bright {t : Text} (h : CodePoint.newline ∉ t) :
    CodePoint.newline ∉ t.bright := by
  rw [bright, List.mem_append, List.mem_append, not_or, not_or]
  exact ⟨⟨by decide, h⟩, by decide⟩

/-- The line of a text on which an index is, as it is shown. -/
def shownLine (t : Text) (index : Int) : Text :=
  (t.splitLines[(Location.of t.utf8 index).line - 1]?.getD []).map CodePoint.shown

def caretLine (column n : Nat) : Text :=
  List.replicate column (.ofChar ' ') ++ bright (List.replicate n (.ofChar '^'))

theorem ofString_carets (column n : Nat) :
    ofString (String.ofList (List.replicate column ' ') ++
      ("\x1b[31m\x1b[1m" ++ String.ofList (List.replicate n '^') ++ "\x1b[0m")) =
      caretLine column n := by
  rw [ofString_append, ofString_bright, ofString_ofList, ofString_ofList, List.map_replicate,
    List.map_replicate]
  rfl

theorem newline_not_mem_caretLine (column n : Nat) :
    CodePoint.newline ∉ caretLine column n := by
  have hrow : ∀ (k : Nat) {c : CodePoint}, CodePoint.newline ≠ c →
      CodePoint.newline ∉ List.replicate k c := fun k c hc hmem =>
    hc (List.eq_of_mem_replicate hmem)
  rw [caretLine, List.mem_append, not_or]
  exact ⟨hrow column (by decide), newline_not_mem_bright (hrow n (by decide))⟩

/-- A message about a text, behind the place that it is about. -/
def located (t : Text) (index : Int) (message : Text) : Text :=
  let place := Location.of t.utf8 index
  ofString ("[line " ++ toString place.line ++ ", col " ++ toString place.column ++ "] ") ++
    message

theorem Steady.located {message : Text} (h : Steady message) (t : Text) (index : Int) :
    Steady (located t index message) :=
  Steady.append (Steady.ofString_append (Steady.ofString_append (Steady.ofString_append
    (Steady.ofString_append (by decide) (steady_nat _)) (by decide)) (steady_nat _))
    (by decide)) h

end Text

namespace Diagnostic

/-- The rendered diagnostic is a line to show, a line of carets and what is told
in bright red. All of it can be written, and what is told does nothing but show. -/
structure PrintedAs (d : Diagnostic) (line carets told : Text) : Prop where
  lines : (ofString d.render).splitLines = [line, carets, told.bright]
  writable : ∀ c ∈ line ++ carets ++ told.bright, c.isSurrogate = false
  steady : told.Steady

/-- A diagnostic with a source and a span is printed so, if its message is
steady. -/
theorem printedAs {d : Diagnostic} {source : Text} {span : Span}
    (hsource : d.source? = some source) (hspan : d.span? = some span)
    (hsteady : Steady (ofString d.message)) :
    ∃ column n, 1 ≤ n ∧ d.PrintedAs (source.shownLine span.start) (caretLine column n)
      (source.located span.start (ofString d.message)) := by
  obtain ⟨n, row, column, line, hlocation, hline, hrender, hn, -⟩ := exists_marks hsource hspan
  have htext : ofString d.text = source.located span.start (ofString d.message) := by
    simp only [text, location?, hspan, hsource, located]
    exact Text.ofString_append _ _
  have hshown : ofString line.display = source.shownLine span.start := by
    rw [ofString_display, shownLine, hlocation, Nat.add_sub_cancel, hline, Option.getD_some]
  have htold := hsteady.located source span.start
  refine ⟨column, n, hn, ?_, ?_, htold⟩
  · rw [hrender, splitLines_joined ?_ (List.cons_ne_nil _ _), List.map_cons, List.map_cons,
      List.map_singleton, hshown, ofString_carets, ofString_bright, htext]
    simp only [List.forall_mem_cons]
    refine ⟨?_, ?_, ?_, nofun⟩
    · rw [ofString_display]
      exact newline_not_mem_shown (newline_not_mem_of_mem_splitLines (List.mem_of_getElem? hline))
    · rw [ofString_carets]
      exact newline_not_mem_caretLine column n
    · rw [ofString_bright, htext]
      exact newline_not_mem_bright htold.newline_not_mem
  · rw [← hshown, ← ofString_carets, ← htext, ← ofString_bright, ← Text.ofString_append,
      ← Text.ofString_append]
    exact not_surrogate_ofString _

end Diagnostic

/-- The message of an error, code point by code point. Of a source it tells a
character that belongs to no token, or digits. -/
def SourceError.told : SourceError → Text
  | .lexical (.invalidChar c _) => ofString "invalid character " ++ quotedText [c]
  | .lexical e => ofString (Diagnostic.ofLexError e).message
  | .syntactic e => ofString (Diagnostic.ofParseError e).message

theorem ofString_invalidChar (char : Text) (span? : Option Span) :
    ofString (Diagnostic.invalidChar char span?).message =
      ofString "invalid character " ++ char.quotedText := by
  rw [← ofString_quoted]
  exact Text.ofString_append _ _

theorem SourceError.ofString_message (e : SourceError) (source : Text) :
    ofString (e.diagnostic source).message = e.told := by
  cases e with
  | syntactic e => rfl
  | lexical e =>
      cases e with
      | invalidChar c offset => exact ofString_invalidChar [c] (some ⟨offset, offset + 1⟩)
      | overflow | unexpectedEnd | splitChar | noChar => rfl

/-- An error that a source ends with has a span, and its message is steady. -/
theorem SourceError.steady {source : Text} {e : SourceError}
    (h : parseSource source = .error e) :
    ∃ span, (e.diagnostic source).span? = some span ∧
      Steady (ofString (e.diagnostic source).message) := by
  have hstages := stages_of_parseSource source
  rw [h] at hstages
  cases e with
  | lexical e =>
      obtain ⟨span, hoffends, -⟩ := first_of_lex hstages
      exact ⟨span, hoffends.span, hoffends.steady_message⟩
  | syntactic e =>
      obtain ⟨tokens, hlex, hparse⟩ := hstages
      obtain ⟨span, -, hspan, -⟩ := spot_of_parse hlex hparse
      exact ⟨span, hspan, steady_of_parseError e⟩

/-- Every error that a source ends with can be printed: the line it is on, the
carets and the message. So can what is told of any character, in any source and
with any span. -/
theorem errors_printed :
    (∀ (source : Text) (e : SourceError), parseSource source = .error e →
      ∃ span column n, (e.diagnostic source).span? = some span ∧ 1 ≤ n ∧
        (e.diagnostic source).PrintedAs (source.shownLine span.start) (caretLine column n)
          (source.located span.start e.told)) ∧
    ∀ (char source : Text) (span : Span), ∃ column n, 1 ≤ n ∧
      ((Diagnostic.invalidChar char (some span)).about source).PrintedAs
        (source.shownLine span.start) (caretLine column n)
        (source.located span.start (ofString "invalid character " ++ char.quotedText)) := by
  refine ⟨fun source e herror => ?_, fun char source span => ?_⟩
  · obtain ⟨span, hspan, hsteady⟩ := SourceError.steady herror
    obtain ⟨column, n, hn, hprinted⟩ :=
      Diagnostic.printedAs (source?_diagnostic e source) hspan hsteady
    rw [e.ofString_message source] at hprinted
    exact ⟨span, column, n, hspan, hn, hprinted⟩
  · rw [← ofString_invalidChar char (some span)]
    exact Diagnostic.printedAs rfl rfl (steady_invalidChar char (some span))

end ArithTree
