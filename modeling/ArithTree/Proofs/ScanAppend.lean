import ArithTree.Proofs.Relabelling
import ArithTree.Proofs.ScanListing

/-!
# Scanning a text in pieces

Where no run of digits goes over from one text to the next, scanning the two
together finds what is in the first and then, if nothing is wrong there, what
is in the second at the offset where it now begins. And what is in a text does
not depend on where it begins but for the offsets, which all move along.

Both are the same induction over words. The second is stated for any change of
offsets that moves a stretch of them by one distance, so that it can be said of
a stretch that stays where it is as well as of one that is moved. The cursor a
scan ends with is left out: it holds the bytes that follow, and those differ.
-/

namespace ArithTree

open Text

/-- What scanning from an offset finds: the tokens, and the error if one ends
it early. -/
def findings (o : Nat) (t : Text) : List Token × Option LexError :=
  ((scanFrom o t).tokens, (scanFrom o t).error?)

theorem findings_nil (o : Nat) : findings o [] = ([], none) := by
  rw [findings, scanFrom_nil]

theorem findings_word {w t : Text} {tokens : Nat → List Token} (o : Nat)
    (hw : Word w tokens) (hseam : Seam w t) :
    findings o (w ++ t) =
      (tokens o ++ (findings (o + w.size) t).1, (findings (o + w.size) t).2) := by
  rw [findings, scanFrom_word o hw hseam, ← size_eq_length hw.clean.allowed]
  rfl

theorem findings_blocked {t : Text} {e : Nat → LexError} (o : Nat) (h : Blocked t e) :
    findings o t = ([], some (e o)) := by
  obtain ⟨c, hscan⟩ := scanFrom_blocked o h
  rw [findings, hscan]

theorem lex_eq_findings (source : Text) :
    lex source = match findings 0 source with
      | (_, some e) => .error e
      | (tokens, none) => .ok tokens := by
  rw [lex_eq, findings]
  cases (scanFrom 0 source).error? <;> rfl

theorem Text.Seam.append {w t b : Text} (h : Seam w t) (hb : Seam (w ++ t) b) :
    Seam w (t ++ b) := by
  by_cases ht : t = []
  · subst ht
    rw [List.append_nil] at hb
    exact hb
  · exact (seam_append_right ht).mpr h

theorem Text.Blocked.append {a b : Text} {e : Nat → LexError} (h : Blocked a e)
    (hseam : Seam a b) : Blocked (a ++ b) e := by
  cases h with
  | foreign hc => exact .foreign hc
  | @overflow run t hne hdigits hright hlarge =>
      rw [List.append_assoc]
      exact .overflow hne hdigits (hright.append hseam) hlarge

theorem findings_append (a b : Text) :
    ∀ o, Seam a b → findings o (a ++ b) =
      match findings o a with
      | (tokens, some e) => (tokens, some e)
      | (tokens, none) =>
        (tokens ++ (findings (o + a.size) b).1, (findings (o + a.size) b).2) := by
  induction a using Text.words with
  | nil =>
      intro o _
      rw [findings_nil]
      rfl
  | @word w t tokens hw hseam ih =>
      intro o hb
      rw [List.append_assoc, findings_word o hw (hseam.append hb), findings_word o hw hseam,
        ih (o + w.size) hb.of_append_left, size_append, Nat.add_assoc]
      cases findings (o + w.size) t with
      | mk found error? =>
          cases error? with
          | none => simp only [List.append_assoc]
          | some e => rfl
  | blocked hblocked =>
      intro o hb
      rw [findings_blocked o (hblocked.append hb), findings_blocked o hblocked]

theorem seam_separators {a b w : Text} (hseam : Seam a b)
    (hw : ∀ c ∈ w, c.isSeparator = true) : Seam a (w ++ b) := by
  cases w with
  | nil => exact hseam
  | cons c w =>
      refine seam_of_head fun d hd => ?_
      cases hd
      exact CodePoint.not_digit_of_separator (hw c List.mem_cons_self)

/-- Separators give no tokens, and what is behind them begins later. -/
theorem findings_separators {w : Text} (b : Text) :
    ∀ o, (∀ c ∈ w, c.isSeparator = true) → findings o (w ++ b) = findings (o + w.length) b := by
  induction w with
  | nil => exact fun _ _ => rfl
  | cons c w ih =>
      intro o hw
      have hc := hw c List.mem_cons_self
      have hseam : Seam [c] (w ++ b) :=
        seam_of_not_digit (CodePoint.not_digit_of_separator hc)
      have hsize : size [c] = 1 := size_eq_length (by
        simpa using CodePoint.not_foreign_of_separator hc)
      have hword := findings_word o (.separator hc) hseam
      rw [hsize, List.nil_append, ih (o + 1) fun d hd => hw d (List.mem_cons_of_mem c hd),
        Nat.add_assoc, Nat.add_comm 1] at hword
      exact hword

namespace Relabelling

/-- The error at its other place. -/
def lexError (r : Relabelling) : LexError → LexError
  | .invalidChar char offset => .invalidChar char (r.start offset).toNat
  | .overflow lexeme span => .overflow lexeme (r.span span)
  | .unexpectedEnd offset => .unexpectedEnd (r.start offset).toNat
  | .splitChar offset => .splitChar (r.start offset).toNat
  | .noChar offset => .noChar (r.start offset).toNat

/-- The offsets of a stretch move on by `n`, and values stay. -/
structure Moves (r : Relabelling) (n low high : Nat) : Prop where
  start : ∀ i : Nat, low ≤ i → i < high → r.start i = i + n
  stop : ∀ i : Nat, low < i → i ≤ high → r.stop i = i + n
  value : ∀ k v, r.value k v = v

variable {r : Relabelling} {n low high : Nat}

theorem Moves.span (h : r.Moves n low high) {o m : Nat} (hlow : low ≤ o)
    (hhigh : o + m ≤ high) (hm : 0 < m) :
    r.span ⟨o, o + m⟩ = ⟨(o + n : Nat), (o + n : Nat) + m⟩ := by
  have hstart := h.start o hlow (by omega)
  have hstop := h.stop (o + m) (by omega) hhigh
  rw [Relabelling.span, Span.mk.injEq]
  push_cast at hstop ⊢
  exact ⟨hstart, by rw [hstop]; omega⟩

theorem Moves.word (h : r.Moves n low high) {w : Text} {tokens : Nat → List Token}
    (hw : Word w tokens) {o : Nat} (hlow : low ≤ o) (hhigh : o + w.size ≤ high) :
    tokens (o + n) = (tokens o).map r.token := by
  rw [size_eq_length hw.clean.allowed] at hhigh
  cases hw with
  | separator => rfl
  | sign hk =>
      have hspan := h.span hlow hhigh Nat.one_pos
      rw [List.map_singleton, Relabelling.token, h.value]
      exact congrArg (fun s => [Token.mk _ s none]) hspan.symm
  | number hne hdigits hfits =>
      have hspan := h.span hlow hhigh (List.length_pos_iff.mpr hne)
      rw [List.map_singleton, Relabelling.token, h.value]
      exact congrArg (fun s => [Token.mk _ s _]) hspan.symm

theorem Moves.blocked (h : r.Moves n low high) {t : Text} {e : Nat → LexError}
    (ht : Blocked t e) {o : Nat} (hlow : low ≤ o) (hhigh : o + t.size ≤ high) :
    e (o + n) = r.lexError (e o) := by
  cases ht with
  | @foreign c t hc =>
      have hpos := size_pos (List.cons_ne_nil c t)
      have hstart := h.start o hlow (by omega)
      rw [lexError, hstart]
      congr 1
  | @overflow run t hne hdigits hseam hlarge =>
      have hsize : run.size = run.length := size_eq_length fun c hc =>
        CodePoint.not_foreign_of_digit (hdigits c hc)
      rw [size_append, hsize] at hhigh
      rw [lexError, h.span hlow (by omega) (List.length_pos_iff.mpr hne)]

/-- A text that begins further on gives the same, further on. -/
theorem Moves.findings (h : r.Moves n low high) (t : Text) :
    ∀ o, low ≤ o → o + t.size ≤ high →
      findings (o + n) t =
        ((findings o t).1.map r.token, (findings o t).2.map r.lexError) := by
  induction t using Text.words with
  | nil =>
      intro o _ _
      rw [findings_nil, findings_nil]
      rfl
  | @word w t tokens hw hseam ih =>
      intro o hlow hhigh
      rw [size_append] at hhigh
      have hrest := ih (o + w.size) (by omega) (by omega)
      rw [findings_word _ hw hseam, findings_word _ hw hseam, Nat.add_right_comm, hrest,
        h.word hw hlow (by omega), List.map_append]
  | blocked hblocked =>
      intro o hlow hhigh
      rw [findings_blocked _ hblocked, findings_blocked _ hblocked,
        h.blocked hblocked hlow hhigh]
      rfl

/-- All offsets moved on by `n`. -/
def shift (n : Nat) : Relabelling where
  start i := i + n
  stop i := i + n
  value _ v := v
  start_mono h := Int.add_le_add_right h _
  stop_mono h := Int.add_le_add_right h _

theorem shift_moves (n low high : Nat) : (shift n).Moves n low high where
  start _ _ _ := rfl
  stop _ _ _ := rfl
  value _ _ := rfl

/-- The error of a text that begins further on is told as before, of a span that
is further on. -/
theorem ofLexError_shift (n : Nat) (e : LexError) :
    Diagnostic.ofLexError ((shift n).lexError e) =
      { Diagnostic.ofLexError e with
        span? := (Diagnostic.ofLexError e).span?.map (shift n).span } := by
  have hoffset (offset : Nat) : (((shift n).start offset).toNat : Int) = offset + n := by
    show (((offset : Int) + n).toNat : Int) = _
    omega
  cases e with
  | invalidChar char offset =>
      have hspan : (⟨offset + n, offset + n + 1⟩ : Span) = (shift n).span ⟨offset, offset + 1⟩ :=
        congrArg (Span.mk _) (Int.add_right_comm _ _ _)
      simp only [lexError, Diagnostic.ofLexError, Diagnostic.invalidChar, hoffset, hspan]
      rfl
  | overflow lexeme span => rfl
  | unexpectedEnd offset | splitChar offset | noChar offset =>
      simp only [lexError, Diagnostic.ofLexError, hoffset]
      rfl

end Relabelling

open Relabelling

theorem findings_shift (b : Text) (o : Nat) :
    findings o b =
      ((findings 0 b).1.map (shift o).token, (findings 0 b).2.map (shift o).lexError) := by
  have hmoved := (shift_moves o 0 (0 + b.size)).findings b 0 (Nat.le_refl 0) (Nat.le_refl _)
  rwa [Nat.zero_add] at hmoved

/-- Where no run of digits goes over, two texts together are scanned as the first
and then, if that can be scanned, the second. What is found in the second is moved
on by the size of the first, and an error is told in the same words. -/
theorem lex_append {a b : Text} (hseam : Seam a b) :
    match lex a, lex b with
    | .ok ts, .ok us => lex (a ++ b) = .ok (ts ++ us.map (shift a.size).token)
    | .error e, _ => lex (a ++ b) = .error e
    | .ok _, .error e =>
      lex (a ++ b) = .error ((shift a.size).lexError e) ∧
        Diagnostic.ofLexError ((shift a.size).lexError e) =
          { Diagnostic.ofLexError e with
            span? := (Diagnostic.ofLexError e).span?.map (shift a.size).span } := by
  have hjoined := findings_append a b 0 hseam
  rw [Nat.zero_add, findings_shift b a.size] at hjoined
  rw [lex_eq_findings (a ++ b), lex_eq_findings a, lex_eq_findings b, hjoined]
  cases findings 0 a with
  | mk ts first? =>
      cases findings 0 b with
      | mk us second? =>
          cases first? with
          | some e => cases second? <;> rfl
          | none =>
              cases second? with
              | some e => exact ⟨rfl, ofLexError_shift a.size e⟩
              | none => rfl

/-- The space before the `3` keeps the digits apart. -/
theorem lex_append_of_space :
    Seam (ofString "12 ") (ofString "3*é") ∧
      lex (ofString "3*é") = .error (.invalidChar (.ofChar 'é') 2) ∧
      lex (ofString "12 " ++ ofString "3*é") = .error (.invalidChar (.ofChar 'é') 5) := by
  have hseam : Seam (ofString "12 ") (ofString "3*é") := by
    unfold Seam
    decide
  have hfirst : lex (ofString "12 ") = .ok [⟨.number, ⟨0, 2⟩, some 12⟩] := by
    with_unfolding_all rfl
  have hsecond : lex (ofString "3*é") = .error (.invalidChar (.ofChar 'é') 2) := by
    with_unfolding_all rfl
  have hjoined := lex_append hseam
  rw [hfirst, hsecond] at hjoined
  exact ⟨hseam, hsecond, hjoined.1⟩

end ArithTree
