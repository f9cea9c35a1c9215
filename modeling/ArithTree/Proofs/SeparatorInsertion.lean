import ArithTree.Proofs.ScanAppend
import ArithTree.Source

/-!
# Separators make no difference

Put into a source at any place where they break no run of digits, separators
change nothing but offsets. The tree is the same tree and the error the same
error, about the same token or character, and their spans are those of the
source without the separators, moved on by as much as was put in.

At the place itself a start and a stop part ways: what starts there moves and
what stops there stays. So the insertion is a relabelling like any other, and
the rest has been proved of all of them. The scanner sees a first text that
stays and a second one that begins later, and the parser sees relabelled
tokens.
-/

namespace ArithTree

open Text

namespace Relabelling

/-- The offsets after `n` bytes have been put in at offset `p`. -/
def insertion (p n : Nat) : Relabelling where
  start i := if p ≤ i then i + n else i
  stop i := if p < i then i + n else i
  value _ v := v
  start_mono := by
    intro i j h
    split <;> split <;> omega
  stop_mono := by
    intro i j h
    split <;> split <;> omega

theorem insertion_start (p n : Nat) (i : Int) :
    (insertion p n).start i = if p ≤ i then i + n else i := rfl

theorem insertion_stop (p n : Nat) (i : Int) :
    (insertion p n).stop i = if p < i then i + n else i := rfl

theorem insertion_moves_before (p n : Nat) : (insertion p n).Moves 0 0 p where
  start i _ hi := by
    rw [insertion_start, if_neg (by omega)]
    exact (Int.add_zero _).symm
  stop i _ hi := by
    rw [insertion_stop, if_neg (by omega)]
    exact (Int.add_zero _).symm
  value _ _ := rfl

theorem insertion_moves_behind (p n high : Nat) : (insertion p n).Moves n p high where
  start i hi _ := by rw [insertion_start, if_pos (by omega)]
  stop i hi _ := by rw [insertion_stop, if_pos (by omega)]
  value _ _ := rfl

theorem findings_insertion {a b w : Text} (hseam : Seam a b)
    (hw : ∀ c ∈ w, c.isSeparator = true) :
    findings 0 (a ++ w ++ b) =
      ((findings 0 (a ++ b)).1.map (insertion a.size w.length).token,
        (findings 0 (a ++ b)).2.map (insertion a.size w.length).lexError) := by
  have hbefore : findings 0 a = _ :=
    (insertion_moves_before a.size w.length).findings a 0 (Nat.zero_le _) (by omega)
  have hbehind :=
    (insertion_moves_behind a.size w.length _).findings b a.size (Nat.le_refl _) (Nat.le_refl _)
  rw [List.append_assoc, findings_append a (w ++ b) 0 (seam_separators hseam hw),
    findings_append a b 0 hseam, Nat.zero_add, findings_separators b a.size hw, hbehind]
  cases hfound : findings 0 a with
  | mk tokens error? =>
      rw [hfound, Prod.mk.injEq] at hbefore
      obtain ⟨htokens, herror⟩ := hbefore
      cases error? with
      | none => simp only [List.map_append, ← htokens]
      | some e => simp only [← htokens, ← herror]

theorem lex_insertion {a b w : Text} (hseam : Seam a b)
    (hw : ∀ c ∈ w, c.isSeparator = true) :
    lex (a ++ w ++ b) =
      match lex (a ++ b) with
      | .error e => .error ((insertion a.size w.length).lexError e)
      | .ok tokens => .ok (tokens.map (insertion a.size w.length).token) := by
  rw [lex_eq_findings, lex_eq_findings, findings_insertion hseam hw]
  cases findings 0 (a ++ b) with
  | mk tokens error? => cases error? <;> rfl

/-- The diagnostic at its other place. A span behind the last token is not the
span of a token, and both its ends are stops. -/
def diagnostic (r : Relabelling) (d : Diagnostic) : Diagnostic :=
  match d.subject with
  | .syntactic .unexpectedEnd none => { d with span? := d.span?.map r.finish }
  | .syntactic kind token? =>
    { d with subject := .syntactic kind (token?.map r.token), span? := d.span?.map r.span }
  | .general | .lexical _ _ => { d with span? := d.span?.map r.span }

theorem diagnostic_about (r : Relabelling) (d : Diagnostic) (source source' : Text) :
    (r.diagnostic (d.about source)).about source' = (r.diagnostic d).about source' := by
  obtain ⟨subject, message, span?, source?⟩ := d
  cases subject with
  | general | lexical => rfl
  | syntactic kind token? => cases kind <;> cases token? <;> rfl

theorem describe_token {r : Relabelling} (hvalue : ∀ k v, r.value k v = v) (t : Token) :
    (r.token t).describe = t.describe := by
  simp only [Token.describe, Token.lexeme, token, hvalue]

theorem ofParseError_error {r : Relabelling} (hvalue : ∀ k v, r.value k v = v)
    (e : ParseError) : Diagnostic.ofParseError (r.error e) = r.diagnostic (.ofParseError e) := by
  cases e with
  | notExpression t | notOperator t | redundant t =>
      simp only [error, Diagnostic.ofParseError, Diagnostic.got, describe_token hvalue]
      rfl
  | unclosed t | tooDeep t | unexpectedEnd span => rfl

/-- The two errors that scanning a text can end with. -/
theorem ofLexError_insertion {p n : Nat} {t : Text} {e : LexError} {span : Span}
    (h : Offends 0 t e span) :
    Diagnostic.ofLexError ((insertion p n).lexError e) =
      (insertion p n).diagnostic (.ofLexError e) := by
  cases h with
  | overflow ht hrun hlarge => rfl
  | @foreign before after c ht hc =>
      have hoffset : ((((insertion p n).start (0 + before.size : Nat)).toNat : Nat) : Int) =
          (insertion p n).start (0 + before.size : Nat) := by
        rw [insertion_start]
        split <;> omega
      have hstop : (insertion p n).stop ((0 + before.size : Nat) + 1) =
          (insertion p n).start (0 + before.size : Nat) + 1 := by
        rw [insertion_start, insertion_stop]
        split <;> split <;> omega
      simp only [lexError, Diagnostic.ofLexError, hoffset, ← hstop]
      rfl

end Relabelling

open Relabelling

/-- A source with separators put in is parsed as it was without them, at other
offsets. -/
theorem parseSource_insert {a b w : Text} (hseam : Seam a b)
    (hw : ∀ c ∈ w, c.isSeparator = true) :
    match parseSource (a ++ b) with
    | .ok e => parseSource (a ++ w ++ b) = .ok ((insertion a.size w.length).expr e)
    | .error e => ∃ e', parseSource (a ++ w ++ b) = .error e' ∧
        e'.diagnostic (a ++ w ++ b) =
          ((insertion a.size w.length).diagnostic (e.diagnostic (a ++ b))).about (a ++ w ++ b) := by
  have hlex := lex_insertion hseam hw
  cases hplain : lex (a ++ b) with
  | error e =>
      rw [hplain] at hlex
      simp only [parseSource, hplain, hlex]
      obtain ⟨span, hoffends, -⟩ := first_of_lex hplain
      refine ⟨_, rfl, ?_⟩
      rw [SourceError.diagnostic, SourceError.diagnostic, diagnostic_about,
        ofLexError_insertion hoffends]
  | ok tokens =>
      rw [hplain] at hlex
      have hzero : (insertion a.size w.length).stop 0 = 0 := by
        rw [insertion_stop, if_neg (by omega)]
      have hparse := @parse_map_token (insertion a.size w.length) tokens (.inr hzero)
      simp only [parseSource, hplain, hlex, hparse]
      cases parse tokens with
      | ok e => rfl
      | error e =>
          refine ⟨_, rfl, ?_⟩
          rw [SourceError.diagnostic, SourceError.diagnostic, diagnostic_about,
            ofParseError_error fun _ _ => rfl]

/-- A space and a newline behind the `1` of `(1)*2` move what follows by two. -/
theorem parseSource_insert_in_group :
    Seam (ofString "(1") (ofString ")*2") ∧
    (∀ c ∈ ofString " \n", c.isSeparator = true) ∧
    parseSource (ofString "(1" ++ ofString ")*2") =
      .ok (.binary ⟨1, 5⟩ ⟨.mult, ⟨3, 4⟩⟩ (.number ⟨1, 2⟩ (some 1)) (.number ⟨4, 5⟩ (some 2))) ∧
    parseSource (ofString "(1" ++ ofString " \n" ++ ofString ")*2") =
      .ok (.binary ⟨1, 7⟩ ⟨.mult, ⟨5, 6⟩⟩ (.number ⟨1, 2⟩ (some 1)) (.number ⟨6, 7⟩ (some 2))) := by
  have hseam : Seam (ofString "(1") (ofString ")*2") := seam_of_head (by decide)
  have hw : ∀ c ∈ ofString " \n", c.isSeparator = true := by decide
  have hplain : parseSource (ofString "(1" ++ ofString ")*2") =
      .ok (.binary ⟨1, 5⟩ ⟨.mult, ⟨3, 4⟩⟩ (.number ⟨1, 2⟩ (some 1)) (.number ⟨4, 5⟩ (some 2))) := by
    with_unfolding_all rfl
  have hinsert := parseSource_insert hseam hw
  rw [hplain] at hinsert
  exact ⟨hseam, hw, hplain, hinsert⟩

end ArithTree
