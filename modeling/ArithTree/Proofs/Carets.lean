import ArithTree.Diagnostic.Rendering
import ArithTree.Proofs.ParseAutomaton
import ArithTree.Proofs.Places
import ArithTree.Source

/-!
# Where the carets stand

Rendered, a diagnostic shows a line of its source and carets under the part of
the line that it is about. The columns come from bytes and the line from code
points, and both are places in the same text, so that they always fit: there
is a line to show whatever the span is, and the carets do not go beyond the
end of it by more than one.

How many carets there are depends on two places, that of the start and that of
the stop, and on the length of the line (`Place.carets`). Where these are the
two ends of a part of the text, the part up to its first newline is marked,
code point by code point. The errors that parsing ends with are all about such
a part: a token, a run of digits, a single character, or nothing at the end of
the last token. None of them has a newline in it, and each is marked as a
whole.
-/

namespace ArithTree

open Text

namespace Place

/-- How many carets stand between two places, where the line of the first is
so long. -/
def carets (p q : Place) (width : Nat) : Nat :=
  max 1 (if q.row = p.row then q.column - p.column else width - p.column)

theorem foldl_next_row (b : Text) :
    ∀ p : Place, (b.foldl next p).row = p.row + b.count .newline := by
  induction b with
  | nil => exact fun _ => rfl
  | cons c b ih =>
      intro p
      rw [List.foldl_cons, ih, next]
      by_cases hc : c = .newline
      · rw [if_pos hc, hc, List.count_cons_self, nextLine]
        show p.row + 1 + _ = p.row + (_ + 1)
        omega
      · rw [if_neg hc, List.count_cons_of_ne (by simpa using hc)]
        rfl

theorem foldl_next_of_not_mem {b : Text} (h : CodePoint.newline ∉ b) :
    ∀ p : Place, b.foldl next p = ⟨p.row, p.column + b.length⟩ := by
  induction b with
  | nil => exact fun _ => rfl
  | cons c b ih =>
      intro p
      have hc : c ≠ .newline := fun hc => h (hc ▸ List.mem_cons_self)
      rw [List.foldl_cons, ih fun hb => h (List.mem_cons_of_mem c hb), next, if_neg hc, right,
        List.length_cons, Nat.add_assoc, Nat.add_comm 1]

end Place

namespace Text

theorem untilNewline_of_not_mem {t : Text} (h : CodePoint.newline ∉ t) : t.untilNewline = t := by
  induction t with
  | nil => rfl
  | cons c t ih =>
      have hc : c ≠ .newline := fun hc => h (hc ▸ List.mem_cons_self)
      rw [untilNewline_cons hc, ih fun ht => h (List.mem_cons_of_mem c ht)]

theorem untilNewline_append_of_mem {t : Text} (h : CodePoint.newline ∈ t) (u : Text) :
    untilNewline (t ++ u) = t.untilNewline := by
  induction t with
  | nil => cases h
  | cons c t ih =>
      rw [List.cons_append]
      by_cases hc : c = .newline
      · rw [hc, untilNewline_newline, untilNewline_newline]
      · have ht : CodePoint.newline ∈ t := (List.mem_cons.mp h).resolve_left fun he => hc he.symm
        rw [untilNewline_cons hc, untilNewline_cons hc, ih ht]

/-- Between the two ends of a part of a text there is a caret for each code
point of the part, up to its first newline. -/
theorem carets_part {a b c line : Text}
    (hline : (a ++ (b ++ c)).splitLines[a.place.row]? = some line) :
    a.place.carets (place (a ++ b)) line.length = max 1 b.untilNewline.length := by
  obtain ⟨line', hline', hlength, -⟩ := place_recovers a (b ++ c)
  rw [hline, Option.some.injEq] at hline'
  subst hline'
  rw [place_append, Place.carets]
  by_cases hb : CodePoint.newline ∈ b
  · have hrow : (b.foldl Place.next a.place).row ≠ a.place.row := by
      have := List.count_pos_iff.mpr hb
      rw [Place.foldl_next_row]
      omega
    rw [if_neg hrow, hlength, untilNewline_append_of_mem hb]
    congr 1
    omega
  · rw [Place.foldl_next_of_not_mem hb, if_pos rfl, untilNewline_of_not_mem hb]
    congr 1
    exact Nat.add_sub_cancel_left _ _

end Text

namespace Diagnostic

/-- The rendered diagnostic shows the line on which an index is, and so many
carets from the column of the index on, which is the last column of the line or
the one behind it at the latest. -/
def Marks (d : Diagnostic) (source : Text) (index : Int) (n : Nat) : Prop :=
  ∃ (row column : Nat) (line : Text),
    Location.of source.utf8 index = ⟨index, row + 1, column + 1⟩ ∧
    source.splitLines[row]? = some line ∧
    d.render = "\n".intercalate
      [line.display,
        String.ofList (List.replicate column ' ') ++
          ("\x1b[31m\x1b[1m" ++ String.ofList (List.replicate n '^') ++ "\x1b[0m"),
        "\x1b[31m\x1b[1m" ++ d.text ++ "\x1b[0m"] ∧
    1 ≤ n ∧ column + n ≤ max line.length (column + 1)

section

variable {d : Diagnostic} {source : Text} {span : Span}

theorem marks_places (hsource : d.source? = some source) (hspan : d.span? = some span)
    {a b a' b' : Text} (hab : source = a ++ b) (hab' : source = a' ++ b')
    (hstart : Location.of source.utf8 span.start = a.place.location span.start)
    (hstop : Location.of source.utf8 (if span.start ≤ span.stop then span.stop else span.start) =
      a'.place.location (if span.start ≤ span.stop then span.stop else span.start)) :
    ∃ line, source.splitLines[a.place.row]? = some line ∧
      d.Marks source span.start (a.place.carets a'.place line.length) := by
  obtain ⟨line, hline, hlength, -⟩ := place_recovers a b
  obtain ⟨line', hline', hlength', -⟩ := place_recovers a' b'
  rw [← hab] at hline
  rw [← hab'] at hline'
  refine ⟨line, hline, _, _, line, hstart, hline, ?_, Nat.le_max_left _ _, ?_⟩
  · have hcarets : ∀ w, (if w = 0 then 1 else w) = max 1 w := by
      intro w
      split <;> omega
    simp only [render, renderLines, excerpt, hspan, hsource, hstart, hstop, Place.location,
      Nat.add_sub_cancel, hline, Option.getD_some, Nat.add_right_cancel_iff,
      Nat.add_sub_add_right, hcarets]
    rfl
  · unfold Place.carets
    split
    · rename_i hrow
      rw [hrow, hline, Option.some.injEq] at hline'
      subst hline'
      omega
    · omega

/-- Whatever the span is, there is a line to show and there are carets. -/
theorem exists_marks (hsource : d.source? = some source) (hspan : d.span? = some span) :
    ∃ n, d.Marks source span.start n := by
  obtain ⟨a, b, hab, hstart⟩ := Location.of_prefix source span.start
  obtain ⟨a', b', hab', hstop⟩ := Location.of_prefix source
    (if span.start ≤ span.stop then span.stop else span.start)
  obtain ⟨line, -, hmarks⟩ := marks_places hsource hspan hab hab' hstart hstop
  exact ⟨_, hmarks⟩

/-- The two ends of a part of the text have a caret for each code point between
them, up to a newline. The stop may be anywhere in the last code point. -/
theorem marks_part (hsource : d.source? = some source) (hspan : d.span? = some span)
    {a b c : Text} (hsplit : source = a ++ (b ++ c)) (hstart : span.start = a.size)
    (hle : span.start ≤ span.stop)
    (hstop : Location.of source.utf8 span.stop = (place (a ++ b)).location span.stop) :
    d.Marks source span.start (max 1 b.untilNewline.length) := by
  have hsplit' : source = (a ++ b) ++ c := by rw [hsplit, List.append_assoc]
  have hfirst : Location.of source.utf8 span.start = a.place.location span.start := by
    rw [hsplit, hstart, Location.of_size]
  rw [← if_pos (c := span.start ≤ span.stop) (t := span.stop) (e := span.start) hle] at hstop
  obtain ⟨line, hline, hmarks⟩ := marks_places hsource hspan hsplit hsplit' hfirst hstop
  rw [hsplit] at hline
  rwa [carets_part hline] at hmarks

theorem marks_between (hsource : d.source? = some source) (hspan : d.span? = some span)
    {a b c : Text} (hsplit : source = a ++ (b ++ c)) (hends : span = ⟨a.size, (a ++ b).size⟩) :
    d.Marks source span.start (max 1 b.untilNewline.length) := by
  subst hends
  refine marks_part hsource hspan hsplit rfl ?_ ?_
  · rw [size_append]
    exact Int.ofNat_le.mpr (Nat.le_add_right _ _)
  · rw [hsplit, ← List.append_assoc, Location.of_size]

end

end Diagnostic

/-! ## What an error is about -/

/-- The token an error is about, if it is about a token. -/
def ParseError.token? : ParseError → Option Token
  | .notExpression t | .notOperator t | .redundant t | .tooDeep t | .unclosed t => some t
  | .unexpectedEnd _ => none

open ParseState

theorem ParseError.token?_of_offender {e : ParseError} {t : Token}
    (h : e.offender? = some t) : e.token? = some t := by
  cases e <;> first | exact h | cases h

namespace Automaton

/-- Only what is read is opened. -/
theorem opened_of_step {limit : Nat} {m m' : Automaton} {t : Token}
    (h : m.step limit t = .ok m') : m'.opened ⊆ t :: m.opened := by
  obtain ⟨expected, opened⟩ := m
  have hpush : push limit opened t = .ok m' → m'.opened ⊆ t :: opened := by
    intro h
    unfold push at h
    split at h <;> cases h
    exact List.Subset.refl _
  cases expected with
  | operand | atom =>
      cases hkind : t.kind <;> simp only [step, hkind] at h
      case lparen => exact hpush h
      all_goals cases h
      all_goals exact List.subset_cons_self _ _
  | operator =>
      cases hkind : t.kind <;> cases opened <;> simp only [step, hkind] at h
      all_goals cases h
      case rparen.cons.refl =>
        exact List.Subset.trans (List.subset_cons_self _ _) (List.subset_cons_self _ _)
      all_goals exact List.subset_cons_self _ _

/-- A run ends with an error about a token that was open before or was read. -/
theorem token_of_run {limit : Nat} {finish : Span} {ts : List Token} :
    ∀ {m : Automaton} {index : Nat} {e : ParseError},
      (run limit finish m index ts).1 = some e →
      (∃ t ∈ m.opened ++ ts, e.token? = some t) ∨ e = .unexpectedEnd finish := by
  induction ts with
  | nil =>
      intro m index e h
      obtain ⟨expected, opened⟩ := m
      cases expected with
      | operand | atom => cases h; exact .inr rfl
      | operator =>
          cases opened with
          | nil => cases h
          | cons paren outer => cases h; exact .inl ⟨paren, List.mem_cons_self, rfl⟩
  | cons t ts ih =>
      intro m index e h
      cases hstep : m.step limit t with
      | error e' =>
          rw [run_of_error hstep] at h
          cases h
          exact .inl ⟨t, by simp, ParseError.token?_of_offender (offender_of_step hstep)⟩
      | ok m' =>
          rw [run_of_ok hstep] at h
          refine (ih h).imp_left fun ⟨u, hu, htoken⟩ => ⟨u, ?_, htoken⟩
          rcases List.mem_append.mp hu with hopen | hmore
          · rcases List.mem_cons.mp (opened_of_step hstep hopen) with rfl | hbefore
            · simp
            · exact List.mem_append_left _ hbefore
          · simp [hmore]

end Automaton

theorem token_of_parse {ts : List Token} {e : ParseError} (h : parse ts = .error e) :
    (∃ t ∈ ts, e.token? = some t) ∨ e = .unexpectedEnd (finishOf ts) := by
  have hrun : (Automaton.run nestingLimit (finishOf ts) .start 0 ts).1 = some e →
      (∃ t ∈ [] ++ ts, e.token? = some t) ∨ e = .unexpectedEnd (finishOf ts) :=
    Automaton.token_of_run
  refine hrun ?_
  rw [← outcome_whole]
  unfold parse at h
  cases hwhole : Parse.whole (.start ts) with
  | ok e' s => rw [hwhole] at h; cases h
  | error e' s => rw [hwhole] at h; cases h; rfl

/-- A part of a text that has a span, all on one line. -/
structure Lexeme (source : Text) (span : Span) (before lexeme after : Text) : Prop where
  split : source = before ++ (lexeme ++ after)
  span_eq : span = .stretch before.size lexeme.size
  size_eq : lexeme.size = lexeme.length
  nonempty : lexeme ≠ []
  line : CodePoint.newline ∉ lexeme

theorem CodePoint.isSeparator_newline : CodePoint.newline.isSeparator = true := by decide

theorem lexeme_of_run {source before run after : Text}
    (hsplit : source = before ++ (run ++ after)) (hrun : IsRun before run after) :
    Lexeme source (.stretch before.size run.size) before run after where
  split := hsplit
  span_eq := rfl
  size_eq := hrun.size_eq
  nonempty := hrun.nonempty
  line hmem := by
    have hnot := CodePoint.not_separator_of_digit (hrun.digits _ hmem)
    rw [CodePoint.isSeparator_newline] at hnot
    cases hnot

theorem Names.lexeme {source : Text} {t : Token} (h : Names 0 source t) :
    ∃ before lexeme after, Lexeme source t.span before lexeme after := by
  cases h with
  | @sign before after c k ht hk =>
      have hsize : size [c] = 1 := size_eq_length (by
        simpa using CodePoint.not_foreign_of_kind hk)
      refine ⟨before, [c], after, ht, ?_, hsize, List.cons_ne_nil _ _, fun hmem => ?_⟩
      · rw [hsize, Nat.zero_add]
      · have hnot := CodePoint.not_separator_of_kind hk
        rw [← List.mem_singleton.mp hmem, CodePoint.isSeparator_newline] at hnot
        cases hnot
  | @number before run after ht hrun =>
      rw [Nat.zero_add]
      exact ⟨before, run, after, lexeme_of_run ht hrun⟩

/-- A lexeme is marked as a whole, and nothing else is. -/
theorem Lexeme.marks {source before lexeme after : Text} {span : Span} {d : Diagnostic}
    (h : Lexeme source span before lexeme after) (hsource : d.source? = some source)
    (hspan : d.span? = some span) :
    d.Marks source span.start lexeme.length ∧ (lexeme.length : Int) = span.stop - span.start := by
  have hends : span = ⟨before.size, (before ++ lexeme).size⟩ := by
    rw [h.span_eq, size_append]
    rfl
  have hmarks := Diagnostic.marks_between hsource hspan h.split hends
  rw [untilNewline_of_not_mem h.line,
    Nat.max_eq_right (List.length_pos_iff.mpr h.nonempty)] at hmarks
  refine ⟨hmarks, ?_⟩
  rw [h.span_eq, ← h.size_eq]
  show _ = ((before.size : Int) + lexeme.size) - before.size
  omega

/-- A single character is marked once, whatever bytes it is made of: the span
ends inside it. -/
theorem marks_char {before after : Text} {c : CodePoint} {d : Diagnostic}
    (hsource : d.source? = some (before ++ c :: after))
    (hspan : d.span? = some (.stretch before.size 1)) (hc : c ≠ .newline) :
    d.Marks (before ++ c :: after) before.size 1 := by
  have hpos : 0 < c.utf8.length := List.length_pos_iff.mpr c.utf8_ne_nil
  have hmarks := Diagnostic.marks_part hsource hspan (b := [c]) rfl rfl
    (show (before.size : Int) ≤ before.size + 1 by omega) (by
      rw [place_append_singleton]
      exact Location.of_inside before after c Nat.one_pos hpos)
  rwa [untilNewline_of_not_mem (by simpa using Ne.symm hc)] at hmarks

/-- Behind a part of a text one caret marks that nothing is there. -/
theorem marks_empty {a b : Text} {d : Diagnostic} (hsource : d.source? = some (a ++ b))
    (hspan : d.span? = some (.empty a.size)) : d.Marks (a ++ b) a.size 1 :=
  Diagnostic.marks_between hsource hspan (b := []) rfl (by rw [List.append_nil]; rfl)

theorem finishOf_lexemes {source : Text} {tokens : List Token}
    (h : Listing 0 source tokens) :
    ∃ a b : Text, source = a ++ b ∧ finishOf tokens = .empty a.size := by
  unfold finishOf
  cases hlast : tokens.getLast? with
  | none => exact ⟨[], source, rfl, rfl⟩
  | some t =>
      obtain ⟨before, lexeme, after, hlexeme⟩ :=
        ((h.named t).mp (List.mem_of_getLast? hlast)).lexeme
      refine ⟨before ++ lexeme, after, by rw [hlexeme.split, List.append_assoc], ?_⟩
      show Span.empty t.span.stop = _
      rw [hlexeme.span_eq, size_append]
      rfl

theorem span?_of_token {e : ParseError} {t : Token} (h : e.token? = some t) :
    (Diagnostic.ofParseError e).span? = some t.span := by
  cases e <;> cases h <;> rfl

theorem source?_diagnostic (e : SourceError) (source : Text) :
    (e.diagnostic source).source? = some source := by
  cases e <;> rfl

/-- What an error is about and how many carets that asks for: one for a single
character and one for the end of the tokens, and one for each byte of a token
or a literal, which is one for each code point. -/
def Spot (source : Text) (span : Span) (n : Nat) : SourceError → Prop
  | .lexical (.invalidChar c _) =>
    n = 1 ∧ ∃ before after, source = before ++ c :: after ∧ span.start = before.size
  | .syntactic (.unexpectedEnd _) => n = 1 ∧ span.start = span.stop
  | .lexical _ | .syntactic _ =>
    (n : Int) = span.stop - span.start ∧
      ∃ before lexeme after, Lexeme source span before lexeme after ∧ n = lexeme.length

theorem spot_of_lex {source : Text} {e : LexError} (h : lex source = .error e) :
    ∃ span n, ((SourceError.lexical e).diagnostic source).span? = some span ∧
      ((SourceError.lexical e).diagnostic source).Marks source span.start n ∧
      Spot source span n (.lexical e) := by
  obtain ⟨span, hoffends, -⟩ := first_of_lex h
  have hsource := source?_diagnostic (.lexical e) source
  have hspan : ((SourceError.lexical e).diagnostic source).span? = some span := hoffends.span
  cases hoffends with
  | @foreign before after c ht hc =>
      have hne : c ≠ .newline := by
        rintro rfl
        exact absurd hc (by decide)
      simp only [Nat.zero_add] at hsource hspan ⊢
      subst ht
      exact ⟨_, 1, hspan, marks_char hsource hspan hne, rfl, before, after, rfl, rfl⟩
  | @overflow before run after ht hrun hlarge =>
      simp only [Nat.zero_add] at hsource hspan ⊢
      have hlexeme := lexeme_of_run ht hrun
      obtain ⟨hmarks, hlength⟩ := hlexeme.marks hsource hspan
      exact ⟨_, _, hspan, hmarks, hlength, before, run, after, hlexeme, rfl⟩

theorem spot_of_parse {source : Text} {tokens : List Token} {e : ParseError}
    (hlex : lex source = .ok tokens) (h : parse tokens = .error e) :
    ∃ span n, ((SourceError.syntactic e).diagnostic source).span? = some span ∧
      ((SourceError.syntactic e).diagnostic source).Marks source span.start n ∧
      Spot source span n (.syntactic e) := by
  have hlisting := (listing_of_lex hlex).2
  have hsource := source?_diagnostic (.syntactic e) source
  rcases token_of_parse h with ⟨t, ht, htoken⟩ | rfl
  · have hspan : ((SourceError.syntactic e).diagnostic source).span? = some t.span :=
      span?_of_token htoken
    obtain ⟨before, lexeme, after, hlexeme⟩ := ((hlisting.named t).mp ht).lexeme
    obtain ⟨hmarks, hlength⟩ := hlexeme.marks hsource hspan
    refine ⟨_, _, hspan, hmarks, ?_⟩
    cases e <;> first | exact ⟨hlength, before, lexeme, after, hlexeme, rfl⟩ | cases htoken
  · obtain ⟨a, b, rfl, hfinish⟩ := finishOf_lexemes hlisting
    rw [hfinish] at hsource ⊢
    exact ⟨_, 1, rfl, marks_empty hsource rfl, rfl, rfl⟩

/-- Every diagnostic that has a source and a span is rendered with a line of
the source and carets under it. Those of a part of the source are as many as
the part has code points up to a newline, and those of an error that parsing
ends with stand under what the error is about. -/
theorem render_carets :
    (∀ (d : Diagnostic) (source : Text) (span : Span), d.source? = some source →
      d.span? = some span →
      (∃ n, d.Marks source span.start n) ∧
      ∀ a b c : Text, source = a ++ (b ++ c) → span = ⟨a.size, (a ++ b).size⟩ →
        d.Marks source span.start (max 1 b.untilNewline.length)) ∧
    ∀ (source : Text) (e : SourceError), parseSource source = .error e →
      ∃ span n, (e.diagnostic source).span? = some span ∧
        (e.diagnostic source).Marks source span.start n ∧ Spot source span n e := by
  refine ⟨fun d source span hsource hspan => ⟨Diagnostic.exists_marks hsource hspan,
    fun a b c => Diagnostic.marks_between hsource hspan⟩, fun source e herror => ?_⟩
  cases hlex : lex source with
  | error e' =>
      rw [parseSource_of_lex_error hlex] at herror
      cases herror
      exact spot_of_lex hlex
  | ok tokens =>
      rw [parseSource_of_lex_ok hlex] at herror
      cases hparse : parse tokens with
      | ok e' => rw [hparse] at herror; cases herror
      | error e' =>
          rw [hparse] at herror
          cases herror
          exact spot_of_parse hlex hparse

end ArithTree
