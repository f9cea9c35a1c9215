import ArithTree.Proofs.CommandAgreement
import ArithTree.Proofs.TextLines
import Mathlib.Data.List.Forall2

/-!
# What a session says

A session is told by its input alone: a prompt before every line and one more
at the end, and after each prompt but the last what the command line says about
the line when it is given there. A blank line is answered with nothing.

Nothing is carried from one line to the next, and `runArgs_session` says so for
any input that is cut behind a newline. The session over the whole is the
session over the first part, up to its last prompt, and then the session over
the second, which begins with that prompt. The one thing that can come from a
line to those behind it is the end of the program, where the line is a tree too
high to be drawn, and so the lines before the cut are asked to fit.

The prompt is shown as the console shows it. All that has to be known of the
console is that it leaves text without an escape as it is.
-/

namespace ArithTree

open CodePoint

/-- Text without an escape is shown as it is. -/
def Console.Faithful (console : Console) : Prop :=
  ∀ s : String, '\x1b' ∉ s.toList → console.plain s = s

/-- The code points that are taken off both ends of a line. -/
def blanks : List Nat :=
  [0x09, 0x0A, 0x0B, 0x0C, 0x0D, 0x1C, 0x1D, 0x1E, 0x1F, 0x20, 0x85, 0xA0, 0x1680, 0x2000, 0x2001,
    0x2002, 0x2003, 0x2004, 0x2005, 0x2006, 0x2007, 0x2008, 0x2009, 0x200A, 0x2028, 0x2029, 0x202F,
    0x205F, 0x3000]

theorem Text.isBlank_iff {t : Text} : t.isBlank = true ↔ ∀ c ∈ t, c.val ∈ blanks := by
  have hblank : ∀ c : CodePoint, c.isBlank = true ↔ c.val ∈ blanks := by
    intro c
    simp only [CodePoint.isBlank, blanks, Bool.or_eq_true, Bool.and_eq_true, decide_eq_true_eq,
      beq_iff_eq, List.mem_cons, List.not_mem_nil, or_false]
    omega
  rw [isBlank, List.all_eq_true]
  exact forall₂_congr fun c _ => hblank c

/-- What is said to a line. -/
def Replies (console : Console) (files : Text → Option (List UInt8)) (line : Text)
    (reply : String) : Prop :=
  if ∀ c ∈ line, c.val ∈ blanks then reply = ""
  else ∃ exitCode,
    runArgs files [] (Request.given ["parse"] line) console = .finished exitCode reply ""

theorem replies_reply (console : Console) (files : Text → Option (List UInt8)) (line : Text) :
    Replies console files line (Report.reply console line).output := by
  unfold Replies Report.reply
  simp only [Text.isBlank_iff]
  split
  · rfl
  · exact ⟨_, runArgs_parse console files [] line⟩

/-- If the line is an expression, its tree has no more levels than there are
frames. -/
def Drawable (console : Console) (line : Text) : Prop :=
  ∀ e, parseSource line = .ok e → e.height ≤ console.frames

/-- All lines of the input can be drawn. -/
def Fits (console : Console) (input : Text) : Prop :=
  ∀ unified lines, Text.Unified input unified → Text.Lined unified lines →
    ∀ l ∈ lines, Drawable console l

theorem Fits.drawable {console : Console} {input : Text} (h : Fits console input) :
    ∀ l ∈ input.unifyNewlines.readLines, Drawable console l :=
  h _ _ (.unifyNewlines input) (.readLines _)

namespace Report

theorem andThen_of_ne {r : Report} (h : r.verdict ≠ .exhausted) (s : Report) :
    r.andThen s = ⟨r.output ++ s.output, s.verdict, r.log ++ s.log⟩ := by
  unfold andThen
  split
  · rfl
  · rfl
  · contradiction

theorem andThen_assoc (r s t : Report) : (r.andThen s).andThen t = r.andThen (s.andThen t) := by
  cases hr : r.verdict with
  | exhausted => simp only [andThen, hr]
  | accepted | rejected =>
      cases hs : s.verdict <;>
        simp only [andThen, hr, hs, String.append_assoc, List.append_assoc]

section

variable {console : Console} {shown : String}

theorem reply_ne_exhausted {l : Text} (h : Drawable console l) :
    (reply console l).verdict ≠ .exhausted := by
  unfold reply
  split
  · exact nofun
  · cases hparse : parseSource l with
    | ok e =>
        rw [tree_of_ok console hparse, if_pos (h e hparse)]
        exact nofun
    | error e =>
        rw [tree_of_error console hparse]
        exact nofun

/-- Lines that can be drawn are answered one after another. -/
theorem replies_of_drawable (shown : String) {ls : List Text}
    (h : ∀ l ∈ ls, Drawable console l) :
    (replies console shown ls).verdict = .accepted ∧
      (replies console shown ls).output =
        String.join (ls.map fun l => (reply console l).output ++ shown) := by
  induction ls with
  | nil => exact ⟨rfl, rfl⟩
  | cons l ls ih =>
      obtain ⟨hverdict, houtput⟩ := ih fun l' hl' => h l' (List.mem_cons_of_mem l hl')
      have hl := reply_ne_exhausted (h l List.mem_cons_self)
      rw [replies, andThen_of_ne hl, andThen_of_ne (by exact nofun), List.map_cons,
        String.join_cons, houtput]
      exact ⟨hverdict, rfl⟩

theorem replies_append (ls ls' : List Text) :
    replies console shown (ls ++ ls') =
      (replies console shown ls).andThen (replies console shown ls') := by
  induction ls with
  | nil => rw [List.nil_append, replies, andThen_of_ne (by exact nofun), String.empty_append]; rfl
  | cons l ls ih => rw [List.cons_append, replies, replies, ih, ← andThen_assoc]

/-- Input that goes on behind a newline is answered as it was up to there, and
then as if it began there. -/
theorem answer_append (x y : Text) :
    answer console shown (x ++ newline :: y) =
      (answer console shown (x ++ [newline])).andThen (answer console shown y) := by
  rw [answer, Text.readLines_append, replies_append]
  rfl

theorem answer_line {l : Text} (hnewline : newline ∉ l) (hreturn : carriageReturn ∉ l) :
    answer console shown (l ++ [newline]) = (reply console l).andThen (prompt shown) := by
  have hplain : carriageReturn ∉ l ++ [newline] := by
    simp [hreturn, Text.newline_ne_carriageReturn.symm]
  have hunified : (l ++ [newline]).unifyNewlines = l ++ [newline] :=
    (Text.Unified.unifyNewlines _).unique (.refl hplain)
  have hlines : (l ++ [newline]).readLines = [l] := (Text.Lined.line hnewline .nil).eq_readLines
  rw [answer, hunified, hlines, replies, replies]
  cases h : (reply console l).verdict <;> simp [andThen, prompt, h]

end

end Report

/-- Input that fits is answered to its end. -/
theorem Fits.verdict_answer {console : Console} {input : Text} (h : Fits console input)
    (shown : String) : (Report.answer console shown input).verdict = .accepted :=
  (Report.replies_of_drawable shown h.drawable).1

/-- A prompt before each or behind each, with one more at the other end. -/
theorem join_prompts (shown : String) (replies : List String) :
    shown ++ String.join (replies.map (· ++ shown)) =
      String.join (replies.map (shown ++ ·)) ++ shown := by
  induction replies with
  | nil => simp
  | cons reply replies ih =>
      rw [List.map_cons, List.map_cons, String.join_cons, String.join_cons, String.append_assoc,
        String.append_assoc, ih, String.append_assoc]

/-- A session whose log is not wanted. -/
def IsSession (args : List Text) (prompt : String) : Prop :=
  Invocation.ofArgs? args = some ⟨false, .repl (.ofString prompt)⟩

/-- Any prompt can be given, whatever it looks like. -/
theorem isSession_prompt (prompt : String) :
    IsSession [.ofString "repl", .ofString "--prompt", .ofString prompt] prompt := rfl

theorem isSession_default : IsSession [.ofString "repl"] ">" := rfl

section

variable {console : Console} {args : List Text} {prompt : String}

theorem runArgs_of_isSession (h : IsSession args prompt) (files : Text → Option (List UInt8))
    (input : Text) :
    runArgs files input args console =
      .finished (Report.answer console (console.plain prompt) input).verdict.exitCode
        (console.plain prompt ++ (Report.answer console (console.plain prompt) input).output)
        "" := by
  rw [runArgs, h]
  show Invocation.session console false (.ofString prompt) input = _
  rw [Invocation.session, Text.display_ofString]
  rfl

theorem runArgs_of_fits (h : IsSession args prompt) (files : Text → Option (List UInt8))
    {input : Text} (hfits : Fits console input) :
    runArgs files input args console =
      .finished 0
        (String.join (input.unifyNewlines.readLines.map
            fun l => console.plain prompt ++ (Report.reply console l).output) ++
          console.plain prompt) "" := by
  obtain ⟨hverdict, houtput⟩ := Report.replies_of_drawable (console.plain prompt) hfits.drawable
  have hjoin := join_prompts (console.plain prompt)
    (input.unifyNewlines.readLines.map fun l => (Report.reply console l).output)
  rw [List.map_map, List.map_map] at hjoin
  rw [runArgs_of_isSession h, Report.answer, hverdict, houtput]
  exact congrArg (Outcome.finished 0 · "") hjoin

/-- The transcript of a session: what is printed between its prompts are the
replies to the lines of its input, and input that goes on behind a newline goes
on as if the session began there. -/
theorem runArgs_session (hconsole : console.Faithful) (h : IsSession args prompt)
    (files : Text → Option (List UInt8)) :
    ∃ shown : String, shown = console.plain prompt ∧ ('\x1b' ∉ prompt.toList → shown = prompt) ∧
      (∀ input : Text, Fits console input → ∃ unified lines replies,
        Text.Unified input unified ∧ Text.Lined unified lines ∧
        List.Forall₂ (Replies console files) lines replies ∧
        runArgs files input args console =
          .finished 0 (String.join (replies.map (shown ++ ·)) ++ shown) "") ∧
      ∀ x : Text, Fits console (x ++ [newline]) → ∃ before,
        runArgs files (x ++ [newline]) args console = .finished 0 (before ++ shown) "" ∧
        ∀ y : Text, ∃ exitCode after,
          runArgs files y args console = .finished exitCode after "" ∧
          runArgs files (x ++ newline :: y) args console =
            .finished exitCode (before ++ after) "" ∧
          (Fits console y → exitCode = 0) := by
  refine ⟨_, rfl, hconsole prompt, fun input hfits => ?_, fun x hx => ?_⟩
  · refine ⟨_, _, input.unifyNewlines.readLines.map fun l => (Report.reply console l).output,
      .unifyNewlines input, .readLines _, ?_, ?_⟩
    · rw [List.forall₂_map_right_iff, List.forall₂_same]
      exact fun l _ => replies_reply console files l
    · rw [runArgs_of_fits h files hfits, List.map_map]
      rfl
  · have hfirst := runArgs_of_fits h files hx
    refine ⟨_, hfirst, fun y => ⟨_, _, runArgs_of_isSession h files y, ?_, fun hy => ?_⟩⟩
    · rw [runArgs_of_isSession h] at hfirst ⊢
      have hne : (Report.answer console (console.plain prompt) (x ++ [newline])).verdict ≠
          .exhausted := by
        rw [hx.verdict_answer]
        exact nofun
      rw [Report.answer_append, Report.andThen_of_ne hne]
      have houtput := (Outcome.finished.inj hfirst).2.1
      show Outcome.finished _ (_ ++ (_ ++ _)) "" = _
      rw [← String.append_assoc, houtput, String.append_assoc]
    · rw [hy.verdict_answer]
      rfl

end

/-- No terminal takes anything out of a text that has no escape. -/
theorem faithful_standard : Console.standard.Faithful := fun _ => Styled.plain_of_not_mem

/-- A line and the rest of the input, after the prompt that is there if none is
given. -/
theorem runArgs_session_of_default :
    Console.standard.Faithful ∧ IsSession [.ofString "repl"] ">" ∧
      Fits .standard (.ofString "1\n") ∧
      ∃ before exitCode after,
        runArgs (fun _ => none) (.ofString "1\n") [.ofString "repl"] =
          .finished 0 (before ++ ">") "" ∧
        runArgs (fun _ => none) (.ofString "(") [.ofString "repl"] =
          .finished exitCode after "" ∧
        runArgs (fun _ => none) (.ofString "1\n(") [.ofString "repl"] =
          .finished exitCode (before ++ after) "" := by
  have hfits : Fits .standard (.ofString "1\n") := by
    intro unified lines hunified hlined l hl e he
    obtain rfl := hunified.unique (.unifyNewlines _)
    rw [← hlined.eq_readLines,
      show (Text.ofString "1\n").unifyNewlines.readLines = [.ofString "1"] by decide,
      List.mem_singleton] at hl
    subst hl
    obtain rfl : Expr.number ⟨0, 1⟩ (some 1) = e := by
      have hparse : parseSource (.ofString "1") = .ok (.number ⟨0, 1⟩ (some 1)) := by
        with_unfolding_all rfl
      rw [hparse] at he
      exact Except.ok.inj he
    decide
  obtain ⟨shown, -, hshown, -, hcut⟩ :=
    runArgs_session faithful_standard isSession_default fun _ => none
  obtain rfl := hshown (by decide)
  obtain ⟨before, hfirst, hrest⟩ := hcut (.ofString "1") hfits
  obtain ⟨exitCode, after, hsecond, hwhole, -⟩ := hrest (.ofString "(")
  exact ⟨faithful_standard, isSession_default, hfits, before, exitCode, after, hfirst, hsecond,
    hwhole⟩

/-- A prompt in bold is not printed as it is given. -/
theorem runArgs_session_of_bold :
    IsSession [.ofString "repl", .ofString "--prompt", .ofString "\x1b[1m>"] "\x1b[1m>" ∧
      runArgs (fun _ => none) [] [.ofString "repl", .ofString "--prompt", .ofString "\x1b[1m>"] =
        .finished 0 ">" "" ∧
      runArgs (fun _ => none) [] [.ofString "repl", .ofString "--prompt", .ofString "\x1b[1m>"] ≠
        .finished 0 "\x1b[1m>" "" :=
  ⟨isSession_prompt _, by decide, by decide⟩

end ArithTree
