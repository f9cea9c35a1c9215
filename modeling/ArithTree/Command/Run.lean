import ArithTree.Command.Request
import ArithTree.Diagnostic.Rendering
import ArithTree.Expr.Drawing
import ArithTree.Source
import ArithTree.Text.Lines
import ArithTree.Text.Lossy

/-!
# Running a request

What the program prints, as a function of its arguments, of the files there
are, of its input, and of the console it runs at. The console decides what is
seen of control sequences, how wide a line is, and how high a tree may be to
be drawn.

A report is what becomes of one source. It is the same wherever the source
comes from; a session is nothing but the reports of its lines with a prompt
between them, and no line can change what becomes of another, unless it ends
the program.
-/

namespace ArithTree

/-- What the program finds where it runs. -/
structure Console where
  /-- What is shown of a text that came from outside. -/
  plain : String → String
  /-- The columns of a line. -/
  columns : Nat
  /-- How many calls of the drawing the stack has room for. -/
  frames : Nat

/-- No terminal: control sequences are taken out, and a line is as wide as
terminals used to be. The stack holds a thousand calls, and a few are under
way before the first node is drawn. -/
def Console.standard : Console where
  plain := Styled.plain
  columns := 80
  frames := 980

/-- Why a request is not run. -/
inductive Refusal where
  /-- The arguments make no sense, or name a file that is not there. -/
  | malformed
  | bothOrigins
  | noOrigin
deriving DecidableEq

/-- What the program says about a refusal in words of its own. -/
def Refusal.message? : Refusal → Option String
  | .malformed => none
  | .bothOrigins => some "EXPRESSION and --file are mutually exclusive"
  | .noOrigin => some "either EXPRESSION or --file is required"

/-- What comes of a request. Standard error has the log; what the interpreter
says of an error that nobody caught is not told. -/
inductive Outcome where
  | refused (reason : Refusal)
  | finished (exitCode : Nat) (stdout stderr : String)
deriving DecidableEq

/-- How the work on a source ends. -/
inductive Verdict where
  /-- The source is an expression, or a list of tokens where no more is asked. -/
  | accepted
  /-- There is an error in the source. -/
  | rejected
  /-- The frames ran out, and the program with them. -/
  | exhausted
deriving DecidableEq

def Verdict.exitCode : Verdict → Nat
  | .accepted => 0
  | .rejected | .exhausted => 1

/-- What becomes of one source. -/
structure Report where
  output : String
  verdict : Verdict
  log : List Event

namespace Report

def line (s : String) : String := s ++ "\n"

def lines (ss : List String) : String := String.join (ss.map line)

def listing (tokens : List Token) : String := lines (tokens.map Token.text)

/-- A report with something printed above it. -/
def below (above : String) (r : Report) : Report := { r with output := above ++ r.output }

/-- A prompt, which is all that comes of it. -/
def prompt (shown : String) : Report := ⟨shown, .accepted, []⟩

/-- One report and then another one, unless the first ends the program. An
error in a source does not. -/
def andThen (r s : Report) : Report :=
  match r.verdict with
  | .accepted | .rejected => ⟨r.output ++ s.output, s.verdict, r.log ++ s.log⟩
  | .exhausted => r

section

variable (console : Console)

/-- The text of an error in a source. -/
def failure (e : SourceError) (source : Text) : String :=
  line (console.plain (e.diagnostic source).render)

/-- The line between a listing and a tree. -/
def rule : String := line (String.ofList (List.replicate console.columns '-'))

/-- The tokens up to the first error, and the error if there is one. -/
def scan (source : Text) : Report :=
  let scan := Scan.of source
  let tokens := listing scan.tokens
  let log := scanLog source
  match scan.error? with
  | none => ⟨tokens, .accepted, log⟩
  | some e => ⟨tokens ++ failure console (.lexical e) source, .rejected, log⟩

/-- The drawing of a tree, or nothing. -/
def drawing (e : Expr) (log : List Event) : Report :=
  match e.drawWithin console.frames with
  | some drawn => ⟨line drawn, .accepted, log⟩
  | none => ⟨"", .exhausted, log⟩

/-- The tree. -/
def tree (source : Text) : Report :=
  let log := parseLog source
  match parseSource source with
  | .ok e => drawing console e log
  | .error e => ⟨failure console e source, .rejected, log⟩

/-- All tokens, then the tree. -/
def listedTree (source : Text) : Report :=
  let log := parseLog source
  match lex source with
  | .error e => ⟨failure console (.lexical e) source, .rejected, log⟩
  | .ok tokens =>
    below (listing tokens ++ rule console) <|
      match parse tokens with
      | .ok e => drawing console e log
      | .error e => ⟨failure console (.syntactic e) source, .rejected, log⟩

/-- The tree of a line of a session, nothing for a blank line. -/
def reply (source : Text) : Report :=
  if source.isBlank then ⟨"", .accepted, []⟩ else tree console source

/-- A session from behind a prompt on: the replies to some lines, each with the
next prompt. -/
def replies (shown : String) : List Text → Report
  | [] => ⟨"", .accepted, []⟩
  | l :: ls => ((reply console l).andThen (prompt shown)).andThen (replies shown ls)

/-- What a session says to a piece of input. -/
def answer (shown : String) (input : Text) : Report :=
  replies console shown input.unifyNewlines.readLines

end

end Report

/-- The source that is asked for. A file that is not there counts first. -/
def Origin.source (files : Text → Option (List UInt8)) (o : Origin) : Except Refusal Text :=
  match o.file? with
  | none =>
    match o.expression? with
    | none => .error .noOrigin
    | some text => .ok text
  | some path =>
    match files path with
    | none => .error .malformed
    | some bytes =>
      match o.expression? with
      | none => .ok (Lossy.decode bytes).unifyNewlines
      | some _ => .error .bothOrigins

namespace Invocation

/-- The log as it is printed. -/
def logText (verbose : Bool) (events : List Event) : String :=
  if verbose then Report.lines (events.map fun e => "DEBUG:root:" ++ e.message) else ""

/-- A report as the program ends with it. -/
def finish (verbose : Bool) (r : Report) : Outcome :=
  .finished r.verdict.exitCode r.output (logText verbose r.log)

/-- One source. -/
def single (verbose : Bool) (report : Text → Report) (source : Except Refusal Text) : Outcome :=
  match source with
  | .error reason => .refused reason
  | .ok source => finish verbose (report source)

/-- A session over all of the input, which ends with a prompt unanswered. -/
def session (console : Console) (verbose : Bool) (prompt input : Text) : Outcome :=
  let shown := console.plain prompt.display
  finish verbose ((Report.prompt shown).andThen (Report.answer console shown input))

/-- What comes of an invocation. -/
def run (console : Console) (files : Text → Option (List UInt8)) (input : Text)
    (i : Invocation) : Outcome :=
  match i.request with
  | .scan origin => single i.verbose (Report.scan console) (origin.source files)
  | .parse origin listing =>
    let report := if listing then Report.listedTree console else Report.tree console
    single i.verbose report (origin.source files)
  | .repl prompt => session console i.verbose prompt input

end Invocation

/-- What comes of the arguments of the program. -/
def runArgs (files : Text → Option (List UInt8)) (input : Text) (args : List Text)
    (console : Console := .standard) : Outcome :=
  match Invocation.ofArgs? args with
  | none => .refused .malformed
  | some i => i.run console files input

end ArithTree
