import ArithTree.Diagnostic.Basic
import ArithTree.Token.Scan

/-!
# Sources

From a source text to its expression in one go, and the log of how it went.
A source is scanned to its end before the parser sees the first token, so an
error of the scanner is told even where the parser would have stopped
earlier, and the log has every token before the first operation.
-/

namespace ArithTree

/-- Why a source is no expression. -/
inductive SourceError where
  | lexical (error : LexError)
  | syntactic (error : ParseError)
deriving DecidableEq

/-- The error as told about its source. -/
def SourceError.diagnostic (e : SourceError) (source : Text) : Diagnostic :=
  match e with
  | .lexical error => (Diagnostic.ofLexError error).about source
  | .syntactic error => (Diagnostic.ofParseError error).about source

/-- The expression that a source is. -/
def parseSource (source : Text) : Except SourceError Expr :=
  match lex source with
  | .error e => .error (.lexical e)
  | .ok tokens =>
    match parse tokens with
    | .error e => .error (.syntactic e)
    | .ok e => .ok e

theorem parseSource_of_lex_error {source : Text} {e : LexError} (h : lex source = .error e) :
    parseSource source = .error (.lexical e) := by
  rw [parseSource, h]

theorem parseSource_of_lex_ok {source : Text} {tokens : List Token}
    (h : lex source = .ok tokens) :
    parseSource source = (parse tokens).mapError .syntactic := by
  simp only [parseSource, h]
  cases parse tokens <;> rfl

/-- What the two stages gave, by what came of the source. -/
theorem stages_of_parseSource (source : Text) :
    match parseSource source with
    | .ok e => ∃ tokens, lex source = .ok tokens ∧ parse tokens = .ok e
    | .error (.lexical e) => lex source = .error e
    | .error (.syntactic e) => ∃ tokens, lex source = .ok tokens ∧ parse tokens = .error e := by
  cases hlex : lex source with
  | error e =>
      rw [parseSource_of_lex_error hlex]
  | ok tokens =>
      rw [parseSource_of_lex_ok hlex]
      cases hparse : parse tokens with
      | ok e | error e => exact ⟨tokens, rfl, hparse⟩

theorem parseSource_ok {source : Text} {e : Expr} (h : parseSource source = .ok e) :
    ∃ tokens, lex source = .ok tokens ∧ parse tokens = .ok e := by
  have hstages := stages_of_parseSource source
  rwa [h] at hstages

/-- What the log records. -/
inductive Event where
  | scanned (token : Token)
  | reduced (reduction : Reduction)
deriving DecidableEq

def Event.message : Event → String
  | .scanned token => "scanned " ++ token.text
  | .reduced (.unary op span) => "reduced unary " ++ op.name ++ " at " ++ span.text
  | .reduced (.binary op span) => "reduced " ++ op.name ++ " at " ++ span.text

/-- The operations that parsing applies, also those before an error. -/
def reductions (tokens : List Token) : List Reduction :=
  match Parse.whole (.start tokens) with
  | .ok _ s | .error _ s => s.reductions.toList

/-- The log of scanning a source. -/
def scanLog (source : Text) : List Event := (Scan.of source).tokens.map .scanned

/-- The log of parsing a source. -/
def parseLog (source : Text) : List Event :=
  scanLog source ++
    match lex source with
    | .error _ => []
    | .ok tokens => (reductions tokens).map .reduced

end ArithTree
