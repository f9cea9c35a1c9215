import ArithTree.Expr.Parse.Grammar
import ArithTree.Text.Quoted
import ArithTree.Token.Cursor

/-!
# Diagnostics

A diagnostic is an error as it is told: what is wrong, a message, and where
known the span it is about and the source that holds the span. What is wrong
is put by a kind, with the offending character of a lexical error or the
offending token of a syntactic one.

The errors of cursors and parsers become diagnostics by `ofLexError` and
`ofParseError`. Diagnostics are the wider type: any kind may go with any
token, any message and any span.
-/

namespace ArithTree

namespace Diagnostic

inductive Lexical where
  | invalidChar
  | unexpectedEnd
  | overflow
deriving DecidableEq

inductive Syntactic where
  | unexpectedToken
  | notExpression
  | notOperator
  | unclosedParen
  | redundant
  | tooDeep
  | unexpectedEnd
deriving DecidableEq

/-- What a syntactic error is called in a message. -/
def Syntactic.text : Syntactic → String
  | .unexpectedToken => "unexpected token"
  | .notExpression => "expected an expression"
  | .notOperator => "expected an operator"
  | .unclosedParen => "unclosed '('"
  | .redundant => "unexpected trailing token"
  | .tooDeep => "parentheses nested too deeply"
  | .unexpectedEnd => "unexpected end of input"

/-- What is wrong. -/
inductive Subject where
  | general
  | lexical (kind : Lexical) (char? : Option Text)
  | syntactic (kind : Syntactic) (token? : Option Token)
deriving DecidableEq

end Diagnostic

structure Diagnostic where
  subject : Diagnostic.Subject
  message : String
  span? : Option Span
  source? : Option Text := none
deriving DecidableEq

namespace Diagnostic

/-- The character belongs to no token. -/
def invalidChar (char : Text) (span? : Option Span) : Diagnostic :=
  { subject := .lexical .invalidChar (some char)
    message := "invalid character " ++ char.quoted
    span? }

def overflow (lexeme : String) (span? : Option Span) : Diagnostic :=
  { subject := .lexical .overflow none
    message := "integer literal " ++ lexeme ++ " does not fit in 64 bits"
    span? }

def endOfText (span? : Option Span) : Diagnostic :=
  { subject := .lexical .unexpectedEnd none
    message := "unexpected end of input"
    span? }

def ofLexError : LexError → Diagnostic
  | .invalidChar char offset => invalidChar [char] (some ⟨offset, offset + 1⟩)
  | .overflow lexeme span => overflow lexeme (some span)
  | .unexpectedEnd offset => endOfText (some (.empty offset))
  | .splitChar offset | .noChar offset =>
    { subject := .general
      message := "no character begins here"
      span? := some (.empty offset) }

/-- The token is not of the kind that was due. -/
def got (kind : Syntactic) (token : Token) : Diagnostic :=
  { subject := .syntactic kind (some token)
    message := kind.text ++ ", got " ++ token.describe
    span? := some token.span }

def unclosed (paren : Token) : Diagnostic :=
  { subject := .syntactic .unclosedParen (some paren)
    message := Syntactic.unclosedParen.text
    span? := some paren.span }

def tooDeep (paren : Token) (limit : Int) : Diagnostic :=
  { subject := .syntactic .tooDeep (some paren)
    message := "parentheses nested more than " ++ toString limit ++ " deep"
    span? := some paren.span }

def endOfTokens (span? : Option Span) : Diagnostic :=
  { subject := .syntactic .unexpectedEnd none
    message := Syntactic.unexpectedEnd.text
    span? }

def ofParseError : ParseError → Diagnostic
  | .notExpression token => got .notExpression token
  | .notOperator token => got .notOperator token
  | .redundant token => got .redundant token
  | .unclosed paren => unclosed paren
  | .tooDeep paren => tooDeep paren nestingLimit
  | .unexpectedEnd span => endOfTokens (some span)

/-- The diagnostic about a source. -/
def about (d : Diagnostic) (source : Text) : Diagnostic := { d with source? := some source }

end Diagnostic

end ArithTree
