import ArithTree.Expr.Basic
import ArithTree.Token.Basic

/-!
# Parsing steps

The state of a parser is a place in a list of tokens, the number of groups
that are open, and a record of the operations applied so far. A step gives an
answer or an error, and the state after it in either case. A step that fails
leaves the state where it has come to: tokens that were taken stay taken, and
groups that were open at the failure stay counted, so that a parser used
again after it has less room for groups. Whoever drives a parser step by step
sees both.
-/

namespace ArithTree

/-- Why tokens are no expression. -/
inductive ParseError where
  /-- The token should be the beginning of an operand. -/
  | notExpression (token : Token)
  /-- The token should be an operator. -/
  | notOperator (token : Token)
  /-- The token follows what was complete without it. -/
  | redundant (token : Token)
  /-- The group that the parenthesis opens is never closed. -/
  | unclosed (paren : Token)
  /-- The parenthesis opens one group too many. -/
  | tooDeep (paren : Token)
  /-- The tokens end where one more is due. -/
  | unexpectedEnd (span : Span)
deriving DecidableEq

/-- An operation the parser has applied, with the span of the result. -/
inductive Reduction where
  | unary (op : UnaryOp) (span : Span)
  | binary (op : BinaryOp) (span : Span)
deriving DecidableEq

/-- The state of a parser. -/
structure ParseState where
  /-- The tokens that have not been taken. -/
  rest : List Token
  /-- The index of the next token in the whole list. -/
  index : Nat
  /-- How many groups are open. -/
  depth : Nat
  /-- The place to blame when the tokens end too early. -/
  finish : Span
  reductions : Array Reduction
deriving DecidableEq

namespace ParseState

/-- The empty span behind the last token. -/
def finishOf (tokens : List Token) : Span :=
  match tokens.getLast? with
  | some t => .empty t.span.stop
  | none => .empty 0

/-- Before the first of some tokens. -/
def start (tokens : List Token) : ParseState :=
  { rest := tokens, index := 0, depth := 0, finish := finishOf tokens, reductions := #[] }

/-- At an index of the tokens, which may lie past their end. -/
def seek (tokens : List Token) (index : Nat) (s : ParseState) : ParseState :=
  { s with rest := tokens.drop index, index }

end ParseState

/-- A step of a parser whose errors are of some type. -/
abbrev ParseStep (ε : Type) := EStateM ε ParseState

/-- A step of the parser. -/
abbrev Parse := ParseStep ParseError

namespace Parse

def peek : Parse (Option Token) := fun s => .ok s.rest.head? s

/-- Takes the next token if there is one. -/
def consume : Parse (Option Token) := fun s =>
  match s.rest with
  | [] => .ok none s
  | t :: rest => .ok (some t) { s with rest, index := s.index + 1 }

/-- Takes the next token, which has to be there. -/
def demand : Parse Token := fun s =>
  match s.rest with
  | [] => .error (.unexpectedEnd s.finish) s
  | t :: rest => .ok t { s with rest, index := s.index + 1 }

end Parse

end ArithTree
