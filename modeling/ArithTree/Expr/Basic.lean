import ArithTree.Span

/-!
# Expressions

The tree of an expression. Every node has a span, and so has every operator.
Parentheses leave no trace. As with tokens, the type asks nothing of spans
and values; it even has a node of no particular form. What the library builds
goes through `Expr.applyUnary` and `Expr.applyBinary`, which give a composite
node the span that covers its operator and its operands.
-/

namespace ArithTree

/-- The sign in front of an operand. -/
inductive UnaryOp where
  | plus
  | minus
deriving DecidableEq

inductive BinaryOp where
  | add
  | sub
  | mult
  | div
deriving DecidableEq

def UnaryOp.name : UnaryOp → String
  | .plus => "PLUS"
  | .minus => "MINUS"

def BinaryOp.name : BinaryOp → String
  | .add => "ADD"
  | .sub => "SUB"
  | .mult => "MULT"
  | .div => "DIV"

inductive Expr where
  | number (span : Span) (value : Option Int)
  | unary (span : Span) (op : Spanned UnaryOp) (operand : Expr)
  | binary (span : Span) (op : Spanned BinaryOp) (left right : Expr)
  /-- A node with a span and nothing else. -/
  | bare (span : Span)
deriving DecidableEq

namespace Expr

def span : Expr → Span
  | number span _ => span
  | unary span _ _ => span
  | binary span _ _ _ => span
  | bare span => span

/-- A sign in front of its operand. -/
def applyUnary (op : Spanned UnaryOp) (operand : Expr) : Expr :=
  unary (op.span.merge operand.span) op operand

/-- An operator between its operands. -/
def applyBinary (op : Spanned BinaryOp) (left right : Expr) : Expr :=
  binary ((left.span.merge op.span).merge right.span) op left right

end Expr

end ArithTree
