import ArithTree.Expr.Parse.Basic

/-!
# Levels of precedence

A level is a chain of operands with the operators of the level between them,
grouped to the left; the operands of a level are the expressions of the next
tighter one. A chain ends by itself, before the tokens do. The number of
tokens that are left when it begins only serves to bound it: every round but
the last takes an operator.

What builds the levels raises no error of its own. A token that is no
operator of a level ends its chain and is left to whatever comes after. The
errors are those of the operands, and their type is open.
-/

namespace ArithTree.Parse

/-! ## Operators

The operators of a level are a table: what a kind of token means as one. -/

def additive : Token.Kind → Option BinaryOp
  | .plus => some .add
  | .minus => some .sub
  | _ => none

def multiplicative : Token.Kind → Option BinaryOp
  | .asterisk => some .mult
  | .slash => some .div
  | _ => none

def sign : Token.Kind → Option UnaryOp
  | .plus => some .plus
  | .minus => some .minus
  | _ => none

/-- Takes the next token if it is in the table. -/
def operator? {ε α : Type} (table : Token.Kind → Option α) :
    ParseStep ε (Option (Spanned α)) := fun s =>
  match s.rest with
  | [] => .ok none s
  | t :: rest =>
    match table t.kind with
    | some value => .ok (some { value, span := t.span }) { s with rest, index := s.index + 1 }
    | none => .ok none s

/-- Takes the next token, which has to be in the table. A token that is not
stays. -/
def operator {α : Type} (table : Token.Kind → Option α) : Parse (Spanned α) := do
  match ← operator? table with
  | some op => return op
  | none =>
    match ← peek with
    | some t => throw (.notOperator t)
    | none => throw (.unexpectedEnd (← get).finish)

/-- Records an operation. -/
def reduced {ε : Type} (r : Reduction) : ParseStep ε Unit :=
  modify fun s => { s with reductions := s.reductions.push r }

/-- Adds operands to the right of `left` as long as `op?` finds operators, at
most `rounds` of them. -/
def chainFrom {ε : Type} (operand : ParseStep ε Expr)
    (op? : ParseStep ε (Option (Spanned BinaryOp))) : Nat → Expr → ParseStep ε Expr
  | 0, left => return left
  | rounds + 1, left => do
    match ← op? with
    | none => return left
    | some op =>
      let right ← operand
      let e := Expr.applyBinary op left right
      reduced (.binary op.value e.span)
      chainFrom operand op? rounds e

/-- Operands with operators between them, grouped to the left. Every operator
is a token, so there are no more of them than tokens. -/
def chain {ε : Type} (operand : ParseStep ε Expr)
    (op? : ParseStep ε (Option (Spanned BinaryOp))) : ParseStep ε Expr := do
  let first ← operand
  chainFrom operand op? (← get).rest.length first

/-- An operand with a sign in front, or none. -/
def signedOf {ε : Type} (operand : ParseStep ε Expr) : ParseStep ε Expr := do
  match ← operator? sign with
  | none => operand
  | some op =>
    let e := Expr.applyUnary op (← operand)
    reduced (.unary op.value e.span)
    return e

def productOf {ε : Type} (operand : ParseStep ε Expr) : ParseStep ε Expr :=
  chain (signedOf operand) (operator? multiplicative)

def sumOf {ε : Type} (operand : ParseStep ε Expr) : ParseStep ε Expr :=
  chain (productOf operand) (operator? additive)

end ArithTree.Parse
