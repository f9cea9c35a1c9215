import ArithTree.Expr.Parse.Level

/-!
# The grammar

The grammar of expressions, the loosest binding first:

    sum     := product (("+" | "-") product)*
    product := signed (("*" | "/") signed)*
    signed  := ("+" | "-")? atom
    atom    := NUMBER | "(" sum ")"

Operators of one level group to the left, and an operand takes at most one
sign. At most a hundred groups may be open at once.

Only an atom leads back to the grammar, and each time with one group more. So
the recursion is on the room that is left for groups and needs no other
bound.
-/

namespace ArithTree

/-- How many groups may be open at once. -/
def nestingLimit : Nat := 100

namespace Parse

/-- Counts one group more. -/
def enter : Parse Unit := modify fun s => { s with depth := s.depth + 1 }

/-- Ends the group that `paren` opened. -/
def leave (paren : Token) : Parse Unit := do
  match ← consume with
  | none => throw (.unclosed paren)
  | some t =>
    if t.kind = .rparen then modify fun s => { s with depth := s.depth - 1 }
    else throw (.redundant t)

/-- A number, or what `group` makes of an opening parenthesis. -/
def atomOf (group : Token → Parse Expr) : Parse Expr := do
  let t ← demand
  match t.kind with
  | .number => return .number t.span t.value
  | .lparen => do
    enter
    group t
  | _ => throw (.notExpression t)

/-- An atom where there is room for so many more groups. -/
def atomWithin : Nat → Parse Expr
  | 0 => atomOf fun paren => throw (.tooDeep paren)
  | room + 1 => atomOf fun paren => do
    let inner ← sumOf (atomWithin room)
    leave paren
    return inner

/-- The room for groups that the open ones have left. -/
def room (s : ParseState) : Nat := nestingLimit - s.depth

def atom : Parse Expr := fun s => atomWithin (room s) s

def signed : Parse Expr := fun s => signedOf (atomWithin (room s)) s

def product : Parse Expr := fun s => productOf (atomWithin (room s)) s

def sum : Parse Expr := fun s => sumOf (atomWithin (room s)) s

/-- An expression with nothing after it. -/
def whole : Parse Expr := do
  let e ← sum
  match ← consume with
  | none => return e
  | some t => throw (.redundant t)

end Parse

/-- The expression that some tokens are. -/
def parse (tokens : List Token) : Except ParseError Expr :=
  match Parse.whole (.start tokens) with
  | .ok e _ => .ok e
  | .error e _ => .error e

end ArithTree
