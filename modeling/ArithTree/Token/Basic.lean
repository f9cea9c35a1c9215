import ArithTree.Span

/-!
# Tokens

The words of an expression: whole numbers, the four operators and the two
parentheses. A token knows the span it was read from. Its value is that of a
number; the type lets any token carry one, and lets a number lack one,
because tokens may be made by hand and nothing downstream depends on it.

A token has two written forms. `describe` names it inside a message. `text`
is its line in a listing: the span, the name of its kind and its lexeme, the
first two filled up with spaces to a width of ten.
-/

namespace ArithTree

inductive Token.Kind where
  | number
  | plus
  | minus
  | asterisk
  | slash
  | lparen
  | rparen
deriving DecidableEq

structure Token where
  kind : Token.Kind
  span : Span
  value : Option Int := none
deriving DecidableEq

namespace Token

/-- The kind that a byte is by itself. -/
def Kind.ofByte? (b : UInt8) : Option Kind :=
  if b = 0x2B then some .plus
  else if b = 0x2D then some .minus
  else if b = 0x2A then some .asterisk
  else if b = 0x2F then some .slash
  else if b = 0x28 then some .lparen
  else if b = 0x29 then some .rparen
  else none

/-- The name of a kind in a listing. -/
def Kind.name : Kind → String
  | .number => "NUMBER"
  | .plus => "PLUS"
  | .minus => "MINUS"
  | .asterisk => "ASTERISK"
  | .slash => "SLASH"
  | .lparen => "LPAREN"
  | .rparen => "RPAREN"

/-- A number, or `None` where there is none. -/
def valueText : Option Int → String
  | some n => toString n
  | none => "None"

/-- The token as it would be typed, a number by its value. -/
def lexeme (t : Token) : String :=
  match t.kind with
  | .number => valueText t.value
  | .plus => "+"
  | .minus => "-"
  | .asterisk => "*"
  | .slash => "/"
  | .lparen => "("
  | .rparen => ")"

def describe (t : Token) : String :=
  match t.kind with
  | .number => "number " ++ t.lexeme
  | _ => "'" ++ t.lexeme ++ "'"

/-- Fills a field up to `width` with spaces on the right. -/
def field (width : Nat) (s : String) : String :=
  s ++ String.ofList (List.replicate (width - s.length) ' ')

def text (t : Token) : String :=
  field 10 t.span.text ++ " " ++ field 10 t.kind.name ++ " " ++ t.lexeme

end Token

end ArithTree
