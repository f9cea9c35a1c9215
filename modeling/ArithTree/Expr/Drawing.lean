import ArithTree.Expr.Basic
import ArithTree.Token.Basic

/-!
# Drawings

An expression drawn as a tree, a line for each node and a line for each of
the two sides of a binary node. A line starts with the indent of its place,
then comes a connector to the node above, which tells whether more is to
follow there. What hangs below a node is indented by four more columns: a
rule down the left where more is to follow, blank where not.

Every node is drawn by a call inside the call that draws its parent, so a
drawing needs as many frames at once as the tree has levels. The parser bounds
how deep groups are nested, but not how long a chain is, and a chain has a
level for each operator. Where the frames run out there is no drawing at all.
-/

namespace ArithTree.Expr

/-- The connector of a node to the one above it. -/
def connector (isLast : Bool) : String := if isLast then "└── " else "├── "

/-- What stands under a connector in the lines below it. -/
def margin (isLast : Bool) : String := if isLast then "    " else "│   "

/-- The line of a node. -/
def line (e : Expr) (isLast : Bool) (indent : String) : String :=
  indent ++ connector isLast ++
    match e with
    | number span value => "Number: " ++ Token.valueText value ++ " (" ++ span.text ++ ")"
    | unary span op _ => "UnaryOp: " ++ op.value.name ++ " (" ++ span.text ++ ")"
    | binary span op _ _ => "BinaryOp: " ++ op.value.name ++ " (" ++ span.text ++ ")"
    | bare _ => "Unknown node: Node"

/-- What hangs below a binary node, by the lines of its two sides. -/
def sides (below : String) (left right : List String) : List String :=
  (below ++ "├── Left:") :: left ++ (below ++ "└── Right:") :: right

/-- The lines of a drawing that hangs at `indent`, last below its parent or
not. -/
def drawLines : Expr → Bool → String → List String
  | number span value, isLast, indent => [line (number span value) isLast indent]
  | unary span op operand, isLast, indent =>
    line (unary span op operand) isLast indent
      :: drawLines operand true (indent ++ margin isLast)
  | binary span op left right, isLast, indent =>
    let below := indent ++ margin isLast
    line (binary span op left right) isLast indent
      :: sides below (drawLines left true (below ++ "│   "))
        (drawLines right true (below ++ "    "))
  | bare span, isLast, indent => [line (bare span) isLast indent]

/-- The drawing of a whole tree. -/
def draw (e : Expr) : String := "\n".intercalate (e.drawLines true "")

/-- How many levels the tree has. -/
def height : Expr → Nat
  | number _ _ | bare _ => 1
  | unary _ _ operand => operand.height + 1
  | binary _ _ left right => max left.height right.height + 1

/-- The lines of a drawing, if there are as many frames for it as it needs. -/
def drawLinesWithin : Nat → Expr → Bool → String → Option (List String)
  | 0, _, _, _ => none
  | _ + 1, number span value, isLast, indent => some [line (number span value) isLast indent]
  | frames + 1, unary span op operand, isLast, indent => do
    let hanging ← drawLinesWithin frames operand true (indent ++ margin isLast)
    return line (unary span op operand) isLast indent :: hanging
  | frames + 1, binary span op left right, isLast, indent => do
    let below := indent ++ margin isLast
    let ls ← drawLinesWithin frames left true (below ++ "│   ")
    let rs ← drawLinesWithin frames right true (below ++ "    ")
    return line (binary span op left right) isLast indent :: sides below ls rs
  | _ + 1, bare span, isLast, indent => some [line (bare span) isLast indent]

/-- A tree is drawn exactly if it has no more levels than there are frames. -/
theorem drawLinesWithin_eq (frames : Nat) (e : Expr) (isLast : Bool) (indent : String) :
    e.drawLinesWithin frames isLast indent =
      if e.height ≤ frames then some (e.drawLines isLast indent) else none := by
  induction e generalizing frames isLast indent with
  | number | bare =>
      cases frames with
      | zero => rfl
      | succ frames => exact (if_pos (Nat.le_add_left 1 frames)).symm
  | unary span op operand ih =>
      cases frames with
      | zero => rfl
      | succ frames =>
          simp only [drawLinesWithin, drawLines, height, ih, Nat.add_le_add_iff_right]
          split <;> rfl
  | binary span op left right ihl ihr =>
      cases frames with
      | zero => rfl
      | succ frames =>
          simp only [drawLinesWithin, drawLines, height, ihl, ihr, Nat.add_le_add_iff_right,
            Nat.max_le]
          by_cases hl : left.height ≤ frames <;> by_cases hr : right.height ≤ frames <;>
            simp [hl, hr]

/-- The drawing of a whole tree, if there are as many frames as it needs. -/
def drawWithin (frames : Nat) (e : Expr) : Option String :=
  (e.drawLinesWithin frames true "").map "\n".intercalate

theorem drawWithin_eq (frames : Nat) (e : Expr) :
    e.drawWithin frames = if e.height ≤ frames then some e.draw else none := by
  rw [drawWithin, drawLinesWithin_eq]
  split <;> rfl

end ArithTree.Expr
