import ArithTree.Expr.Drawing
import ArithTree.Proofs.TextParts

/-!
# A drawing shows its tree

Two trees with one drawing are one tree, as far as a drawing goes: it has every
node with its kind, its span and its operator or value, and only the span of an
operator is not in it.

A drawing is a heading and what hangs below, and all that hangs below stands
behind one margin (`drawLines_eq`). So the indent of a drawing can be taken off
its lines, and what is left is the drawing of the same tree without an indent.
The heading says which node it is of (`heading_inj`). Below a binary node there
are two drawings, and the line between them tells where the first one ends:
every line of the first begins with a rule, and that line does not.
-/

namespace ArithTree

theorem UnaryOp.name_inj {op op' : UnaryOp} (h : op.name = op'.name) : op = op' := by
  revert h
  cases op <;> cases op' <;> decide

theorem BinaryOp.name_inj {op op' : BinaryOp} (h : op.name = op'.name) : op = op' := by
  revert h
  cases op <;> cases op' <;> decide

/-- The names of operators are words. -/
theorem UnaryOp.not_mem_name {c : Char} (hc : c.isUpper = false) (op : UnaryOp) :
    c ∉ op.name.toList :=
  not_mem_of_forall hc (by cases op <;> simp [UnaryOp.name])

theorem BinaryOp.not_mem_name {c : Char} (hc : c.isUpper = false) (op : BinaryOp) :
    c ∉ op.name.toList :=
  not_mem_of_forall hc (by cases op <;> simp [BinaryOp.name])

namespace Expr

/-- What a drawing shows of a tree: not where the operators stand, and of a
node of no form only that it is there. -/
def drawn : Expr → Expr
  | number span value => number span value
  | unary span op operand => unary span ⟨op.value, .empty 0⟩ operand.drawn
  | binary span op left right => binary span ⟨op.value, .empty 0⟩ left.drawn right.drawn
  | bare _ => bare (.empty 0)

/-- A node without the nodes below it. -/
inductive Root where
  | number (span : Span) (value : Option Int)
  | unary (span : Span) (op : UnaryOp)
  | binary (span : Span) (op : BinaryOp)
  | bare

def root : Expr → Root
  | number span value => .number span value
  | unary span op _ => .unary span op.value
  | binary span op _ _ => .binary span op.value
  | bare _ => .bare

/-- A kind, a word that says more, and a span. -/
def titled (kind word : String) (span : Span) : String :=
  kind ++ word ++ " (" ++ span.text ++ ")"

theorem titled_inj {kind word word' : String} {span span' : Span}
    (h : ' ' ∉ word.toList) (h' : ' ' ∉ word'.toList)
    (heq : titled kind word span = titled kind word' span') : word = word' ∧ span = span' := by
  simp only [titled, String.append_assoc, String.append_right_inj] at heq
  have hlist := congrArg String.toList heq
  simp only [String.toList_append] at hlist
  obtain ⟨hword, hspan⟩ := eq_of_append_cons_eq h h' hlist
  have hspan := List.append_cancel_right (List.append_cancel_left (List.cons.inj hspan).2)
  exact ⟨String.toList_inj.mp hword, Span.text_inj.mp (String.toList_inj.mp hspan)⟩

/-- The line of a node, without what is in front of it. -/
def Root.heading : Root → String
  | number span value => titled "Number: " (Token.valueText value) span
  | unary span op => titled "UnaryOp: " op.name span
  | binary span op => titled "BinaryOp: " op.name span
  | bare => "Unknown node: Node"

/-- The third character of its line, by which a node is known. -/
def Root.mark : Root → Char
  | number _ _ => 'm'
  | unary _ _ => 'a'
  | binary _ _ => 'n'
  | bare => 'k'

theorem Root.mark_heading (r : Root) : r.heading.toList[2]? = some r.mark := by
  cases r with
  | number | unary | binary =>
      simp only [heading, titled, String.append_assoc, String.toList_append]
      rfl
  | bare => rfl

theorem Root.heading_inj {r r' : Root} (h : r.heading = r'.heading) : r = r' := by
  have hmark : r.mark = r'.mark := by
    have hthird := congrArg (·.toList[2]?) h
    rw [mark_heading, mark_heading] at hthird
    exact Option.some.inj hthird
  cases r with
  | number span value =>
      cases r' with
      | number span' value' =>
          have hspace := Token.not_mem_valueText (c := ' ') (by decide) (by decide)
          obtain ⟨hvalue, rfl⟩ := titled_inj (hspace value) (hspace value') h
          rw [Token.valueText_inj.mp hvalue]
      | unary | binary | bare => exact absurd hmark (by simp [mark])
  | unary span op =>
      cases r' with
      | unary span' op' =>
          have hspace := UnaryOp.not_mem_name (c := ' ') (by decide)
          obtain ⟨hop, rfl⟩ := titled_inj (hspace op) (hspace op') h
          rw [UnaryOp.name_inj hop]
      | number | binary | bare => exact absurd hmark (by simp [mark])
  | binary span op =>
      cases r' with
      | binary span' op' =>
          have hspace := BinaryOp.not_mem_name (c := ' ') (by decide)
          obtain ⟨hop, rfl⟩ := titled_inj (hspace op) (hspace op') h
          rw [BinaryOp.name_inj hop]
      | number | unary | bare => exact absurd hmark (by simp [mark])
  | bare =>
      cases r' with
      | bare => rfl
      | number | unary | binary => exact absurd hmark (by simp [mark])

/-- The lines below that of a node, without the margin they stand behind. -/
def hanging : Expr → List String
  | number _ _ | bare _ => []
  | unary _ _ operand => operand.drawLines true ""
  | binary _ _ left right =>
    "├── Left:" :: left.drawLines true "│   "
      ++ "└── Right:" :: right.drawLines true "    "

/-- An indent in front of another one stands in front of every line. -/
theorem drawLines_append (e : Expr) (isLast : Bool) (p q : String) :
    e.drawLines isLast (p ++ q) = (e.drawLines isLast q).map (p ++ ·) := by
  induction e generalizing isLast q with
  | number | bare => simp only [drawLines, line, List.map_cons, List.map_nil, String.append_assoc]
  | unary span op operand ih =>
      simp only [drawLines, line, List.map_cons, String.append_assoc, ih]
  | binary span op left right ihl ihr =>
      simp only [drawLines, line, sides, List.map_cons, List.map_append, List.cons_append,
        String.append_assoc, ihl, ihr]

theorem drawLines_indent (e : Expr) (isLast : Bool) (p : String) :
    e.drawLines isLast p = (e.drawLines isLast "").map (p ++ ·) := by
  rw [← drawLines_append, String.append_empty]

theorem line_eq (e : Expr) (isLast : Bool) (indent : String) :
    e.line isLast indent = indent ++ connector isLast ++ e.root.heading := by
  cases e <;> rfl

/-- A drawing is its heading and what hangs below, wherever it is put. -/
theorem drawLines_eq (e : Expr) (isLast : Bool) (indent : String) :
    e.drawLines isLast indent =
      (indent ++ connector isLast ++ e.root.heading) ::
        e.hanging.map (indent ++ margin isLast ++ ·) := by
  rw [← line_eq]
  cases e with
  | number | bare => rfl
  | unary span op operand =>
      rw [hanging, ← drawLines_append, String.append_empty, drawLines]
  | binary span op left right =>
      rw [hanging, List.map_append, List.map_cons, List.map_cons, ← drawLines_append,
        ← drawLines_append, drawLines, sides]

/-- A drawing is the same wherever it hangs. An indent in front of its own stands in
front of every line, and whether more is to follow at its parent is told by four
characters of each line, the connector in the first and the margin in the others. -/
theorem drawLines_placed (e : Expr) :
    (∀ (isLast : Bool) (p q : String),
      e.drawLines isLast (p ++ q) = (e.drawLines isLast q).map (p ++ ·)) ∧
    ∃ (heading : String) (below : List String), ∀ indent : String,
      e.drawLines true indent =
          (indent ++ "└── " ++ heading) :: below.map (indent ++ "    " ++ ·) ∧
        e.drawLines false indent =
          (indent ++ "├── " ++ heading) :: below.map (indent ++ "│   " ++ ·) := by
  refine ⟨e.drawLines_append, e.root.heading, e.hanging, fun indent => ⟨?_, ?_⟩⟩
  · exact e.drawLines_eq true indent
  · exact e.drawLines_eq false indent

/-- The line between the two drawings below a binary node is not of the first. -/
theorem right_not_mem (e : Expr) : "└── Right:" ∉ e.drawLines true "│   " := by
  rw [drawLines_indent]
  intro hmem
  obtain ⟨l, -, hl⟩ := List.mem_map.mp hmem
  have hlist := congrArg String.toList hl
  rw [String.toList_append] at hlist
  exact absurd (List.cons.inj hlist).1 (by decide)

theorem root_hanging_of_drawLines {e e' : Expr} {isLast : Bool} {indent : String}
    (h : e.drawLines isLast indent = e'.drawLines isLast indent) :
    e.root = e'.root ∧ e.hanging = e'.hanging := by
  rw [drawLines_eq, drawLines_eq] at h
  obtain ⟨hheading, hhanging⟩ := List.cons.inj h
  refine ⟨Root.heading_inj ((String.append_right_inj _).mp hheading), ?_⟩
  exact (List.map_inj_right fun _ _ => (String.append_right_inj _).mp).mp hhanging

theorem drawn_of_drawLines {e e' : Expr} {isLast : Bool} {indent : String}
    (h : e.drawLines isLast indent = e'.drawLines isLast indent) : e.drawn = e'.drawn := by
  induction e generalizing e' isLast indent with
  | number span value =>
      obtain ⟨hroot, -⟩ := root_hanging_of_drawLines h
      cases e' with
      | number => cases hroot; rfl
      | unary | binary | bare => cases hroot
  | unary span op operand ih =>
      obtain ⟨hroot, hhanging⟩ := root_hanging_of_drawLines h
      cases e' with
      | unary span' op' operand' =>
          obtain ⟨rfl, hop⟩ := Root.unary.inj hroot
          rw [drawn, drawn, hop, ih hhanging]
      | number | binary | bare => cases hroot
  | binary span op left right ihl ihr =>
      obtain ⟨hroot, hhanging⟩ := root_hanging_of_drawLines h
      cases e' with
      | binary span' op' left' right' =>
          obtain ⟨rfl, hop⟩ := Root.binary.inj hroot
          obtain ⟨hleft, hright⟩ := eq_of_append_cons_eq (right_not_mem left)
            (right_not_mem left') (List.cons.inj hhanging).2
          rw [drawn, drawn, hop, ihl hleft, ihr hright]
      | number | unary | bare => cases hroot
  | bare span =>
      obtain ⟨hroot, -⟩ := root_hanging_of_drawLines h
      cases e' with
      | bare => rfl
      | number | unary | binary => cases hroot

/-- Where the operators stand makes no difference to a drawing. -/
theorem drawLines_drawn (e : Expr) (isLast : Bool) (indent : String) :
    e.drawn.drawLines isLast indent = e.drawLines isLast indent := by
  induction e generalizing isLast indent with
  | number | bare => rfl
  | unary span op operand ih => simp only [drawn, drawLines, line, ih]
  | binary span op left right ihl ihr => simp only [drawn, drawLines, line, ihl, ihr]

/-- A character that no heading is written with. -/
def Unheaded (c : Char) : Prop :=
  Apart c ∧ c ≠ '.' ∧ c.isUpper = false ∧ c ∉ "Number: UnaryOp: BinaryOp: None ()".toList ∧
    c ∉ "Unknown node: Node".toList

instance (c : Char) : Decidable (Unheaded c) := inferInstanceAs (Decidable (_ ∧ _))

theorem not_mem_titled {c : Char} {kind word : String} {span : Span}
    (hkind : c ∉ kind.toList) (hword : c ∉ word.toList) (hspan : c ∉ span.text.toList)
    (hfixed : c ∉ " ()".toList) : c ∉ (titled kind word span).toList := by
  simp_all [titled]

theorem Root.not_mem_heading {c : Char} (hc : Unheaded c) (r : Root) :
    c ∉ r.heading.toList := by
  obtain ⟨hapart, hdot, hupper, hfixed, hbare⟩ := hc
  have hspan := Span.not_mem_text hapart hdot
  have part : ∀ s : String, s.toList ⊆ "Number: UnaryOp: BinaryOp: None ()".toList →
      c ∉ s.toList := fun s hs hmem => hfixed (hs hmem)
  cases r with
  | number span value =>
      have hvalue := Token.not_mem_valueText hapart (part "None" (by decide)) value
      exact not_mem_titled (part _ (by decide)) hvalue (hspan span) (part _ (by decide))
  | unary span op =>
      have hname := op.not_mem_name hupper
      exact not_mem_titled (part _ (by decide)) hname (hspan span) (part _ (by decide))
  | binary span op =>
      have hname := op.not_mem_name hupper
      exact not_mem_titled (part _ (by decide)) hname (hspan span) (part _ (by decide))
  | bare => exact hbare

theorem newline_not_mem_of_hanging {e : Expr} {isLast : Bool} {indent : String}
    (hindent : '\n' ∉ indent.toList) (h : ∀ l ∈ e.hanging, '\n' ∉ l.toList) :
    ∀ l ∈ e.drawLines isLast indent, '\n' ∉ l.toList := by
  have hconnector : '\n' ∉ (connector isLast).toList := by cases isLast <;> decide
  have hmargin : '\n' ∉ (margin isLast).toList := by cases isLast <;> decide
  have hheading : '\n' ∉ e.root.heading.toList := e.root.not_mem_heading (by decide)
  rw [drawLines_eq]
  intro l hl
  rcases List.mem_cons.mp hl with rfl | hl
  · simp [hindent, hconnector, hheading]
  · obtain ⟨t, ht, rfl⟩ := List.mem_map.mp hl
    simp [hindent, hmargin, h t ht]

theorem newline_not_mem_drawLines {e : Expr} {isLast : Bool} {indent : String}
    (h : '\n' ∉ indent.toList) : ∀ l ∈ e.drawLines isLast indent, '\n' ∉ l.toList := by
  induction e generalizing isLast indent with
  | number | bare => exact newline_not_mem_of_hanging h (List.forall_mem_nil _)
  | unary span op operand ih => exact newline_not_mem_of_hanging h (ih (by decide))
  | binary span op left right ihl ihr =>
      refine newline_not_mem_of_hanging h fun l hl => ?_
      rcases List.mem_append.mp hl with hl | hl
      · rcases List.mem_cons.mp hl with rfl | hl
        · decide
        · exact ihl (by decide) l hl
      · rcases List.mem_cons.mp hl with rfl | hl
        · decide
        · exact ihr (by decide) l hl

/-- Two trees are drawn alike exactly if they are one tree but for the spans of
their operators. -/
theorem draw_eq_iff (e e' : Expr) :
    (e.draw = e'.draw ↔ e.drawn = e'.drawn) ∧
      ∀ isLast indent,
        e.drawLines isLast indent = e'.drawLines isLast indent ↔ e.drawn = e'.drawn := by
  have hlines : ∀ isLast indent,
      e.drawLines isLast indent = e'.drawLines isLast indent ↔ e.drawn = e'.drawn := by
    refine fun isLast indent => ⟨drawn_of_drawLines, fun h => ?_⟩
    rw [← e.drawLines_drawn, h, e'.drawLines_drawn]
  have hne : ∀ d : Expr, d.drawLines true "" ≠ [] := fun d => by simp [drawLines_eq]
  refine ⟨⟨fun h => ?_, fun h => ?_⟩, hlines⟩
  · exact (hlines true "").mp (eq_of_joined_eq (newline_not_mem_drawLines (by decide))
      (newline_not_mem_drawLines (by decide)) (hne e) (hne e') h)
  · rw [draw, draw, (hlines true "").mpr h]

end Expr

end ArithTree
