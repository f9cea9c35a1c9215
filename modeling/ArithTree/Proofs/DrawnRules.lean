import ArithTree.Proofs.DrawnTrees
import ArithTree.Proofs.ExprSpans
import Mathlib.Data.List.Chain

/-!
# The rules of a drawing are whole

A rule runs down the left of a drawing wherever more is to follow there. It
begins at the branch to a left operand, goes through all the lines of that
operand, however many there are, and ends in the corner at the right one. So
below a branch or a rule the next line always has a rule or a corner in the same
column, and there is a next line.

This is a matter of two lines at a time, and it is kept when both are indented
by the same margin, because a rule stands above itself and a blank asks for
nothing (`Meets.indent`). What the induction has to know besides is that the
last line of a drawing leaves nothing open: then the corner below a left operand
has to close one rule only, the one that was put in front of it.

Below a binary node stand its two operands and a line above each, so a drawing
has as many lines as that makes, and one branch for each binary node.
-/

namespace ArithTree

/-- A branch or a rule, which has to go on below. -/
def goesDown (c : Char) : Bool := c = '├' || c = '│'

/-- A rule or a corner, which goes on from above. -/
def comesDown (c : Char) : Bool := c = '│' || c = '└'

/-- Below all that goes down in a line the next one has what comes down. -/
def Meets (l l' : List Char) : Prop :=
  ∀ (column : Nat) (c : Char), l[column]? = some c → goesDown c = true →
    ∃ d, l'[column]? = some d ∧ comesDown d = true

/-- Nothing goes down from the line. -/
def Quiet (l : List Char) : Prop := ∀ c ∈ l, goesDown c = false

instance (l : List Char) : Decidable (Quiet l) := List.decidableBAll (goesDown · = false) l

theorem Quiet.append {l l' : List Char} (h : Quiet l) (h' : Quiet l') : Quiet (l ++ l') :=
  fun c hc => (List.mem_append.mp hc).elim (h c) (h' c)

theorem Quiet.meets {l : List Char} (h : Quiet l) (l' : List Char) : Meets l l' := by
  intro column c hc hdown
  rw [h c (List.mem_of_getElem? hc)] at hdown
  cases hdown

theorem Meets.indent {p l l' : List Char} (hp : Meets p p) (h : Meets l l') :
    Meets (p ++ l) (p ++ l') := by
  intro column c hc hdown
  by_cases hlt : column < p.length
  · rw [List.getElem?_append_left hlt] at hc ⊢
    exact hp column c hc hdown
  · rw [List.getElem?_append_right (Nat.not_lt.mp hlt)] at hc ⊢
    exact h _ c hc hdown

/-- Where only the first column goes down, only the first column is asked for. -/
theorem Quiet.meets_cons {c d : Char} {l : List Char} (h : Quiet l) (hd : comesDown d = true)
    (l' : List Char) : Meets (c :: l) (d :: l') := by
  intro column c' hc hdown
  cases column with
  | zero => exact ⟨d, rfl, hd⟩
  | succ column => exact h.meets l' column c' hc hdown

/-- Every line meets the next one, and the last one leaves nothing open. -/
structure Connected (ls : List String) : Prop where
  chain : ls.IsChain fun l l' => Meets l.toList l'.toList
  ends : ∀ l ∈ ls.getLast?, Quiet l.toList

theorem connected_nil : Connected [] := ⟨.nil, nofun⟩

theorem Connected.cons {l : String} {ls : List String} (hl : Quiet l.toList)
    (h : Connected ls) : Connected (l :: ls) where
  chain := List.isChain_cons.mpr ⟨fun _ _ => hl.meets _, h.chain⟩
  ends := by
    intro l' hl'
    cases ls with
    | nil =>
        obtain rfl : l = l' := by simpa using hl'
        exact hl
    | cons m ls => exact h.ends l' (by rwa [List.getLast?_cons_cons] at hl')

theorem isChain_indent {ls : List String} {p : String} (hp : Meets p.toList p.toList)
    (h : Connected ls) :
    (ls.map (p ++ ·)).IsChain fun l l' => Meets l.toList l'.toList := by
  refine List.isChain_map_of_isChain _ (fun l l' hmeets => ?_) h.chain
  rw [String.toList_append, String.toList_append]
  exact hp.indent hmeets

theorem Connected.indent {ls : List String} {p : String} (hp : Quiet p.toList)
    (h : Connected ls) : Connected (ls.map (p ++ ·)) where
  chain := isChain_indent (hp.meets _) h
  ends := by
    intro l hl
    rw [List.getLast?_map, Option.mem_def, Option.map_eq_some_iff] at hl
    obtain ⟨m, hm, rfl⟩ := hl
    rw [String.toList_append]
    exact hp.append (h.ends m hm)

/-- What hangs below a binary node: the rule from the branch runs beside the
left operand and ends in the corner. -/
theorem Connected.branch {ls rs : List String} (hl : Connected ls) (hr : Connected rs) :
    Connected ("├── Left:" :: ls.map ("│   " ++ ·) ++ "└── Right:" :: rs.map ("    " ++ ·)) := by
  have hleft : "├── Left:".toList = '├' :: "── Left:".toList := by decide
  have hright : "└── Right:".toList = '└' :: "── Right:".toList := by decide
  have hmargin : "│   ".toList = '│' :: "   ".toList := by decide
  have hquiet : Quiet "── Left:".toList := by decide
  have hblank : Quiet "   ".toList := by decide
  have hcorner : Connected ("└── Right:" :: rs.map ("    " ++ ·)) :=
    (hr.indent (by decide)).cons (by decide)
  have hrule : Meets "│   ".toList "│   ".toList := by
    rw [hmargin]
    exact hblank.meets_cons (by decide) _
  refine ⟨List.IsChain.append (List.isChain_cons.mpr ⟨?_, isChain_indent hrule hl⟩)
    hcorner.chain ?_, ?_⟩
  · intro l hfirst
    rw [List.head?_map, Option.mem_def, Option.map_eq_some_iff] at hfirst
    obtain ⟨m, -, rfl⟩ := hfirst
    rw [String.toList_append, hleft, hmargin, List.cons_append]
    exact hquiet.meets_cons (by decide) _
  · intro l hlast r hfirst
    obtain rfl : "└── Right:" = r := by simpa using hfirst
    cases ls with
    | nil =>
        obtain rfl : "├── Left:" = l := by simpa using hlast
        rw [hleft, hright]
        exact hquiet.meets_cons (by decide) _
    | cons m ls =>
        rw [List.map_cons, List.getLast?_cons_cons, ← List.map_cons, List.getLast?_map,
          Option.mem_def, Option.map_eq_some_iff] at hlast
        obtain ⟨n, hn, rfl⟩ := hlast
        rw [String.toList_append, hmargin, hright, List.cons_append]
        exact (hblank.append (hl.ends n hn)).meets_cons (by decide) _
  · intro l hlast
    rw [List.getLast?_append_of_ne_nil _ (List.cons_ne_nil _ _)] at hlast
    exact hcorner.ends l hlast

namespace Expr

theorem quiet_heading (r : Root) : Quiet r.heading.toList := by
  intro c hc
  simp only [goesDown, Bool.or_eq_false_iff, decide_eq_false_iff_not]
  constructor
  · rintro rfl
    exact r.not_mem_heading (by decide) hc
  · rintro rfl
    exact r.not_mem_heading (by decide) hc

theorem connected_of_hanging {e : Expr} (h : Connected e.hanging) :
    Connected (e.drawLines true "") := by
  rw [drawLines_eq]
  refine Connected.cons ?_ (h.indent (by decide))
  rw [String.toList_append]
  exact Quiet.append (by decide) (quiet_heading e.root)

theorem connected_drawLines (e : Expr) : Connected (e.drawLines true "") := by
  induction e with
  | number | bare => exact connected_of_hanging connected_nil
  | unary span op operand ih => exact connected_of_hanging ih
  | binary span op left right ihl ihr =>
      refine connected_of_hanging ?_
      rw [hanging, drawLines_indent left, drawLines_indent right]
      exact ihl.branch ihr

def isNumber : Expr → Bool
  | number _ _ => true
  | _ => false

def isUnary : Expr → Bool
  | unary _ _ _ => true
  | _ => false

def isBinary : Expr → Bool
  | binary _ _ _ _ => true
  | _ => false

def isBare : Expr → Bool
  | bare _ => true
  | _ => false

theorem length_drawLines (e : Expr) (isLast : Bool) (indent : String) :
    (e.drawLines isLast indent).length =
      e.nodes.countP isNumber + e.nodes.countP isUnary + 3 * e.nodes.countP isBinary
        + e.nodes.countP isBare := by
  induction e generalizing isLast indent with
  | number | bare => rfl
  | unary span op operand ih =>
      simp only [drawLines, nodes, List.length_cons, ih, List.countP_cons, isNumber, isUnary,
        isBinary, isBare, if_true, Bool.false_eq_true, if_false]
      omega
  | binary span op left right ihl ihr =>
      simp only [drawLines, sides, nodes, List.length_cons, List.length_append, ihl, ihr,
        List.countP_cons, List.countP_append, isNumber, isUnary, isBinary, isBare,
        if_true, Bool.false_eq_true, if_false]
      omega

/-- How many branches there are in some lines. -/
def branches (ls : List String) : Nat := (ls.flatMap String.toList).count '├'

theorem branches_cons (l : String) (ls : List String) :
    branches (l :: ls) = l.toList.count '├' + branches ls := by
  rw [branches, List.flatMap_cons, List.count_append]
  rfl

theorem branches_append (ls ls' : List String) :
    branches (ls ++ ls') = branches ls + branches ls' := by
  rw [branches, List.flatMap_append, List.count_append]
  rfl

theorem branches_indent {p : String} (hp : '├' ∉ p.toList) (ls : List String) :
    branches (ls.map (p ++ ·)) = branches ls := by
  induction ls with
  | nil => rfl
  | cons l ls ih =>
      rw [List.map_cons, branches_cons, branches_cons, ih, String.toList_append,
        List.count_append, List.count_eq_zero_of_not_mem hp, Nat.zero_add]

theorem branches_drawLines_eq (e : Expr) :
    branches (e.drawLines true "") = branches e.hanging := by
  have hheading : '├' ∉ e.root.heading.toList := e.root.not_mem_heading (by decide)
  rw [drawLines_eq, branches_cons, branches_indent (by decide), String.toList_append,
    List.count_append, List.count_eq_zero_of_not_mem hheading]
  exact Nat.zero_add _

theorem branches_drawLines (e : Expr) :
    branches (e.drawLines true "") = e.nodes.countP isBinary := by
  induction e with
  | number | bare => exact branches_drawLines_eq _
  | unary span op operand ih =>
      rw [branches_drawLines_eq, hanging, ih, nodes, List.countP_cons]
      rfl
  | binary span op left right ihl ihr =>
      rw [branches_drawLines_eq, hanging, drawLines_indent left, drawLines_indent right,
        branches_append, branches_cons, branches_cons, branches_indent (by decide),
        branches_indent (by decide), ihl, ihr, nodes, List.countP_cons, List.countP_append]
      show 1 + _ + (0 + _) = _ + 1
      omega

/-- The lines of the printed drawing. -/
def rows (e : Expr) : List String := (e.draw.split '\n').toList.map (·.copy)

theorem rows_eq (e : Expr) : e.rows = e.drawLines true "" := by
  have hne : e.drawLines true "" ≠ [] := by simp [drawLines_eq]
  exact (String.toList_split_intercalate (newline_not_mem_drawLines (by decide))).trans
    (if_neg hne)

/-- What stands in a column of a line. -/
def glyph? (e : Expr) (row column : Nat) : Option Char :=
  e.rows[row]?.bind (·.toList[column]?)

/-- Below every branch and every rule of a drawing there is a rule or a corner.
There is a line for each node, two more for each binary node, and one branch for
each binary node. -/
theorem rules_unbroken (e : Expr) :
    (∀ row column c, e.glyph? row column = some c → c = '│' ∨ c = '├' →
      ∃ d, e.glyph? (row + 1) column = some d ∧ (d = '│' ∨ d = '└')) ∧
    e.rows.length =
      e.nodes.countP isNumber + e.nodes.countP isUnary + 3 * e.nodes.countP isBinary
        + e.nodes.countP isBare ∧
    (e.rows.flatMap String.toList).count '├' = e.nodes.countP isBinary := by
  have hconnected : Connected e.rows := e.rows_eq ▸ e.connected_drawLines
  refine ⟨fun row column c hc hdown => ?_, ?_, ?_⟩
  · obtain ⟨l, hl, hc⟩ := Option.bind_eq_some_iff.mp hc
    have hdown : goesDown c = true := by
      rcases hdown with rfl | rfl <;> decide
    have hnext : row + 1 < e.rows.length := by
      by_contra hlast
      have hlen := (List.getElem?_eq_some_iff.mp hl).1
      have hmem : l ∈ e.rows.getLast? := by
        rw [List.getLast?_eq_getElem?, show e.rows.length - 1 = row by omega, hl]
        rfl
      have hquiet := hconnected.ends l hmem c (List.mem_of_getElem? hc)
      rw [hdown] at hquiet
      cases hquiet
    have hmeets := List.isChain_iff_getElem.mp hconnected.chain row hnext
    rw [List.getElem?_eq_some_iff] at hl
    obtain ⟨hlt, rfl⟩ := hl
    obtain ⟨d, hd, hcomes⟩ := hmeets column c hc hdown
    refine ⟨d, ?_, by simpa [comesDown] using hcomes⟩
    rw [glyph?, List.getElem?_eq_getElem hnext, Option.bind_some, hd]
  · rw [rows_eq, length_drawLines]
  · rw [rows_eq]
    exact e.branches_drawLines

end Expr

end ArithTree
