import ArithTree.Expr.Basic
import ArithTree.Token.Basic

/-!
# The spans of a tree

A tree still has all tokens it was made of but the parentheses, and reading it
from left to right lists them. The span that a composite node gets covers its
operator and its operands and so, all the way down, the tokens in its part of
the tree, and not more: the least start and the greatest stop are those of
tokens (`Hull`). This needs nothing of the spans themselves, which may overlap
or run backwards.

Where the tokens stand in order, side by side, the least start is that of the
first and the greatest stop that of the last. Then the nodes stand in order
too: the left operand ends before the operator begins, and the operator before
the right one.
-/

namespace ArithTree

def UnaryOp.kind : UnaryOp → Token.Kind
  | .plus => .plus
  | .minus => .minus

def BinaryOp.kind : BinaryOp → Token.Kind
  | .add => .plus
  | .sub => .minus
  | .mult => .asterisk
  | .div => .slash

namespace Expr

/-- The tokens in a tree, from left to right. -/
def inorder : Expr → List Token
  | number span value => [{ kind := .number, span, value }]
  | unary _ op operand => { kind := op.value.kind, span := op.span } :: operand.inorder
  | binary _ op left right =>
    left.inorder ++ { kind := op.value.kind, span := op.span } :: right.inorder
  | bare _ => []

/-- The root and all nodes below it. -/
def nodes : Expr → List Expr
  | number span value => [number span value]
  | unary span op operand => unary span op operand :: operand.nodes
  | binary span op left right => binary span op left right :: (left.nodes ++ right.nodes)
  | bare span => [bare span]

/-- Made of numbers by signs and operators. -/
inductive Built : Expr → Prop where
  | number (span : Span) (value : Option Int) : Built (number span value)
  | unary (op : Spanned UnaryOp) {operand : Expr} (h : Built operand) :
      Built (applyUnary op operand)
  | binary (op : Spanned BinaryOp) {left right : Expr} (hl : Built left) (hr : Built right) :
      Built (applyBinary op left right)

/-- Whatever is true of a built tree is true of its nodes, if it goes down from
a node to its operands. -/
theorem Built.of_mem_nodes {e : Expr} (h : e.Built) : ∀ d ∈ e.nodes, d.Built := by
  induction h with
  | number span value =>
      intro d hd
      rw [List.mem_singleton.mp hd]
      exact .number span value
  | unary op h ih =>
      intro d hd
      rcases List.mem_cons.mp hd with rfl | hd
      · exact .unary op h
      · exact ih d hd
  | binary op hl hr ihl ihr =>
      intro d hd
      rcases List.mem_cons.mp hd with rfl | hd
      · exact .binary op hl hr
      · rcases List.mem_append.mp hd with hd | hd
        · exact ihl d hd
        · exact ihr d hd

/-- The tokens of a node stand together among those of the tree. -/
theorem inorder_of_mem_nodes {e : Expr} : ∀ d ∈ e.nodes, d.inorder <:+: e.inorder := by
  induction e with
  | number | bare =>
      intro d hd
      obtain rfl := List.mem_singleton.mp hd
      exact List.infix_refl _
  | unary span op operand ih =>
      intro d hd
      rcases List.mem_cons.mp hd with rfl | hd
      · exact List.infix_refl _
      · exact (ih d hd).trans (List.suffix_cons _ _).isInfix
  | binary span op left right ihl ihr =>
      intro d hd
      rcases List.mem_cons.mp hd with rfl | hd
      · exact List.infix_refl _
      · rcases List.mem_append.mp hd with hd | hd
        · exact (ihl d hd).trans (List.prefix_append _ _).isInfix
        · exact (ihr d hd).trans
            ((List.suffix_cons _ _).trans (List.suffix_append _ _)).isInfix

end Expr

/-- From the least start of some tokens to the greatest stop. -/
structure Span.Hull (s : Span) (ts : List Token) : Prop where
  start_le : ∀ t ∈ ts, s.start ≤ t.span.start
  start_mem : ∃ t ∈ ts, t.span.start = s.start
  le_stop : ∀ t ∈ ts, t.span.stop ≤ s.stop
  stop_mem : ∃ t ∈ ts, t.span.stop = s.stop

namespace Span

theorem hull_singleton (t : Token) : t.span.Hull [t] where
  start_le u hu := by obtain rfl := List.mem_singleton.mp hu; exact Int.le_refl _
  start_mem := ⟨t, List.mem_cons_self, rfl⟩
  le_stop u hu := by obtain rfl := List.mem_singleton.mp hu; exact Int.le_refl _
  stop_mem := ⟨t, List.mem_cons_self, rfl⟩

theorem Hull.merge {s s' : Span} {ts us : List Token} (h : s.Hull ts) (h' : s'.Hull us) :
    (s.merge s').Hull (ts ++ us) where
  start_le t ht := by
    show min s.start s'.start ≤ t.span.start
    rcases List.mem_append.mp ht with ht | ht
    · exact Int.le_trans (Int.min_le_left _ _) (h.start_le t ht)
    · exact Int.le_trans (Int.min_le_right _ _) (h'.start_le t ht)
  start_mem := by
    obtain ⟨t, ht, hstart⟩ := h.start_mem
    obtain ⟨u, hu, hstart'⟩ := h'.start_mem
    rcases Int.le_total s.start s'.start with hle | hle
    · exact ⟨t, List.mem_append_left us ht, hstart.trans (Int.min_eq_left hle).symm⟩
    · exact ⟨u, List.mem_append_right ts hu, hstart'.trans (Int.min_eq_right hle).symm⟩
  le_stop t ht := by
    show t.span.stop ≤ max s.stop s'.stop
    rcases List.mem_append.mp ht with ht | ht
    · exact Int.le_trans (h.le_stop t ht) (Int.le_max_left _ _)
    · exact Int.le_trans (h'.le_stop t ht) (Int.le_max_right _ _)
  stop_mem := by
    obtain ⟨t, ht, hstop⟩ := h.stop_mem
    obtain ⟨u, hu, hstop'⟩ := h'.stop_mem
    rcases Int.le_total s.stop s'.stop with hle | hle
    · exact ⟨u, List.mem_append_right ts hu, hstop'.trans (Int.max_eq_right hle).symm⟩
    · exact ⟨t, List.mem_append_left us ht, hstop.trans (Int.max_eq_left hle).symm⟩

theorem Hull.mono {s s' : Span} {ts us : List Token} (h : s.Hull ts) (h' : s'.Hull us)
    (hsub : ts ⊆ us) : s'.start ≤ s.start ∧ s.stop ≤ s'.stop := by
  obtain ⟨t, ht, hstart⟩ := h.start_mem
  obtain ⟨u, hu, hstop⟩ := h.stop_mem
  exact ⟨hstart ▸ h'.start_le t (hsub ht), hstop ▸ h'.le_stop u (hsub hu)⟩

end Span

/-- A node's span is the hull of the tokens in its part of the tree. -/
theorem Expr.Built.hull {e : Expr} (h : e.Built) : e.span.Hull e.inorder := by
  induction h with
  | number span value => exact Span.hull_singleton { kind := .number, span, value }
  | unary op h ih =>
      exact (Span.hull_singleton { kind := op.value.kind, span := op.span }).merge ih
  | @binary op left right hl hr ihl ihr =>
      have hop := Span.hull_singleton { kind := op.value.kind, span := op.span }
      have hall := (ihl.merge hop).merge ihr
      rw [List.append_assoc, List.singleton_append] at hall
      exact hall

/-- The tokens stand side by side, and none is empty. -/
structure InOrder (ts : List Token) : Prop where
  nonempty : ∀ t ∈ ts, t.span.start < t.span.stop
  ordered : ts.Pairwise fun t u => t.span.stop ≤ u.span.start

theorem InOrder.sublist {ts us : List Token} (h : InOrder us) (hsub : ts.Sublist us) :
    InOrder ts :=
  ⟨fun t ht => h.nonempty t (hsub.subset ht), h.ordered.sublist hsub⟩

/-- The span goes from the first of the tokens to the last. -/
def Span.FirstToLast (s : Span) (ts : List Token) : Prop :=
  ∃ first last, ts.head? = some first ∧ ts.getLast? = some last ∧
    s = ⟨first.span.start, last.span.stop⟩

theorem Span.Hull.start_eq_head {s : Span} {t : Token} {ts : List Token}
    (h : s.Hull (t :: ts)) (horder : InOrder (t :: ts)) : s.start = t.span.start := by
  have hle := h.start_le t List.mem_cons_self
  obtain ⟨u, hu, hstart⟩ := h.start_mem
  rcases List.mem_cons.mp hu with rfl | hu
  · exact hstart.symm
  · have hnonempty := horder.nonempty t List.mem_cons_self
    have hbefore := (List.pairwise_cons.mp horder.ordered).1 u hu
    omega

theorem Span.Hull.stop_eq_last {s : Span} {t : Token} {ts : List Token}
    (h : s.Hull (ts ++ [t])) (horder : InOrder (ts ++ [t])) : s.stop = t.span.stop := by
  have hlast : t ∈ ts ++ [t] := List.mem_append_right ts List.mem_cons_self
  have hle := h.le_stop t hlast
  obtain ⟨u, hu, hstop⟩ := h.stop_mem
  rcases List.mem_append.mp hu with hu | hu
  · have hnonempty := horder.nonempty t hlast
    have hbefore := (List.pairwise_append.mp horder.ordered).2.2 u hu t List.mem_cons_self
    omega
  · rw [← hstop, List.mem_singleton.mp hu]

theorem Span.Hull.firstToLast {s : Span} {ts : List Token} (h : s.Hull ts)
    (horder : InOrder ts) : s.FirstToLast ts := by
  obtain ⟨t, ht, -⟩ := h.start_mem
  obtain ⟨first, rest, hfirst⟩ := List.exists_cons_of_ne_nil (List.ne_nil_of_mem ht)
  obtain ⟨init, last, hlast⟩ := (List.eq_nil_or_concat ts).resolve_left (List.ne_nil_of_mem ht)
  refine ⟨first, last, by rw [hfirst]; rfl, by rw [hlast]; simp, ?_⟩
  have hstart : s.start = first.span.start := by
    subst hfirst
    exact h.start_eq_head horder
  have hstop : s.stop = last.span.stop := by
    rw [List.concat_eq_append] at hlast
    rw [hlast] at h horder
    exact h.stop_eq_last horder
  rw [← hstart, ← hstop]

namespace Expr

/-- The operator and the operands of a node stand side by side. -/
def Separate : Expr → Prop
  | number _ _ => True
  | unary _ op operand => op.span.stop ≤ operand.span.start
  | binary _ op left right =>
    left.span.stop ≤ op.span.start ∧ op.span.start < op.span.stop ∧
      op.span.stop ≤ right.span.start
  | bare _ => False

theorem Built.separate {e : Expr} (h : e.Built) (horder : InOrder e.inorder) :
    e.Separate := by
  cases h with
  | number span value => trivial
  | @unary op operand h =>
      obtain ⟨t, ht, hstart⟩ := h.hull.start_mem
      have hbefore := (List.pairwise_cons.mp horder.ordered).1 t ht
      rw [hstart] at hbefore
      exact hbefore
  | @binary op left right hl hr =>
      obtain ⟨t, ht, hstop⟩ := hl.hull.stop_mem
      obtain ⟨u, hu, hstart⟩ := hr.hull.start_mem
      obtain ⟨-, hright, hleft⟩ := List.pairwise_append.mp horder.ordered
      have hbefore := hleft t ht _ List.mem_cons_self
      have hbehind := (List.pairwise_cons.mp hright).1 u hu
      rw [hstop] at hbefore
      rw [hstart] at hbehind
      exact ⟨hbefore, horder.nonempty _ (List.mem_append_right _ List.mem_cons_self), hbehind⟩

/-- In a tree over tokens in order every node goes from its first token to its
last, around its nodes, which stand side by side. -/
theorem Built.nodes_in_order {e : Expr} (h : e.Built) (horder : InOrder e.inorder) :
    ∀ d ∈ e.nodes, d.span.FirstToLast d.inorder ∧ d.Separate ∧
      ∀ c ∈ d.nodes, d.span.start ≤ c.span.start ∧ c.span.stop ≤ d.span.stop := by
  intro d hd
  have hbuilt := h.of_mem_nodes d hd
  have hin : InOrder d.inorder := horder.sublist (inorder_of_mem_nodes d hd).sublist
  refine ⟨hbuilt.hull.firstToLast hin, hbuilt.separate hin, fun c hc => ?_⟩
  exact (hbuilt.of_mem_nodes c hc).hull.mono hbuilt.hull (inorder_of_mem_nodes c hc).subset

end Expr

end ArithTree
