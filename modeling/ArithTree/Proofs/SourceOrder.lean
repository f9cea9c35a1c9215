import ArithTree.Proofs.ExprSpans
import ArithTree.Proofs.ParseGrammar
import ArithTree.Proofs.ScanListing
import ArithTree.Source

/-!
# A tree is its source without the parentheses

Reading the tree of a source from left to right gives back the tokens of the
source, each once and in the same order, all but the parentheses. So no token
is lost on the way or comes twice, and since the scanner finds tokens that
stand side by side, the nodes of the tree do as well: each goes from the first
of its tokens to the last, and what hangs below it keeps to one side of the
operator.

The part of the parser in this is a fact about phrases: a tree is built, and it
has the tokens of its phrase. Only a number carries a value into the tree. The
tokens of a source carry no other values, and so they come back as they were.
-/

namespace ArithTree

open Parse

namespace Token

/-- Whether the token leaves no trace in a tree. -/
def isParen (t : Token) : Bool := t.kind = .lparen || t.kind = .rparen

def Kind.isOperator : Kind → Bool
  | .plus | .minus | .asterisk | .slash => true
  | .number | .lparen | .rparen => false

theorem isParen_of_operator {t : Token} {k : Kind} (hk : t.kind = k)
    (hoperator : k.isOperator = true) : t.isParen = false := by
  cases k with
  | number | lparen | rparen => cases hoperator
  | plus | minus | asterisk | slash => simp [isParen, hk]

/-- What a tree keeps of an operator is all there is to it, if it has no value. -/
theorem eq_of_operator {t : Token} {k : Kind} (hk : t.kind = k) (hoperator : k.isOperator = true)
    (hvalue : t.kind ≠ .number → t.value = none) :
    ({ kind := k, span := t.span } : Token) = t := by
  obtain ⟨kind, span, value⟩ := t
  cases hk
  have hnone : value = none := hvalue fun hnumber => by
    rw [hnumber] at hoperator
    cases hoperator
  rw [hnone]

end Token

theorem UnaryOp.isOperator_kind (op : UnaryOp) : op.kind.isOperator = true := by
  cases op <;> rfl

theorem BinaryOp.isOperator_kind (op : BinaryOp) : op.kind.isOperator = true := by
  cases op <;> rfl

theorem Symbol.Chains.kind_of_operator {x y : Symbol} {table : Token.Kind → Option BinaryOp}
    (hc : x.Chains y table) {k : Token.Kind} {op : BinaryOp} (hop : table k = some op) :
    k = op.kind := by
  cases hc <;> cases k <;> cases hop <;> rfl

theorem Derives.built {x : Symbol} {ts : List Token} {e : Expr} {n : Nat}
    (h : Derives x ts e n) : e.Built := by
  induction h with
  | number => exact .number _ _
  | group _ _ _ ih | unsigned _ ih | single _ _ ih => exact ih
  | signed _ _ ih => exact .unary _ ih
  | more _ _ _ _ ihl ihr => exact .binary _ ihl ihr

/-- Only numbers carry values. -/
def OnlyNumbersValued (ts : List Token) : Prop :=
  ∀ t ∈ ts, t.kind ≠ .number → t.value = none

/-- The tree of a phrase has the tokens of the phrase. -/
theorem Derives.inorder_eq {x : Symbol} {ts : List Token} {e : Expr} {n : Nat}
    (h : Derives x ts e n) :
    OnlyNumbersValued ts → e.inorder = ts.filter fun t => !t.isParen := by
  induction h with
  | @number t ht =>
      intro _
      obtain ⟨kind, span, value⟩ := t
      cases ht
      rfl
  | @group opening closing ts e n ho hc h ih =>
      intro hvalued
      have hopening : opening.isParen = true := by simp [Token.isParen, ho]
      have hclosing : closing.isParen = true := by simp [Token.isParen, hc]
      rw [ih fun t ht => hvalued t (by simp [ht])]
      simp [hopening, hclosing]
  | unsigned h ih | single hc h ih => exact ih
  | @signed t op ts e n hkind h ih =>
      intro hvalued
      have hparen := Token.isParen_of_operator hkind op.isOperator_kind
      have htoken :=
        Token.eq_of_operator hkind op.isOperator_kind (hvalued t List.mem_cons_self)
      rw [Expr.applyUnary, Expr.inorder, htoken,
        ih fun u hu => hvalued u (List.mem_cons_of_mem t hu)]
      simp [hparen]
  | @more x y table t op ls rs l r m n hc hl hop hr ihl ihr =>
      intro hvalued
      have hkind := hc.kind_of_operator hop
      have hparen := Token.isParen_of_operator hkind op.isOperator_kind
      have htoken := Token.eq_of_operator hkind op.isOperator_kind (hvalued t (by simp))
      rw [Expr.applyBinary, Expr.inorder, htoken, ihl fun u hu => hvalued u (by simp [hu]),
        ihr fun u hu => hvalued u (by simp [hu])]
      simp [hparen]

theorem Listing.inOrder {o : Nat} {t : Text} {tokens : List Token} (h : Listing o t tokens) :
    InOrder tokens := ⟨h.nonempty, h.ordered⟩

theorem Listing.onlyNumbersValued {o : Nat} {t : Text} {tokens : List Token}
    (h : Listing o t tokens) : OnlyNumbersValued tokens := by
  intro k hk hkind
  cases (h.named k).mp hk with
  | sign => rfl
  | number => exact absurd rfl hkind

/-- The tree of a source lists the tokens of the source in order, and its nodes
stand as their tokens do. -/
theorem parseSource_in_order {source : Text} {e : Expr} (h : parseSource source = .ok e) :
    ∃ tokens, lex source = .ok tokens ∧
      e.inorder = tokens.filter (fun t => !t.isParen) ∧ InOrder e.inorder ∧
      ∀ d ∈ e.nodes, d.span.FirstToLast d.inorder ∧ d.Separate ∧
        ∀ c ∈ d.nodes, d.span.start ≤ c.span.start ∧ c.span.stop ≤ d.span.stop := by
  obtain ⟨tokens, hlex, hparse⟩ := parseSource_ok h
  obtain ⟨n, -, hderives⟩ := parse_ok_iff.mp hparse
  have hlisting := (listing_of_lex hlex).2
  have hinorder := hderives.inorder_eq hlisting.onlyNumbersValued
  have horder : InOrder e.inorder := by
    rw [hinorder]
    exact hlisting.inOrder.sublist List.filter_sublist
  exact ⟨tokens, hlex, hinorder, horder, hderives.built.nodes_in_order horder⟩

/-- The tree of `(1)*-3`. -/
theorem parseSource_in_order_of_group :
    let e : Expr := .binary ⟨1, 6⟩ ⟨.mult, ⟨3, 4⟩⟩ (.number ⟨1, 2⟩ (some 1))
      (.unary ⟨4, 6⟩ ⟨.minus, ⟨4, 5⟩⟩ (.number ⟨5, 6⟩ (some 3)))
    parseSource (.ofString "(1)*-3") = .ok e ∧
    ∃ tokens, lex (.ofString "(1)*-3") = .ok tokens ∧
      e.inorder = tokens.filter (fun t => !t.isParen) ∧ InOrder e.inorder ∧
      ∀ d ∈ e.nodes, d.span.FirstToLast d.inorder ∧ d.Separate ∧
        ∀ c ∈ d.nodes, d.span.start ≤ c.span.start ∧ c.span.stop ≤ d.span.stop := by
  intro e
  have hparse : parseSource (.ofString "(1)*-3") = .ok e := by with_unfolding_all rfl
  exact ⟨hparse, parseSource_in_order hparse⟩

end ArithTree
