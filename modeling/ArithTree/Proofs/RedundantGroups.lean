import ArithTree.Proofs.ExprRender
import ArithTree.Proofs.ExprSpans
import ArithTree.Proofs.OpenGroups

/-!
# Parentheses that change nothing

A phrase may stand deep inside another one, and a subtree of a tree is what such
a phrase is derived to. Where the phrase stands is told by the tokens before it
and those behind it, and it is told along the derivation: into a group, behind a
sign, into either side of an operator (`Occurs`). On the left of an operator
stands all of the chain so far, so that what begins a chain is a place as well.

What stands at a place can be exchanged for any other phrase of the same
nonterminal and the same tree. In parentheses a phrase is an atom, and an atom is
a phrase of every nonterminal. So a subtree can be put in parentheses wherever it
stands, and the tree stays what it was, with all its spans: what the parentheses
themselves are does not matter, as they leave no trace. Only the limit can tell
that they are there.
-/

namespace ArithTree

open Parse ParseState

/-- In a phrase of a nonterminal, with tokens before and behind it, a phrase
stands from which the subtree was derived. -/
inductive Occurs (y : Symbol) (ys : List Token) (d : Expr) :
    Symbol → List Token → List Token → Expr → Prop where
  | whole {n : Nat} (h : Derives y ys d n) : Occurs y ys d y [] [] d
  | group {opening closing : Token} {xs zs : List Token} {e : Expr}
      (ho : opening.kind = .lparen) (hc : closing.kind = .rparen)
      (h : Occurs y ys d .sum xs zs e) :
      Occurs y ys d .atom (opening :: xs) (zs ++ [closing]) e
  | unsigned {xs zs : List Token} {e : Expr} (h : Occurs y ys d .atom xs zs e) :
      Occurs y ys d .signed xs zs e
  | signed {t : Token} {op : UnaryOp} {xs zs : List Token} {e : Expr}
      (hop : t.kind = op.kind) (h : Occurs y ys d .atom xs zs e) :
      Occurs y ys d .signed (t :: xs) zs (.applyUnary ⟨op, t.span⟩ e)
  | single {x z : Symbol} {table : Token.Kind → Option BinaryOp} {xs zs : List Token}
      {e : Expr} (hc : x.Chains z table) (h : Occurs y ys d z xs zs e) :
      Occurs y ys d x xs zs e
  | left {x z : Symbol} {table : Token.Kind → Option BinaryOp} {t : Token} {op : BinaryOp}
      {xs zs rs : List Token} {l r : Expr} {n : Nat} (hc : x.Chains z table)
      (hl : Occurs y ys d x xs zs l) (hop : table t.kind = some op) (hr : Derives z rs r n) :
      Occurs y ys d x xs (zs ++ t :: rs) (.applyBinary ⟨op, t.span⟩ l r)
  | right {x z : Symbol} {table : Token.Kind → Option BinaryOp} {t : Token} {op : BinaryOp}
      {ls xs zs : List Token} {l r : Expr} {n : Nat} (hc : x.Chains z table)
      (hl : Derives x ls l n) (hop : table t.kind = some op) (hr : Occurs y ys d z xs zs r) :
      Occurs y ys d x (ls ++ t :: xs) zs (.applyBinary ⟨op, t.span⟩ l r)

section

variable {x y : Symbol} {ts xs ys zs : List Token} {d e : Expr}

theorem Occurs.derives (h : Occurs y ys d x xs zs e) : ∃ n, Derives y ys d n := by
  induction h with
  | whole h => exact ⟨_, h⟩
  | group _ _ _ ih | unsigned _ ih | signed _ _ ih | single _ _ ih | left _ _ _ _ ih
  | right _ _ _ _ ih => exact ih

/-- What stands at a place can be exchanged for whatever has the same tree. -/
theorem Occurs.replace (h : Occurs y ys d x xs zs e) {us : List Token} {k : Nat}
    (hus : Derives y us d k) : ∃ n, Derives x (xs ++ us ++ zs) e n := by
  induction h with
  | whole =>
      rw [List.nil_append, List.append_nil]
      exact ⟨k, hus⟩
  | group ho hc _ ih =>
      obtain ⟨n, hn⟩ := ih
      refine ⟨n + 1, ?_⟩
      simpa using Derives.group ho hc hn
  | unsigned _ ih =>
      obtain ⟨n, hn⟩ := ih
      exact ⟨n, .unsigned hn⟩
  | signed hop _ ih =>
      obtain ⟨n, hn⟩ := ih
      exact ⟨n, .signed hop hn⟩
  | single hc _ ih =>
      obtain ⟨n, hn⟩ := ih
      exact ⟨n, .single hc hn⟩
  | @left _ _ _ _ _ _ _ _ _ _ m hc _ hop hr ih =>
      obtain ⟨n, hn⟩ := ih
      refine ⟨max n m, ?_⟩
      simpa using Derives.more hc hn hop hr
  | @right _ _ _ _ _ _ _ _ _ _ m hc hl hop _ ih =>
      obtain ⟨n, hn⟩ := ih
      refine ⟨max m n, ?_⟩
      simpa using Derives.more hc hl hop hn

theorem Expr.mem_nodes_self (e : Expr) : e ∈ e.nodes := by
  cases e <;> simp [nodes]

theorem Occurs.mem_nodes (h : Occurs y ys d x xs zs e) : d ∈ e.nodes := by
  induction h with
  | whole => exact d.mem_nodes_self
  | group _ _ _ ih | unsigned _ ih | single _ _ ih => exact ih
  | signed _ _ ih => exact List.mem_cons_of_mem _ ih
  | left _ _ _ _ ih => exact List.mem_cons_of_mem _ (List.mem_append_left _ ih)
  | right _ _ _ _ ih => exact List.mem_cons_of_mem _ (List.mem_append_right _ ih)

theorem Derives.exists_occurs {n : Nat} (h : Derives x ts e n) :
    ∀ d ∈ e.nodes, ∃ y xs ys zs, ts = xs ++ ys ++ zs ∧ Occurs y ys d x xs zs e := by
  induction h with
  | @number t ht =>
      intro d hd
      obtain rfl := List.mem_singleton.mp hd
      exact ⟨.atom, [], [t], [], rfl, .whole (.number ht)⟩
  | group ho hc _ ih =>
      intro d hd
      obtain ⟨y, xs, ys, zs, rfl, hoccurs⟩ := ih d hd
      exact ⟨y, _, ys, _, by simp, .group ho hc hoccurs⟩
  | unsigned _ ih =>
      intro d hd
      obtain ⟨y, xs, ys, zs, rfl, hoccurs⟩ := ih d hd
      exact ⟨y, xs, ys, zs, rfl, .unsigned hoccurs⟩
  | signed hop h ih =>
      intro d hd
      rcases List.mem_cons.mp hd with rfl | hd
      · exact ⟨.signed, [], _, [], by simp, .whole (.signed hop h)⟩
      · obtain ⟨y, xs, ys, zs, rfl, hoccurs⟩ := ih d hd
        exact ⟨y, _, ys, zs, rfl, .signed hop hoccurs⟩
  | single hc _ ih =>
      intro d hd
      obtain ⟨y, xs, ys, zs, rfl, hoccurs⟩ := ih d hd
      exact ⟨y, xs, ys, zs, rfl, .single hc hoccurs⟩
  | more hc hl hop hr ihl ihr =>
      intro d hd
      rcases List.mem_cons.mp hd with rfl | hd
      · exact ⟨_, [], _, [], by simp, .whole (.more hc hl hop hr)⟩
      · rcases List.mem_append.mp hd with hd | hd
        · obtain ⟨y, xs, ys, zs, rfl, hoccurs⟩ := ihl d hd
          exact ⟨y, xs, ys, _, by simp, .left hc hoccurs hop hr⟩
        · obtain ⟨y, xs, ys, zs, rfl, hoccurs⟩ := ihr d hd
          exact ⟨y, _, ys, zs, by simp, .right hc hl hop hoccurs⟩

/-- Every phrase is an expression. -/
theorem Derives.to_sum {n : Nat} (h : Derives x ts e n) : Derives .sum ts e n := by
  cases x with
  | sum => exact h
  | product => exact .single .sum h
  | signed => exact .single .sum (.single .product h)
  | atom => exact h.of_atom .sum

theorem Occurs.parenthesize (h : Occurs y ys d x xs zs e) {opening closing : Token}
    (ho : opening.kind = .lparen) (hc : closing.kind = .rparen) :
    ∃ n, Derives x (xs ++ opening :: ys ++ closing :: zs) e n := by
  obtain ⟨n, hn⟩ := h.derives
  obtain ⟨m, hm⟩ := h.replace ((Derives.group ho hc hn.to_sum).of_atom y)
  refine ⟨m, ?_⟩
  simpa using hm

/-- A pair of parentheses opens no more than one group more. -/
theorem OpensAtMost.parenthesize {n : Nat} (h : OpensAtMost n (xs ++ ys ++ zs))
    {opening closing : Token} (ho : opening.kind = .lparen) (hc : closing.kind = .rparen) :
    OpensAtMost (n + 1) (xs ++ opening :: ys ++ closing :: zs) := by
  have hopening := surplus_of_lparen ho
  have hclosing := surplus_of_rparen hc
  rw [opensAtMost_append, opensAtMost_append] at h ⊢
  obtain ⟨⟨hxs, hys⟩, hzs⟩ := h
  refine ⟨⟨fun vs hvs => ?_, fun vs hvs => ?_⟩, fun vs hvs => ?_⟩
  · have hle := hxs vs hvs
    omega
  · rcases List.prefix_cons_iff.mp hvs with rfl | ⟨vs, rfl, hvs'⟩
    · have hle := hxs xs (List.prefix_refl xs)
      rw [surplus_nil]
      omega
    · have hle := hys vs hvs'
      rw [surplus_cons]
      omega
  · rw [surplus_append, surplus_cons]
    rcases List.prefix_cons_iff.mp hvs with rfl | ⟨vs, rfl, hvs'⟩
    · have hle := hys ys (List.prefix_refl ys)
      rw [surplus_nil]
      omega
    · have hle := hzs vs hvs'
      rw [surplus_append] at hle
      rw [surplus_cons closing]
      omega

end

/-- Parentheses around a subtree change nothing, as long as no more groups are open at
once than may be. The pair can only make it one too many, and then the first
parenthesis that is one too many is refused. The places are those of the subtrees, and
every subtree has one. -/
theorem parse_parenthesized {xs ys zs : List Token} {y : Symbol} {d e : Expr}
    {opening closing : Token} (hparse : parse (xs ++ ys ++ zs) = .ok e)
    (h : Occurs y ys d .sum xs zs e) (ho : opening.kind = .lparen)
    (hc : closing.kind = .rparen) :
    OpensAtMost (nestingLimit + 1) (xs ++ opening :: ys ++ closing :: zs) ∧
      (OpensAtMost nestingLimit (xs ++ opening :: ys ++ closing :: zs) →
        parse (xs ++ opening :: ys ++ closing :: zs) = .ok e) ∧
      (¬ OpensAtMost nestingLimit (xs ++ opening :: ys ++ closing :: zs) →
        ∃ us t vs, xs ++ opening :: ys ++ closing :: zs = us ++ t :: vs ∧
          t.kind = .lparen ∧ surplus us = nestingLimit ∧ OpensAtMost nestingLimit us ∧
          parse (xs ++ opening :: ys ++ closing :: zs) = .error (.tooDeep t)) ∧
      d ∈ e.nodes ∧
      ∀ d' ∈ e.nodes, ∃ y' xs' ys' zs', xs ++ ys ++ zs = xs' ++ ys' ++ zs' ∧
        Occurs y' ys' d' .sum xs' zs' e := by
  obtain ⟨m, hm⟩ := h.parenthesize ho hc
  obtain ⟨n, hn, hderives⟩ := parse_ok_iff.mp hparse
  have hopens : OpensAtMost nestingLimit (xs ++ ys ++ zs) :=
    Automaton.opensAtMost_of_read (hderives.read hn)
  obtain ⟨hopen, hdeep⟩ := hm.parse_or_tooDeep
  exact ⟨hopens.parenthesize ho hc, hopen, hdeep, h.mem_nodes, hderives.exists_occurs⟩

/-- In `1-2-3` what begins the chain can be put in parentheses, here with spans that
run backwards, and the spans of the tree stay those of the five tokens. -/
theorem parse_parenthesized_difference :
    let one : Token := ⟨.number, ⟨0, 1⟩, some 1⟩
    let minus : Token := ⟨.minus, ⟨1, 2⟩, none⟩
    let two : Token := ⟨.number, ⟨2, 3⟩, some 2⟩
    let minus' : Token := ⟨.minus, ⟨3, 4⟩, none⟩
    let three : Token := ⟨.number, ⟨4, 5⟩, some 3⟩
    let opening : Token := ⟨.lparen, ⟨9, -9⟩, none⟩
    let closing : Token := ⟨.rparen, ⟨7, -7⟩, none⟩
    parse [opening, one, minus, two, closing, minus', three] =
      .ok (.binary ⟨0, 5⟩ ⟨.sub, ⟨3, 4⟩⟩
        (.binary ⟨0, 3⟩ ⟨.sub, ⟨1, 2⟩⟩ (.number ⟨0, 1⟩ (some 1)) (.number ⟨2, 3⟩ (some 2)))
        (.number ⟨4, 5⟩ (some 3))) := by
  intro one minus two minus' three opening closing
  have hdifference : Derives .sum [one, minus, two] _ 0 :=
    .more .sum ((Derives.number rfl).of_atom .sum) rfl ((Derives.number rfl).of_atom .product)
  have hoccurs : Occurs .sum [one, minus, two] _ .sum [] [minus', three] _ :=
    .left .sum (.whole hdifference) rfl ((Derives.number rfl).of_atom .product)
  have hparse : parse [one, minus, two, minus', three] = .ok _ := rfl
  exact (parse_parenthesized hparse hoccurs (show opening.kind = .lparen from rfl)
    (show closing.kind = .rparen from rfl)).2.1 (by decide)

end ArithTree
