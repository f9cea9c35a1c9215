import ArithTree.Proofs.CommandAgreement
import ArithTree.Proofs.ExprSpans
import ArithTree.Proofs.ParseGrammar

/-!
# The log tells what was done

The log of parsing a source has a line for each token, in the order of the
source, and then a line for each operation. Where the scanner was stopped there
are the tokens before the error and nothing else. Where the source is an
expression, the operations are the composite nodes of its tree, operands before
operators, which is the order in which such a tree can be built at all.

The parser records an operation when it has both operands, and a chain goes on
with the tree it has so far as the left one. So what is recorded while a chain
is read is always the record of that tree, whatever was recorded before: this
is the invariant, and it is the same for all four nonterminals (`Records`).
-/

namespace ArithTree

open Parse ParseState

namespace Expr

/-- All nodes, each behind the nodes below it. -/
def postorder : Expr → List Expr
  | number span value => [number span value]
  | unary span op operand => operand.postorder ++ [unary span op operand]
  | binary span op left right =>
    left.postorder ++ (right.postorder ++ [binary span op left right])
  | bare span => [bare span]

theorem postorder_perm_nodes (e : Expr) : e.postorder.Perm e.nodes := by
  induction e with
  | number | bare => exact .refl _
  | unary span op operand ih =>
      exact (List.perm_append_singleton _ _).trans (ih.cons _)
  | binary span op left right ihl ihr =>
      rw [postorder, nodes, ← List.append_assoc]
      exact (List.perm_append_singleton _ _).trans ((ihl.append ihr).cons _)

/-- The operation that a composite node is. -/
def reduction? : Expr → Option Reduction
  | unary span op _ => some (.unary op.value span)
  | binary span op _ _ => some (.binary op.value span)
  | number _ _ | bare _ => none

/-- The operations of a tree, those of the operands first. -/
def reductions (e : Expr) : List Reduction := e.postorder.filterMap reduction?

theorem reductions_number (span : Span) (value : Option Int) :
    (number span value).reductions = [] := rfl

theorem reductions_unary (span : Span) (op : Spanned UnaryOp) (operand : Expr) :
    (unary span op operand).reductions = operand.reductions ++ [.unary op.value span] := by
  rw [reductions, postorder, List.filterMap_append]
  rfl

theorem reductions_binary (span : Span) (op : Spanned BinaryOp) (left right : Expr) :
    (binary span op left right).reductions =
      left.reductions ++ (right.reductions ++ [.binary op.value span]) := by
  rw [reductions, postorder, List.filterMap_append, List.filterMap_append]
  rfl

end Expr

/-- Where the step answers a tree, it has recorded the operations of the tree,
behind what was recorded before. -/
def Records (x : Symbol) (room : Nat) : Prop :=
  ∀ s, Ends (x.within room) s
    (fun e s' => s'.reductions.toList = s.reductions.toList ++ e.reductions) fun _ _ => True

theorem toList_record (s : ParseState) (r : Reduction) :
    (s.record r).reductions.toList = s.reductions.toList ++ [r] :=
  Array.toList_push

theorem Symbol.Chains.records {x y : Symbol} {table : Token.Kind → Option BinaryOp}
    (hc : x.Chains y table) {room : Nat} (h : Records y room) : Records x room := by
  intro s
  rw [hc.within_eq]
  refine Ends.mono (chain_ends
    (fun e s' => s'.reductions.toList = s.reductions.toList ++ e.reductions)
    (y.shrinks_within room) (h s) fun left s' t rest op hleft hrest hop => ?_)
    (fun _ _ h' => h'.1) fun _ _ h' => h'
  refine Ends.mono (h _) (fun right s'' hright => ?_) fun _ _ h' => h'
  calc (s''.record _).reductions.toList
      = s''.reductions.toList ++ [_] := toList_record s'' _
    _ = s.reductions.toList ++ left.reductions ++ right.reductions ++ [_] := by
        rw [hright, ← hleft]
        rfl
    _ = s.reductions.toList ++ (Expr.applyBinary ⟨op, t.span⟩ left right).reductions := by
        rw [Expr.applyBinary, Expr.reductions_binary]
        simp only [List.append_assoc]
        rfl

theorem records_signed {room : Nat} (h : Records .atom room) : Records .signed room := by
  intro s
  refine signedOf_ends (fun _ => h s) fun t rest op hrest hop => ?_
  refine Ends.mono (h _) (fun e s' he => ?_) fun _ _ h' => h'
  rw [toList_record, he, Expr.applyUnary, Expr.reductions_unary, List.append_assoc]
  rfl

theorem records_of_atom {room : Nat} (h : Records .atom room) (x : Symbol) :
    Records x room := by
  have hsigned := records_signed h
  have hproduct := Symbol.Chains.product.records hsigned
  cases x with
  | sum => exact Symbol.Chains.sum.records hproduct
  | product => exact hproduct
  | signed => exact hsigned
  | atom => exact h

theorem records_number {s : ParseState} {t : Token} {rest : List Token} :
    (s.advance rest).reductions.toList =
      s.reductions.toList ++ (Expr.number t.span t.value).reductions := by
  rw [Expr.reductions_number, List.append_nil]
  rfl

/-- A group records what is in it. -/
theorem records_atom (room : Nat) : Records .atom room := by
  induction room with
  | zero =>
      intro s
      exact atomOf_ends (fun _ => trivial) (fun _ _ _ _ => records_number)
        (fun _ _ _ _ => trivial) fun _ _ _ _ _ => trivial
  | succ room ih =>
      intro s
      refine atomOf_ends (fun _ => trivial) (fun _ _ _ _ => records_number)
        (fun t rest hrest ht => ?_) fun _ _ _ _ _ => trivial
      refine group_ends (Ends.mono (records_of_atom ih .sum _) ?_ fun _ _ h => h)
      intro e s' he
      exact leave_ends (fun _ => trivial) (fun _ _ _ _ => he) fun _ _ _ _ => trivial

theorem records (x : Symbol) (room : Nat) : Records x room :=
  records_of_atom (records_atom room) x

/-- Tokens that are an expression give the operations of its tree. -/
theorem reductions_of_parse {tokens : List Token} {e : Expr} (h : parse tokens = .ok e) :
    reductions tokens = e.reductions := by
  have hends : Ends whole (.start tokens)
      (fun e s' => s'.reductions.toList = e.reductions) fun _ _ => True :=
    whole_ends (Ends.mono (records .sum _ _) (fun e s' he => ⟨fun _ => he, fun _ _ _ => trivial⟩)
      fun _ _ h' => h')
  unfold parse at h
  unfold reductions
  cases hwhole : whole (.start tokens) with
  | ok e' s =>
      rw [hwhole] at h
      cases h
      exact hends.of_ok hwhole
  | error e' s =>
      rw [hwhole] at h
      cases h

theorem parseLog_of_lex_error {source : Text} {e : LexError} (h : lex source = .error e) :
    parseLog source = (Scan.of source).tokens.map .scanned := by
  simp only [parseLog, scanLog, h, List.append_nil]

theorem parseLog_of_lex_ok {source : Text} {tokens : List Token} (h : lex source = .ok tokens) :
    parseLog source = tokens.map .scanned ++ (reductions tokens).map .reduced := by
  have htokens : (Scan.of source).tokens = tokens := congrArg Prod.fst (findings_of_lex_ok h)
  simp only [parseLog, scanLog, h, htokens]

/-- The line of the log for an operation. -/
def Reduction.line : Reduction → String
  | .unary op span => "reduced unary " ++ op.name ++ " at " ++ span.text
  | .binary op span => "reduced " ++ op.name ++ " at " ++ span.text

theorem messages_of_log {log : List Event} {tokens : List Token} {operations : List Reduction}
    (h : log = tokens.map .scanned ++ operations.map .reduced) :
    log.map Event.message =
      tokens.map ("scanned " ++ ·.text) ++ operations.map Reduction.line := by
  have hline : ∀ r : Reduction, (Event.reduced r).message = r.line := fun r => by
    cases r <;> rfl
  rw [h, List.map_append, List.map_map, List.map_map]
  exact congrArg (_ ++ ·) (List.map_congr_left fun r _ => hline r)

/-- The log has the tokens in order, all of them or those before the error, and
then operations: none behind an error of the scanner, and those of the tree,
each behind the operations of its operands, where there is a tree. -/
theorem parseLog_tells (source : Text) :
    ∃ (tokens : List Token) (operations : List Reduction),
      parseLog source = tokens.map .scanned ++ operations.map .reduced ∧
      (parseLog source).map Event.message =
        tokens.map ("scanned " ++ ·.text) ++ operations.map Reduction.line ∧
      tokens.Pairwise (fun t u => t.span.stop ≤ u.span.start) ∧
      match parseSource source with
      | .ok e =>
        lex source = .ok tokens ∧ operations = e.postorder.filterMap Expr.reduction? ∧
          e.postorder.Perm e.nodes
      | .error (.syntactic _) => lex source = .ok tokens
      | .error (.lexical e) =>
        operations = [] ∧ ∃ a, Before source e a ∧ lex a = .ok tokens := by
  cases hlex : lex source with
  | error e =>
      obtain ⟨a, hbefore, htokens⟩ := lex_before_error hlex
      have hlog : parseLog source =
          (Scan.of source).tokens.map .scanned ++ [].map .reduced := by
        rw [parseLog_of_lex_error hlex, List.map_nil, List.append_nil]
      refine ⟨_, [], hlog, messages_of_log hlog, (listing_of_lex htokens).2.ordered, ?_⟩
      rw [parseSource_of_lex_error hlex]
      exact ⟨rfl, a, hbefore, htokens⟩
  | ok tokens =>
      have hlog := parseLog_of_lex_ok hlex
      refine ⟨tokens, reductions tokens, hlog, messages_of_log hlog,
        (listing_of_lex hlex).2.ordered, ?_⟩
      rw [parseSource_of_lex_ok hlex]
      cases hparse : parse tokens with
      | ok e => exact ⟨rfl, reductions_of_parse hparse, e.postorder_perm_nodes⟩
      | error e => exact rfl

end ArithTree
