import ArithTree.Diagnostic.Basic
import ArithTree.Proofs.ParseOutcome

/-!
# The parser carries spans and values but never looks at them

A relabelling puts other offsets and other values into tokens and leaves their
kinds as they are. What the parser makes of relabelled tokens is what it makes
of the tokens, relabelled: the tree or the error, and with either the state it
has come to.

Spans are not quite as free as values. A composite node takes the lesser start
and the greater stop of what it covers, so the offsets have to keep their
order. Starts and stops may go different ways, as they are only ever compared
among themselves. The place to blame when the tokens end too early is made of
one stop, and both its ends go the way of stops.

The law has one form for a step of any kind (`Carries`), and each way the
grammar puts steps together keeps it. Nothing has to be known of the operand,
so the walk does not follow what the parser does, only how it is built.

What is told of an error follows from the law, since it is all made from the
error's token. And that a value gets into a tree only from a number is the law
for the relabelling that takes the other values away.
-/

namespace ArithTree

open Parse ParseState

/-- Other offsets in the same order, and other values. -/
structure Relabelling where
  start : Int → Int
  stop : Int → Int
  value : Token.Kind → Option Int → Option Int
  start_mono : ∀ {i j : Int}, i ≤ j → start i ≤ start j
  stop_mono : ∀ {i j : Int}, i ≤ j → stop i ≤ stop j

namespace Relabelling

variable (r : Relabelling)

def span (s : Span) : Span := ⟨r.start s.start, r.stop s.stop⟩

/-- A span of which both ends are stops. -/
def finish (s : Span) : Span := ⟨r.stop s.start, r.stop s.stop⟩

def spanned {α : Type} (a : Spanned α) : Spanned α := { a with span := r.span a.span }

def token (t : Token) : Token :=
  { t with span := r.span t.span, value := r.value t.kind t.value }

/-- The numbers of a tree come from tokens that are numbers. -/
def expr : Expr → Expr
  | .number span value => .number (r.span span) (r.value .number value)
  | .unary span op operand => .unary (r.span span) (r.spanned op) (expr operand)
  | .binary span op left right =>
    .binary (r.span span) (r.spanned op) (expr left) (expr right)
  | .bare span => .bare (r.span span)

def error : ParseError → ParseError
  | .notExpression t => .notExpression (r.token t)
  | .notOperator t => .notOperator (r.token t)
  | .redundant t => .redundant (r.token t)
  | .unclosed t => .unclosed (r.token t)
  | .tooDeep t => .tooDeep (r.token t)
  | .unexpectedEnd span => .unexpectedEnd (r.finish span)

def reduction : Reduction → Reduction
  | .unary op span => .unary op (r.span span)
  | .binary op span => .binary op (r.span span)

def state (s : ParseState) : ParseState :=
  { s with
    rest := s.rest.map r.token
    finish := r.finish s.finish
    reductions := s.reductions.map r.reduction }

/-- What a step comes to, where `f` relabels the answer. -/
def result {α : Type} (f : α → α) :
    EStateM.Result ParseError ParseState α → EStateM.Result ParseError ParseState α
  | .ok a s => .ok (f a) (r.state s)
  | .error e s => .error (r.error e) (r.state s)

theorem span_merge (a b : Span) : r.span (a.merge b) = (r.span a).merge (r.span b) := by
  have hstart : r.start (min a.start b.start) = min (r.start a.start) (r.start b.start) := by
    rcases Int.le_total a.start b.start with h | h
    · rw [Int.min_eq_left h, Int.min_eq_left (r.start_mono h)]
    · rw [Int.min_eq_right h, Int.min_eq_right (r.start_mono h)]
  have hstop : r.stop (max a.stop b.stop) = max (r.stop a.stop) (r.stop b.stop) := by
    rcases Int.le_total a.stop b.stop with h | h
    · rw [Int.max_eq_right h, Int.max_eq_right (r.stop_mono h)]
    · rw [Int.max_eq_left h, Int.max_eq_left (r.stop_mono h)]
  rw [span, Span.merge, hstart, hstop]
  rfl

theorem span_expr (e : Expr) : (r.expr e).span = r.span e.span := by
  cases e <;> rfl

theorem expr_applyUnary (op : Spanned UnaryOp) (e : Expr) :
    r.expr (.applyUnary op e) = .applyUnary (r.spanned op) (r.expr e) := by
  rw [Expr.applyUnary, expr, span_merge, ← span_expr]
  rfl

theorem expr_applyBinary (op : Spanned BinaryOp) (left right : Expr) :
    r.expr (.applyBinary op left right) =
      .applyBinary (r.spanned op) (r.expr left) (r.expr right) := by
  rw [Expr.applyBinary, expr, span_merge, span_merge, ← span_expr, ← span_expr]
  rfl

theorem state_record (s : ParseState) (d : Reduction) :
    r.state (s.record d) = (r.state s).record (r.reduction d) := by
  simp only [state, record, Array.map_push]

/-- The second step does with what is relabelled what the first does. -/
def Carries {α : Type} (f : α → α) (p q : Parse α) : Prop :=
  ∀ s, q (r.state s) = r.result f (p s)

variable {r}

theorem carries_pure {α : Type} {f : α → α} (a : α) : r.Carries f (pure a) (pure (f a)) :=
  fun _ => rfl

theorem carries_throw {α : Type} {f : α → α} (e : ParseError) :
    r.Carries f (throw e) (throw (r.error e)) := fun _ => rfl

theorem Carries.bind {α β : Type} {f : α → α} {g : β → β} {p q : Parse α}
    {k l : α → Parse β} (h : r.Carries f p q) (hk : ∀ a, r.Carries g (k a) (l (f a))) :
    r.Carries g (p >>= k) (q >>= l) := by
  intro s
  show EStateM.bind q l (r.state s) = r.result g (EStateM.bind p k s)
  unfold EStateM.bind
  rw [h s]
  cases p s with
  | ok a s' => exact hk a s'
  | error e s' => rfl

theorem carries_reduced (d : Reduction) :
    r.Carries id (reduced d) (reduced (r.reduction d)) := by
  intro s
  show EStateM.Result.ok () ((r.state s).record (r.reduction d)) = .ok () (r.state (s.record d))
  rw [state_record]

theorem carries_operator? {α : Type} (table : Token.Kind → Option α) :
    r.Carries (Option.map r.spanned) (operator? table) (operator? table) := by
  intro ⟨rest, index, depth, finish, reductions⟩
  cases rest with
  | nil => rfl
  | cons t rest =>
      cases hop : table t.kind <;>
        simp only [operator?, state, List.map_cons, token, hop] <;> rfl

theorem carries_demand : r.Carries r.token demand demand := by
  intro ⟨rest, index, depth, finish, reductions⟩
  cases rest <;> rfl

theorem carries_consume : r.Carries (Option.map r.token) consume consume := by
  intro ⟨rest, index, depth, finish, reductions⟩
  cases rest <;> rfl

section Levels

variable {operand : Parse Expr} {table : Token.Kind → Option BinaryOp}

theorem carries_chainFrom (h : r.Carries r.expr operand operand) (rounds : Nat) :
    ∀ left : Expr, r.Carries r.expr (chainFrom operand (operator? table) rounds left)
      (chainFrom operand (operator? table) rounds (r.expr left)) := by
  induction rounds with
  | zero => exact fun left => carries_pure left
  | succ rounds ih =>
      intro left
      refine (carries_operator? table).bind fun op? => ?_
      cases op? with
      | none => exact carries_pure left
      | some op =>
          refine h.bind fun right => ?_
          have hreduced := carries_reduced (r := r)
            (.binary op.value (Expr.applyBinary op left right).span)
          have hrest := ih (Expr.applyBinary op left right)
          rw [reduction, ← span_expr, expr_applyBinary] at hreduced
          rw [expr_applyBinary] at hrest
          exact hreduced.bind fun _ => hrest

theorem carries_chain (h : r.Carries r.expr operand operand) :
    r.Carries r.expr (chain operand (operator? table)) (chain operand (operator? table)) := by
  refine h.bind fun first s => ?_
  show chainFrom operand (operator? table) (s.rest.map r.token).length (r.expr first) (r.state s) =
    r.result r.expr (chainFrom operand (operator? table) s.rest.length first s)
  rw [List.length_map]
  exact carries_chainFrom h s.rest.length first s

theorem carries_signedOf (h : r.Carries r.expr operand operand) :
    r.Carries r.expr (signedOf operand) (signedOf operand) := by
  refine (carries_operator? sign).bind fun op? => ?_
  cases op? with
  | none => exact h
  | some op =>
      refine h.bind fun e => ?_
      have hreduced := carries_reduced (r := r)
        (.unary op.value (Expr.applyUnary op e).span)
      have hanswer := carries_pure (r := r) (f := r.expr) (Expr.applyUnary op e)
      rw [reduction, ← span_expr, expr_applyUnary] at hreduced
      rw [expr_applyUnary] at hanswer
      exact hreduced.bind fun _ => hanswer

theorem carries_sumOf (h : r.Carries r.expr operand operand) :
    r.Carries r.expr (sumOf operand) (sumOf operand) :=
  carries_chain (carries_chain (carries_signedOf h))

end Levels

theorem carries_leave (paren : Token) :
    r.Carries id (leave paren) (leave (r.token paren)) := by
  refine carries_consume.bind fun t? => ?_
  cases t? with
  | none => exact carries_throw (.unclosed paren)
  | some t =>
      obtain ⟨kind, span, value⟩ := t
      cases kind with
      | rparen => exact fun _ => rfl
      | number | plus | minus | asterisk | slash | lparen =>
          exact carries_throw (.redundant ⟨_, span, value⟩)

theorem carries_atomOf {group : Token → Parse Expr}
    (h : ∀ t, r.Carries r.expr (group t) (group (r.token t))) :
    r.Carries r.expr (atomOf group) (atomOf group) := by
  refine carries_demand.bind fun ⟨kind, span, value⟩ => ?_
  cases kind with
  | number => exact carries_pure (Expr.number span value)
  | lparen =>
      have henter : r.Carries id enter enter := fun _ => rfl
      exact henter.bind fun _ => h ⟨.lparen, span, value⟩
  | plus | minus | asterisk | slash | rparen =>
      exact carries_throw (.notExpression ⟨_, span, value⟩)

theorem carries_atomWithin (room : Nat) :
    r.Carries r.expr (atomWithin room) (atomWithin room) := by
  induction room with
  | zero => exact carries_atomOf fun t => carries_throw (.tooDeep t)
  | succ room ih =>
      refine carries_atomOf fun t => (carries_sumOf ih).bind fun e => ?_
      exact (carries_leave t).bind fun _ => carries_pure e

theorem carries_whole : r.Carries r.expr whole whole := by
  have hsum : r.Carries r.expr Parse.sum Parse.sum := fun s =>
    carries_sumOf (carries_atomWithin (room s)) s
  refine hsum.bind fun e => carries_consume.bind fun t? => ?_
  cases t? with
  | none => exact carries_pure e
  | some t => exact carries_throw (.redundant t)

variable (r)

theorem state_start {ts : List Token} (h : ts ≠ [] ∨ r.stop 0 = 0) :
    r.state (.start ts) = .start (ts.map r.token) := by
  have hfinish : r.finish (finishOf ts) = finishOf (ts.map r.token) := by
    unfold finishOf
    rw [List.getLast?_map]
    cases hlast : ts.getLast? with
    | some t => rfl
    | none =>
        rcases h with hne | hzero
        · exact absurd (List.getLast?_eq_none_iff.mp hlast) hne
        · show Span.mk (r.stop 0) (r.stop 0) = .empty 0
          rw [hzero]
          rfl
  simp only [state, ParseState.start, hfinish, List.map_toArray, List.map_nil]

/-- Relabelled tokens are parsed to the relabelled tree, or to the relabelled
error. Only where there are no tokens does the place to blame come from none
of them. -/
theorem parse_map_token {ts : List Token} (h : ts ≠ [] ∨ r.stop 0 = 0) :
    parse (ts.map r.token) =
      match parse ts with
      | .ok e => .ok (r.expr e)
      | .error e => .error (r.error e) := by
  have hwhole := carries_whole (r := r) (.start ts)
  rw [r.state_start h] at hwhole
  rw [parse, hwhole, parse]
  cases whole (.start ts) <;> rfl

end Relabelling

/-! ## What is told of an error -/

namespace Diagnostic

/-- The message of a parser's error about a token. -/
def Syntactic.message (kind : Syntactic) (token? : Option Token) : String :=
  match kind, token? with
  | .tooDeep, _ => "parentheses nested more than " ++ toString (nestingLimit : Int) ++ " deep"
  | .unclosedParen, _ | .unexpectedEnd, _ | _, none => kind.text
  | _, some t => kind.text ++ ", got " ++ t.describe

end Diagnostic

namespace Relabelling

/-- The same kind of error, told of the relabelled token. A span behind the
last token is not the span of a token, and both its ends are stops. -/
def Retells (r : Relabelling) (d d' : Diagnostic) : Prop :=
  ∃ kind token?, d.subject = .syntactic kind token? ∧
    d' = {
      subject := .syntactic kind (token?.map r.token)
      message := kind.message (token?.map r.token)
      span? := d.span?.map (if kind = .unexpectedEnd then r.finish else r.span) }

theorem retells_error (r : Relabelling) (e : ParseError) :
    r.Retells (.ofParseError e) (.ofParseError (r.error e)) := by
  cases e with
  | notExpression t | notOperator t | redundant t | unclosed t | tooDeep t =>
      exact ⟨_, some t, rfl, rfl⟩
  | unexpectedEnd span => exact ⟨_, none, rfl, rfl⟩

/-- No values but those of numbers. -/
def numbersValued : Relabelling where
  start := id
  stop := id
  value kind value := if kind = .number then value else none
  start_mono := id
  stop_mono := id

theorem numbersValued_expr (e : Expr) : numbersValued.expr e = e := by
  induction e with
  | number | bare => rfl
  | unary span op operand ih => rw [expr, ih]; rfl
  | binary span op left right ihl ihr => rw [expr, ihl, ihr]; rfl

theorem parse_numbersValued (ts : List Token) (e : Expr) :
    parse (ts.map numbersValued.token) = .ok e ↔ parse ts = .ok e := by
  rw [parse_map_token numbersValued (.inr rfl)]
  cases parse ts with
  | ok e' => simp only [numbersValued_expr]
  | error e' => exact iff_of_false nofun nofun

/-- The parser does with relabelled tokens what it does with the tokens: it
makes the relabelled tree of them or tells the same error of the relabelled
token, and comes to the same place. Tokens that differ only in the values of
others than numbers make the same tree. -/
theorem parse_relabelled (r : Relabelling) {ts : List Token} (h : ts ≠ []) :
    (match whole (.start ts), whole (.start (ts.map r.token)) with
      | .ok e s, .ok e' s' => e' = r.expr e ∧ s'.index = s.index ∧ s'.depth = s.depth
      | .error e s, .error e' s' =>
        e' = r.error e ∧ r.Retells (.ofParseError e) (.ofParseError e') ∧
          s'.index = s.index ∧ s'.depth = s.depth
      | _, _ => False) ∧
    ∀ us, us.map numbersValued.token = ts.map numbersValued.token →
      ∀ e, parse us = .ok e ↔ parse ts = .ok e := by
  refine ⟨?_, fun us hus e => ?_⟩
  · have hwhole := carries_whole (r := r) (.start ts)
    rw [r.state_start (.inl h)] at hwhole
    rw [hwhole]
    cases whole (.start ts) with
    | ok e s => exact ⟨rfl, rfl, rfl⟩
    | error e s => exact ⟨rfl, r.retells_error e, rfl, rfl⟩
  · rw [← parse_numbersValued us, hus, parse_numbersValued]

/-- In `1+)` with spans that run backwards the parenthesis is refused, and it
still is with starts doubled, stops moved on and the number negated. -/
theorem parse_relabelled_of_rparen :
    let r : Relabelling := {
      start := fun i => 2 * i
      stop := fun i => i + 7
      value := fun kind value => if kind = .number then value.map (-·) else value
      start_mono := by omega
      stop_mono := by omega }
    let paren : Token := ⟨.rparen, ⟨2, 2⟩, none⟩
    let ts : List Token := [⟨.number, ⟨5, 3⟩, some 1⟩, ⟨.plus, ⟨9, 0⟩, some 4⟩, paren]
    ts ≠ [] ∧ parse ts = .error (.notExpression paren) ∧
      parse (ts.map r.token) = .error (.notExpression ⟨.rparen, ⟨4, 9⟩, none⟩) ∧
      ∀ us, us.map numbersValued.token = ts.map numbersValued.token →
        ∀ e, parse us = .ok e ↔ parse ts = .ok e := by
  intro r paren ts
  have hts : ts ≠ [] := List.cons_ne_nil _ _
  obtain ⟨hrun, hvalues⟩ := parse_relabelled r hts
  have hplain : whole (.start ts) = .error (.notExpression paren) _ := rfl
  rw [hplain] at hrun
  refine ⟨hts, rfl, ?_, hvalues⟩
  rw [parse]
  cases hrelabelled : whole (.start (ts.map r.token)) with
  | ok e s => rw [hrelabelled] at hrun; exact hrun.elim
  | error e s => rw [hrelabelled] at hrun; rw [hrun.1]; rfl

end Relabelling

end ArithTree
