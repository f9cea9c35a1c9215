import ArithTree.Expr.Parse.Grammar

/-!
# What a parsing step comes to

Everything that is proved about the parser follows the same walk: through an
operand, round a chain, into a group and out again. The walk is made once,
here. `Ends` says of a step from a state what holds of its answer and what
holds of its error, and there is one rule for each way the grammar puts steps
together. After this file no proof opens a step again.

The rule for a chain is the one with something in it. A chain runs on rounds,
and the rounds are bookkeeping: each takes a token for its operator, so there
are as many as could ever be needed and the end of the rounds is the end of
the tokens. The rule therefore speaks of an invariant alone, and says in its
conclusion that a chain never stops in front of an operator of its own. All
it asks for is that operands do not give tokens back, which `Shrinks` says.
-/

namespace ArithTree

namespace ParseState

/-- The state after the next token, of which `rest` is left. -/
def advance (s : ParseState) (rest : List Token) : ParseState :=
  { s with rest, index := s.index + 1 }

/-- The state in one group more. -/
def deeper (s : ParseState) : ParseState := { s with depth := s.depth + 1 }

/-- The state in one group less. -/
def shallower (s : ParseState) : ParseState := { s with depth := s.depth - 1 }

/-- The state after an operation. -/
def record (s : ParseState) (r : Reduction) : ParseState :=
  { s with reductions := s.reductions.push r }

end ParseState

namespace Parse

open ParseState

/-- From this state the step answers as `good` says or fails as `bad` says. -/
def Ends {ε α : Type} (p : ParseStep ε α) (s : ParseState)
    (good : α → ParseState → Prop) (bad : ε → ParseState → Prop) : Prop :=
  match p s with
  | .ok a s' => good a s'
  | .error e s' => bad e s'

/-- The step never leaves more tokens than it found. -/
def Shrinks {ε α : Type} (p : ParseStep ε α) : Prop :=
  ∀ s, Ends p s (fun _ s' => s'.rest.length ≤ s.rest.length) fun _ _ => True

theorem Ends.of_ok {ε α : Type} {p : ParseStep ε α} {s s' : ParseState} {a : α}
    {good : α → ParseState → Prop} {bad : ε → ParseState → Prop}
    (h : Ends p s good bad) (hp : p s = .ok a s') : good a s' := by
  rw [Ends, hp] at h
  exact h

theorem Ends.of_error {ε α : Type} {p : ParseStep ε α} {s s' : ParseState} {e : ε}
    {good : α → ParseState → Prop} {bad : ε → ParseState → Prop}
    (h : Ends p s good bad) (hp : p s = .error e s') : bad e s' := by
  rw [Ends, hp] at h
  exact h

theorem Ends.mono {ε α : Type} {p : ParseStep ε α} {s : ParseState}
    {good good' : α → ParseState → Prop} {bad bad' : ε → ParseState → Prop}
    (h : Ends p s good bad) (hgood : ∀ a s', good a s' → good' a s')
    (hbad : ∀ e s', bad e s' → bad' e s') : Ends p s good' bad' := by
  unfold Ends at h ⊢
  cases hp : p s with
  | ok a s' => rw [hp] at h; exact hgood a s' h
  | error e s' => rw [hp] at h; exact hbad e s' h

theorem Ends.and {ε α : Type} {p : ParseStep ε α} {s : ParseState}
    {good good' : α → ParseState → Prop} {bad : ε → ParseState → Prop}
    (h : Ends p s good bad) (h' : Ends p s good' fun _ _ => True) :
    Ends p s (fun a s' => good a s' ∧ good' a s') bad := by
  unfold Ends at h h' ⊢
  cases hp : p s with
  | ok a s' => rw [hp] at h h'; exact ⟨h, h'⟩
  | error e s' => rw [hp] at h; exact h

theorem Ends.bind {ε α β : Type} {p : ParseStep ε α} {f : α → ParseStep ε β}
    {s : ParseState} {good : β → ParseState → Prop} {bad : ε → ParseState → Prop}
    (h : Ends p s (fun a s' => Ends (f a) s' good bad) bad) :
    Ends (p >>= f) s good bad := by
  unfold Ends at h
  show match EStateM.bind p f s with
    | .ok a s' => good a s'
    | .error e s' => bad e s'
  cases hp : p s with
  | ok a s' => rw [hp] at h; simp only [EStateM.bind, hp]; exact h
  | error e s' => rw [hp] at h; simp only [EStateM.bind, hp]; exact h

/-- Either the next token is in the table and is taken, or nothing happens
and it is not. -/
theorem operator?_ends {ε α : Type} {table : Token.Kind → Option α} {s : ParseState}
    {good : Option (Spanned α) → ParseState → Prop} {bad : ε → ParseState → Prop}
    (none : (∀ t ∈ s.rest.head?, table t.kind = none) → good none s)
    (some : ∀ t rest op, s.rest = t :: rest → table t.kind = some op →
      good (some ⟨op, t.span⟩) (s.advance rest)) :
    Ends (operator? table) s good bad := by
  unfold Ends operator?
  cases hrest : s.rest with
  | nil => exact none (by simp [hrest])
  | cons t rest =>
      cases hop : table t.kind with
      | none => simp only [hop]; exact none (by simp [hrest, hop])
      | some op => simp only [hop]; exact some t rest op hrest hop

/-- The loop of a chain, on rounds enough for the tokens that are left. Every
round shortens them, so running out of rounds is running out of tokens. -/
theorem chainFrom_ends {ε : Type} {operand : ParseStep ε Expr}
    {table : Token.Kind → Option BinaryOp} {inv : Expr → ParseState → Prop}
    {bad : ε → ParseState → Prop} (hshrinks : Shrinks operand)
    (next : ∀ left s t rest op, inv left s → s.rest = t :: rest →
      table t.kind = some op →
      Ends operand (s.advance rest) (fun right s' =>
        inv (.applyBinary ⟨op, t.span⟩ left right)
          (s'.record (.binary op (Expr.applyBinary ⟨op, t.span⟩ left right).span))) bad) :
    ∀ {rounds : Nat} {left : Expr} {s : ParseState}, inv left s →
      s.rest.length ≤ rounds →
      Ends (chainFrom operand (operator? table) rounds left) s
        (fun e s' => inv e s' ∧ ∀ t ∈ s'.rest.head?, table t.kind = none) bad := by
  intro rounds
  induction rounds with
  | zero =>
      intro left s hinv hle
      have hnil : s.rest = [] := List.eq_nil_of_length_eq_zero (Nat.le_zero.mp hle)
      exact ⟨hinv, by simp [hnil]⟩
  | succ rounds ih =>
      intro left s hinv hle
      refine Ends.bind (operator?_ends (fun hstop => ?_) fun t rest op hrest hop => ?_)
      · exact ⟨hinv, hstop⟩
      · refine Ends.bind (Ends.mono
          (Ends.and (next left s t rest op hinv hrest hop) (hshrinks _)) ?_ fun _ _ h => h)
        intro right s' ⟨hinv', hlen⟩
        rw [hrest, List.length_cons] at hle
        exact ih hinv' (Nat.le_trans hlen (Nat.le_of_succ_le_succ hle))

theorem chain_ends {ε : Type} {operand : ParseStep ε Expr}
    {table : Token.Kind → Option BinaryOp} {s : ParseState}
    {bad : ε → ParseState → Prop} (inv : Expr → ParseState → Prop)
    (hshrinks : Shrinks operand) (first : Ends operand s inv bad)
    (next : ∀ left s t rest op, inv left s → s.rest = t :: rest →
      table t.kind = some op →
      Ends operand (s.advance rest) (fun right s' =>
        inv (.applyBinary ⟨op, t.span⟩ left right)
          (s'.record (.binary op (Expr.applyBinary ⟨op, t.span⟩ left right).span))) bad) :
    Ends (chain operand (operator? table)) s
      (fun e s' => inv e s' ∧ ∀ t ∈ s'.rest.head?, table t.kind = none) bad :=
  Ends.bind (Ends.mono first
    (fun _ _ hinv => chainFrom_ends hshrinks next hinv (Nat.le_refl _)) fun _ _ h => h)

theorem shrinks_chain {ε : Type} {operand : ParseStep ε Expr}
    {table : Token.Kind → Option BinaryOp} (h : Shrinks operand) :
    Shrinks (chain operand (operator? table)) := by
  intro s
  refine Ends.mono (chain_ends (fun _ s' => s'.rest.length ≤ s.rest.length) h (h s)
    fun left s' t rest op hinv hrest _ => ?_) (fun _ _ h => h.1) fun _ _ h => h
  refine Ends.mono (h _) (fun right s'' hle => ?_) fun _ _ h => h
  have hlt : rest.length < s'.rest.length := by simp [hrest]
  exact Nat.le_trans hle (Nat.le_trans (Nat.le_of_lt hlt) hinv)

theorem signedOf_ends {ε : Type} {operand : ParseStep ε Expr} {s : ParseState}
    {good : Expr → ParseState → Prop} {bad : ε → ParseState → Prop}
    (plain : (∀ t ∈ s.rest.head?, sign t.kind = none) → Ends operand s good bad)
    (signed : ∀ t rest op, s.rest = t :: rest → sign t.kind = some op →
      Ends operand (s.advance rest) (fun e s' =>
        good (.applyUnary ⟨op, t.span⟩ e)
          (s'.record (.unary op (Expr.applyUnary ⟨op, t.span⟩ e).span))) bad) :
    Ends (signedOf operand) s good bad :=
  Ends.bind (operator?_ends plain fun t rest op hrest hop =>
    Ends.bind (signed t rest op hrest hop))

theorem shrinks_signedOf {ε : Type} {operand : ParseStep ε Expr} (h : Shrinks operand) :
    Shrinks (signedOf operand) := by
  intro s
  refine signedOf_ends (fun _ => h s) fun t rest op hrest _ => ?_
  refine Ends.mono (h _) (fun e s' hle => ?_) fun _ _ h => h
  have hlt : rest.length < s.rest.length := by simp [hrest]
  exact Nat.le_trans hle (Nat.le_of_lt hlt)

theorem shrinks_productOf {ε : Type} {operand : ParseStep ε Expr} (h : Shrinks operand) :
    Shrinks (productOf operand) := shrinks_chain (shrinks_signedOf h)

theorem shrinks_sumOf {ε : Type} {operand : ParseStep ε Expr} (h : Shrinks operand) :
    Shrinks (sumOf operand) := shrinks_chain (shrinks_productOf h)

theorem atomOf_ends {group : Token → Parse Expr} {s : ParseState}
    {good : Expr → ParseState → Prop} {bad : ParseError → ParseState → Prop}
    (finished : s.rest = [] → bad (.unexpectedEnd s.finish) s)
    (number : ∀ t rest, s.rest = t :: rest → t.kind = .number →
      good (.number t.span t.value) (s.advance rest))
    (opening : ∀ t rest, s.rest = t :: rest → t.kind = .lparen →
      Ends (group t) (s.advance rest).deeper good bad)
    (other : ∀ t rest, s.rest = t :: rest → t.kind ≠ .number → t.kind ≠ .lparen →
      bad (.notExpression t) (s.advance rest)) :
    Ends (atomOf group) s good bad := by
  refine Ends.bind ?_
  unfold Ends demand
  cases hrest : s.rest with
  | nil => exact finished hrest
  | cons t rest =>
      show Ends _ (s.advance rest) good bad
      cases hkind : t.kind with
      | number => exact number t rest hrest hkind
      | lparen => exact Ends.bind (opening t rest hrest hkind)
      | plus | minus | asterisk | slash | rparen =>
          exact other t rest hrest (by simp [hkind]) (by simp [hkind])

theorem leave_ends {paren : Token} {s : ParseState} {good : Unit → ParseState → Prop}
    {bad : ParseError → ParseState → Prop}
    (finished : s.rest = [] → bad (.unclosed paren) s)
    (closing : ∀ t rest, s.rest = t :: rest → t.kind = .rparen →
      good () (s.advance rest).shallower)
    (other : ∀ t rest, s.rest = t :: rest → t.kind ≠ .rparen →
      bad (.redundant t) (s.advance rest)) :
    Ends (leave paren) s good bad := by
  refine Ends.bind ?_
  unfold Ends consume
  cases hrest : s.rest with
  | nil => exact finished hrest
  | cons t rest =>
      show Ends (if t.kind = .rparen then _ else _) (s.advance rest) good bad
      by_cases hkind : t.kind = .rparen
      · rw [if_pos hkind]
        exact closing t rest hrest hkind
      · rw [if_neg hkind]
        exact other t rest hrest hkind

/-- A group is its expression, and then the parenthesis that closes it. -/
theorem group_ends {inner : Parse Expr} {paren : Token} {s : ParseState}
    {good : Expr → ParseState → Prop} {bad : ParseError → ParseState → Prop}
    (h : Ends inner s (fun e s' => Ends (leave paren) s' (fun _ s'' => good e s'') bad) bad) :
    Ends (do let e ← inner; leave paren; return e) s good bad :=
  Ends.bind (Ends.mono h (fun _ _ h' => Ends.bind h') fun _ _ h' => h')

theorem shrinks_atomOf {group : Token → Parse Expr} (h : ∀ t, Shrinks (group t)) :
    Shrinks (atomOf group) := by
  intro s
  refine atomOf_ends (fun _ => trivial) (fun t rest hrest _ => ?_)
    (fun t rest hrest _ => ?_) (fun _ _ _ _ _ => trivial)
  · simp [advance, hrest]
  · refine Ends.mono (h t _) (fun _ s' hle => ?_) fun _ _ h => h
    have hlt : rest.length < s.rest.length := by simp [hrest]
    exact Nat.le_trans hle (Nat.le_of_lt hlt)

theorem shrinks_atomWithin : ∀ room, Shrinks (atomWithin room) := by
  intro room
  induction room with
  | zero => exact shrinks_atomOf fun _ _ => trivial
  | succ room ih =>
      refine shrinks_atomOf fun paren s => group_ends ?_
      refine Ends.mono (shrinks_sumOf ih s) (fun _ s' hle => ?_) fun _ _ h => h
      refine leave_ends (fun _ => trivial) (fun t rest hrest _ => ?_) (fun _ _ _ _ => trivial)
      have hlt : rest.length < s'.rest.length := by simp [hrest]
      exact Nat.le_trans (Nat.le_of_lt hlt) hle

theorem whole_ends {s : ParseState} {good : Expr → ParseState → Prop}
    {bad : ParseError → ParseState → Prop}
    (h : Ends (sumOf (atomWithin (room s))) s (fun e s' =>
      (s'.rest = [] → good e s') ∧
        ∀ t rest, s'.rest = t :: rest → bad (.redundant t) (s'.advance rest)) bad) :
    Ends whole s good bad := by
  refine Ends.bind (Ends.mono h (fun e s' ⟨hdone, hmore⟩ => Ends.bind ?_) fun _ _ h' => h')
  unfold Ends consume
  cases hrest : s'.rest with
  | nil => exact hdone hrest
  | cons t rest => exact hmore t rest hrest

end Parse

end ArithTree
