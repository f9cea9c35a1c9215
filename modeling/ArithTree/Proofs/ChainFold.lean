import ArithTree.Proofs.RecursionBound

/-!
# A chain is a left fold

A chain calls for an operand, and then for an operator and an operand again and
again. What comes of it is told by what comes of the calls: the trees of the
operands are folded from the left, the tokens are those that the calls have
taken, and the first call for an operand that fails is the end of the chain, with
the error and the state that the call has left.

None of this depends on what the operands are. They may be chains by the same
operators themselves and so leave none of them to this one. All that is asked of
a call is that what it takes is some of the tokens, from the next one on.

An operator is read by a step that fails on a token that is none. There a chain
has to come to its end and not to fail, so the failure is caught (`attempt`). It
is the only one that is caught, and it has taken nothing. No operand fails in
this way, because every chain in it has caught its own.
-/

namespace ArithTree

open Parse ParseState

/-- An operator, if there is one. At the end of the tokens none is asked for, and
a token that is none is left. -/
def Parse.attempt (op : Parse (Spanned BinaryOp)) : Parse (Option (Spanned BinaryOp)) := do
  match ← peek with
  | none => return none
  | some _ =>
    tryCatch (some <$> op) fun
      | .notOperator _ => return none
      | e => throw e

theorem operator_of_some {table : Token.Kind → Option BinaryOp} {s : ParseState} {t : Token}
    {rest : List Token} {op : BinaryOp} (hrest : s.rest = t :: rest)
    (hop : table t.kind = some op) :
    operator table s = .ok ⟨op, t.span⟩ (s.advance rest) := by
  show EStateM.bind (operator? table) _ s = _
  simp only [EStateM.bind, operator?_of_some hrest hop]
  rfl

theorem operator_of_none {table : Token.Kind → Option BinaryOp} {s : ParseState} {t : Token}
    {rest : List Token} (hrest : s.rest = t :: rest) (hop : table t.kind = none) :
    operator table s = .error (.notOperator t) s := by
  have hnone : operator? (ε := ParseError) table s = .ok none s :=
    operator?_of_none (by simp [hrest, hop])
  show EStateM.bind (operator? table) _ s = _
  simp only [EStateM.bind, hnone, bind, peek, hrest]
  rfl

/-- Before a token the step is tried, and what it says of the token is caught. -/
theorem attempt_of_cons {op : Parse (Spanned BinaryOp)} {s : ParseState} {t : Token}
    {rest : List Token} (hrest : s.rest = t :: rest) :
    attempt op s =
      match op s with
      | .ok a s' => .ok (some a) s'
      | .error (.notOperator _) s' => .ok none s'
      | .error e s' => .error e s' := by
  unfold attempt
  show EStateM.bind peek _ s = _
  simp only [EStateM.bind, peek, hrest]
  show EStateM.tryCatch (EStateM.map some op) _ s = _
  rw [EStateM.tryCatch, EStateM.map]
  cases op s with
  | ok a s' => rfl
  | error e s' => cases e <;> rfl

/-- What a chain reads its operators by. -/
theorem attempt_operator (table : Token.Kind → Option BinaryOp) :
    attempt (operator table) = operator? table := by
  funext s
  cases hrest : s.rest with
  | nil =>
      rw [operator?_of_none (by simp [hrest])]
      unfold attempt
      show EStateM.bind peek _ s = _
      simp only [EStateM.bind, peek, hrest]
      rfl
  | cons t rest =>
      rw [attempt_of_cons hrest]
      cases hop : table t.kind with
      | none => rw [operator_of_none hrest hop, operator?_of_none (by simp [hrest, hop])]
      | some op => rw [operator_of_some hrest hop, operator?_of_some hrest hop]

/-- From the one state the step answers, and takes these tokens to come to the
other. -/
structure Answers {α : Type} (p : Parse α) (s : ParseState) (ts : List Token) (a : α)
    (s' : ParseState) : Prop where
  call : p s = .ok a s'
  reads : Reads s ts s'

theorem answers_operator {table : Token.Kind → Option BinaryOp} {s : ParseState} {t : Token}
    {rest : List Token} {op : BinaryOp} (hrest : s.rest = t :: rest)
    (hop : table t.kind = some op) :
    Answers (operator table) s [t] ⟨op, t.span⟩ (s.advance rest) :=
  ⟨operator_of_some hrest hop, reads_advance hrest⟩

/-- A round of a chain: the token that is its operator, and the operand behind it. -/
structure Round where
  sign : Token
  op : Spanned BinaryOp
  tokens : List Token
  operand : Expr

namespace Round

def taken (r : Round) : List Token := r.sign :: r.tokens

def apply (left : Expr) (r : Round) : Expr := .applyBinary r.op left r.operand

end Round

section

variable (operand : Parse Expr) (op : Parse (Spanned BinaryOp)) (s : ParseState)

/-- The calls of a chain have answered so far: one for the first operand, and two
in each round. -/
inductive Chained : List Token → Expr → List Round → Expr → ParseState → Prop where
  | first {ts : List Token} {e : Expr} {s' : ParseState} (h : Answers operand s ts e s') :
      Chained ts e [] e s'
  | round {ts : List Token} {first left : Expr} {rounds : List Round} {r : Round}
      {s₁ s₂ s₃ : ParseState} (h : Chained ts first rounds left s₁)
      (hop : Answers op s₁ [r.sign] r.op s₂)
      (hright : Answers operand s₂ r.tokens r.operand s₃) :
      Chained ts first (rounds ++ [r]) (r.apply left)
        (s₃.record (.binary r.op.value (r.apply left).span))

/-- Where a chain calls for an operand, after all calls before have answered. -/
inductive CallsAt : ParseState → Prop where
  | first : CallsAt s
  | next {ts : List Token} {first left : Expr} {rounds : List Round} {t : Token}
      {o : Spanned BinaryOp} {s₁ s₂ : ParseState}
      (h : Chained operand op s ts first rounds left s₁) (hop : Answers op s₁ [t] o s₂) :
      CallsAt s₂

end

namespace Chained

variable {operand : Parse Expr} {op : Parse (Spanned BinaryOp)} {s s' : ParseState}
  {ts : List Token} {first e : Expr} {rounds : List Round}

theorem eq_foldl (h : Chained operand op s ts first rounds e s') :
    e = rounds.foldl Round.apply first := by
  induction h with
  | first => rfl
  | round _ _ _ ih => rw [List.foldl_append, ← ih]; rfl

theorem reads (h : Chained operand op s ts first rounds e s') :
    Reads s (ts ++ rounds.flatMap Round.taken) s' := by
  induction h with
  | first h =>
      rw [List.flatMap_nil, List.append_nil]
      exact h.reads
  | round _ hop hright ih =>
      have htaken := hop.reads.trans hright.reads
      rw [List.flatMap_append, List.flatMap_singleton, ← List.append_assoc]
      exact (ih.trans htaken).record _

end Chained

theorem Parse.Ends.self {α : Type} (p : Parse α) (s : ParseState) :
    Ends p s (fun a s' => p s = .ok a s') fun e s' => p s = .error e s' := by
  unfold Ends
  cases p s with
  | ok a s' => rfl
  | error e s' => rfl

/-- When it answers, the step has taken some tokens. -/
def Takes (p : Parse Expr) : Prop :=
  ∀ s, Ends p s (fun _ s' => ∃ ts, Reads s ts s') fun _ _ => True

theorem Takes.shrinks {p : Parse Expr} (h : Takes p) : Shrinks p := by
  intro s
  refine Ends.mono (h s) (fun _ s' ⟨ts, hreads⟩ => ?_) fun _ _ h => h
  rw [hreads.rest, List.length_append]
  omega

theorem Takes.answers {p : Parse Expr} (h : Takes p) (s : ParseState) :
    Ends p s (fun e s' => ∃ ts, Answers p s ts e s') fun e s' => p s = .error e s' := by
  refine Ends.mono (Ends.and (Ends.self p s) (h s)) ?_ fun _ _ h => h
  intro e s' ⟨hcall, ts, hreads⟩
  exact ⟨ts, hcall, hreads⟩

/-- A chain of any operands is told by its calls. -/
theorem chain_calls {operand : Parse Expr} (h : Takes operand)
    (table : Token.Kind → Option BinaryOp) (s : ParseState) :
    Ends (chain operand (operator? table)) s
      (fun e s' =>
        (∃ ts first rounds, Chained operand (operator table) s ts first rounds e s') ∧
          ∀ t ∈ s'.rest.head?, table t.kind = none)
      (fun e s' =>
        ∃ s₁, CallsAt operand (operator table) s s₁ ∧ operand s₁ = .error e s') := by
  refine chain_ends _ h.shrinks (Ends.mono (h.answers s) ?_ ?_)
    fun left s₁ t rest op hleft hrest hop => Ends.mono (h.answers (s₁.advance rest)) ?_ ?_
  · intro e s' ⟨ts, hfirst⟩
    exact ⟨ts, e, [], .first hfirst⟩
  · exact fun e s' hfails => ⟨s, .first, hfails⟩
  · intro right s' ⟨us, hright⟩
    obtain ⟨ts, first, rounds, hchained⟩ := hleft
    exact ⟨ts, first, rounds ++ [⟨t, ⟨op, t.span⟩, us, right⟩],
      .round hchained (answers_operator hrest hop) hright⟩
  · intro e s' hfails
    obtain ⟨ts, first, rounds, hchained⟩ := hleft
    exact ⟨_, .next hchained (answers_operator hrest hop), hfails⟩

theorem Symbol.takes_step (x : Symbol) : Takes x.step := by
  intro s
  unfold Ends
  rw [x.step_eq_within]
  refine Ends.mono (sound x (room s) s) ?_ fun _ _ h => h
  intro e s' ⟨⟨ts, n, hreads, _⟩, _⟩
  exact ⟨ts, hreads⟩

/-- The automaton never asks for an operator. -/
theorem Automaton.run_ne_notOperator {limit : Nat} {finish : Span} {t : Token}
    (ts : List Token) :
    ∀ (m : Automaton) (index : Nat),
      (m.run limit finish index ts).1 ≠ some (.notOperator t) := by
  induction ts with
  | nil =>
      intro ⟨expected, opened⟩ index h
      cases expected <;> cases opened <;> cases h
  | cons u ts ih =>
      intro m index
      cases hstep : m.step limit u with
      | ok m' => rw [run_of_ok hstep]; exact ih m' (index + 1)
      | error e =>
          rw [run_of_error hstep]
          obtain rfl | rfl | rfl := refusal_of_step hstep <;> nofun

/-- No nonterminal fails for want of an operator. -/
theorem Symbol.step_ne_notOperator {x : Symbol} {s s' : ParseState} {e : ParseError}
    (h : x.step s = .error e s') (t : Token) : e ≠ .notOperator t := by
  rintro rfl
  rw [x.step_eq_within] at h
  have hrun := (follows x (room s) s []).of_error h
  exact Automaton.run_ne_notOperator s.rest _ s.index (congrArg Prod.fst hrun)

/-- A nonterminal that is a chain is one of calls. -/
theorem Symbol.Chains.step_eq {x y : Symbol} {table : Token.Kind → Option BinaryOp}
    (hc : x.Chains y table) : x.step = chain y.step (operator? table) := by
  have hthrough : ∀ z : Symbol, (Call.phrase z).through id Parse.atom = z.step := by
    intro z
    funext s
    rw [((agrees_atom s.depth).through (.phrase z)).eq rfl, adaptExcept_id]
    rfl
  rw [← hthrough x, ← hthrough y]
  cases hc <;> rfl

/-- A chain of nonterminals by any operators. It answers with the left fold of its
operands, has taken the tokens of its calls, and ends at the end of the tokens or at
one that is no operator, which is left. It fails only as the first of its operands
to fail does, and so never for want of an operator. -/
theorem chain_folds (x : Symbol) (table : Token.Kind → Option BinaryOp) :
    attempt (operator table) = operator? table ∧
    (∀ y : Symbol, y.Chains x table → y.step = chain x.step (operator? table)) ∧
    ∀ s, Ends (chain x.step (operator? table)) s
      (fun e s' => ∃ ts first rounds,
        Chained x.step (operator table) s ts first rounds e s' ∧
          e = rounds.foldl Round.apply first ∧
          Reads s (ts ++ rounds.flatMap Round.taken) s' ∧
          (s'.rest = [] ∨ ∃ t, operator table s' = .error (.notOperator t) s'))
      (fun e s' => (∀ t, e ≠ .notOperator t) ∧
        ∃ s₁, CallsAt x.step (operator table) s s₁ ∧ x.step s₁ = .error e s') := by
  refine ⟨attempt_operator table, fun y hc => hc.step_eq, fun s => ?_⟩
  refine Ends.mono (chain_calls x.takes_step table s) ?_ ?_
  · intro e s' ⟨⟨ts, first, rounds, hchained⟩, hstop⟩
    refine ⟨ts, first, rounds, hchained, hchained.eq_foldl, hchained.reads, ?_⟩
    cases hrest : s'.rest with
    | nil => exact .inl rfl
    | cons t rest => exact .inr ⟨t, operator_of_none hrest (hstop t (by simp [hrest]))⟩
  · intro e s' ⟨s₁, hcalls, hfails⟩
    exact ⟨Symbol.step_ne_notOperator hfails, s₁, hcalls, hfails⟩

end ArithTree
