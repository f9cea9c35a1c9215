import ArithTree.Proofs.ParseGrammar

/-!
# The parser as an automaton

Which tokens are refused, and where, does not take a recursive parser to say.
An automaton that reads one token after the other and keeps nothing but the
parentheses that are open gives the same answer: it accepts the same lists,
stops at the same token with the same error, and has read as many tokens by
then. It builds no tree, which is all it lacks.

The proof is a simulation with the stack left open. A parser inside some
groups does what the automaton does above their parentheses, whatever they
are: where the parser answers, the automaton has come to a complete operand
with the stack as it was, and where the parser fails, the automaton stops.
The room the parser has for groups is what the stack leaves of the limit, and
this is the whole of the invariant.

Only at the end of a group does it matter that a chain is as long as can be.
The automaton would take another operator there; no chain has left one.
-/

namespace ArithTree

open Parse ParseState

/-- What may come next. -/
inductive Expected where
  /-- An operand, with a sign in front or none. -/
  | operand
  /-- The operand of a sign. -/
  | atom
  /-- An operator or a closing parenthesis, as an operand is complete. -/
  | operator
deriving DecidableEq

structure Automaton where
  expected : Expected
  /-- The parentheses that are open, the innermost first. -/
  opened : List Token
deriving DecidableEq

namespace Automaton

/-- Before any token. -/
def start : Automaton := ⟨.operand, []⟩

/-- Opens a parenthesis more, if the limit allows it. -/
def push (limit : Nat) (opened : List Token) (t : Token) : Except ParseError Automaton :=
  if limit < opened.length + 1 then .error (.tooDeep t) else .ok ⟨.operand, t :: opened⟩

/-- Reads a token. -/
def step (limit : Nat) : Automaton → Token → Except ParseError Automaton
  | ⟨.operand, opened⟩, t =>
    match t.kind with
    | .number => .ok ⟨.operator, opened⟩
    | .plus | .minus => .ok ⟨.atom, opened⟩
    | .lparen => push limit opened t
    | .asterisk | .slash | .rparen => .error (.notExpression t)
  | ⟨.atom, opened⟩, t =>
    match t.kind with
    | .number => .ok ⟨.operator, opened⟩
    | .lparen => push limit opened t
    | .plus | .minus | .asterisk | .slash | .rparen => .error (.notExpression t)
  | ⟨.operator, opened⟩, t =>
    match t.kind, opened with
    | .plus, _ | .minus, _ | .asterisk, _ | .slash, _ => .ok ⟨.operand, opened⟩
    | .rparen, _ :: outer => .ok ⟨.operator, outer⟩
    | .rparen, [] | .number, _ | .lparen, _ => .error (.redundant t)

/-- Where an operand is missing that no token follows: behind the last token. -/
def finish (ts : List Token) : Span :=
  match ts.getLast? with
  | some t => ⟨t.span.stop, t.span.stop⟩
  | none => ⟨0, 0⟩

theorem finish_eq (ts : List Token) : finish ts = finishOf ts := by
  unfold finish finishOf
  cases ts.getLast? <;> rfl

/-- What is wrong if the tokens end here, where `finish` is to blame for an
operand that is missing. -/
def stop (finish : Span) : Automaton → Option ParseError
  | ⟨.operand, _⟩ | ⟨.atom, _⟩ => some (.unexpectedEnd finish)
  | ⟨.operator, paren :: _⟩ => some (.unclosed paren)
  | ⟨.operator, []⟩ => none

/-- Reads tokens from an index on, up to the end or the first error. The
answer is the error, if there is one, and the index after the last token that
was read. -/
def run (limit : Nat) (finish : Span) (m : Automaton) (index : Nat) :
    List Token → Option ParseError × Nat
  | [] => (m.stop finish, index)
  | t :: rest =>
    match m.step limit t with
    | .ok m' => run limit finish m' (index + 1) rest
    | .error e => (some e, index + 1)

theorem run_of_ok {limit index : Nat} {finish : Span} {m m' : Automaton} {t : Token}
    {rest : List Token} (h : m.step limit t = .ok m') :
    run limit finish m index (t :: rest) = run limit finish m' (index + 1) rest := by
  rw [run, h]

theorem run_of_error {limit index : Nat} {finish : Span} {m : Automaton} {t : Token}
    {rest : List Token} {e : ParseError} (h : m.step limit t = .error e) :
    run limit finish m index (t :: rest) = (some e, index + 1) := by
  rw [run, h]

theorem step_of_number {limit : Nat} {opened : List Token} {t : Token}
    (ht : t.kind = .number) :
    step limit ⟨.atom, opened⟩ t = .ok ⟨.operator, opened⟩ := by
  simp only [step, ht]

theorem step_of_lparen {limit : Nat} {opened : List Token} {t : Token}
    (ht : t.kind = .lparen) : step limit ⟨.atom, opened⟩ t = push limit opened t := by
  simp only [step, ht]

theorem step_of_other {limit : Nat} {opened : List Token} {t : Token}
    (hnumber : t.kind ≠ .number) (hlparen : t.kind ≠ .lparen) :
    step limit ⟨.atom, opened⟩ t = .error (.notExpression t) := by
  cases hkind : t.kind with
  | number => exact absurd hkind hnumber
  | lparen => exact absurd hkind hlparen
  | plus | minus | asterisk | slash | rparen => simp only [step, hkind]

theorem step_of_sign {limit : Nat} {opened : List Token} {t : Token} {op : UnaryOp}
    (hop : sign t.kind = some op) :
    step limit ⟨.operand, opened⟩ t = .ok ⟨.atom, opened⟩ := by
  cases hkind : t.kind with
  | plus | minus => simp only [step, hkind]
  | number | asterisk | slash | lparen | rparen => simp [hkind, sign] at hop

theorem step_of_operator {limit : Nat} {opened : List Token} {t : Token} {x y : Symbol}
    {table : Token.Kind → Option BinaryOp} {op : BinaryOp} (hc : x.Chains y table)
    (hop : table t.kind = some op) :
    step limit ⟨.operator, opened⟩ t = .ok ⟨.operand, opened⟩ := by
  cases hc <;> cases hkind : t.kind <;>
    simp_all [step, additive, multiplicative]

theorem step_of_rparen {limit : Nat} {paren t : Token} {outer : List Token}
    (ht : t.kind = .rparen) :
    step limit ⟨.operator, paren :: outer⟩ t = .ok ⟨.operator, outer⟩ := by
  simp only [step, ht]

/-- After a sum nothing goes on but the end of its group. -/
theorem step_of_redundant {limit : Nat} {opened : List Token} {t : Token}
    {rest : List Token} (hstops : Symbol.sum.Stops (t :: rest))
    (ht : t.kind = .rparen → opened = []) :
    step limit ⟨.operator, opened⟩ t = .error (.redundant t) := by
  have hnot : Symbol.sum.continuedBy t.kind = false := hstops t rfl
  cases hkind : t.kind with
  | number | lparen => simp only [step, hkind]
  | rparen => simp only [step, hkind, ht hkind]
  | plus | minus | asterisk | slash => simp [hkind, Symbol.continuedBy] at hnot

/-- Without a sign there is no telling whether one could have come. -/
theorem run_operand {limit index : Nat} {finish : Span} {opened rest : List Token}
    (h : ∀ t ∈ rest.head?, sign t.kind = none) :
    run limit finish ⟨.operand, opened⟩ index rest =
      run limit finish ⟨.atom, opened⟩ index rest := by
  cases rest with
  | nil => rfl
  | cons t rest =>
      have hnone : sign t.kind = none := h t rfl
      rw [run, run]
      cases hkind : t.kind with
      | plus | minus => simp [hkind, sign] at hnone
      | number | asterisk | slash | lparen | rparen => simp only [step, hkind]

end Automaton

/-- The token that was not to come, where the error is one of that kind and
not one of tokens that are missing. -/
def ParseError.offender? : ParseError → Option Token
  | .notExpression t | .notOperator t | .redundant t | .tooDeep t => some t
  | .unclosed _ | .unexpectedEnd _ => none

namespace Automaton

/-- What a token can be refused for. -/
theorem refusal_of_step {limit : Nat} {m : Automaton} {t : Token} {e : ParseError}
    (h : m.step limit t = .error e) :
    e = .notExpression t ∨ e = .redundant t ∨ e = .tooDeep t := by
  obtain ⟨expected, opened⟩ := m
  have hpush : push limit opened t = .error e → e = .tooDeep t := by
    intro h
    unfold push at h
    split at h <;> cases h
    rfl
  cases expected with
  | operand | atom =>
      cases hkind : t.kind <;> simp only [step, hkind] at h
      case lparen => exact .inr (.inr (hpush h))
      all_goals cases h
      all_goals exact .inl rfl
  | operator =>
      cases hkind : t.kind <;> cases opened <;> simp only [step, hkind] at h
      all_goals cases h
      all_goals exact .inr (.inl rfl)

theorem offender_of_step {limit : Nat} {m : Automaton} {t : Token} {e : ParseError}
    (h : m.step limit t = .error e) : e.offender? = some t := by
  obtain rfl | rfl | rfl := refusal_of_step h <;> rfl

theorem offender_of_stop {finish : Span} {m : Automaton} {e : ParseError}
    (h : m.stop finish = some e) : e.offender? = none := by
  obtain ⟨expected, opened⟩ := m
  cases expected <;> cases opened <;> cases h <;> rfl

/-- A run ends behind the token that stopped it, or behind all of them. -/
theorem run_index {limit : Nat} {finish : Span} {ts : List Token} :
    ∀ {m : Automaton} {index : Nat},
      match (run limit finish m index ts).1.bind ParseError.offender? with
      | some t => ∃ k, ts[k]? = some t ∧ (run limit finish m index ts).2 = index + k + 1
      | none => (run limit finish m index ts).2 = index + ts.length := by
  induction ts with
  | nil =>
      intro m index
      rw [run]
      cases hstop : m.stop finish with
      | none => rfl
      | some e => simp only [Option.bind_some, offender_of_stop hstop]; rfl
  | cons t ts ih =>
      intro m index
      cases hstep : m.step limit t with
      | error e =>
          rw [run_of_error hstep]
          simp only [Option.bind_some, offender_of_step hstep]
          exact ⟨0, rfl, rfl⟩
      | ok m' =>
          rw [run_of_ok hstep]
          have hrest := @ih m' (index + 1)
          split at hrest
          · obtain ⟨k, hk, hindex⟩ := hrest
            exact ⟨k + 1, hk, by omega⟩
          · rw [List.length_cons]
            omega

end Automaton

/-! ## The simulation -/

open Automaton

/-- Where the automaton stands when the parser begins with a nonterminal. -/
def Symbol.expected : Symbol → Expected
  | .atom => .atom
  | .sum | .product | .signed => .operand

/-- The automaton, above any stack of parentheses, goes the way of the parser:
to a complete operand if the parser answers, to its error if it fails. -/
def Follows (x : Symbol) (room : Nat) : Prop :=
  ∀ (s : ParseState) (opened : List Token),
    Ends (x.within room) s
      (fun _ s' => s'.finish = s.finish ∧
        run (opened.length + room) s.finish ⟨x.expected, opened⟩ s.index s.rest =
          run (opened.length + room) s.finish ⟨.operator, opened⟩ s'.index s'.rest)
      (fun e s' =>
        run (opened.length + room) s.finish ⟨x.expected, opened⟩ s.index s.rest =
          (some e, s'.index))

theorem Symbol.Chains.follows {x y : Symbol} {table : Token.Kind → Option BinaryOp}
    (hc : x.Chains y table) {room : Nat} (h : Follows y room) : Follows x room := by
  have hx : x.expected = .operand := by cases hc <;> rfl
  have hy : y.expected = .operand := by cases hc <;> rfl
  intro s opened
  rw [hc.within_eq, hx]
  have hfirst := h s opened
  rw [hy] at hfirst
  refine Ends.mono (chain_ends (fun _ s' => s'.finish = s.finish ∧
      run (opened.length + room) s.finish ⟨.operand, opened⟩ s.index s.rest =
        run (opened.length + room) s.finish ⟨.operator, opened⟩ s'.index s'.rest)
    (y.shrinks_within room) hfirst fun left s' t rest op hleft hrest hop => ?_)
    (fun _ _ h => h.1) fun _ _ h => h
  obtain ⟨hfinish, hrun⟩ := hleft
  have hnext := h (s'.advance rest) opened
  rw [hy] at hnext
  have hstep : run (opened.length + room) s.finish ⟨.operator, opened⟩ s'.index s'.rest =
      run (opened.length + room) s'.finish ⟨.operand, opened⟩ (s'.index + 1) rest := by
    rw [hrest, run_of_ok (step_of_operator hc hop), hfinish]
  refine Ends.mono hnext (fun _ s'' ⟨hfinish', hrun'⟩ => ?_) fun e s'' hrun' => ?_
  · refine ⟨hfinish'.trans hfinish, hrun.trans (hstep.trans (hrun'.trans ?_))⟩
    show run _ s'.finish _ _ _ = run _ s.finish _ _ _
    rw [hfinish]
    rfl
  · exact hrun.trans (hstep.trans hrun')

theorem follows_signed {room : Nat} (h : Follows .atom room) : Follows .signed room := by
  intro s opened
  refine signedOf_ends (fun hhead => ?_) fun t rest op hrest hop => ?_
  · show Ends _ s (fun _ s' => _ ∧ run _ _ ⟨.operand, opened⟩ _ _ = _)
      fun _ _ => run _ _ ⟨.operand, opened⟩ _ _ = _
    rw [run_operand hhead]
    exact h s opened
  · have hstep : run (opened.length + room) s.finish ⟨.operand, opened⟩ s.index s.rest =
        run (opened.length + room) s.finish ⟨.atom, opened⟩ (s.index + 1) rest := by
      rw [hrest, run_of_ok (step_of_sign hop)]
    refine Ends.mono (h (s.advance rest) opened) (fun _ s' ⟨hfinish, hrun⟩ => ?_)
      fun _ _ hrun => hstep.trans hrun
    exact ⟨hfinish, hstep.trans hrun⟩

theorem follows_of_atom {room : Nat} (h : Follows .atom room) (x : Symbol) :
    Follows x room := by
  have hsigned := follows_signed h
  have hproduct := Symbol.Chains.product.follows hsigned
  cases x with
  | sum => exact Symbol.Chains.sum.follows hproduct
  | product => exact hproduct
  | signed => exact hsigned
  | atom => exact h

/-- The end of a group: the automaton pops the parenthesis that the parser
has been holding. -/
theorem leave_follows {paren : Token} {s : ParseState} (limit : Nat) (opened : List Token)
    (hstops : Symbol.sum.Stops s.rest) :
    Ends (leave paren) s
      (fun _ s' => s'.finish = s.finish ∧
        run limit s.finish ⟨.operator, paren :: opened⟩ s.index s.rest =
          run limit s.finish ⟨.operator, opened⟩ s'.index s'.rest)
      (fun e s' =>
        run limit s.finish ⟨.operator, paren :: opened⟩ s.index s.rest =
          (some e, s'.index)) := by
  refine leave_ends (fun hnil => ?_) (fun t rest hrest ht => ⟨rfl, ?_⟩)
    fun t rest hrest ht => ?_
  · rw [hnil]
    rfl
  · rw [hrest, run_of_ok (step_of_rparen ht)]
    rfl
  · rw [hrest] at hstops ⊢
    exact run_of_error (step_of_redundant hstops fun h => absurd h ht)

/-- An atom but for its group. -/
theorem atomOf_follows {group : Token → Parse Expr} {limit : Nat} {opened : List Token}
    {s : ParseState}
    (h : ∀ t rest, s.rest = t :: rest → t.kind = .lparen →
      Ends (group t) (s.advance rest).deeper
        (fun _ s' => s'.finish = s.finish ∧
          run limit s.finish ⟨.atom, opened⟩ s.index (t :: rest) =
            run limit s.finish ⟨.operator, opened⟩ s'.index s'.rest)
        (fun e s' =>
          run limit s.finish ⟨.atom, opened⟩ s.index (t :: rest) = (some e, s'.index))) :
    Ends (atomOf group) s
      (fun _ s' => s'.finish = s.finish ∧
        run limit s.finish ⟨.atom, opened⟩ s.index s.rest =
          run limit s.finish ⟨.operator, opened⟩ s'.index s'.rest)
      (fun e s' =>
        run limit s.finish ⟨.atom, opened⟩ s.index s.rest = (some e, s'.index)) := by
  refine atomOf_ends (fun hnil => ?_) (fun t rest hrest ht => ⟨rfl, ?_⟩)
    (fun t rest hrest ht => ?_) fun t rest hrest hnumber hlparen => ?_
  · rw [hnil]
    rfl
  · rw [hrest]
    exact run_of_ok (step_of_number ht)
  · rw [hrest]
    exact h t rest hrest ht
  · rw [hrest]
    exact run_of_error (step_of_other hnumber hlparen)

theorem follows_atom (room : Nat) : Follows .atom room := by
  induction room with
  | zero =>
      intro s opened
      refine atomOf_follows fun t rest _ ht => run_of_error ((step_of_lparen ht).trans ?_)
      rw [push, if_pos (by omega)]
  | succ room ih =>
      intro s opened
      refine atomOf_follows fun t rest _ ht => ?_
      have hpush : step (opened.length + (room + 1)) ⟨.atom, opened⟩ t =
          .ok ⟨.operand, t :: opened⟩ := by
        rw [step_of_lparen ht, push, if_neg (by omega)]
      have hlimit : opened.length + (room + 1) = (t :: opened).length + room := by
        rw [List.length_cons]
        omega
      rw [run_of_ok hpush, hlimit]
      refine group_ends (Ends.mono (Ends.and
        (follows_of_atom ih .sum (s.advance rest).deeper (t :: opened))
        (sound .sum room _)) ?_ fun _ _ h => h)
      intro e s' ⟨⟨hfinish, hrun⟩, ⟨_, hstops⟩⟩
      have hfinish : s'.finish = s.finish := hfinish
      refine Ends.mono (leave_follows ((t :: opened).length + room) opened hstops) ?_ ?_
      · intro _ s'' ⟨hfinish', hrun'⟩
        rw [hfinish] at hfinish' hrun'
        exact ⟨hfinish', hrun.trans hrun'⟩
      · intro e' s'' hrun'
        rw [hfinish] at hrun'
        exact hrun.trans hrun'

theorem follows (x : Symbol) (room : Nat) : Follows x room :=
  follows_of_atom (follows_atom room) x

/-- The error of a parser, if it fails, and the index it has come to. -/
def outcome : EStateM.Result ParseError ParseState Expr → Option ParseError × Nat
  | .ok _ s => (none, s.index)
  | .error e s => (some e, s.index)

theorem outcome_whole (ts : List Token) :
    outcome (whole (.start ts)) =
      Automaton.start.run nestingLimit (finishOf ts) 0 ts := by
  have hends : Ends whole (.start ts)
      (fun _ s => (none, s.index) = Automaton.start.run nestingLimit (finishOf ts) 0 ts)
      (fun e s => (some e, s.index) = Automaton.start.run nestingLimit (finishOf ts) 0 ts) := by
    have hfollows := follows .sum nestingLimit (.start ts) []
    rw [List.length_nil, Nat.zero_add] at hfollows
    refine whole_ends (Ends.mono (Ends.and hfollows (sound .sum nestingLimit _)) ?_
      fun e s' hrun => hrun.symm)
    intro e s' ⟨⟨_, hrun⟩, ⟨_, hstops⟩⟩
    refine ⟨fun hnil => ?_, fun t rest hrest => ?_⟩
    · rw [hnil] at hrun
      exact hrun.symm
    · rw [hrest] at hrun hstops
      exact (hrun.trans (run_of_error (step_of_redundant hstops fun _ => rfl))).symm
  cases hwhole : whole (.start ts) with
  | ok e s => exact hends.of_ok hwhole
  | error e s => exact hends.of_error hwhole

/-- The parser and the automaton are one, but for the tree: the same error or
none, and after it the same index. Where a token was read that was not to
come, the index is the one after it; otherwise all tokens have been read. -/
theorem parse_eq_automaton (ts : List Token) :
    outcome (whole (.start ts)) =
        Automaton.start.run 100 (Automaton.finish ts) 0 ts ∧
      (match parse ts with
        | .ok _ => none
        | .error e => some e) =
        (Automaton.start.run 100 (Automaton.finish ts) 0 ts).1 ∧
      match (outcome (whole (.start ts))).1.bind ParseError.offender? with
      | some t => ∃ k, ts[k]? = some t ∧ (outcome (whole (.start ts))).2 = k + 1
      | none => (outcome (whole (.start ts))).2 = ts.length := by
  have hrun : Automaton.start.run 100 (Automaton.finish ts) 0 ts = outcome (whole (.start ts)) := by
    rw [Automaton.finish_eq, outcome_whole]
    rfl
  refine ⟨hrun.symm, ?_, ?_⟩
  · rw [hrun, parse]
    cases whole (.start ts) with
    | ok e s => rfl
    | error e s => rfl
  · have hindex := @run_index nestingLimit (finishOf ts) ts .start 0
    rw [← outcome_whole ts] at hindex
    simpa only [Nat.zero_add] using hindex

/-- The index after an error is not that of the token to blame, which has been
read: after a single closing parenthesis it is 1. -/
theorem index_not_of_offender :
    ¬ ∀ (ts : List Token) (e : ParseError) (s : ParseState) (k : Nat) (t : Token),
      whole (.start ts) = .error e s → e.offender? = some t → ts[k]? = some t →
      s.index = k := by
  intro h
  have hindex := h [⟨.rparen, ⟨0, 1⟩, none⟩] _ _ 0 ⟨.rparen, ⟨0, 1⟩, none⟩ rfl rfl rfl
  exact absurd hindex (by decide)

end ArithTree
