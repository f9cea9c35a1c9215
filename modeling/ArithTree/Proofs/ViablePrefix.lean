import ArithTree.Proofs.ParseAutomaton

/-!
# Errors are found as early as can be

Tokens are viable if something can follow that makes an expression of them
all. The parser refuses a token exactly where the tokens cease to be viable:
those before it could still have become an expression, those up to it never
can, and what comes after it is not even looked at. Where no token is refused
and the tokens merely end too early, they are viable still.

The automaton has both halves in it. A run that has read some tokens stands in
some state, and from every state there is a way out: a number if an operand is
due, then a parenthesis for each one that is open. The way out opens nothing,
so the limit is no obstacle, however many are open already. A run that was
refused a token, on the other hand, has no state to go on from.
-/

namespace ArithTree

open Parse ParseState

/-- Something can follow that makes an expression of the tokens. -/
def Viable (ts : List Token) : Prop := ∃ us e, parse (ts ++ us) = .ok e

namespace Automaton

/-- Reads all of some tokens, or comes to the first that is refused. -/
def read (limit : Nat) (m : Automaton) (ts : List Token) : Except ParseError Automaton :=
  ts.foldlM (step limit) m

theorem read_cons_of_ok {limit : Nat} {m m' : Automaton} {t : Token} {ts : List Token}
    (h : m.step limit t = .ok m') : m.read limit (t :: ts) = m'.read limit ts := by
  rw [read, List.foldlM_cons, h]
  rfl

theorem read_cons_of_error {limit : Nat} {m : Automaton} {t : Token} {ts : List Token}
    {e : ParseError} (h : m.step limit t = .error e) :
    m.read limit (t :: ts) = .error e := by
  rw [read, List.foldlM_cons, h]
  rfl

theorem read_append_of_ok {limit : Nat} {m m' : Automaton} {ts us : List Token}
    (h : m.read limit ts = .ok m') : m.read limit (ts ++ us) = m'.read limit us := by
  rw [read] at h
  rw [read, List.foldlM_append, h]
  rfl

theorem read_append_of_error {limit : Nat} {m : Automaton} {ts us : List Token}
    {e : ParseError} (h : m.read limit ts = .error e) :
    m.read limit (ts ++ us) = .error e := by
  rw [read] at h
  rw [read, List.foldlM_append, h]
  rfl

/-- Where a token is refused it is the one after some that were read. -/
theorem read_error {limit : Nat} {ts : List Token} :
    ∀ {m : Automaton} {e : ParseError}, m.read limit ts = .error e →
      ∃ k t m', ts[k]? = some t ∧ m.read limit (ts.take k) = .ok m' ∧
        m'.step limit t = .error e := by
  induction ts with
  | nil => intro m e h; cases h
  | cons t ts ih =>
      intro m e h
      cases hstep : m.step limit t with
      | error e' =>
          rw [read_cons_of_error hstep] at h
          cases h
          exact ⟨0, t, m, rfl, rfl, hstep⟩
      | ok m' =>
          rw [read_cons_of_ok hstep] at h
          obtain ⟨k, u, m'', hk, hread, hrefused⟩ := ih h
          exact ⟨k + 1, u, m'', hk, (read_cons_of_ok hstep).trans hread, hrefused⟩

/-- A run is what was read and then the end, or a token that was refused. -/
theorem run_of_read_ok {limit : Nat} {finish : Span} {ts : List Token} :
    ∀ {m m' : Automaton} {index : Nat}, m.read limit ts = .ok m' →
      run limit finish m index ts = (m'.stop finish, index + ts.length) := by
  induction ts with
  | nil => intro m m' index h; cases h; rfl
  | cons t ts ih =>
      intro m m' index h
      cases hstep : m.step limit t with
      | error e => rw [read_cons_of_error hstep] at h; cases h
      | ok m'' =>
          rw [read_cons_of_ok hstep] at h
          rw [run_of_ok hstep, ih h, List.length_cons, Nat.add_right_comm, Nat.add_assoc]

theorem run_of_refused {limit : Nat} {finish : Span} {ts : List Token} :
    ∀ {m m' : Automaton} {index k : Nat} {t : Token} {e : ParseError}, ts[k]? = some t →
      m.read limit (ts.take k) = .ok m' → m'.step limit t = .error e →
      run limit finish m index ts = (some e, index + k + 1) := by
  induction ts with
  | nil => intro m m' index k t e hk; cases hk
  | cons u ts ih =>
      intro m m' index k t e hk hread hrefused
      cases k with
      | zero =>
          cases hk
          cases hread
          exact run_of_error hrefused
      | succ k =>
          rw [List.take_succ_cons] at hread
          cases hstep : m.step limit u with
          | error e' => rw [read_cons_of_error hstep] at hread; cases hread
          | ok m'' =>
              rw [read_cons_of_ok hstep] at hread
              rw [run_of_ok hstep, ih hk hread hrefused]
              congr 1
              omega

/-- Tokens that make a complete expression from any state. -/
def completion (m : Automaton) : List Token :=
  let closings := m.opened.map fun _ => { kind := .rparen, span := .empty 0 }
  match m.expected with
  | .operator => closings
  | .operand | .atom => { kind := .number, span := .empty 0, value := some 0 } :: closings

theorem read_completion_of_operator (limit : Nat) (opened : List Token) :
    read limit ⟨.operator, opened⟩ (completion ⟨.operator, opened⟩) = .ok ⟨.operator, []⟩ := by
  induction opened with
  | nil => rfl
  | cons paren outer ih => exact (read_cons_of_ok (step_of_rparen rfl)).trans ih

theorem read_completion (limit : Nat) (m : Automaton) :
    m.read limit m.completion = .ok ⟨.operator, []⟩ := by
  obtain ⟨expected, opened⟩ := m
  have hclose := read_completion_of_operator limit opened
  cases expected with
  | operator => exact hclose
  | operand | atom => exact (read_cons_of_ok rfl).trans hclose

/-- Only where nothing is missing is there nothing to add. -/
theorem completion_ne_nil {m : Automaton} {finish : Span} {e : ParseError}
    (h : m.stop finish = some e) : m.completion ≠ [] := by
  obtain ⟨expected, opened⟩ := m
  cases expected with
  | operand | atom => exact List.cons_ne_nil _ _
  | operator =>
      cases opened with
      | nil => cases h
      | cons paren outer => exact List.cons_ne_nil _ _

end Automaton

open Automaton

theorem parse_of_run_none {ts : List Token}
    (h : (Automaton.start.run nestingLimit (finishOf ts) 0 ts).1 = none) :
    ∃ e, parse ts = .ok e := by
  rw [← outcome_whole] at h
  unfold parse
  cases hwhole : whole (.start ts) with
  | ok e s => exact ⟨e, rfl⟩
  | error e s => rw [hwhole] at h; cases h

theorem parse_of_run_some {ts : List Token} {e : ParseError}
    (h : (Automaton.start.run nestingLimit (finishOf ts) 0 ts).1 = some e) :
    parse ts = .error e := by
  rw [← outcome_whole] at h
  unfold parse
  cases hwhole : whole (.start ts) with
  | ok e' s => rw [hwhole] at h; cases h
  | error e' s => rw [hwhole] at h; cases h; rfl

theorem parse_of_read_error {ts : List Token} {e : ParseError}
    (h : Automaton.start.read nestingLimit ts = .error e) : parse ts = .error e := by
  obtain ⟨k, t, m, hk, hread, hrefused⟩ := read_error h
  exact parse_of_run_some (by rw [run_of_refused hk hread hrefused])

theorem parse_completion {ts : List Token} {m : Automaton}
    (h : Automaton.start.read nestingLimit ts = .ok m) :
    ∃ e, parse (ts ++ m.completion) = .ok e := by
  have hread : Automaton.start.read nestingLimit (ts ++ m.completion) = .ok ⟨.operator, []⟩ :=
    (read_append_of_ok h).trans (m.read_completion nestingLimit)
  exact parse_of_run_none (by rw [run_of_read_ok hread]; rfl)

/-- Tokens are viable as long as none of them is refused. -/
theorem viable_iff {ts : List Token} :
    Viable ts ↔ ∃ m, Automaton.start.read nestingLimit ts = .ok m := by
  constructor
  · rintro ⟨us, e, hparse⟩
    cases hread : Automaton.start.read nestingLimit ts with
    | ok m => exact ⟨m, rfl⟩
    | error e' =>
        have herror : parse (ts ++ us) = .error e' :=
          parse_of_read_error (read_append_of_error hread)
        rw [hparse] at herror
        cases herror
  · rintro ⟨m, hread⟩
    obtain ⟨e, he⟩ := parse_completion hread
    exact ⟨m.completion, e, he⟩

theorem Viable.of_append {ts us : List Token} (h : Viable (ts ++ us)) : Viable ts := by
  obtain ⟨vs, e, hparse⟩ := h
  exact ⟨us ++ vs, e, by rw [← List.append_assoc]; exact hparse⟩

theorem Viable.of_take {ts : List Token} {i j : Nat} (h : Viable (ts.take j)) (hij : i ≤ j) :
    Viable (ts.take i) := by
  rw [← List.take_append_drop i (ts.take j), List.take_take, Nat.min_eq_left hij] at h
  exact h.of_append

/-- The beginnings that are viable are those before the token that is refused. -/
theorem viable_take_iff {ts : List Token} {k : Nat} {t : Token} {m : Automaton}
    {e : ParseError} (hk : ts[k]? = some t)
    (hread : Automaton.start.read nestingLimit (ts.take k) = .ok m)
    (hrefused : m.step nestingLimit t = .error e) (j : Nat) :
    Viable (ts.take j) ↔ j ≤ k := by
  constructor
  · intro hviable
    refine Nat.le_of_not_lt fun hlt => ?_
    obtain ⟨m', hok⟩ := viable_iff.mp (hviable.of_take (Nat.succ_le_of_lt hlt))
    rw [List.take_add_one, hk, Option.toList_some, read_append_of_ok hread,
      read_cons_of_error hrefused] at hok
    cases hok
  · intro hle
    exact (viable_iff.mpr ⟨m, hread⟩ : Viable (ts.take k)).of_take hle

/-- A token that is refused is the first after which there is no way to go on,
and nothing that follows it makes a difference. Where the tokens end too early
there is a way to go on. -/
theorem parse_error_earliest {ts : List Token} {e : ParseError} (h : parse ts = .error e) :
    match e.offender? with
    | some t => ∃ k, ts[k]? = some t ∧ outcome (whole (.start ts)) = (some e, k + 1) ∧
        (∀ j, Viable (ts.take j) ↔ j ≤ k) ∧ ∀ us, parse (ts ++ us) = .error e
    | none => ∃ us, us ≠ [] ∧ ∃ e', parse (ts ++ us) = .ok e' := by
  cases hread : Automaton.start.read nestingLimit ts with
  | error e' =>
      rw [parse_of_read_error hread] at h
      cases h
      obtain ⟨k, t, m, hk, hbefore, hrefused⟩ := read_error hread
      rw [offender_of_step hrefused]
      refine ⟨k, hk, ?_, viable_take_iff hk hbefore hrefused, fun us =>
        parse_of_read_error (read_append_of_error hread)⟩
      rw [outcome_whole, run_of_refused hk hbefore hrefused, Nat.zero_add]
  | ok m =>
      cases hstop : m.stop (finishOf ts) with
      | none =>
          have hnone : (Automaton.start.run nestingLimit (finishOf ts) 0 ts).1 = none := by
            rw [run_of_read_ok hread, hstop]
          obtain ⟨e', hok⟩ := parse_of_run_none hnone
          rw [h] at hok
          cases hok
      | some e' =>
          have hsome : (Automaton.start.run nestingLimit (finishOf ts) 0 ts).1 = some e' := by
            rw [run_of_read_ok hread, hstop]
          rw [parse_of_run_some hsome] at h
          cases h
          rw [offender_of_stop hstop]
          exact ⟨m.completion, completion_ne_nil hstop, parse_completion hread⟩

/-- In `1+*` the asterisk is refused, and in `(1` nothing is. -/
theorem refused_asterisk_and_open_group :
    let one : Token := { kind := .number, span := ⟨0, 1⟩, value := some 1 }
    let plus : Token := { kind := .plus, span := ⟨1, 2⟩ }
    let asterisk : Token := { kind := .asterisk, span := ⟨2, 3⟩ }
    let paren : Token := { kind := .lparen, span := ⟨0, 1⟩ }
    (parse [one, plus, asterisk] = .error (.notExpression asterisk) ∧
      ∃ k, [one, plus, asterisk][k]? = some asterisk ∧
        outcome (whole (.start [one, plus, asterisk])) =
          (some (.notExpression asterisk), k + 1) ∧
        (∀ j, Viable ([one, plus, asterisk].take j) ↔ j ≤ k) ∧
        ∀ us, parse ([one, plus, asterisk] ++ us) = .error (.notExpression asterisk)) ∧
    parse [paren, one] = .error (.unclosed paren) ∧
      ∃ us, us ≠ [] ∧ ∃ e, parse ([paren, one] ++ us) = .ok e :=
  ⟨⟨rfl, @parse_error_earliest [_, _, _] (.notExpression _) rfl⟩,
    rfl, @parse_error_earliest [_, _] (.unclosed _) rfl⟩

end ArithTree
