import ArithTree.Proofs.OpenGroups

/-!
# The depth of a parser that is used again

A parser keeps count of the groups that are open. It counts a group when it comes
to the parenthesis that opens it, and takes it off when it has come to the one
that closes it; if it fails in between, the group stays on the count. So a parser
that has failed has less room the next time, wherever in the tokens it is set.

The account of a step is told by the parentheses it has taken. A step that
succeeds has taken as many that close as open, for it has read a phrase, and
leaves the count as it was. A step that fails has taken some tokens and then
perhaps the one it blames, which is not part of the account, whatever it is. Of
what came before, some groups were closed and some were not, and the count is
greater by the latter. Only the parenthesis of a group too many is counted before
it is blamed.

When that happens is a matter of where the parenthesis stands. `OperandDue` says of
some tokens that a nonterminal, if there is room for its groups, has read them and
is to go on with an operand. There it has to open the group, whatever comes later.
-/

namespace ArithTree

open Parse ParseState

/-- With room for so many groups, the nonterminal reads the tokens and goes on
with an atom. -/
inductive OperandDue : Symbol → Nat → List Token → Prop where
  | atom (room : Nat) : OperandDue .atom room []
  | group {opening : Token} {us : List Token} {room : Nat} (ho : opening.kind = .lparen)
      (h : OperandDue .sum room us) : OperandDue .atom (room + 1) (opening :: us)
  | unsigned {us : List Token} {room : Nat} (h : OperandDue .atom room us) :
      OperandDue .signed room us
  | signed {t : Token} {op : UnaryOp} {us : List Token} {room : Nat}
      (hop : t.kind = op.kind) (h : OperandDue .atom room us) :
      OperandDue .signed room (t :: us)
  | first {x y : Symbol} {table : Token.Kind → Option BinaryOp} {us : List Token}
      {room : Nat} (hc : x.Chains y table) (h : OperandDue y room us) : OperandDue x room us
  | next {x y : Symbol} {table : Token.Kind → Option BinaryOp} {t : Token} {op : BinaryOp}
      {ls us : List Token} {l : Expr} {m room : Nat} (hc : x.Chains y table)
      (hl : Derives x ls l m) (hm : m ≤ room) (hop : table t.kind = some op)
      (h : OperandDue y room us) : OperandDue x room (ls ++ t :: us)

/-- The parenthesis comes where an operand is due and there is no room left. -/
structure Overfills (x : Symbol) (room : Nat) (us : List Token) (t : Token) : Prop where
  kind : t.kind = .lparen
  due : OperandDue x room us
  full : (room : Int) ≤ surplus us

/-- How many groups the parser has counted for the token it blames. -/
def ParseError.counted : ParseError → Nat
  | .tooDeep _ => 1
  | .notExpression _ | .notOperator _ | .redundant _ | .unclosed _ | .unexpectedEnd _ => 0

/-- From one state to the other the parser took some tokens and failed, at the
token after them or without one. -/
structure Fails (s : ParseState) (us : List Token) (e : ParseError) (s' : ParseState) :
    Prop where
  rest : s.rest = us ++ (e.offender?.toList ++ s'.rest)
  index : s'.index = s.index + (us.length + e.offender?.toList.length)
  depth : (s'.depth : Int) = s.depth + surplus us + e.counted
  nonneg : 0 ≤ surplus us

theorem fails_at_end {s : ParseState} {e : ParseError} (he : e.offender? = none)
    (hcounted : e.counted = 0) : Fails s [] e s where
  rest := by rw [he]; rfl
  index := by rw [he]; rfl
  depth := by rw [hcounted]; rfl
  nonneg := Int.le_refl 0

theorem fails_at_next {s : ParseState} {t : Token} {rest : List Token} {e : ParseError}
    (hrest : s.rest = t :: rest) (he : e.offender? = some t) (hcounted : e.counted = 0) :
    Fails s [] e (s.advance rest) where
  rest := by rw [he]; exact hrest
  index := by rw [he]; rfl
  depth := by rw [hcounted]; rfl
  nonneg := Int.le_refl 0

/-- Failing after a phrase or an operator. -/
theorem Fails.after {s s' s'' : ParseState} {ts us : List Token} {e : ParseError}
    (h : Fails s' us e s'') (hreads : Reads s ts s') (hts : surplus ts = 0) :
    Fails s (ts ++ us) e s'' where
  rest := by rw [hreads.rest, h.rest, List.append_assoc]
  index := by rw [h.index, hreads.index, List.length_append]; omega
  depth := by rw [h.depth, hreads.depth, surplus_append, hts, Int.zero_add]
  nonneg := by rw [surplus_append, hts, Int.zero_add]; exact h.nonneg

/-- Failing in a group. -/
theorem Fails.group {s s' : ParseState} {opening : Token} {rest us : List Token}
    {e : ParseError} (h : Fails (s.advance rest).deeper us e s')
    (hrest : s.rest = opening :: rest) (ho : opening.kind = .lparen) :
    Fails s (opening :: us) e s' where
  rest := by
    have hinner : rest = us ++ (e.offender?.toList ++ s'.rest) := h.rest
    rw [hrest, hinner, List.cons_append]
  index := by
    have hindex : s'.index = s.index + 1 + (us.length + e.offender?.toList.length) := h.index
    rw [hindex, List.length_cons]
    omega
  depth := by
    have hdepth : (s'.depth : Int) = (s.depth + 1 : Nat) + surplus us + e.counted := h.depth
    rw [hdepth, surplus_cons, surplus_of_lparen ho]
    omega
  nonneg := by
    have hnonneg := h.nonneg
    rw [surplus_cons, surplus_of_lparen ho]
    omega

/-- A failed step is accounted for, and if it found a group too many it was for
want of room. -/
def Accounted (x : Symbol) (room : Nat) (s : ParseState) (e : ParseError) (s' : ParseState) :
    Prop :=
  ∃ us, Fails s us e s' ∧ ∀ t, e = .tooDeep t → Overfills x room us t

/-- Failing after some tokens, where what is due next was due after them. -/
theorem Accounted.after {x y : Symbol} {room room' : Nat} {s s₁ s' : ParseState}
    {e : ParseError} (ts : List Token) (h : Accounted y room s₁ e s')
    (hfails : ∀ us, Fails s₁ us e s' → Fails s (ts ++ us) e s')
    (hdue : ∀ us, OperandDue y room us → OperandDue x room' (ts ++ us))
    (hroom : (room' : Int) = room + surplus ts) : Accounted x room' s e s' := by
  obtain ⟨us, hus, hfull⟩ := h
  refine ⟨ts ++ us, hfails us hus, fun t he => ?_⟩
  obtain ⟨hkind, hnext, hle⟩ := hfull t he
  refine ⟨hkind, hdue us hnext, ?_⟩
  rw [surplus_append]
  omega

/-- Every failure of a step is accounted for. -/
def Accounts (x : Symbol) (room : Nat) : Prop :=
  ∀ s, Ends (x.within room) s (fun _ _ => True) (Accounted x room s)

theorem Accounts.accepted {x : Symbol} {room : Nat} (h : Accounts x room) (s : ParseState) :
    Ends (x.within room) s (Accepted x room s) (Accounted x room s) :=
  Ends.mono (Ends.and (h s) (sound x room s)) (fun _ _ h => h.2.1) fun _ _ h => h

theorem Symbol.Chains.accounts {x y : Symbol} {table : Token.Kind → Option BinaryOp}
    (hc : x.Chains y table) {room : Nat} (h : Accounts y room) : Accounts x room := by
  intro s
  rw [hc.within_eq]
  refine Ends.mono (chain_ends (Accepted x room s) (y.shrinks_within room)
    (Ends.mono (h.accepted s) (fun _ _ h => .single hc h) ?_)
    fun left s' t rest op hleft hrest hop => Ends.mono (h.accepted (s'.advance rest))
      (fun _ _ hright => .more hc hleft hrest hop hright) ?_)
    (fun _ _ _ => trivial) fun _ _ h => h
  · intro e s' hbad
    exact hbad.after [] (fun _ h => h) (fun _ h => .first hc h) (Int.add_zero _).symm
  · intro e s'' hbad
    obtain ⟨ls, m, hlreads, hlderives, hm⟩ := hleft
    have hzero : surplus (ls ++ [t]) = 0 := by
      rw [surplus_append, hlderives.surplus_eq_zero, surplus_of_operator hc hop]
      rfl
    refine hbad.after (ls ++ [t]) (fun us h => ?_) (fun us h => ?_) (by omega)
    · exact h.after (hlreads.trans (reads_advance hrest)) hzero
    · rw [List.append_assoc]
      exact .next hc hlderives hm hop h

theorem accounts_signed {room : Nat} (h : Accounts .atom room) : Accounts .signed room := by
  intro s
  refine signedOf_ends (fun _ => Ends.mono (h s) (fun _ _ _ => trivial) ?_)
    fun t rest op hrest hop => Ends.mono (h (s.advance rest)) (fun _ _ _ => trivial) ?_
  · intro e s' hbad
    exact hbad.after [] (fun _ h => h) (fun _ h => .unsigned h) (Int.add_zero _).symm
  · intro e s' hbad
    have hkind := sign_eq_some_iff.mp hop
    have ht := surplus_of_sign hkind
    exact hbad.after [t] (fun us h => h.after (reads_advance hrest) ht)
      (fun us h => .signed hkind h) (by omega)

theorem accounts_of_atom {room : Nat} (h : Accounts .atom room) (x : Symbol) :
    Accounts x room := by
  have hsigned := accounts_signed h
  have hproduct := Symbol.Chains.product.accounts hsigned
  cases x with
  | sum => exact Symbol.Chains.sum.accounts hproduct
  | product => exact hproduct
  | signed => exact hsigned
  | atom => exact h

/-- An atom but for its group. -/
theorem atomOf_accounts {room : Nat} {group : Token → Parse Expr} {s : ParseState}
    (h : ∀ t rest, s.rest = t :: rest → t.kind = .lparen →
      Ends (group t) (s.advance rest).deeper (fun _ _ => True) (Accounted .atom room s)) :
    Ends (atomOf group) s (fun _ _ => True) (Accounted .atom room s) := by
  refine atomOf_ends (fun _ => ?_) (fun _ _ _ _ => trivial) h fun t rest hrest _ _ => ?_
  · exact ⟨[], fails_at_end rfl rfl, nofun⟩
  · exact ⟨[], fails_at_next hrest rfl rfl, nofun⟩

theorem accounts_atom (room : Nat) : Accounts .atom room := by
  induction room with
  | zero =>
      intro s
      refine atomOf_accounts fun t rest hrest ht => ⟨[], ⟨hrest, rfl, rfl, Int.le_refl 0⟩, ?_⟩
      intro u he
      cases he
      exact ⟨ht, .atom 0, Int.le_refl 0⟩
  | succ room ih =>
      intro s
      refine atomOf_accounts fun t rest hrest ht => group_ends
        (Ends.mono ((accounts_of_atom ih .sum).accepted (s.advance rest).deeper) ?_ ?_)
      · intro e s' ⟨ts, n, hreads, hderives, _⟩
        have hts := hderives.surplus_eq_zero
        refine leave_ends (fun hnil => ?_) (fun _ _ _ _ => trivial) fun u rest' hrest' _ => ?_
        · exact ⟨_, ((fails_at_end rfl rfl).after hreads hts).group hrest ht, nofun⟩
        · exact ⟨_, ((fails_at_next hrest' rfl rfl).after hreads hts).group hrest ht, nofun⟩
      · intro e s' hbad
        have hone := surplus_of_lparen ht
        exact hbad.after [t] (fun us h => h.group hrest ht) (fun us h => .group ht h) (by omega)

theorem accounts (x : Symbol) (room : Nat) : Accounts x room :=
  accounts_of_atom (accounts_atom room) x

/-! ## Groups too many

A failure goes all the way up, so it is enough to find the atom that fails. -/

theorem chain_of_error {ε : Type} {operand : ParseStep ε Expr}
    {op? : ParseStep ε (Option (Spanned BinaryOp))} {s s' : ParseState} {e : ε}
    (h : operand s = .error e s') : chain operand op? s = .error e s' := by
  show EStateM.bind operand _ s = _
  simp only [EStateM.bind, h]

theorem chainFrom_of_error {ε : Type} {operand : ParseStep ε Expr}
    {table : Token.Kind → Option BinaryOp} {rounds : Nat} {left : Expr} {s s' : ParseState}
    {t : Token} {rest : List Token} {op : BinaryOp} {e : ε} (hrest : s.rest = t :: rest)
    (hop : table t.kind = some op) (h : operand (s.advance rest) = .error e s') :
    chainFrom operand (operator? table) (rounds + 1) left s = .error e s' := by
  show EStateM.bind (operator? table) _ s = _
  simp only [EStateM.bind, operator?_of_some hrest hop, bind, h]

theorem signedOf_of_error {ε : Type} {operand : ParseStep ε Expr} {s s' : ParseState}
    {t : Token} {rest : List Token} {op : UnaryOp} {e : ε} (hrest : s.rest = t :: rest)
    (hop : sign t.kind = some op) (h : operand (s.advance rest) = .error e s') :
    signedOf operand s = .error e s' := by
  show EStateM.bind (operator? sign) _ s = _
  simp only [EStateM.bind, operator?_of_some hrest hop, bind, h]

theorem atomOf_of_lparen {group : Token → Parse Expr} {s : ParseState} {t : Token}
    {rest : List Token} (hrest : s.rest = t :: rest) (ht : t.kind = .lparen) :
    atomOf group s = group t (s.advance rest).deeper := by
  show EStateM.bind demand _ s = _
  simp only [EStateM.bind, demand, hrest, ht]
  rfl

theorem atomWithin_of_error {room : Nat} {s s' : ParseState} {opening : Token}
    {rest : List Token} {e : ParseError} (hrest : s.rest = opening :: rest)
    (ho : opening.kind = .lparen)
    (h : sumOf (atomWithin room) (s.advance rest).deeper = .error e s') :
    atomWithin (room + 1) s = .error e s' := by
  refine (atomOf_of_lparen hrest ho).trans ?_
  show EStateM.bind (sumOf (atomWithin room)) _ _ = _
  simp only [EStateM.bind, h]

theorem whole_of_error {s s' : ParseState} {e : ParseError} (h : Parse.sum s = .error e s') :
    whole s = .error e s' := by
  show EStateM.bind Parse.sum _ s = _
  simp only [EStateM.bind, h]

namespace OperandDue

variable {x : Symbol} {room : Nat} {us rest : List Token} {t : Token}

theorem surplus_nonneg (h : OperandDue x room us) : 0 ≤ surplus us := by
  induction h with
  | atom => exact Int.le_refl 0
  | group ho _ ih => rw [surplus_cons, surplus_of_lparen ho]; omega
  | unsigned _ ih | first _ _ ih => exact ih
  | signed hop _ ih => rw [surplus_cons, surplus_of_sign hop]; omega
  | next hc hl _ hop _ ih =>
      rw [surplus_append, surplus_cons, hl.surplus_eq_zero, surplus_of_operator hc hop]
      omega

theorem head_of_atom (h : OperandDue .atom room us) (ht : t.kind = .lparen) :
    ∀ u ∈ (us ++ t :: rest).head?, sign u.kind = none := by
  cases h with
  | atom => simp [ht, sign]
  | group ho => simp [ho, sign]
  | first hc => cases hc
  | next hc => cases hc

/-- Where an operand is due and there is no room for its group, the group is one
too many. -/
theorem tooDeep (h : OperandDue x room us) :
    ∀ {s : ParseState}, (room : Int) ≤ surplus us → s.rest = us ++ t :: rest →
      t.kind = .lparen → ∃ s', x.within room s = .error (.tooDeep t) s' := by
  induction h with
  | atom room =>
      intro s hfull hrest ht
      have hroom : room = 0 := by
        rw [surplus_nil] at hfull
        omega
      subst hroom
      exact ⟨_, atomOf_of_lparen hrest ht⟩
  | group ho _ ih =>
      intro s hfull hrest ht
      rw [surplus_cons, surplus_of_lparen ho] at hfull
      obtain ⟨s', hs'⟩ := ih (s := (s.advance _).deeper) (by omega) rfl ht
      exact ⟨s', atomWithin_of_error hrest ho hs'⟩
  | unsigned h ih =>
      intro s hfull hrest ht
      obtain ⟨s', hs'⟩ := ih hfull hrest ht
      refine ⟨s', (signedOf_of_atom ?_).trans hs'⟩
      rw [hrest]
      exact h.head_of_atom ht
  | signed hop _ ih =>
      intro s hfull hrest ht
      rw [surplus_cons, surplus_of_sign hop] at hfull
      obtain ⟨s', hs'⟩ := ih (s := s.advance _) (by omega) rfl ht
      exact ⟨s', signedOf_of_error hrest (sign_eq_some_iff.mpr hop) hs'⟩
  | first hc _ ih =>
      intro s hfull hrest ht
      obtain ⟨s', hs'⟩ := ih hfull hrest ht
      rw [hc.within_eq]
      exact ⟨s', chain_of_error hs'⟩
  | next hc hl hm hop _ ih =>
      intro s hfull hrest ht
      rw [surplus_append, surplus_cons, hl.surplus_eq_zero, surplus_of_operator hc hop] at hfull
      rw [List.append_assoc, List.cons_append] at hrest
      have hresumes := hl.resumes hm hrest fun _ _ hc' => hc.operands_stop hop hc'
      obtain ⟨rounds, s₁, hrest₁, -, hstep⟩ := hresumes.operator hc
      obtain ⟨s', hs'⟩ := ih (s := s₁.advance _) (by omega) rfl ht
      rw [hstep]
      exact ⟨s', chainFrom_of_error hrest₁ hop hs'⟩

end OperandDue

/-- What can be asked of a parser: an expression with nothing after it, or a phrase. -/
inductive Call where
  | whole
  | phrase (x : Symbol)
deriving DecidableEq

namespace Call

def step : Call → Parse Expr
  | whole => Parse.whole
  | phrase x => x.step

/-- The nonterminal that a call begins with. -/
def symbol : Call → Symbol
  | whole => .sum
  | phrase x => x

theorem ends (c : Call) (s : ParseState) :
    Ends c.step s (fun _ s' => ∃ us, Reads s us s' ∧ surplus us = 0)
      (Accounted c.symbol (room s) s) := by
  have hphrase : ∀ x : Symbol, Ends (x.within (room s)) s (Accepted x (room s) s)
      (Accounted x (room s) s) := fun x => (accounts x (room s)).accepted s
  cases c with
  | whole =>
      refine whole_ends (Ends.mono (hphrase .sum) ?_ fun _ _ h => h)
      intro e s' ⟨us, n, hreads, hderives, _⟩
      have hus := hderives.surplus_eq_zero
      refine ⟨fun _ => ⟨us, hreads, hus⟩, fun t rest hrest => ?_⟩
      exact ⟨_, (fails_at_next hrest rfl rfl).after hreads hus, nofun⟩
  | phrase x =>
      unfold Ends
      rw [step, x.step_eq_within]
      refine Ends.mono (hphrase x) ?_ fun _ _ h => h
      intro e s' ⟨us, n, hreads, hderives, _⟩
      exact ⟨us, hreads, hderives.surplus_eq_zero⟩

theorem tooDeep_iff (c : Call) (s : ParseState) (t : Token) :
    (∃ s', c.step s = .error (.tooDeep t) s') ↔
      ∃ us rest, s.rest = us ++ t :: rest ∧ t.kind = .lparen ∧
        OperandDue c.symbol (room s) us ∧ (nestingLimit : Int) ≤ s.depth + surplus us := by
  constructor
  · rintro ⟨s', hs'⟩
    obtain ⟨us, hfails, hfull⟩ := (c.ends s).of_error hs'
    obtain ⟨hkind, hdue, hle⟩ := hfull t rfl
    have hnonneg := hfails.nonneg
    refine ⟨us, s'.rest, hfails.rest, hkind, hdue, ?_⟩
    unfold room at hle
    omega
  · rintro ⟨us, rest, hrest, hkind, hdue, hle⟩
    have hnonneg := hdue.surplus_nonneg
    have hfull : (room s : Int) ≤ surplus us := by
      unfold room
      omega
    obtain ⟨s', hs'⟩ := hdue.tooDeep hfull hrest hkind
    rw [← c.symbol.step_eq_within] at hs'
    cases c with
    | whole => exact ⟨s', whole_of_error hs'⟩
    | phrase x => exact ⟨s', hs'⟩

/-- The parser after a call, whether it answered or failed. -/
def after (c : Call) (s : ParseState) : ParseState :=
  match c.step s with
  | .ok _ s' | .error _ s' => s'

theorem depth_le_after (c : Call) (s : ParseState) : s.depth ≤ (c.after s).depth := by
  have hends := c.ends s
  unfold after
  cases hstep : c.step s with
  | ok e s' =>
      obtain ⟨us, hreads, -⟩ := hends.of_ok hstep
      exact Nat.le_of_eq hreads.depth.symm
  | error e s' =>
      obtain ⟨us, hfails, -⟩ := hends.of_error hstep
      have hdepth := hfails.depth
      have hnonneg := hfails.nonneg
      show s.depth ≤ s'.depth
      omega

end Call

/-- A call, from an index on or from where the parser stands. -/
structure Use where
  index? : Option Nat
  call : Call

namespace Use

/-- The parser after it was used once more. -/
def after (tokens : List Token) (s : ParseState) (u : Use) : ParseState :=
  match u.index? with
  | some i => u.call.after (s.seek tokens i)
  | none => u.call.after s

theorem depth_le_after (tokens : List Token) (s : ParseState) (u : Use) :
    s.depth ≤ (u.after tokens s).depth := by
  unfold after
  cases u.index? with
  | some i => exact u.call.depth_le_after (s.seek tokens i)
  | none => exact u.call.depth_le_after s

theorem depth_le_foldl_after (tokens : List Token) (uses : List Use) :
    ∀ s : ParseState, s.depth ≤ (uses.foldl (after tokens) s).depth := by
  induction uses with
  | nil => exact fun s => Nat.le_refl s.depth
  | cons u uses ih => exact fun s => Nat.le_trans (u.depth_le_after tokens s) (ih _)

end Use

/-- The account of a parser, whatever was done with it before and wherever in its
tokens it stands. A call that answers leaves the depth as it was, and has taken as
many parentheses that open as that close. A call that fails leaves it greater by the
groups that are open before the token it blames, and by one if that opens a group
too many. This happens just where a parenthesis comes as an operand with the depth
at the limit. So however a parser is used, its depth never decreases. -/
theorem depth_account :
    (∀ (c : Call) (s : ParseState),
      Ends c.step s (fun _ s' => ∃ us, Reads s us s' ∧ surplus us = 0)
        fun e s' => ∃ us, Fails s us e s') ∧
    (∀ (c : Call) (s : ParseState) (t : Token),
      (∃ s', c.step s = .error (.tooDeep t) s') ↔
        ∃ us rest, s.rest = us ++ t :: rest ∧ t.kind = .lparen ∧
          OperandDue c.symbol (room s) us ∧ (nestingLimit : Int) ≤ s.depth + surplus us) ∧
    ∀ (tokens : List Token) (s : ParseState) (uses more : List Use),
      (uses.foldl (Use.after tokens) s).depth ≤
        ((uses ++ more).foldl (Use.after tokens) s).depth := by
  refine ⟨fun c s => ?_, fun c s t => c.tooDeep_iff s t, fun tokens s uses more => ?_⟩
  · refine Ends.mono (c.ends s) (fun _ _ h => h) ?_
    intro e s' ⟨us, hfails, _⟩
    exact ⟨us, hfails⟩
  · rw [List.foldl_append]
    exact Use.depth_le_foldl_after tokens more _

/-- Each time `((1` is parsed from its beginning, two groups more stay open. -/
example :
    let paren : Token := { kind := .lparen, span := ⟨0, 1⟩ }
    let tokens := [paren, paren, { kind := .number, span := ⟨2, 3⟩, value := some 1 }]
    ([⟨some 0, .whole⟩, ⟨some 0, .phrase .atom⟩].foldl (Use.after tokens)
      (.start tokens)).depth = 4 := by
  decide

end ArithTree
