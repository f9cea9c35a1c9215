import ArithTree.Proofs.DepthAccount

/-!
# The depth bounds the recursion

An atom has a group in it and the group an expression, whose atoms may have
groups again. Followed to the letter the rules go on like this for as long as
there are parentheses. What ends them is a look at the depth: an atom that
opens a group counts it, and goes no further if that is one too many.

The grammar has the room for groups as an argument and cannot but end. Here the
rules are followed to the letter. `atomEntry` is one entry into an atom; it knows
nothing of any room and leaves what is inside a group to whatever it is given.
An atom that is given itself is the recursion without a bound, and there is
just one such atom, the one of the grammar. An atom that may enter itself only
so many times, one inside the other, is a parser cut off (`atomWithFuel`). Both
come to the same if the times are as many as there is room for groups, and one
more: the parenthesis that opens a group too many is seen by an atom as well.

What ties the times to the depth is that an operand that has been parsed leaves
the depth as it found it. So all operands of a chain are begun at the depth of
the chain, however long it is, and only a group is begun further down. `Agrees`
has both in it, that two steps come to the same from a depth on, and to which
depth they come.
-/

namespace ArithTree

open Parse ParseState

section

variable {ε : Type}

/-- A group that has been counted. Only now the depth decides whether it is
parsed. -/
def groupEntry (fail : ParseError → ε) (again : ParseStep ε Expr) (paren : Token) :
    ParseStep ε Expr := do
  if nestingLimit < (← get).depth then throw (fail (.tooDeep paren))
  else
    let inner ← sumOf again
    (leave paren).adaptExcept fail
    return inner

/-- One entry into an atom. -/
def atomEntry (fail : ParseError → ε) (again : ParseStep ε Expr) : ParseStep ε Expr := do
  let t ← demand.adaptExcept fail
  match t.kind with
  | .number => return .number t.span t.value
  | .lparen => do
    enter.adaptExcept fail
    groupEntry fail again t
  | _ => throw (fail (.notExpression t))

/-- An atom with no more than so many entries at a time, one inside the other.
Where one more is asked for the fuel is out, and this is no error of a parser. -/
def atomWithFuel : Nat → ParseStep (Option ParseError) Expr
  | 0 => throw none
  | fuel + 1 => atomEntry some (atomWithFuel fuel)

/-- A call, by whatever parses atoms. -/
def Call.through (fail : ParseError → ε) (atom : ParseStep ε Expr) : Call → ParseStep ε Expr
  | whole => do
    let e ← sumOf atom
    match ← consume.adaptExcept fail with
    | none => return e
    | some t => throw (fail (.redundant t))
  | phrase .sum => sumOf atom
  | phrase .product => productOf atom
  | phrase .signed => signedOf atom
  | phrase .atom => atom

end

/-- Begun at the one depth the first step does what the second does, and if it
answers it is at the other depth. -/
def Agrees {ε α : Type} (fail : ParseError → ε) (before after : Nat) (p : ParseStep ε α)
    (q : Parse α) : Prop :=
  ∀ s, s.depth = before →
    Ends q s (fun a s' => p s = .ok a s' ∧ s'.depth = after) fun e s' => p s = .error (fail e) s'

section

variable {ε α β : Type} {fail : ParseError → ε} {before between after : Nat}

theorem Agrees.eq {p : ParseStep ε α} {q : Parse α} (h : Agrees fail before after p q)
    {s : ParseState} (hs : s.depth = before) : p s = q.adaptExcept fail s := by
  have hends := h s hs
  show p s = EStateM.adaptExcept fail q s
  unfold EStateM.adaptExcept
  cases hq : q s with
  | ok a s' => exact (hends.of_ok hq).1
  | error e s' => exact hends.of_error hq

theorem agrees_adaptExcept {q : Parse α}
    (h : ∀ s, s.depth = before →
      Ends q s (fun _ s' => s'.depth = after) fun _ _ => True) :
    Agrees fail before after (q.adaptExcept fail) q := by
  intro s hs
  have hends := h s hs
  unfold Ends EStateM.adaptExcept
  cases hq : q s with
  | ok a s' => exact ⟨rfl, hends.of_ok hq⟩
  | error e s' => rfl

theorem agrees_pure (a : α) : Agrees fail before before (pure a) (pure a) :=
  fun _ hs => ⟨rfl, hs⟩

theorem agrees_throw (e : ParseError) :
    Agrees fail before after (throw (fail e) : ParseStep ε α) (throw e) :=
  fun _ _ => rfl

theorem Agrees.bind {p : ParseStep ε α} {q : Parse α} {k : α → ParseStep ε β}
    {l : α → Parse β} (h : Agrees fail before between p q)
    (hk : ∀ a, Agrees fail between after (k a) (l a)) :
    Agrees fail before after (p >>= k) (q >>= l) := by
  intro s hs
  refine Ends.bind (Ends.mono (h s hs) ?_ ?_)
  · intro a s' ⟨hp, hs'⟩
    have hbind : (p >>= k) s = k a s' := by
      show EStateM.bind p k s = _
      simp only [EStateM.bind, hp]
    rw [hbind]
    exact hk a s' hs'
  · intro e s' hp
    show EStateM.bind p k s = _
    simp only [EStateM.bind, hp]

theorem agrees_operator? (table : Token.Kind → Option α) :
    Agrees fail before before (operator? table) (operator? table) := by
  intro s hs
  refine operator?_ends (fun hstop => ?_) fun t rest op hrest hop => ?_
  · exact ⟨operator?_of_none hstop, hs⟩
  · exact ⟨operator?_of_some hrest hop, hs⟩

theorem agrees_reduced (r : Reduction) :
    Agrees fail before before (reduced r) (reduced r) :=
  fun _ hs => ⟨rfl, hs⟩

variable {p : ParseStep ε Expr} {q : Parse Expr}

theorem Agrees.chainFrom (h : Agrees fail before before p q)
    (table : Token.Kind → Option BinaryOp) (rounds : Nat) :
    ∀ left : Expr, Agrees fail before before (chainFrom p (operator? table) rounds left)
      (chainFrom q (operator? table) rounds left) := by
  induction rounds with
  | zero => exact fun left => agrees_pure left
  | succ rounds ih =>
      intro left
      refine (agrees_operator? table).bind fun op? => ?_
      cases op? with
      | none => exact agrees_pure left
      | some op =>
          refine h.bind fun right => ?_
          exact (agrees_reduced _).bind fun _ => ih (.applyBinary op left right)

theorem Agrees.chain (h : Agrees fail before before p q)
    (table : Token.Kind → Option BinaryOp) :
    Agrees fail before before (chain p (operator? table)) (chain q (operator? table)) :=
  h.bind fun first s => h.chainFrom table s.rest.length first s

theorem Agrees.signedOf (h : Agrees fail before before p q) :
    Agrees fail before before (signedOf p) (signedOf q) := by
  refine (agrees_operator? sign).bind fun op? => ?_
  cases op? with
  | none => exact h
  | some op => exact h.bind fun e => (agrees_reduced _).bind fun _ => agrees_pure _

theorem Agrees.productOf (h : Agrees fail before before p q) :
    Agrees fail before before (productOf p) (productOf q) :=
  h.signedOf.chain multiplicative

theorem Agrees.sumOf (h : Agrees fail before before p q) :
    Agrees fail before before (sumOf p) (sumOf q) :=
  h.productOf.chain additive

theorem agrees_demand : Agrees fail before before (demand.adaptExcept fail) demand := by
  refine agrees_adaptExcept fun s hs => ?_
  unfold Ends demand
  cases s.rest with
  | nil => trivial
  | cons t rest => exact hs

theorem agrees_consume : Agrees fail before before (consume.adaptExcept fail) consume := by
  refine agrees_adaptExcept fun s hs => ?_
  unfold Ends consume
  cases s.rest with
  | nil => exact hs
  | cons t rest => exact hs

theorem agrees_enter : Agrees fail before (before + 1) (enter.adaptExcept fail) enter :=
  agrees_adaptExcept fun _ hs => congrArg (· + 1) hs

theorem agrees_leave (paren : Token) :
    Agrees fail (before + 1) before ((leave paren).adaptExcept fail) (leave paren) := by
  refine agrees_adaptExcept fun s hs => ?_
  refine leave_ends (fun _ => trivial) (fun t rest _ _ => ?_) fun _ _ _ _ => trivial
  show s.depth - 1 = before
  omega

theorem groupEntry_of_full {paren : Token} {s : ParseState} (h : nestingLimit < s.depth) :
    groupEntry fail p paren s = .error (fail (.tooDeep paren)) s := by
  show (if nestingLimit < s.depth then _ else _ : ParseStep ε Expr) s = _
  rw [if_pos h]
  rfl

theorem groupEntry_of_room {paren : Token} {s : ParseState} (h : s.depth ≤ nestingLimit) :
    groupEntry fail p paren s =
      (do let inner ← sumOf p; (leave paren).adaptExcept fail; return inner : ParseStep ε Expr)
        s := by
  show (if nestingLimit < s.depth then _ else _ : ParseStep ε Expr) s = _
  rw [if_neg (by omega)]

/-- An entry at a depth is an atom with the room that the depth leaves, if what it is
given for its groups is one at the depth inside. -/
theorem agrees_atomEntry {depth : Nat}
    (h : depth < nestingLimit → Agrees fail (depth + 1) (depth + 1) p
      (atomWithin (nestingLimit - (depth + 1)))) :
    Agrees fail depth depth (atomEntry fail p) (atomWithin (nestingLimit - depth)) := by
  by_cases hroom : depth < nestingLimit
  · have hsucc : nestingLimit - depth = nestingLimit - (depth + 1) + 1 := by omega
    rw [hsucc]
    refine agrees_demand.bind fun t => ?_
    cases t.kind with
    | number => exact agrees_pure _
    | lparen =>
        refine agrees_enter.bind fun _ s hs => ?_
        rw [groupEntry_of_room (by omega)]
        exact ((h hroom).sumOf.bind fun inner =>
          (agrees_leave t).bind fun _ => agrees_pure inner) s hs
    | plus | minus | asterisk | slash | rparen => exact agrees_throw _
  · have hzero : nestingLimit - depth = 0 := by omega
    rw [hzero]
    refine agrees_demand.bind fun t => ?_
    cases t.kind with
    | number => exact agrees_pure _
    | lparen =>
        refine agrees_enter.bind fun _ s hs => ?_
        rw [groupEntry_of_full (by omega)]
        exact rfl
    | plus | minus | asterisk | slash | rparen => exact agrees_throw _

/-- So is a nonterminal, if its atoms are. -/
theorem Agrees.phrase {depth : Nat}
    (h : Agrees fail depth depth p (atomWithin (nestingLimit - depth))) (x : Symbol) :
    Agrees fail depth depth ((Call.phrase x).through fail p) x.step := by
  have hwithin : Agrees fail depth depth ((Call.phrase x).through fail p)
      (x.within (nestingLimit - depth)) := by
    cases x with
    | sum => exact h.sumOf
    | product => exact h.productOf
    | signed => exact h.signedOf
    | atom => exact h
  intro s hs
  have hends := hwithin s hs
  unfold Ends at hends ⊢
  rw [x.step_eq_within, room, hs]
  exact hends

theorem Agrees.through {depth : Nat}
    (h : Agrees fail depth depth p (atomWithin (nestingLimit - depth))) (c : Call) :
    Agrees fail depth depth (c.through fail p) c.step := by
  cases c with
  | whole =>
      refine (h.phrase .sum).bind fun e => agrees_consume.bind fun t? => ?_
      cases t? with
      | none => exact agrees_pure e
      | some t => exact agrees_throw _
  | phrase x => exact h.phrase x

end

/-- As many entries as there is room for groups, and one more. -/
theorem agrees_atomWithFuel (fuel : Nat) :
    ∀ depth, max 1 (nestingLimit + 1 - depth) ≤ fuel →
      Agrees some depth depth (atomWithFuel fuel) (atomWithin (nestingLimit - depth)) := by
  induction fuel with
  | zero => exact fun depth h => absurd h (by omega)
  | succ fuel ih =>
      intro depth h
      exact agrees_atomEntry fun hroom => ih (depth + 1) (by omega)

/-- An atom leaves the depth as it was, so it agrees with itself. -/
theorem agrees_atom (depth : Nat) :
    Agrees id depth depth Parse.atom (atomWithin (nestingLimit - depth)) := by
  intro s hs
  have hatom : Parse.atom s = atomWithin (nestingLimit - depth) s := by
    rw [Parse.atom, room, hs]
  have hends := agrees_atomWithFuel _ depth (Nat.le_refl _) s hs
  unfold Ends at hends ⊢
  rw [hatom]
  cases hq : atomWithin (nestingLimit - depth) s with
  | ok e s' =>
      rw [hq] at hends
      exact ⟨rfl, hends.2⟩
  | error e s' => rfl

/-- Whatever is its own entry agrees with the atom of the grammar. The induction goes
from the limit down, where an entry asks for nothing inside. -/
theorem agrees_of_atomEntry_eq {again : Parse Expr} (h : atomEntry id again = again) :
    ∀ room depth, nestingLimit - depth = room →
      Agrees id depth depth again (atomWithin (nestingLimit - depth)) := by
  intro room
  induction room with
  | zero =>
      intro depth hdepth
      rw [← h]
      exact agrees_atomEntry fun hroom => absurd hdepth (by omega)
  | succ room ih =>
      intro depth hdepth
      rw [← h]
      exact agrees_atomEntry fun hroom => ih (depth + 1) (by omega)

theorem adaptExcept_id {α : Type} (q : Parse α) : q.adaptExcept id = q := by
  funext s
  unfold EStateM.adaptExcept
  cases q s <;> rfl

theorem atomEntry_eq_iff (again : Parse Expr) :
    atomEntry id again = again ↔ again = Parse.atom := by
  constructor
  · intro h
    funext s
    have hagrees := agrees_of_atomEntry_eq h _ s.depth rfl
    rw [hagrees.eq rfl, adaptExcept_id]
    rfl
  · rintro rfl
    funext s
    have hentry : Agrees id s.depth s.depth (atomEntry id Parse.atom)
        (atomWithin (nestingLimit - s.depth)) :=
      agrees_atomEntry fun _ => agrees_atom (s.depth + 1)
    rw [hentry.eq rfl, adaptExcept_id]
    rfl

/-- The recursion of the rules has one solution, and the parser is made of it. It is
never deeper than the room for groups and one more entry: cut off there or anywhere
below, the parser comes to the same answer or error, and to the same state, from
every state and for all the tokens that may be left in it. -/
theorem depth_bounds_recursion :
    (∀ again : Parse Expr, atomEntry id again = again ↔ again = Parse.atom) ∧
    (∀ c : Call, c.through id Parse.atom = c.step) ∧
    ∀ (c : Call) (s : ParseState) (more : Nat),
      c.through some (atomWithFuel (max 1 (nestingLimit + 1 - s.depth) + more)) s =
        c.step.adaptExcept some s := by
  refine ⟨atomEntry_eq_iff, fun c => ?_, fun c s more => ?_⟩
  · funext s
    rw [((agrees_atom s.depth).through c).eq rfl, adaptExcept_id]
  · exact ((agrees_atomWithFuel _ s.depth (Nat.le_add_right _ more)).through c).eq rfl

/-- With 98 groups open there is room for two more, and a third parenthesis is refused
by a third entry. -/
example :
    let paren : Token := { kind := .lparen, span := ⟨0, 1⟩ }
    let s : ParseState := { ParseState.start [paren, paren, paren] with depth := 98 }
    (∃ s', Call.whole.through some (atomWithFuel 3) s = .error (some (.tooDeep paren)) s') ∧
      ∃ s', Call.whole.through some (atomWithFuel 2) s = .error none s' :=
  ⟨⟨_, rfl⟩, ⟨_, rfl⟩⟩

end ArithTree
