import ArithTree.Proofs.ExprSpans
import ArithTree.Proofs.ParseOutcome

/-!
# The parser accepts the grammar

The grammar is written down as grammars are, by rules that build a phrase
from phrases, and a chain is a shorter chain with an operand after it:

    sum     := product | sum ("+" | "-") product
    product := signed  | product ("*" | "/") signed
    signed  := atom    | ("+" | "-") atom
    atom    := NUMBER  | "(" sum ")"

The parser cannot follow a rule that begins with what it defines. It reads a
chain as a loop, and takes as many operands as there are. So what it accepts
is a phrase that is as long as can be: behind it stands no operator that
could have gone on with it.

Soundness walks along the parser, by the rules for steps. Completeness walks
along a derivation. Its one difficulty is the chain, where the derivation
ends with the operand the loop reads last; the induction therefore does not
say that the loop ends, but that it comes to stand behind the phrase with
rounds left, ready to go on (`Resumes`).
-/

namespace ArithTree

open Parse ParseState

/-- The nonterminals, the loosest first. -/
inductive Symbol where
  | sum
  | product
  | signed
  | atom
deriving DecidableEq

namespace Symbol

/-- The nonterminals that are chains: of which operands, by which operators. -/
inductive Chains : Symbol → Symbol → (Token.Kind → Option BinaryOp) → Prop where
  | sum : Chains .sum .product additive
  | product : Chains .product .signed multiplicative

/-- Whether an operator goes on with a phrase that has come to its end. -/
def continuedBy : Symbol → Token.Kind → Bool
  | .sum, .plus | .sum, .minus | .sum, .asterisk | .sum, .slash => true
  | .product, .asterisk | .product, .slash => true
  | _, _ => false

/-- What follows does not go on with the phrase. -/
def Stops (x : Symbol) (rest : List Token) : Prop :=
  ∀ t ∈ rest.head?, x.continuedBy t.kind = false

/-- The parser's step for a nonterminal. -/
def step : Symbol → Parse Expr
  | .sum => Parse.sum
  | .product => Parse.product
  | .signed => Parse.signed
  | .atom => Parse.atom

end Symbol

/-- The tokens are a phrase of the nonterminal, with its tree and the depth
to which groups are nested in it. -/
inductive Derives : Symbol → List Token → Expr → Nat → Prop where
  | number {t : Token} (ht : t.kind = .number) :
      Derives .atom [t] (.number t.span t.value) 0
  | group {opening closing : Token} {ts : List Token} {e : Expr} {n : Nat}
      (ho : opening.kind = .lparen) (hc : closing.kind = .rparen)
      (h : Derives .sum ts e n) :
      Derives .atom (opening :: (ts ++ [closing])) e (n + 1)
  | unsigned {ts : List Token} {e : Expr} {n : Nat} (h : Derives .atom ts e n) :
      Derives .signed ts e n
  | signed {t : Token} {op : UnaryOp} {ts : List Token} {e : Expr} {n : Nat}
      (hop : t.kind = op.kind) (h : Derives .atom ts e n) :
      Derives .signed (t :: ts) (.applyUnary ⟨op, t.span⟩ e) n
  | single {x y : Symbol} {table : Token.Kind → Option BinaryOp} {ts : List Token}
      {e : Expr} {n : Nat} (hc : x.Chains y table) (h : Derives y ts e n) :
      Derives x ts e n
  | more {x y : Symbol} {table : Token.Kind → Option BinaryOp} {t : Token}
      {op : BinaryOp} {ls rs : List Token} {l r : Expr} {m n : Nat}
      (hc : x.Chains y table) (hl : Derives x ls l m) (hop : table t.kind = some op)
      (hr : Derives y rs r n) :
      Derives x (ls ++ t :: rs) (.applyBinary ⟨op, t.span⟩ l r) (max m n)

theorem sign_eq_some_iff {k : Token.Kind} {op : UnaryOp} : sign k = some op ↔ k = op.kind := by
  cases k <;> cases op <;> decide

theorem Derives.ne_nil {x : Symbol} {ts : List Token} {e : Expr} {n : Nat}
    (h : Derives x ts e n) : ts ≠ [] := by
  induction h with
  | number | group | signed | more => simp
  | unsigned _ ih | single _ _ ih => exact ih

namespace Symbol

theorem stops_nil (x : Symbol) : x.Stops [] := by simp [Stops]

theorem stops_signed (rest : List Token) : Symbol.signed.Stops rest := by
  intro t _
  cases t.kind <;> rfl

theorem stops_of_rparen {t : Token} {rest : List Token} (x : Symbol)
    (ht : t.kind = .rparen) : x.Stops (t :: rest) := by
  intro u hu
  cases hu
  rw [ht]
  cases x <;> rfl

/-- A chain stops where its operand does and no operator of its own comes. -/
theorem Chains.stops_iff {x y : Symbol} {table : Token.Kind → Option BinaryOp}
    (hc : x.Chains y table) {rest : List Token} :
    x.Stops rest ↔ y.Stops rest ∧ ∀ t ∈ rest.head?, table t.kind = none := by
  cases rest with
  | nil => simp [Stops]
  | cons t rest =>
      simp only [Stops, List.head?_cons, Option.mem_some_iff, forall_eq']
      cases hc <;> cases t.kind <;> decide

/-- An operator of a chain is none of its operands. -/
theorem Chains.stops_of_operator {x y : Symbol} {table : Token.Kind → Option BinaryOp}
    (hc : x.Chains y table) {t : Token} {rest : List Token} {op : BinaryOp}
    (hop : table t.kind = some op) : y.Stops (t :: rest) := by
  intro u hu
  cases hu
  cases hc <;> cases hkind : t.kind <;> simp_all [additive, multiplicative, continuedBy]

theorem Chains.operands_stop {x y : Symbol} {table : Token.Kind → Option BinaryOp}
    (hc : x.Chains y table) {t : Token} {rest : List Token} {op : BinaryOp}
    (hop : table t.kind = some op) {z : Symbol} {table' : Token.Kind → Option BinaryOp}
    (hc' : x.Chains z table') : z.Stops (t :: rest) := by
  cases hc <;> cases hc' <;> exact stops_of_operator (by constructor) hop

/-- The step where there is room for so many groups. -/
def within (room : Nat) : Symbol → Parse Expr
  | .sum => sumOf (atomWithin room)
  | .product => productOf (atomWithin room)
  | .signed => signedOf (atomWithin room)
  | .atom => atomWithin room

theorem step_eq_within (x : Symbol) (s : ParseState) :
    x.step s = x.within (room s) s := by
  cases x <;> rfl

theorem shrinks_within (x : Symbol) (room : Nat) : Shrinks (x.within room) := by
  cases x with
  | sum => exact shrinks_sumOf (shrinks_atomWithin room)
  | product => exact shrinks_productOf (shrinks_atomWithin room)
  | signed => exact shrinks_signedOf (shrinks_atomWithin room)
  | atom => exact shrinks_atomWithin room

theorem Chains.within_eq {x y : Symbol} {table : Token.Kind → Option BinaryOp}
    (hc : x.Chains y table) (room : Nat) :
    x.within room = chain (y.within room) (operator? table) := by
  cases hc <;> rfl

end Symbol

/-- From one state to the other exactly these tokens were read, and no group
is open that was not. -/
structure Reads (s : ParseState) (ts : List Token) (s' : ParseState) : Prop where
  rest : s.rest = ts ++ s'.rest
  index : s'.index = s.index + ts.length
  depth : s'.depth = s.depth
  finish : s'.finish = s.finish

theorem reads_advance {s : ParseState} {t : Token} {rest : List Token}
    (h : s.rest = t :: rest) : Reads s [t] (s.advance rest) :=
  ⟨h, rfl, rfl, rfl⟩

theorem Reads.trans {s s' s'' : ParseState} {ts us : List Token} (h : Reads s ts s')
    (h' : Reads s' us s'') : Reads s (ts ++ us) s'' where
  rest := by rw [h.rest, h'.rest, List.append_assoc]
  index := by rw [h'.index, h.index, List.length_append, Nat.add_assoc]
  depth := h'.depth.trans h.depth
  finish := h'.finish.trans h.finish

theorem Reads.record {s s' : ParseState} {ts : List Token} (h : Reads s ts s')
    (r : Reduction) : Reads s ts (s'.record r) :=
  ⟨h.rest, h.index, h.depth, h.finish⟩

theorem Reads.group {s s' : ParseState} {opening closing : Token}
    {rest rest' ts : List Token} (ho : s.rest = opening :: rest)
    (h : Reads (s.advance rest).deeper ts s') (hc : s'.rest = closing :: rest') :
    Reads s (opening :: (ts ++ [closing])) (s'.advance rest').shallower where
  rest := by
    have hrest : rest = ts ++ s'.rest := h.rest
    rw [ho, hrest, hc]
    simp [ParseState.advance, ParseState.shallower]
  index := by
    have hindex : s'.index = s.index + 1 + ts.length := h.index
    simp only [ParseState.advance, ParseState.shallower, List.length_cons,
      List.length_append, List.length_nil]
    omega
  depth := by
    have hdepth : s'.depth = s.depth + 1 := h.depth
    simp only [ParseState.advance, ParseState.shallower]
    omega
  finish := h.finish

/-- A phrase was read, with groups no deeper than there was room for. -/
def Accepted (x : Symbol) (room : Nat) (s : ParseState) (e : Expr) (s' : ParseState) :
    Prop :=
  ∃ ts n, Reads s ts s' ∧ Derives x ts e n ∧ n ≤ room

theorem Accepted.single {x y : Symbol} {table : Token.Kind → Option BinaryOp} {room : Nat}
    {s s' : ParseState} {e : Expr} (hc : x.Chains y table) (h : Accepted y room s e s') :
    Accepted x room s e s' := by
  obtain ⟨ts, n, hreads, hderives, hn⟩ := h
  exact ⟨ts, n, hreads, .single hc hderives, hn⟩

theorem Accepted.more {x y : Symbol} {table : Token.Kind → Option BinaryOp} {room : Nat}
    {s s' s'' : ParseState} {t : Token} {rest : List Token} {op : BinaryOp} {l r : Expr}
    (hc : x.Chains y table) (hl : Accepted x room s l s') (hrest : s'.rest = t :: rest)
    (hop : table t.kind = some op) (hr : Accepted y room (s'.advance rest) r s'') :
    Accepted x room s (.applyBinary ⟨op, t.span⟩ l r)
      (s''.record (.binary op (Expr.applyBinary ⟨op, t.span⟩ l r).span)) := by
  obtain ⟨ls, m, hlreads, hlderives, hm⟩ := hl
  obtain ⟨rs, n, hreads, hderives, hn⟩ := hr
  exact ⟨ls ++ t :: rs, max m n,
    (hlreads.trans ((reads_advance hrest).trans hreads)).record _,
    .more hc hlderives hop hderives, Nat.max_le.mpr ⟨hm, hn⟩⟩

/-- What a step accepts is a phrase, and as long as can be. -/
def Sound (x : Symbol) (room : Nat) : Prop :=
  ∀ s, Ends (x.within room) s
    (fun e s' => Accepted x room s e s' ∧ x.Stops s'.rest) fun _ _ => True

theorem Symbol.Chains.sound {x y : Symbol} {table : Token.Kind → Option BinaryOp}
    (hc : x.Chains y table) {room : Nat} (h : Sound y room) : Sound x room := by
  intro s
  rw [hc.within_eq]
  refine Ends.mono (chain_ends
    (fun e s' => Accepted x room s e s' ∧ y.Stops s'.rest)
    (y.shrinks_within room) (Ends.mono (h s) ?_ fun _ _ h => h)
    fun left s' t rest op hleft hrest hop => Ends.mono (h _) ?_ fun _ _ h => h) ?_
    fun _ _ h => h
  · intro e s' ⟨haccepted, hstops⟩
    exact ⟨.single hc haccepted, hstops⟩
  · intro right s'' ⟨haccepted, hstops⟩
    exact ⟨.more hc hleft.1 hrest hop haccepted, hstops⟩
  · intro e s' ⟨⟨haccepted, hstops⟩, hnone⟩
    exact ⟨haccepted, hc.stops_iff.mpr ⟨hstops, hnone⟩⟩

theorem sound_signed {room : Nat} (h : Sound .atom room) : Sound .signed room := by
  intro s
  refine signedOf_ends (fun _ => Ends.mono (h s) ?_ fun _ _ h => h)
    fun t rest op hrest hop => Ends.mono (h _) ?_ fun _ _ h => h
  · intro e s' ⟨⟨ts, n, hreads, hderives, hn⟩, _⟩
    exact ⟨⟨ts, n, hreads, .unsigned hderives, hn⟩, Symbol.stops_signed _⟩
  · intro e s' ⟨⟨ts, n, hreads, hderives, hn⟩, _⟩
    exact ⟨⟨t :: ts, n, ((reads_advance hrest).trans hreads).record _,
      .signed (sign_eq_some_iff.mp hop) hderives, hn⟩, Symbol.stops_signed _⟩

theorem stops_atom (rest : List Token) : Symbol.atom.Stops rest := by
  intro t _
  cases t.kind <;> rfl

theorem sound_of_atom {room : Nat} (h : Sound .atom room) (x : Symbol) :
    Sound x room := by
  have hsigned := sound_signed h
  have hproduct := Symbol.Chains.product.sound hsigned
  cases x with
  | sum => exact Symbol.Chains.sum.sound hproduct
  | product => exact hproduct
  | signed => exact hsigned
  | atom => exact h

theorem sound_atom (room : Nat) : Sound .atom room := by
  induction room with
  | zero =>
      intro s
      refine atomOf_ends (fun _ => trivial) (fun t rest hrest ht => ?_)
        (fun _ _ _ _ => trivial) fun _ _ _ _ _ => trivial
      exact ⟨⟨[t], 0, reads_advance hrest, .number ht, Nat.le_refl 0⟩, stops_atom _⟩
  | succ room ih =>
      intro s
      refine atomOf_ends (fun _ => trivial) (fun t rest hrest ht => ?_)
        (fun t rest hrest ht => ?_) fun _ _ _ _ _ => trivial
      · exact ⟨⟨[t], 0, reads_advance hrest, .number ht, Nat.zero_le _⟩, stops_atom _⟩
      · refine group_ends (Ends.mono (sound_of_atom ih .sum _) ?_ fun _ _ h => h)
        intro e s' ⟨⟨ts, n, hreads, hderives, hn⟩, _⟩
        refine leave_ends (fun _ => trivial) (fun u rest' hrest' hu => ?_)
          fun _ _ _ _ => trivial
        exact ⟨⟨t :: (ts ++ [u]), n + 1, hreads.group hrest hrest',
          .group ht hu hderives, Nat.succ_le_succ hn⟩, stops_atom _⟩

theorem sound (x : Symbol) (room : Nat) : Sound x room := sound_of_atom (sound_atom room) x

/-! ## Completeness

First how a step runs when what it meets is known, then the walk along a
derivation. -/

theorem operator?_of_none {ε α : Type} {table : Token.Kind → Option α} {s : ParseState}
    (h : ∀ t ∈ s.rest.head?, table t.kind = none) :
    operator? (ε := ε) table s = .ok none s := by
  unfold operator?
  cases hrest : s.rest with
  | nil => rfl
  | cons t rest =>
      have hnone : table t.kind = none := h t (by simp [hrest])
      simp only [hnone]

theorem operator?_of_some {ε α : Type} {table : Token.Kind → Option α} {s : ParseState}
    {t : Token} {rest : List Token} {op : α} (hrest : s.rest = t :: rest)
    (hop : table t.kind = some op) :
    operator? (ε := ε) table s = .ok (some ⟨op, t.span⟩) (s.advance rest) := by
  simp only [operator?, hrest, hop]
  rfl

theorem chain_of_first {ε : Type} {operand : ParseStep ε Expr}
    {op? : ParseStep ε (Option (Spanned BinaryOp))} {s s' : ParseState} {e : Expr}
    (h : operand s = .ok e s') :
    chain operand op? s = chainFrom operand op? s'.rest.length e s' := by
  show EStateM.bind operand _ s = _
  simp only [EStateM.bind, h]
  rfl

theorem chainFrom_of_stop {ε : Type} {operand : ParseStep ε Expr}
    {table : Token.Kind → Option BinaryOp} {rounds : Nat} {left : Expr} {s : ParseState}
    (h : ∀ t ∈ s.rest.head?, table t.kind = none) :
    chainFrom operand (operator? table) rounds left s = .ok left s := by
  cases rounds with
  | zero => rfl
  | succ rounds =>
      show EStateM.bind (operator? table) _ s = _
      simp only [EStateM.bind, operator?_of_none h]
      rfl

theorem chainFrom_of_operator {ε : Type} {operand : ParseStep ε Expr}
    {table : Token.Kind → Option BinaryOp} {rounds : Nat} {left right : Expr}
    {s s' : ParseState} {t : Token} {rest : List Token} {op : BinaryOp}
    (hrest : s.rest = t :: rest) (hop : table t.kind = some op)
    (h : operand (s.advance rest) = .ok right s') :
    chainFrom operand (operator? table) (rounds + 1) left s =
      chainFrom operand (operator? table) rounds (.applyBinary ⟨op, t.span⟩ left right)
        (s'.record (.binary op (Expr.applyBinary ⟨op, t.span⟩ left right).span)) := by
  show EStateM.bind (operator? table) _ s = _
  simp only [EStateM.bind, operator?_of_some hrest hop, bind, h]
  rfl

theorem signedOf_of_atom {ε : Type} {operand : ParseStep ε Expr} {s : ParseState}
    (h : ∀ t ∈ s.rest.head?, sign t.kind = none) : signedOf operand s = operand s := by
  show EStateM.bind (operator? sign) _ s = _
  simp only [EStateM.bind, operator?_of_none h]

theorem signedOf_of_sign {ε : Type} {operand : ParseStep ε Expr} {s s' : ParseState}
    {t : Token} {rest : List Token} {op : UnaryOp} {e : Expr} (hrest : s.rest = t :: rest)
    (hop : sign t.kind = some op) (h : operand (s.advance rest) = .ok e s') :
    signedOf operand s = .ok (.applyUnary ⟨op, t.span⟩ e)
      (s'.record (.unary op (Expr.applyUnary ⟨op, t.span⟩ e).span)) := by
  show EStateM.bind (operator? sign) _ s = _
  simp only [EStateM.bind, operator?_of_some hrest hop, bind, h]
  rfl

theorem atomOf_of_number {group : Token → Parse Expr} {s : ParseState} {t : Token}
    {rest : List Token} (hrest : s.rest = t :: rest) (ht : t.kind = .number) :
    atomOf group s = .ok (.number t.span t.value) (s.advance rest) := by
  show EStateM.bind demand _ s = _
  simp only [EStateM.bind, demand, hrest, ht]
  rfl

theorem atomWithin_of_number {room : Nat} {s : ParseState} {t : Token}
    {rest : List Token} (hrest : s.rest = t :: rest) (ht : t.kind = .number) :
    atomWithin room s = .ok (.number t.span t.value) (s.advance rest) := by
  cases room with
  | zero => exact atomOf_of_number hrest ht
  | succ room => exact atomOf_of_number hrest ht

theorem atomWithin_of_group {room : Nat} {s s' : ParseState} {opening closing : Token}
    {rest rest' : List Token} {e : Expr} (hrest : s.rest = opening :: rest)
    (ho : opening.kind = .lparen)
    (h : sumOf (atomWithin room) (s.advance rest).deeper = .ok e s')
    (hrest' : s'.rest = closing :: rest') (hc : closing.kind = .rparen) :
    atomWithin (room + 1) s = .ok e (s'.advance rest').shallower := by
  have hleave : leave opening s' = .ok () (s'.advance rest').shallower := by
    show EStateM.bind consume _ s' = _
    simp only [EStateM.bind, consume, hrest', if_pos hc]
    rfl
  show EStateM.bind demand _ s = _
  simp only [EStateM.bind, demand, hrest, ho]
  show EStateM.bind (sumOf (atomWithin room)) _ (s.advance rest).deeper = _
  simp only [EStateM.bind, h, bind, hleave]
  rfl

namespace Symbol

/-- What is left to do behind a phrase: a chain may go on, all else is over. -/
def resume (room rounds : Nat) (e : Expr) : Symbol → Parse Expr
  | .sum => chainFrom (productOf (atomWithin room)) (operator? additive) rounds e
  | .product => chainFrom (signedOf (atomWithin room)) (operator? multiplicative) rounds e
  | .signed | .atom => pure e

theorem Chains.resume_eq {x y : Symbol} {table : Token.Kind → Option BinaryOp}
    (hc : x.Chains y table) (room rounds : Nat) (e : Expr) :
    x.resume room rounds e = chainFrom (y.within room) (operator? table) rounds e := by
  cases hc <;> rfl

end Symbol

/-- The step has read a phrase and stands before `rest`, with rounds left for
all of it. -/
def Resumes (x : Symbol) (room : Nat) (s : ParseState) (e : Expr) (rest : List Token) :
    Prop :=
  ∃ rounds s', s'.rest = rest ∧ rest.length ≤ rounds ∧
    x.within room s = x.resume room rounds e s'

theorem Resumes.stop {x : Symbol} {room : Nat} {s : ParseState} {e : Expr}
    {rest : List Token} (h : Resumes x room s e rest) (hstops : x.Stops rest) :
    ∃ s', x.within room s = .ok e s' ∧ s'.rest = rest := by
  obtain ⟨rounds, s', hrest, -, hstep⟩ := h
  refine ⟨s', ?_, hrest⟩
  rw [hstep]
  have hchain : ∀ {y table}, x.Chains y table → x.resume room rounds e s' = .ok e s' := by
    intro y table hc
    rw [hc.resume_eq]
    refine chainFrom_of_stop ?_
    rw [hrest]
    exact (hc.stops_iff.mp hstops).2
  cases x with
  | sum => exact hchain .sum
  | product => exact hchain .product
  | signed | atom => rfl

/-- Before an operator the loop of a chain has a round for it. -/
theorem Resumes.operator {x y : Symbol} {table : Token.Kind → Option BinaryOp} {room : Nat}
    {s : ParseState} {e : Expr} {t : Token} {rest : List Token}
    (h : Resumes x room s e (t :: rest)) (hc : x.Chains y table) :
    ∃ rounds s', s'.rest = t :: rest ∧ rest.length ≤ rounds ∧
      x.within room s = chainFrom (y.within room) (operator? table) (rounds + 1) e s' := by
  obtain ⟨rounds, s', hrest, hrounds, hstep⟩ := h
  rw [List.length_cons] at hrounds
  obtain ⟨rounds, rfl⟩ : ∃ k, rounds = k + 1 := ⟨rounds - 1, by omega⟩
  exact ⟨rounds, s', hrest, Nat.le_of_succ_le_succ hrounds,
    hstep.trans (congrFun (hc.resume_eq room (rounds + 1) e) s')⟩

theorem Derives.head_of_atom {ts : List Token} {e : Expr} {n : Nat}
    (h : Derives .atom ts e n) (rest : List Token) :
    ∀ t ∈ (ts ++ rest).head?, sign t.kind = none := by
  cases h with
  | number ht => simp [ht, sign]
  | group ho => simp [ho, sign]
  | single hc => cases hc
  | more hc => cases hc

/-- Along a derivation the parser comes to stand behind the phrase, if there
is room for its groups and what follows ends its last operand. -/
theorem Derives.resumes {x : Symbol} {ts : List Token} {e : Expr} {n : Nat}
    (h : Derives x ts e n) :
    ∀ {room : Nat} {s : ParseState} {rest : List Token}, n ≤ room →
      s.rest = ts ++ rest → (∀ y table, x.Chains y table → y.Stops rest) →
      Resumes x room s e rest := by
  induction h with
  | number ht =>
      intro room s rest _ hrest _
      exact ⟨rest.length, _, rfl, Nat.le_refl _, atomWithin_of_number hrest ht⟩
  | @group opening closing ts e n ho hc _ ih =>
      intro room s rest hroom hrest _
      obtain ⟨room, rfl⟩ : ∃ m, room = m + 1 := ⟨room - 1, by omega⟩
      have hrest : s.rest = opening :: (ts ++ closing :: rest) := by simpa using hrest
      have hinner : Resumes .sum room (s.advance (ts ++ closing :: rest)).deeper e
          (closing :: rest) :=
        ih (Nat.le_of_succ_le_succ hroom) rfl fun y _ _ => y.stops_of_rparen hc
      obtain ⟨s', hs', hrest'⟩ := hinner.stop (Symbol.sum.stops_of_rparen hc)
      exact ⟨rest.length, _, rfl, Nat.le_refl _,
        atomWithin_of_group hrest ho hs' hrest' hc⟩
  | @unsigned ts e n h ih =>
      intro room s rest hroom hrest _
      obtain ⟨s', hs', hrest'⟩ :=
        (ih hroom hrest fun _ _ hc => nomatch hc).stop (stops_atom rest)
      refine ⟨rest.length, s', hrest', Nat.le_refl _, ?_⟩
      have hhead := h.head_of_atom rest
      rw [← hrest] at hhead
      exact (signedOf_of_atom hhead).trans hs'
  | @signed t op ts e n hop _ ih =>
      intro room s rest hroom hrest _
      obtain ⟨s', hs', hrest'⟩ :=
        (ih (s := s.advance (ts ++ rest)) hroom rfl fun _ _ hc => nomatch hc).stop
          (stops_atom rest)
      exact ⟨rest.length, s'.record _, hrest', Nat.le_refl _,
        signedOf_of_sign hrest (sign_eq_some_iff.mpr hop) hs'⟩
  | @single x y table ts e n hc _ ih =>
      intro room s rest hroom hrest hstops
      have hy := hstops y table hc
      obtain ⟨s', hs', hrest'⟩ :=
        (ih hroom hrest fun _ _ hc' => (hc'.stops_iff.mp hy).1).stop hy
      refine ⟨s'.rest.length, s', hrest', Nat.le_of_eq (congrArg List.length hrest'.symm), ?_⟩
      rw [hc.within_eq, hc.resume_eq]
      exact chain_of_first hs'
  | @more x y table t op ls rs l r m n hc _ hop _ ihl ihr =>
      intro room s rest hroom hrest hstops
      have hy := hstops y table hc
      rw [List.append_assoc, List.cons_append] at hrest
      have hresumes : Resumes x room s l (t :: (rs ++ rest)) :=
        ihl (Nat.le_trans (Nat.le_max_left m n) hroom) hrest fun _ _ hc' =>
          hc.operands_stop hop hc'
      obtain ⟨rounds, s₁, hrest₁, hrounds, hstep⟩ := hresumes.operator hc
      obtain ⟨s₂, hs₂, hrest₂⟩ :=
        (ihr (s := s₁.advance (rs ++ rest)) (Nat.le_trans (Nat.le_max_right m n) hroom) rfl
          fun _ _ hc' => (hc'.stops_iff.mp hy).1).stop hy
      refine ⟨rounds, s₂.record (.binary op (Expr.applyBinary ⟨op, t.span⟩ l r).span),
        hrest₂, ?_, ?_⟩
      · rw [List.length_append] at hrounds
        omega
      · rw [hstep, hc.resume_eq]
        exact chainFrom_of_operator hrest₁ hop hs₂

theorem Derives.within_ok {x : Symbol} {ts : List Token} {e : Expr} {n room : Nat}
    {s : ParseState} {rest : List Token} (h : Derives x ts e n) (hroom : n ≤ room)
    (hrest : s.rest = ts ++ rest) (hstops : x.Stops rest) :
    ∃ s', x.within room s = .ok e s' ∧ s'.rest = rest :=
  (h.resumes hroom hrest fun _ _ hc => (hc.stops_iff.mp hstops).1).stop hstops

/-- The grammar is unambiguous, whatever the depth of its groups: a parser with
room for both trees can only have read one. -/
theorem Derives.unique {x : Symbol} {ts : List Token} {e e' : Expr} {n n' : Nat}
    (h : Derives x ts e n) (h' : Derives x ts e' n') : e = e' := by
  have hrest : (ParseState.start ts).rest = ts ++ [] := (List.append_nil ts).symm
  obtain ⟨s, hs, -⟩ := h.within_ok (Nat.le_max_left n n') hrest x.stops_nil
  obtain ⟨s', hs', -⟩ := h'.within_ok (Nat.le_max_right n n') hrest x.stops_nil
  rw [hs] at hs'
  cases hs'
  rfl

theorem room_iff {n : Nat} {s : ParseState} :
    n ≤ room s ↔ n = 0 ∨ s.depth + n ≤ nestingLimit := by
  unfold room
  omega

/-- Wherever a parser stands in some tokens, and however many groups it has
left open, the step of a nonterminal reads exactly the longest phrase. -/
theorem step_ok_iff {x : Symbol} {ts : List Token} {s : ParseState} {i j : Nat}
    {e : Expr} :
    (∃ s', x.step (s.seek ts i) = .ok e s' ∧ s'.index = j) ↔
      i ≤ j ∧ j ≤ ts.length ∧
        (∃ n, Derives x ((ts.drop i).take (j - i)) e n ∧
          (n = 0 ∨ s.depth + n ≤ nestingLimit)) ∧
        x.Stops (ts.drop j) := by
  constructor
  · rintro ⟨s', hstep, rfl⟩
    rw [x.step_eq_within] at hstep
    obtain ⟨⟨us, n, hreads, hderives, hn⟩, hstops⟩ := (sound x _ _).of_ok hstep
    have hrest : ts.drop i = us ++ s'.rest := hreads.rest
    have hindex : s'.index = i + us.length := hreads.index
    have hlen := congrArg List.length hrest
    have hpos := List.length_pos_iff.mpr hderives.ne_nil
    rw [List.length_drop, List.length_append] at hlen
    have hdrop : ts.drop s'.index = s'.rest := by
      rw [hindex, ← List.drop_drop, hrest, List.drop_left]
    refine ⟨by omega, by omega, ⟨n, ?_, room_iff.mp hn⟩, by rw [hdrop]; exact hstops⟩
    rw [hindex, Nat.add_sub_cancel_left, hrest, List.take_left]
    exact hderives
  · rintro ⟨hij, hj, ⟨n, hderives, hn⟩, hstops⟩
    have hrest : (s.seek ts i).rest = (ts.drop i).take (j - i) ++ ts.drop j := by
      show ts.drop i = _
      conv => lhs; rw [← List.take_append_drop (j - i) (ts.drop i)]
      rw [List.drop_drop, Nat.add_sub_cancel' hij]
    obtain ⟨s', hwithin, hrest'⟩ :=
      hderives.within_ok (room_iff (s := s.seek ts i).mpr hn) hrest hstops
    refine ⟨s', (x.step_eq_within _).trans hwithin, ?_⟩
    obtain ⟨⟨us, m, hreads, -, -⟩, -⟩ := (sound x _ _).of_ok hwithin
    have hlen := congrArg List.length hreads.rest
    have hindex : s'.index = i + us.length := hreads.index
    rw [hrest, hrest', List.length_append, List.length_append, List.length_take,
      List.length_drop] at hlen
    omega

theorem parse_ok_iff {ts : List Token} {e : Expr} :
    parse ts = .ok e ↔ ∃ n, n ≤ nestingLimit ∧ Derives .sum ts e n := by
  have hends : Ends whole (.start ts)
      (fun e _ => ∃ n, n ≤ nestingLimit ∧ Derives .sum ts e n) fun _ _ => True := by
    refine whole_ends (Ends.mono (sound .sum nestingLimit _) ?_ fun _ _ h => h)
    intro e s' ⟨⟨us, n, hreads, hderives, hn⟩, _⟩
    refine ⟨fun hnil => ⟨n, hn, ?_⟩, fun _ _ _ => trivial⟩
    have hrest : ts = us ++ s'.rest := hreads.rest
    rw [hrest, hnil, List.append_nil]
    exact hderives
  constructor
  · intro h
    unfold parse at h
    split at h
    · next e' s' hwhole => cases h; exact hends.of_ok hwhole
    · cases h
  · rintro ⟨n, hn, hderives⟩
    obtain ⟨s', hs', hnil⟩ := hderives.within_ok (s := .start ts) hn
      (List.append_nil ts).symm (Symbol.stops_nil _)
    have hwhole : whole (.start ts) = .ok e s' := by
      show EStateM.bind Parse.sum _ _ = _
      have hsum : Parse.sum (.start ts) = .ok e s' := hs'
      simp only [EStateM.bind, hsum, bind, consume, hnil]
      rfl
    rw [parse, hwhole]

/-- The parser is the grammar. A step reads a phrase exactly if it is one, is
not nested too deep for the room there is and is as long as can be; a list of
tokens is parsed exactly if all of it is an expression, and then the tree is
the only one it has. -/
theorem parse_iff_grammar (ts : List Token) :
    (∀ (x : Symbol) (s : ParseState) (i j : Nat) (e : Expr),
      (∃ s', x.step (s.seek ts i) = .ok e s' ∧ s'.index = j) ↔
        i ≤ j ∧ j ≤ ts.length ∧
          (∃ n, Derives x ((ts.drop i).take (j - i)) e n ∧
            (n = 0 ∨ s.depth + n ≤ nestingLimit)) ∧
          x.Stops (ts.drop j)) ∧
    (∀ e, parse ts = .ok e ↔ ∃ n, n ≤ nestingLimit ∧ Derives .sum ts e n) ∧
    ∀ e e' n n', Derives .sum ts e n → Derives .sum ts e' n' → e = e' :=
  ⟨fun _ _ _ _ _ => step_ok_iff, fun _ => parse_ok_iff, fun _ _ _ _ h h' => h.unique h'⟩

end ArithTree
