import ArithTree.Proofs.ViablePrefix
import Mathlib.Data.List.Infix

/-!
# How many groups are open

The parentheses of some tokens can be counted, without asking what the tokens
are: those that open, less those that close. The count is the height of the
automaton's stack, as long as the automaton goes on, and so the limit on the
stack is a limit on the count before every token.

Whether the limit is kept is all that stands between a phrase and its tree. An
expression of the grammar is parsed if no more groups are open at once than may
be, and otherwise the first parenthesis that opens one too many is refused. The
automaton shows it by its limit alone: with a greater one it reads on, and what
it has read until then it reads with the smaller one as well.
-/

namespace ArithTree

open Parse ParseState

/-- How many more groups some tokens open than they close. -/
def surplus (ts : List Token) : Int :=
  ts.countP (fun t => t.kind = .lparen) - ts.countP (fun t => t.kind = .rparen)

/-- No more groups are open at once. -/
def OpensAtMost (n : Nat) (ts : List Token) : Prop := ∀ us, us <+: ts → surplus us ≤ n

instance (n : Nat) (ts : List Token) : Decidable (OpensAtMost n ts) :=
  decidable_of_iff (∀ us ∈ ts.inits, surplus us ≤ n) (by simp only [List.mem_inits, OpensAtMost])

theorem surplus_nil : surplus [] = 0 := rfl

theorem surplus_append (ts us : List Token) : surplus (ts ++ us) = surplus ts + surplus us := by
  simp only [surplus, List.countP_append]
  omega

theorem surplus_cons (t : Token) (ts : List Token) :
    surplus (t :: ts) = surplus [t] + surplus ts := surplus_append [t] ts

theorem surplus_of_lparen {t : Token} (ht : t.kind = .lparen) : surplus [t] = 1 := by
  simp [surplus, ht]

theorem surplus_of_rparen {t : Token} (ht : t.kind = .rparen) : surplus [t] = -1 := by
  simp [surplus, ht]

theorem surplus_of_other {t : Token} (ho : t.kind ≠ .lparen) (hc : t.kind ≠ .rparen) :
    surplus [t] = 0 := by
  simp [surplus, ho, hc]

theorem opensAtMost_append {n : Nat} {ts us : List Token} :
    OpensAtMost n (ts ++ us) ↔
      OpensAtMost n ts ∧ ∀ vs, vs <+: us → surplus ts + surplus vs ≤ n := by
  constructor
  · intro h
    refine ⟨fun vs hvs => h vs (hvs.trans (List.prefix_append ts us)), fun vs hvs => ?_⟩
    rw [← surplus_append]
    exact h _ ((List.prefix_append_right_inj ts).mpr hvs)
  · rintro ⟨hts, hus⟩ vs ⟨ws, h⟩
    rcases List.append_eq_append_iff.mp h with ⟨as, rfl, -⟩ | ⟨as, rfl, has⟩
    · exact hts vs (List.prefix_append vs as)
    · rw [surplus_append]
      exact hus as ⟨ws, has.symm⟩

theorem surplus_of_sign {t : Token} {op : UnaryOp} (hop : t.kind = op.kind) :
    surplus [t] = 0 := by
  refine surplus_of_other (fun hkind => ?_) fun hkind => ?_
  all_goals
    rw [hkind] at hop
    cases op <;> cases hop

theorem surplus_of_operator {x y : Symbol} {table : Token.Kind → Option BinaryOp} {t : Token}
    {op : BinaryOp} (hc : x.Chains y table) (hop : table t.kind = some op) :
    surplus [t] = 0 := by
  refine surplus_of_other (fun hkind => ?_) fun hkind => ?_
  all_goals
    rw [hkind] at hop
    cases hc <;> cases hop

/-- A phrase closes all that it opens. -/
theorem Derives.surplus_eq_zero {x : Symbol} {ts : List Token} {e : Expr} {n : Nat}
    (h : Derives x ts e n) : surplus ts = 0 := by
  induction h with
  | number ht => exact surplus_of_other (by simp [ht]) (by simp [ht])
  | group ho hc _ ih =>
      rw [surplus_cons, surplus_append, ih, surplus_of_lparen ho, surplus_of_rparen hc]
      rfl
  | unsigned _ ih | single _ _ ih => exact ih
  | signed hop _ ih => rw [surplus_cons, surplus_of_sign hop, ih]; rfl
  | more hc _ hop _ ihl ihr =>
      rw [surplus_append, surplus_cons, ihl, surplus_of_operator hc hop, ihr]
      rfl

namespace Automaton

theorem push_ok {limit : Nat} {opened : List Token} {t : Token} {m : Automaton}
    (h : push limit opened t = .ok m) :
    opened.length < limit ∧ m = ⟨.operand, t :: opened⟩ := by
  unfold push at h
  split at h
  · cases h
  · cases h
    exact ⟨by omega, rfl⟩

/-- An opening parenthesis is pushed, or comes where no operand is due. -/
theorem step_of_opening (m : Automaton) {t : Token} (ht : t.kind = .lparen) :
    (∀ limit, m.step limit t = push limit m.opened t) ∨
      ∀ limit, m.step limit t = .error (.redundant t) := by
  obtain ⟨expected, opened⟩ := m
  cases expected with
  | operand | atom => exact .inl fun limit => by simp only [step, ht]
  | operator => exact .inr fun limit => by simp only [step, ht]

/-- What a token does to the stack, and that it does not go past the limit. -/
theorem height_of_step {limit : Nat} {m m' : Automaton} {t : Token}
    (h : m.step limit t = .ok m') :
    (m'.opened.length : Int) = m.opened.length + surplus [t] ∧
      (m.opened.length ≤ limit → m'.opened.length ≤ limit) := by
  cases hkind : t.kind with
  | lparen =>
      rw [surplus_of_lparen hkind]
      rcases m.step_of_opening hkind with hpush | herror
      · rw [hpush] at h
        obtain ⟨hlt, rfl⟩ := push_ok h
        simp only [List.length_cons]
        exact ⟨by omega, fun _ => by omega⟩
      · rw [herror] at h
        cases h
  | rparen =>
      rw [surplus_of_rparen hkind]
      obtain ⟨expected, opened⟩ := m
      cases expected <;> cases opened <;> simp only [step, hkind] at h
      all_goals cases h
      simp only [List.length_cons]
      exact ⟨by omega, fun hle => by omega⟩
  | number | plus | minus | asterisk | slash =>
      rw [surplus_of_other (by simp [hkind]) (by simp [hkind])]
      obtain ⟨expected, opened⟩ := m
      cases expected <;> simp only [step, hkind] at h
      all_goals cases h
      all_goals exact ⟨(Int.add_zero _).symm, id⟩

theorem height_of_read {limit : Nat} {ts : List Token} :
    ∀ {m m' : Automaton}, m.read limit ts = .ok m' →
      (m'.opened.length : Int) = m.opened.length + surplus ts ∧
        (m.opened.length ≤ limit → m'.opened.length ≤ limit) := by
  induction ts with
  | nil =>
      intro m m' h
      cases h
      exact ⟨by rw [surplus_nil, Int.add_zero], id⟩
  | cons t ts ih =>
      intro m m' h
      cases hstep : m.step limit t with
      | error e => rw [read_cons_of_error hstep] at h; cases h
      | ok m'' =>
          rw [read_cons_of_ok hstep] at h
          obtain ⟨hheight, hlimit⟩ := height_of_step hstep
          obtain ⟨hheight', hlimit'⟩ := ih h
          rw [surplus_cons]
          exact ⟨by omega, fun hle => hlimit' (hlimit hle)⟩

/-- From the beginning the stack is as high as the surplus, and no higher than
the limit. -/
theorem height_of_start {limit : Nat} {ts : List Token} {m : Automaton}
    (h : start.read limit ts = .ok m) :
    (m.opened.length : Int) = surplus ts ∧ m.opened.length ≤ limit := by
  obtain ⟨hheight, hlimit⟩ := height_of_read h
  exact ⟨hheight.trans (Int.zero_add _), hlimit (Nat.zero_le limit)⟩

theorem opensAtMost_of_read {limit : Nat} {ts : List Token} {m : Automaton}
    (h : start.read limit ts = .ok m) : OpensAtMost limit ts := by
  rintro us ⟨vs, rfl⟩
  cases hread : start.read limit us with
  | error e => rw [read_append_of_error hread] at h; cases h
  | ok m' =>
      obtain ⟨hheight, hlimit⟩ := height_of_start hread
      omega

/-- With a smaller limit a token is read all the same, or opens too much. -/
theorem step_of_larger {limit limit' : Nat} {m m' : Automaton} {t : Token}
    (h : m.step limit' t = .ok m') :
    m.step limit t = .ok m' ∨
      m.step limit t = .error (.tooDeep t) ∧ t.kind = .lparen ∧ limit ≤ m.opened.length := by
  cases hkind : t.kind with
  | lparen =>
      rcases m.step_of_opening hkind with hpush | herror
      · rw [hpush] at h ⊢
        obtain ⟨-, rfl⟩ := push_ok h
        unfold push
        split
        · exact .inr ⟨rfl, rfl, by omega⟩
        · exact .inl rfl
      · rw [herror] at h
        cases h
  | number | plus | minus | asterisk | slash | rparen =>
      left
      obtain ⟨expected, opened⟩ := m
      cases expected <;> cases opened <;> simp only [step, hkind] at h ⊢ <;> exact h

theorem read_of_larger {limit limit' : Nat} {ts : List Token} :
    ∀ {m m' : Automaton}, m.read limit' ts = .ok m' →
      m.read limit ts = .ok m' ∨
        ∃ us t vs m'', ts = us ++ t :: vs ∧ m.read limit us = .ok m'' ∧
          m''.step limit t = .error (.tooDeep t) ∧ t.kind = .lparen ∧
          limit ≤ m''.opened.length := by
  induction ts with
  | nil => exact fun h => .inl h
  | cons t ts ih =>
      intro m m' h
      cases hstep : m.step limit' t with
      | error e => rw [read_cons_of_error hstep] at h; cases h
      | ok m'' =>
          rw [read_cons_of_ok hstep] at h
          rcases step_of_larger hstep with hok | ⟨herror, hkind, hlimit⟩
          · rcases ih h with hread | ⟨us, u, vs, n, rfl, hread, hrefused⟩
            · exact .inl ((read_cons_of_ok hok).trans hread)
            · exact .inr ⟨t :: us, u, vs, n, rfl, (read_cons_of_ok hok).trans hread, hrefused⟩
          · exact .inr ⟨[], t, ts, m, rfl, rfl, herror, hkind, hlimit⟩

end Automaton

open Automaton

/-- The automaton reads every expression of the grammar, if its limit is large
enough. -/
theorem Derives.read {ts : List Token} {e : Expr} {n limit : Nat} (h : Derives .sum ts e n)
    (hlimit : n ≤ limit) : Automaton.start.read limit ts = .ok ⟨.operator, []⟩ := by
  obtain ⟨s, hs, hrest⟩ := h.within_ok (s := .start ts) hlimit (List.append_nil ts).symm
    (Symbol.stops_nil _)
  obtain ⟨-, hrun⟩ := (follows .sum limit (.start ts) []).of_ok hs
  rw [hrest, List.length_nil, Nat.zero_add] at hrun
  have hrun : (Automaton.start.run limit (finishOf ts) 0 ts).1 = none := by
    show (run limit _ ⟨.operand, []⟩ _ _).1 = none
    exact congrArg Prod.fst hrun
  cases hread : Automaton.start.read limit ts with
  | error e =>
      obtain ⟨k, t, m, hk, hbefore, hrefused⟩ := read_error hread
      rw [run_of_refused hk hbefore hrefused] at hrun
      cases hrun
  | ok m =>
      rw [run_of_read_ok hread] at hrun
      obtain ⟨expected, opened⟩ := m
      cases expected <;> cases opened <;> cases hrun
      rfl

/-- An expression of the grammar is parsed if no more groups are open at once
than may be, and otherwise the first that is one too many is refused. -/
theorem Derives.parse_or_tooDeep {ts : List Token} {e : Expr} {n : Nat}
    (h : Derives .sum ts e n) :
    (OpensAtMost nestingLimit ts → parse ts = .ok e) ∧
      (¬ OpensAtMost nestingLimit ts →
        ∃ us t vs, ts = us ++ t :: vs ∧ t.kind = .lparen ∧ surplus us = nestingLimit ∧
          OpensAtMost nestingLimit us ∧ parse ts = .error (.tooDeep t)) := by
  rcases @read_of_larger nestingLimit _ _ _ _ (h.read (Nat.le_refl n)) with
    hread | ⟨us, t, vs, m, rfl, hread, hrefused, hkind, hlimit⟩
  · refine ⟨fun _ => ?_, fun hnot => absurd (opensAtMost_of_read hread) hnot⟩
    have hnone : (Automaton.start.run nestingLimit (finishOf ts) 0 ts).1 = none := by
      rw [run_of_read_ok hread]
      rfl
    obtain ⟨e', hparse⟩ := parse_of_run_none hnone
    obtain ⟨n', -, hderives⟩ := parse_ok_iff.mp hparse
    rw [hparse, h.unique hderives]
  · obtain ⟨hheight, hle⟩ := height_of_start hread
    have hus : surplus us = nestingLimit := by omega
    refine ⟨fun hopens => ?_, fun _ => ⟨us, t, vs, rfl, hkind, hus, opensAtMost_of_read hread, ?_⟩⟩
    · have hle := hopens (us ++ [t]) ⟨vs, by simp⟩
      rw [surplus_append, surplus_of_lparen hkind] at hle
      omega
    · exact parse_of_read_error
        ((read_append_of_ok hread).trans (read_cons_of_error hrefused))

end ArithTree
