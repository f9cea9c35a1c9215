import ArithTree.Proofs.Relabelling
import ArithTree.Proofs.SourceOrder

/-!
# The span of a node is a hull

A composite node is given its span when it is made, from three spans or two: those
of its operator and its operands. What comes of it is the hull of all the numbers
and operators below, from the least start to the greatest stop, however many steps
have led there. Nothing is asked of the spans themselves. They may overlap, be
negative or run backwards, and each end of the hull is found for itself.

A parsed tree is built in this way out of the tokens that are no parentheses, so
its span is their hull, and no parenthesis has a part in it. More than that, where
the parentheses stand is no part of any node: other parentheses of the same kinds,
in the same places among the tokens, make the same tree.
-/

namespace ArithTree

/-- From the least start of some spans to the greatest stop. -/
def Span.hull? (spans : List Span) : Option Span := do
  let start ← (spans.map (·.start)).min?
  let stop ← (spans.map (·.stop)).max?
  return ⟨start, stop⟩

theorem Span.Hull.hull?_eq {s : Span} {ts : List Token} (h : s.Hull ts) :
    hull? (ts.map (·.span)) = some s := by
  have hstart : ((ts.map (·.span)).map (·.start)).min? = some s.start := by
    rw [List.map_map, List.min?_eq_some_iff, List.forall_mem_map, List.mem_map]
    exact ⟨h.start_mem, h.start_le⟩
  have hstop : ((ts.map (·.span)).map (·.stop)).max? = some s.stop := by
    rw [List.map_map, List.max?_eq_some_iff, List.forall_mem_map, List.mem_map]
    exact ⟨h.stop_mem, h.le_stop⟩
  rw [hull?, hstart, hstop]
  rfl

namespace Token

/-- A parenthesis without its place, and any other token as it is. -/
def unplaced (t : Token) : Token :=
  if t.isParen then { kind := t.kind, span := .empty 0 } else t

theorem kind_unplaced (t : Token) : t.unplaced.kind = t.kind := by
  unfold unplaced
  split <;> rfl

variable {t u : Token}

theorem kind_eq_of_unplaced_eq (h : u.unplaced = t.unplaced) : u.kind = t.kind := by
  rw [← kind_unplaced, h, kind_unplaced]

theorem eq_of_unplaced_eq (h : u.unplaced = t.unplaced) (ht : t.isParen = false) : u = t := by
  have hu : u.isParen = false := by
    rw [isParen, kind_eq_of_unplaced_eq h]
    exact ht
  simpa [unplaced, ht, hu] using h

end Token

/-- Wherever its parentheses stand, a phrase has the same tree. -/
theorem Derives.of_unplaced {x : Symbol} {ts : List Token} {e : Expr} {n : Nat}
    (h : Derives x ts e n) :
    ∀ {us : List Token}, us.map Token.unplaced = ts.map Token.unplaced → Derives x us e n := by
  induction h with
  | @number t ht =>
      intro us hus
      obtain ⟨u, rfl, hu⟩ := List.map_eq_singleton_iff.mp hus
      obtain rfl := Token.eq_of_unplaced_eq hu (by simp [Token.isParen, ht])
      exact .number ht
  | group ho hc _ ih =>
      intro us hus
      obtain ⟨opening, vs, rfl, hopening, hvs⟩ := List.map_eq_cons_iff.mp hus
      rw [List.map_append] at hvs
      obtain ⟨ts, ws, rfl, hts, hws⟩ := List.map_eq_append_iff.mp hvs
      obtain ⟨closing, rfl, hclosing⟩ := List.map_eq_singleton_iff.mp hws
      exact .group ((Token.kind_eq_of_unplaced_eq hopening).trans ho)
        ((Token.kind_eq_of_unplaced_eq hclosing).trans hc) (ih hts)
  | unsigned _ ih => exact fun hus => .unsigned (ih hus)
  | @signed t op ts e n hop _ ih =>
      intro us hus
      obtain ⟨u, vs, rfl, hu, hvs⟩ := List.map_eq_cons_iff.mp hus
      have hparen := Token.isParen_of_operator hop op.isOperator_kind
      obtain rfl := Token.eq_of_unplaced_eq hu hparen
      exact .signed hop (ih hvs)
  | single hc _ ih => exact fun hus => .single hc (ih hus)
  | @more x y table t op ls rs l r m n hc _ hop _ ihl ihr =>
      intro us hus
      rw [List.map_append] at hus
      obtain ⟨vs, ws, rfl, hvs, hws⟩ := List.map_eq_append_iff.mp hus
      obtain ⟨u, ws', rfl, hu, hws'⟩ := List.map_eq_cons_iff.mp hws
      have hparen := Token.isParen_of_operator (hc.kind_of_operator hop) op.isOperator_kind
      obtain rfl := Token.eq_of_unplaced_eq hu hparen
      exact .more hc (ihl hvs) hop (ihr hws')

theorem parse_unplaced {ts us : List Token}
    (h : us.map Token.unplaced = ts.map Token.unplaced) (e : Expr) :
    parse us = .ok e ↔ parse ts = .ok e := by
  rw [parse_ok_iff, parse_ok_iff]
  constructor
  · rintro ⟨n, hn, hderives⟩
    exact ⟨n, hn, hderives.of_unplaced h.symm⟩
  · rintro ⟨n, hn, hderives⟩
    exact ⟨n, hn, hderives.of_unplaced h⟩

/-- The spans in a parsed tree are those of its tokens, whatever their values. -/
theorem spans_of_parse {ts : List Token} {e : Expr} (h : parse ts = .ok e) :
    e.Built ∧ e.inorder.map (·.span) = (ts.filter fun t => !t.isParen).map (·.span) := by
  obtain ⟨n, -, hderives⟩ := parse_ok_iff.mp ((Relabelling.parse_numbersValued ts e).mpr h)
  have hvalued : OnlyNumbersValued (ts.map Relabelling.numbersValued.token) := by
    intro u hu hkind
    obtain ⟨t, -, rfl⟩ := List.mem_map.mp hu
    exact if_neg hkind
  refine ⟨hderives.built, ?_⟩
  rw [hderives.inorder_eq hvalued, List.filter_map, List.map_map]
  rfl

/-- In a tree that is built of numbers the span of every node is the hull of the
numbers and operators below. So the span of a parsed tree is that of its tokens but
the parentheses, which may stand anywhere without a change to any node. -/
theorem spans_are_hulls :
    (∀ e : Expr, e.Built →
      ∀ d ∈ e.nodes, Span.hull? (d.inorder.map (·.span)) = some d.span) ∧
    (∀ (ts : List Token) (e : Expr), parse ts = .ok e →
      e.Built ∧ Span.hull? ((ts.filter fun t => !t.isParen).map (·.span)) = some e.span) ∧
    ∀ ts us : List Token, us.map Token.unplaced = ts.map Token.unplaced →
      ∀ e, parse us = .ok e ↔ parse ts = .ok e := by
  refine ⟨fun e h d hd => (h.of_mem_nodes d hd).hull.hull?_eq, fun ts e h => ?_,
    fun ts us h e => parse_unplaced h e⟩
  obtain ⟨hbuilt, hspans⟩ := spans_of_parse h
  refine ⟨hbuilt, ?_⟩
  rw [← hspans]
  exact hbuilt.hull.hull?_eq

/-- The tree of `-(8)*3` with spans that run backwards, and with the parentheses
somewhere else. -/
theorem spans_are_hulls_of_product :
    let tokens (opening closing : Span) : List Token :=
      [⟨.minus, ⟨9, 0⟩, none⟩, ⟨.lparen, opening, none⟩, ⟨.number, ⟨5, 3⟩, some 8⟩,
        ⟨.rparen, closing, none⟩, ⟨.asterisk, ⟨7, -7⟩, none⟩, ⟨.number, ⟨4, 2⟩, some 3⟩]
    let e : Expr := .binary ⟨4, 3⟩ ⟨.mult, ⟨7, -7⟩⟩
      (.unary ⟨5, 3⟩ ⟨.minus, ⟨9, 0⟩⟩ (.number ⟨5, 3⟩ (some 8))) (.number ⟨4, 2⟩ (some 3))
    parse (tokens ⟨-50, 50⟩ ⟨60, -60⟩) = .ok e ∧ e.Built ∧
      (∀ d ∈ e.nodes, Span.hull? (d.inorder.map (·.span)) = some d.span) ∧
      Span.hull? (((tokens ⟨-50, 50⟩ ⟨60, -60⟩).filter fun t => !t.isParen).map (·.span)) =
        some ⟨4, 3⟩ ∧
      parse (tokens ⟨0, 0⟩ ⟨1, 1⟩) = .ok e := by
  intro tokens e
  have hparse : parse (tokens ⟨-50, 50⟩ ⟨60, -60⟩) = .ok e := rfl
  obtain ⟨hnodes, htokens, hparens⟩ := spans_are_hulls
  obtain ⟨hbuilt, hroot⟩ := htokens _ e hparse
  exact ⟨hparse, hbuilt, hnodes e hbuilt, hroot, (hparens _ _ rfl e).mpr hparse⟩

end ArithTree
