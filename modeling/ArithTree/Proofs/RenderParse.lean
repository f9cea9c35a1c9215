import ArithTree.Proofs.ExprRender
import ArithTree.Proofs.ScanListing
import ArithTree.Source

/-!
# Reading back what was written

A written shape is read back as the shape that it was. The scanner and the
parser each do a part of it, and the induction takes the two together. Its
subject is a piece of text that scans to a phrase of the grammar wherever it
stands (`Phrase`), and there is one lemma for each way to write a shape: as a
number, in parentheses, behind a sign, around an operator.

The other way round, every source is at least as deep as its shape written
back. A group of a source may be one that the written shape needs or one that
it does without, but where the shape needs a group, an atom is due and the
shape is none, so the source has a group too. This goes along the derivation
of the source and makes no use of how the shape is written.
-/

namespace ArithTree

open Parse Text

/-- The scanner takes the tokens and goes on behind the text. -/
def Passes (o : Nat) (w rest : Text) (tokens : List Token) : Prop :=
  scanFrom o (w ++ rest) = (scanFrom (o + w.length) rest).prepend tokens

theorem Passes.append {o : Nat} {a b rest : Text} {ts us : List Token}
    (ha : Passes o a (b ++ rest) ts) (hb : Passes (o + a.length) b rest us) :
    Passes o (a ++ b) rest (ts ++ us) := by
  unfold Passes at *
  rw [List.append_assoc, ha, hb, List.length_append, Nat.add_assoc]
  simp only [Scan.prepend, List.append_assoc]

/-- Wherever the text stands, it scans to a phrase with a tree of the shape. -/
structure Phrase (x : Symbol) (w : Text) (t : Shape) (n : Nat) : Prop where
  nonempty : w ≠ []
  scanned : ∀ o rest, Seam w rest →
    ∃ tokens e, Passes o w rest tokens ∧ Derives x tokens e n ∧ e.shape? = some t

theorem Phrase.number (value : UInt64) :
    Phrase .atom (ofNat value.toNat) (.number value) 0 where
  nonempty := ofNat_ne_nil value.toNat
  scanned o rest hseam := by
    have hfits : (ofNat value.toNat).decimal < UInt64.size := by
      rw [decimal_ofNat]
      exact value.toNat_lt_size
    have hword := Word.number (ofNat_ne_nil value.toNat) (digits_ofNat value.toNat) hfits
    refine ⟨_, _, scanFrom_word o hword hseam, .number rfl, ?_⟩
    rw [decimal_ofNat]
    exact Expr.shape?_number _ value

theorem Phrase.group {w : Text} {t : Shape} {n : Nat} (h : Phrase .sum w t n) :
    Phrase .atom w.group t (n + 1) where
  nonempty := w.group_ne_nil
  scanned o rest hseam := by
    have hclosing : Seam w (.ofChar ')' :: rest) := seam_of_head fun d hd => by
      cases hd
      rfl
    obtain ⟨tokens, e, hpasses, hderives, hshape⟩ := h.scanned (o + 1) _ hclosing
    have hopen : Passes o [.ofChar '('] (w ++ [.ofChar ')'] ++ rest) _ :=
      scanFrom_word o (.sign rfl) (seam_of_not_digit rfl)
    have hclose : Passes (o + 1 + w.length) [.ofChar ')'] rest _ :=
      scanFrom_word _ (.sign rfl) (seam_of_not_digit rfl)
    exact ⟨_, e, hopen.append (hpasses.append hclose), .group rfl rfl hderives, hshape⟩

theorem Phrase.signed {w : Text} {t : Shape} {n : Nat} (op : UnaryOp)
    (h : Phrase .atom w t n) : Phrase .signed (op.mark :: w) (.unary op t) n where
  nonempty := List.cons_ne_nil _ _
  scanned o rest hseam := by
    have hkind := op.kind?_mark
    obtain ⟨tokens, e, hpasses, hderives, hshape⟩ :=
      h.scanned (o + 1) rest ((@seam_append_left [op.mark] w rest h.nonempty).mp hseam)
    have hmark : Passes o [op.mark] (w ++ rest) _ :=
      scanFrom_word o (.sign hkind) (seam_of_not_digit (CodePoint.not_digit_of_kind hkind))
    exact ⟨_, _, hmark.append hpasses, .signed rfl hderives, Expr.shape?_applyUnary hshape⟩

theorem Phrase.binary {a b : Text} {l r : Shape} {m n : Nat} (op : BinaryOp)
    (hl : Phrase op.chain a l m) (hr : Phrase op.operand b r n) :
    Phrase op.chain (a ++ op.mark :: b) (.binary op l r) (max m n) where
  nonempty := by simp
  scanned o rest hseam := by
    obtain ⟨k, table, hkind, hchains, hop⟩ := op.exists_kind
    have hdigit := CodePoint.not_digit_of_kind hkind
    have hright : Seam b rest := by
      rw [← List.singleton_append, ← List.append_assoc] at hseam
      exact (seam_append_left hr.nonempty).mp hseam
    have hleft : Seam a (op.mark :: (b ++ rest)) := seam_of_head fun d hd => by
      cases hd
      exact hdigit
    obtain ⟨ts, e, htpasses, htderives, htshape⟩ := hl.scanned o _ hleft
    obtain ⟨us, f, hupasses, huderives, hushape⟩ := hr.scanned (o + a.length + 1) rest hright
    have hmark : Passes (o + a.length) [op.mark] (b ++ rest) _ :=
      scanFrom_word _ (.sign hkind) (seam_of_not_digit hdigit)
    exact ⟨_, _, htpasses.append (hmark.append hupasses), .more hchains htderives hop huderives,
      Expr.shape?_applyBinary htshape hushape⟩

theorem Phrase.of_derives {x y : Symbol} {w : Text} {t : Shape} {n : Nat} (h : Phrase x w t n)
    (hxy : ∀ {ts e}, Derives x ts e n → Derives y ts e n) : Phrase y w t n where
  nonempty := h.nonempty
  scanned o rest hseam := by
    obtain ⟨tokens, e, hpasses, hderives, hshape⟩ := h.scanned o rest hseam
    exact ⟨tokens, e, hpasses, hxy hderives, hshape⟩

/-- In parentheses where there have to be some, a shape can stand anywhere. -/
theorem Phrase.groupIf {w : Text} {t : Shape} {n : Nat} (x : Symbol)
    (h : Phrase t.level w t n) :
    Phrase x (groupIf (t.wide x) w) t (n + (t.wide x).toNat) := by
  cases hwide : t.wide x with
  | false => exact h.of_derives fun h => h.of_level hwide
  | true =>
      have hsum : t.wide .sum = false := by cases t <;> rfl
      exact (h.of_derives fun h => h.of_level hsum).group.of_derives fun h => h.of_atom x

theorem Shape.phrase (t : Shape) : Phrase t.level t.render t t.nesting := by
  induction t with
  | number value => exact .number value
  | unary op operand ih => exact .signed op (ih.groupIf .atom)
  | binary op left right ihl ihr =>
      exact .binary op (ihl.groupIf op.chain) (ihr.groupIf op.operand)

theorem Shape.parseSource_render {t : Shape} (h : t.nesting ≤ nestingLimit) :
    ∃ e, parseSource t.render = .ok e ∧ e.shape? = some t := by
  have hphrase : Phrase .sum t.render t t.nesting :=
    t.phrase.of_derives fun h => h.of_level (by cases t <;> rfl)
  obtain ⟨tokens, e, hpasses, hderives, hshape⟩ := hphrase.scanned 0 [] (seam_nil_right _)
  have hscan : scanFrom 0 t.render = ⟨tokens, none, ⟨0 + t.render.length, []⟩⟩ := by
    have hpasses : scanFrom 0 (t.render ++ []) = _ := hpasses
    rw [List.append_nil] at hpasses
    rw [hpasses, scanFrom_nil, Scan.prepend, List.append_nil]
  have hlex : lex t.render = .ok tokens := by rw [lex_eq, hscan]
  have hparse : parse tokens = .ok e := parse_ok_iff.mpr ⟨t.nesting, h, hderives⟩
  exact ⟨e, by rw [parseSource, hlex]; simp only [hparse], hshape⟩

/-- A number that carries a value that fits, or no number. -/
def Token.Valued (k : Token) : Prop :=
  k.kind = .number → ∃ value : UInt64, k.value = some (value.toNat : Int)

theorem valued_of_lex {source : Text} {tokens : List Token} (h : lex source = .ok tokens) :
    ∀ k ∈ tokens, k.Valued := by
  intro k hk hkind
  obtain ⟨hclean, hlisting⟩ := listing_of_lex h
  have hnames := (hlisting.named k).mp hk
  cases hnames with
  | sign ht hmark => exact absurd hkind (CodePoint.kind?_ne_number hmark)
  | number ht hrun => exact ⟨.ofNatLT _ (hclean.fits _ _ _ ht hrun), rfl⟩

theorem Shape.wide_signed_le (t : Shape) :
    (t.wide .signed).toNat ≤ (t.wide .atom).toNat := by
  cases t with
  | number | unary => exact Nat.zero_le _
  | binary => exact Nat.le_refl _

theorem Shape.wide_chain_le {x y : Symbol} {table : Token.Kind → Option BinaryOp}
    (hc : x.Chains y table) (t : Shape) : (t.wide x).toNat ≤ (t.wide y).toNat := by
  cases hc with
  | sum => cases t <;> exact Nat.zero_le _
  | product =>
      cases t with
      | number | unary => exact Nat.zero_le _
      | binary op => exact Bool.toNat_le _

theorem Shape.wide_chain (op : BinaryOp) (l r : Shape) :
    (binary op l r).wide op.chain = false := by
  cases op <;> rfl

/-- A phrase has a shape, and the groups of the phrase are nested as deep as
those of the shape at least. -/
theorem Derives.shape_nesting_le {x : Symbol} {ts : List Token} {e : Expr} {n : Nat}
    (h : Derives x ts e n) : (∀ k ∈ ts, k.Valued) →
      ∃ t, e.shape? = some t ∧ t.nesting + (t.wide x).toNat ≤ n := by
  induction h with
  | @number k hk =>
      intro hvalued
      obtain ⟨value, hvalue⟩ := hvalued k List.mem_cons_self hk
      refine ⟨.number value, ?_, Nat.le_refl 0⟩
      rw [hvalue]
      exact Expr.shape?_number _ value
  | @group opening closing ts e n ho hc h ih =>
      intro hvalued
      obtain ⟨t, hshape, hn⟩ := ih fun k hk => hvalued k (by simp [hk])
      have hwide := Bool.toNat_le (t.wide .atom)
      exact ⟨t, hshape, by omega⟩
  | unsigned h ih =>
      intro hvalued
      obtain ⟨t, hshape, hn⟩ := ih hvalued
      have hwide := t.wide_signed_le
      exact ⟨t, hshape, by omega⟩
  | @signed k op ts e n hop h ih =>
      intro hvalued
      obtain ⟨t, hshape, hn⟩ := ih fun k hk => hvalued k (by simp [hk])
      exact ⟨.unary op t, Expr.shape?_applyUnary hshape, hn⟩
  | single hc h ih =>
      intro hvalued
      obtain ⟨t, hshape, hn⟩ := ih hvalued
      have hwide := t.wide_chain_le hc
      exact ⟨t, hshape, by omega⟩
  | @more x y table k op ls rs l r m n hc hl hop hr ihl ihr =>
      intro hvalued
      obtain ⟨a, ha, hm⟩ := ihl fun k hk => hvalued k (by simp [hk])
      obtain ⟨b, hb, hn⟩ := ihr fun k hk => hvalued k (by simp [hk])
      obtain ⟨rfl, rfl⟩ := hc.of_operator hop
      refine ⟨.binary op a b, Expr.shape?_applyBinary ha hb, ?_⟩
      rw [Shape.wide_chain]
      exact Nat.max_le.mpr ⟨Nat.le_trans hm (Nat.le_max_left m n),
        Nat.le_trans hn (Nat.le_max_right m n)⟩

theorem shape_of_parseSource {source : Text} {e : Expr} (h : parseSource source = .ok e) :
    ∃ t, e.shape? = some t ∧ t.nesting ≤ nestingLimit := by
  obtain ⟨tokens, hlex, hparse⟩ := parseSource_ok h
  obtain ⟨n, hlimit, hderives⟩ := parse_ok_iff.mp hparse
  obtain ⟨t, hshape, hn⟩ := hderives.shape_nesting_le (valued_of_lex hlex)
  exact ⟨t, hshape, by omega⟩

/-- A shape that is written with no more groups inside each other than may be
open is read back as it was; and the shape of whatever can be read at all is
written with no more than that. -/
theorem render_roundTrip :
    (∀ t : Shape, t.render.deepest 0 ≤ nestingLimit →
      ∃ e, parseSource t.render = .ok e ∧ e.shape? = some t) ∧
    ∀ source e, parseSource source = .ok e →
      ∃ t, e.shape? = some t ∧ t.render.deepest 0 ≤ nestingLimit ∧
        ∃ e', parseSource t.render = .ok e' ∧ e'.shape? = some t := by
  refine ⟨fun t ht => ?_, fun source e he => ?_⟩
  · rw [t.deepest_render] at ht
    exact Shape.parseSource_render ht
  · obtain ⟨t, hshape, hlimit⟩ := shape_of_parseSource he
    refine ⟨t, hshape, ?_, Shape.parseSource_render hlimit⟩
    rw [t.deepest_render]
    exact hlimit

end ArithTree
