import ArithTree.Proofs.ParseGrammar
import ArithTree.Proofs.ScanWords

/-!
# Writing expressions

The shape of an expression is what is left of it without its spans. A shape is
written back with as few parentheses as the grammar allows: an operand is put
in parentheses if it binds looser than its place asks for, and only then. The
places are the nonterminals, and `Shape.wide` says which operands are too loose
for which.

How deep the groups of a written shape are nested can be read off the text,
by counting parentheses, and off the shape, by going down into its operands.
The two agree (`deepest_render`). The text is what a limit is put on; the shape
is what an induction can work with.
-/

namespace ArithTree

open Parse

/-- An expression without spans, whose numbers fit in 64 bits. -/
inductive Shape where
  | number (value : UInt64)
  | unary (op : UnaryOp) (operand : Shape)
  | binary (op : BinaryOp) (left right : Shape)
deriving DecidableEq

/-- The shape of an expression, if every number in it has a value that fits. -/
def Expr.shape? : Expr → Option Shape
  | .number _ none => none
  | .number _ (some n) =>
    if h : 0 ≤ n ∧ n.toNat < UInt64.size then some (.number (.ofNatLT n.toNat h.2)) else none
  | .unary _ op operand => do return .unary op.value (← operand.shape?)
  | .binary _ op left right => do return .binary op.value (← left.shape?) (← right.shape?)
  | .bare _ => none

theorem Expr.shape?_number (span : Span) (n : UInt64) :
    (Expr.number span (some (n.toNat : Int))).shape? = some (.number n) := by
  have hfits : 0 ≤ (n.toNat : Int) ∧ (n.toNat : Int).toNat < UInt64.size :=
    ⟨Int.natCast_nonneg _, n.toNat_lt_size⟩
  rw [shape?, dif_pos hfits]
  rfl

theorem Expr.shape?_applyUnary {op : Spanned UnaryOp} {e : Expr} {t : Shape}
    (h : e.shape? = some t) : (applyUnary op e).shape? = some (.unary op.value t) := by
  simp only [applyUnary, shape?, h]
  rfl

theorem Expr.shape?_applyBinary {op : Spanned BinaryOp} {l r : Expr} {a b : Shape}
    (hl : l.shape? = some a) (hr : r.shape? = some b) :
    (applyBinary op l r).shape? = some (.binary op.value a b) := by
  simp only [applyBinary, shape?, hl, hr]
  rfl

def UnaryOp.mark : UnaryOp → CodePoint
  | .plus => .ofChar '+'
  | .minus => .ofChar '-'

def BinaryOp.mark : BinaryOp → CodePoint
  | .add => .ofChar '+'
  | .sub => .ofChar '-'
  | .mult => .ofChar '*'
  | .div => .ofChar '/'

/-- The chains that the operator makes, and the place of its left operand. -/
def BinaryOp.chain : BinaryOp → Symbol
  | .add | .sub => .sum
  | .mult | .div => .product

/-- The place of the right operand. -/
def BinaryOp.operand : BinaryOp → Symbol
  | .add | .sub => .product
  | .mult | .div => .signed

theorem UnaryOp.kind?_mark (op : UnaryOp) : op.mark.kind? = some op.kind := by
  cases op <;> rfl

theorem BinaryOp.exists_kind (op : BinaryOp) :
    ∃ k table, op.mark.kind? = some k ∧ op.chain.Chains op.operand table ∧
      table k = some op := by
  cases op with
  | add => exact ⟨.plus, additive, rfl, .sum, rfl⟩
  | sub => exact ⟨.minus, additive, rfl, .sum, rfl⟩
  | mult => exact ⟨.asterisk, multiplicative, rfl, .product, rfl⟩
  | div => exact ⟨.slash, multiplicative, rfl, .product, rfl⟩

theorem Symbol.Chains.of_operator {x y : Symbol} {table : Token.Kind → Option BinaryOp}
    {k : Token.Kind} {op : BinaryOp} (hc : x.Chains y table) (hop : table k = some op) :
    x = op.chain ∧ y = op.operand := by
  cases hc <;> cases k <;> cases hop <;> exact ⟨rfl, rfl⟩

namespace Shape

/-- Whether the shape has to be put in parentheses at a place: where an atom
is due, all but numbers; where a signed operand is due, all that is binary;
where a product is due, sums and differences. -/
def wide : Symbol → Shape → Bool
  | .atom, .number _ => false
  | .atom, _ => true
  | .signed, .binary _ _ _ => true
  | .product, .binary .add _ _ | .product, .binary .sub _ _ => true
  | _, _ => false

/-- What a shape is without parentheses around it. -/
def level : Shape → Symbol
  | number _ => .atom
  | unary _ _ => .signed
  | binary op _ _ => op.chain

end Shape

theorem Derives.of_atom {ts : List Token} {e : Expr} {n : Nat} (h : Derives .atom ts e n)
    (x : Symbol) : Derives x ts e n := by
  cases x with
  | atom => exact h
  | signed => exact .unsigned h
  | product => exact .single .product (.unsigned h)
  | sum => exact .single .sum (.single .product (.unsigned h))

/-- What is not too loose for a place can stand there as it is. -/
theorem Derives.of_level {t : Shape} {x : Symbol} {ts : List Token} {e : Expr} {n : Nat}
    (h : Derives t.level ts e n) (hx : t.wide x = false) : Derives x ts e n := by
  cases t with
  | number value => exact Derives.of_atom h x
  | unary op operand =>
      cases x with
      | atom => cases hx
      | signed => exact h
      | product => exact .single .product h
      | sum => exact .single .sum (.single .product h)
  | binary op left right =>
      cases x with
      | atom | signed => cases hx
      | product =>
          cases op with
          | add | sub => cases hx
          | mult | div => exact h
      | sum =>
          cases op with
          | add | sub => exact h
          | mult | div => exact .single .sum h

namespace Text

/-- A number in decimal. -/
def ofNat (n : Nat) : Text := (Nat.toDigits 10 n).map CodePoint.ofChar

/-- Put in parentheses. -/
def group (t : Text) : Text := .ofChar '(' :: (t ++ [.ofChar ')'])

/-- Put in parentheses if need be. -/
def groupIf (wrap : Bool) (t : Text) : Text := if wrap then t.group else t

end Text

open Text in
/-- The shape as it is written, without spaces and with no parentheses that
are not needed. -/
def Shape.render : Shape → Text
  | number value => ofNat value.toNat
  | unary op operand => op.mark :: groupIf (operand.wide .atom) operand.render
  | binary op left right =>
    groupIf (left.wide op.chain) left.render ++
      op.mark :: groupIf (right.wide op.operand) right.render

/-- How deep groups are nested in the written shape. -/
def Shape.nesting : Shape → Nat
  | number _ => 0
  | unary _ operand => operand.nesting + (operand.wide .atom).toNat
  | binary op left right =>
    max (left.nesting + (left.wide op.chain).toNat) (right.nesting + (right.wide op.operand).toNat)

namespace Text

theorem isDigit_ofChar {c : Char} (h : c.isDigit = true) :
    (CodePoint.ofChar c).isDigit = true := by
  rw [Char.isDigit_iff_toNat] at h
  simp only [CodePoint.isDigit, Bool.and_eq_true, decide_eq_true_eq]
  exact h

theorem digits_ofNat (n : Nat) : ∀ c ∈ ofNat n, c.isDigit = true := by
  intro c hc
  obtain ⟨a, ha, rfl⟩ := List.mem_map.mp hc
  exact isDigit_ofChar (Nat.isDigit_of_mem_toDigits (by decide) (by decide) ha)

theorem ofNat_ne_nil (n : Nat) : ofNat n ≠ [] := by
  rw [ofNat, ne_eq, List.map_eq_nil_iff]
  exact Nat.toDigits_ne_nil

theorem decimal_ofNat (n : Nat) : (ofNat n).decimal = n := by
  have hid : CodePoint.toChar ∘ CodePoint.ofChar = id := funext CodePoint.toChar_ofChar
  rw [decimal, ofNat, List.map_map, hid, List.map_id]
  exact Nat.ofDigitChars_ten_toDigits

theorem group_ne_nil (t : Text) : t.group ≠ [] := List.cons_ne_nil _ _

end Text

namespace Text

/-- How many groups are open behind a code point, if so many are in front. -/
def opened (c : CodePoint) (depth : Nat) : Nat :=
  if c = .ofChar '(' then depth + 1 else if c = .ofChar ')' then depth - 1 else depth

/-- The most groups that are open at once, if so many are at the beginning. -/
def deepest (depth : Nat) : Text → Nat
  | [] => depth
  | c :: t => max depth (deepest (opened c depth) t)

theorem le_deepest (depth : Nat) (t : Text) : depth ≤ deepest depth t := by
  cases t with
  | nil => exact Nat.le_refl depth
  | cons c t => exact Nat.le_max_left _ _

/-- A text that closes the groups it opens, with so many open at once. -/
def Balanced (t : Text) (n : Nat) : Prop :=
  ∀ depth rest, deepest depth (t ++ rest) = max (depth + n) (deepest depth rest)

theorem Balanced.cons {c : CodePoint} {t : Text} {n : Nat}
    (hc : ∀ depth, opened c depth = depth) (ht : Balanced t n) : Balanced (c :: t) n := by
  intro depth rest
  rw [List.cons_append, deepest, hc, ht]
  omega

theorem balanced_of_plain {t : Text} (h : ∀ c ∈ t, ∀ depth, opened c depth = depth) :
    Balanced t 0 := by
  induction t with
  | nil =>
      intro depth rest
      exact (Nat.max_eq_right (le_deepest depth rest)).symm
  | cons c t ih =>
      exact .cons (h c List.mem_cons_self) (ih fun d hd => h d (List.mem_cons_of_mem c hd))

theorem Balanced.append {a b : Text} {m n : Nat} (ha : Balanced a m) (hb : Balanced b n) :
    Balanced (a ++ b) (max m n) := by
  intro depth rest
  rw [List.append_assoc, ha, hb]
  omega

theorem Balanced.group {t : Text} {n : Nat} (h : Balanced t n) :
    Balanced t.group (n + 1) := by
  intro depth rest
  have hclose : deepest (depth + 1) (.ofChar ')' :: rest) = max (depth + 1) (deepest depth rest) :=
    rfl
  have hopen : deepest depth (t.group ++ rest) =
      max depth (deepest (depth + 1) (t ++ .ofChar ')' :: rest)) := by
    rw [Text.group, List.cons_append, List.append_assoc]
    rfl
  rw [hopen, h, hclose]
  omega

theorem Balanced.groupIf {t : Text} {n : Nat} (wrap : Bool) (h : Balanced t n) :
    Balanced (groupIf wrap t) (n + wrap.toNat) := by
  cases wrap with
  | false => exact h
  | true => exact h.group

theorem opened_of_digit {c : CodePoint} (h : c.isDigit = true) (depth : Nat) :
    opened c depth = depth := by
  rw [opened, if_neg (CodePoint.ne_of_digit h rfl), if_neg (CodePoint.ne_of_digit h rfl)]

end Text

theorem UnaryOp.opened_mark (op : UnaryOp) (depth : Nat) :
    Text.opened op.mark depth = depth := by
  cases op <;> rfl

theorem BinaryOp.opened_mark (op : BinaryOp) (depth : Nat) :
    Text.opened op.mark depth = depth := by
  cases op <;> rfl

open Text in
theorem Shape.balanced_render (t : Shape) : Balanced t.render t.nesting := by
  induction t with
  | number value =>
      exact balanced_of_plain fun c hc => opened_of_digit (digits_ofNat _ c hc)
  | unary op operand ih => exact .cons op.opened_mark (ih.groupIf _)
  | binary op left right ihl ihr =>
      exact .append (ihl.groupIf _) (.cons op.opened_mark (ihr.groupIf _))

/-- The nesting of a shape is that of its text. -/
theorem Shape.deepest_render (t : Shape) : t.render.deepest 0 = t.nesting := by
  have h := t.balanced_render 0 []
  rw [List.append_nil, Nat.zero_add] at h
  exact h.trans (Nat.max_eq_left (Nat.zero_le _))

end ArithTree
