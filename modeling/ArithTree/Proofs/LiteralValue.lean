import ArithTree.Token.Cursor

/-!
# What a literal is worth

A run of digits has a value by position, of whatever length it is, and the
reader answers that value if it fits in 64 bits and nothing if it does not.
The reader never computes with a long run. It drops the zeros in front and
goes by the length first, and two facts are why it may: dropping the zeros
keeps the value, and a run of more than twenty digits that begins with another
digit is past the greatest value, without a look at the digits.
-/

namespace ArithTree.Literal

/-- The value of a run of digits, by position. -/
def value (digits : List Char) : Nat := Nat.ofDigitChars 10 digits 0

theorem length_greatest : (Nat.toDigits 10 greatest).length = 20 := by
  have hle : (Nat.toDigits 10 greatest).length ≤ 20 :=
    (Nat.length_toDigits_le_iff (by decide) (by decide)).mpr (by decide)
  have hlt : ¬ (Nat.toDigits 10 greatest).length ≤ 19 := fun h =>
    absurd ((Nat.length_toDigits_le_iff (by decide) (by decide)).mp h) (by decide)
  omega

theorem value_dropWhile (digits : List Char) :
    value (digits.dropWhile (· == '0')) = value digits := by
  induction digits with
  | nil => rfl
  | cons c digits ih =>
      by_cases hc : c = '0'
      · subst hc
        rw [List.dropWhile_cons_of_pos (by rfl), ih]
        simp [value, Nat.ofDigitChars_cons]
      · rw [List.dropWhile_cons_of_neg (by simpa using hc)]

/-- A run that begins with no zero is at least the power of ten that its first
digit stands for. With more than twenty digits this is too much. -/
theorem greatest_lt_of_nonzero {c : Char} {digits : List Char} (hc : c.isDigit = true)
    (hzero : c ≠ '0') (hlong : 20 ≤ digits.length) : greatest < value (c :: digits) := by
  rw [Char.isDigit_iff_toNat] at hc
  have hne : c.toNat ≠ '0'.toNat := fun h => hzero (Char.toNat_inj.mp h)
  have hpos : 1 ≤ 10 * 0 + (c.toNat - '0'.toNat) := by omega
  rw [value, Nat.ofDigitChars_cons, Nat.ofDigitChars_eq_ofDigitChars_zero]
  have hmul := Nat.mul_le_mul_left (10 ^ digits.length) hpos
  have hmono : 10 ^ 20 ≤ 10 ^ digits.length := Nat.pow_le_pow_right (by decide) hlong
  have hgreatest : greatest < 10 ^ 20 := by decide
  omega

theorem significant_cases (digits : List Char) :
    digits.dropWhile (· == '0') = [] ∧ significant digits = ['0'] ∨
      digits.dropWhile (· == '0') ≠ [] ∧ significant digits = digits.dropWhile (· == '0') := by
  unfold significant
  cases hstripped : digits.dropWhile (· == '0') with
  | nil => exact .inl ⟨rfl, rfl⟩
  | cons c rest => exact .inr ⟨List.cons_ne_nil c rest, rfl⟩

theorem significant_ne_nil (digits : List Char) : significant digits ≠ [] := by
  rcases significant_cases digits with ⟨-, heq⟩ | ⟨hne, heq⟩ <;> rw [heq]
  · exact List.cons_ne_nil _ _
  · exact hne

theorem isDigit_significant {digits : List Char} (hdigits : ∀ c ∈ digits, c.isDigit = true) :
    ∀ c ∈ significant digits, c.isDigit = true := by
  rcases significant_cases digits with ⟨-, heq⟩ | ⟨-, heq⟩ <;> rw [heq]
  · exact List.forall_mem_singleton.mpr rfl
  · exact fun c hc => hdigits c ((List.dropWhile_sublist _).mem hc)

theorem value_significant (digits : List Char) : value (significant digits) = value digits := by
  rw [← value_dropWhile digits]
  rcases significant_cases digits with ⟨hnil, heq⟩ | ⟨-, heq⟩ <;> rw [heq]
  rw [hnil]
  rfl

theorem greatest_lt_value {digits : List Char} (hdigits : ∀ c ∈ digits, c.isDigit = true)
    (hlong : 20 < (significant digits).length) : greatest < value digits := by
  rw [← value_dropWhile]
  rcases significant_cases digits with ⟨-, heq⟩ | ⟨hne, heq⟩ <;> rw [heq] at hlong
  · simp at hlong
  · obtain ⟨c, rest, hsig⟩ := List.exists_cons_of_ne_nil hne
    have hc : (c == '0') = false := by
      have := List.head?_dropWhile_not (· == '0') digits
      simpa [hsig] using this
    have hmem : c ∈ digits :=
      (List.dropWhile_sublist _).mem (by rw [hsig]; exact List.mem_cons_self)
    rw [hsig, List.length_cons] at hlong
    rw [hsig]
    exact greatest_lt_of_nonzero (hdigits c hmem) (by simpa using hc) (by omega)

/-- The reader and the value by position, for any converter that is right on
the runs it may be asked about, whatever it does with others. -/
theorem readWith_eq {m : Type → Type} [Monad m] [LawfulMonad m] {convert : List Char → m Nat}
    {digits : List Char}
    (hconvert : ∀ ds : List Char, ds ≠ [] → ds.length ≤ 20 →
      (∀ c ∈ ds, c.isDigit = true) → convert ds = pure (value ds))
    (hdigits : ∀ c ∈ digits, c.isDigit = true) :
    readWith convert digits =
      pure (if value digits < UInt64.size then some (value digits) else none) := by
  have hgreatest : greatest + 1 = UInt64.size := by decide
  simp only [readWith, length_greatest]
  by_cases hlong : 20 < (significant digits).length
  · have hlt := greatest_lt_value hdigits hlong
    rw [if_pos hlong, if_neg (by omega)]
  · rw [if_neg hlong, hconvert _ (significant_ne_nil digits) (by omega)
      (isDigit_significant hdigits), pure_bind, value_significant]
    by_cases hfits : value digits < UInt64.size
    · rw [if_neg (by omega), if_pos hfits]
    · rw [if_pos (by omega), if_neg hfits]

theorem read?_eq {digits : List Char} (hdigits : ∀ c ∈ digits, c.isDigit = true) :
    read? digits = if value digits < UInt64.size then some (value digits) else none :=
  congrArg Id.run (readWith_eq (fun _ _ _ _ => rfl) hdigits)

end ArithTree.Literal
