import ArithTree.Proofs.ScanWords
import Mathlib.Algebra.Group.Nat.Defs

/-!
# The range of a literal

A run of digits is a number exactly if its value fits in 64 bits, and is refused
as a whole if not, however long it is and however many zeros it begins with.

The test that refuses most of the long runs looks at their length alone. It is
there because what turns digits into a number need not take strings of any
length. So nothing is assumed of it but that it is right on one to twenty
digits, and whatever it does with longer strings, or with none, makes no
difference: it is not asked.
-/

namespace ArithTree

open Text

/-- Right on the strings that are no longer than the greatest literal. -/
def Literal.Converts {m : Type → Type} [Monad m] (convert : List Char → m Nat) : Prop :=
  ∀ ds : List Char, ds ≠ [] → ds.length ≤ 20 → (∀ c ∈ ds, c.isDigit = true) →
    convert ds = pure (Literal.value ds)

/-- A run of digits is a number by its value, or it does not fit and is refused.
Any converter that is right on twenty digits gives that value, and is not asked
for more. -/
theorem number_by_value {run after : Text} (hne : run ≠ [])
    (hdigits : ∀ c ∈ run, c.isDigit = true) (hseam : Seam run after) (o : Nat) :
    Cursor.number ⟨o, (run ++ after).utf8⟩ =
      (if 2 ^ 64 - 1 < run.decimal then
        .error (.overflow run.display ⟨o, o + run.length⟩) ⟨o + run.length, after.utf8⟩
      else
        .ok { kind := .number, span := ⟨o, o + run.length⟩, value := some run.decimal }
          ⟨o + run.length, after.utf8⟩) ∧
    ∀ {m : Type → Type} [Monad m] [LawfulMonad m] (convert : List Char → m Nat),
      Literal.Converts convert →
      Literal.readWith convert (run.map CodePoint.toChar) =
        pure (if 2 ^ 64 - 1 < run.decimal then none else some run.decimal) := by
  have hfits : run.decimal < UInt64.size ↔ ¬ 2 ^ 64 - 1 < run.decimal := by
    have hsize : UInt64.size = 2 ^ 64 - 1 + 1 := by decide
    omega
  refine ⟨?_, fun convert hconvert => ?_⟩
  · rw [number_run o hne hdigits hseam]
    simp only [hfits, ite_not]
  · have hread : Literal.readWith convert (run.map CodePoint.toChar) =
        pure (if run.decimal < UInt64.size then some run.decimal else none) :=
      Literal.readWith_eq hconvert (isDigit_toChar hdigits)
    simp only [hread, hfits, ite_not]

/-- The converter that refuses more digits than a limit, and none at all. -/
def Literal.limited (limit : Nat) (ds : List Char) : Option Nat :=
  if ds = [] ∨ limit < ds.length then none else some (Literal.value ds)

theorem Literal.converts_limited {limit : Nat} (h : 20 ≤ limit) : Converts (limited limit) := by
  intro ds hne hle _
  exact if_neg (not_or.mpr ⟨hne, by omega⟩)

/-- Five thousand digits, of which one counts. -/
def longSeven : Text := List.replicate 4999 (.ofChar '0') ++ [.ofChar '7']

theorem length_longSeven : longSeven.length = 5000 := by
  rw [longSeven, List.length_append, List.length_replicate]
  rfl

theorem digits_longSeven : ∀ c ∈ longSeven, c.isDigit = true := by
  intro c hc
  rcases List.mem_append.mp hc with hzero | hseven
  · rw [List.eq_of_mem_replicate hzero]
    decide
  · rw [List.mem_singleton.mp hseven]
    decide

theorem decimal_longSeven : longSeven.decimal = 7 := by
  have hchars : longSeven.map CodePoint.toChar = List.replicate 4999 '0' ++ ['7'] := by
    rw [longSeven, List.map_append, List.map_replicate, CodePoint.toChar_ofChar, List.map_cons,
      CodePoint.toChar_ofChar, List.map_nil]
  rw [decimal, hchars, ← Literal.value_dropWhile, List.dropWhile_append_of_pos]
  · decide
  · intro c hc
    rw [List.eq_of_mem_replicate hc]
    rfl

theorem number_by_value_of_long :
    Literal.limited 4300 (longSeven.map CodePoint.toChar) = none ∧
      Cursor.number ⟨0, (longSeven ++ []).utf8⟩ =
        .ok { kind := .number, span := ⟨0, 5000⟩, value := some 7 } ⟨5000, []⟩ ∧
      Literal.readWith (Literal.limited 4300) (longSeven.map CodePoint.toChar) =
        some (some 7) := by
  have hne : longSeven ≠ [] := List.append_ne_nil_of_right_ne_nil _ (List.cons_ne_nil _ _)
  have hseam : Seam longSeven [] := seam_of_head nofun
  obtain ⟨hnumber, hread⟩ := number_by_value hne digits_longSeven hseam 0
  have hconverts : Literal.Converts (Literal.limited 4300) :=
    Literal.converts_limited (by decide)
  refine ⟨?_, ?_, ?_⟩
  · exact if_pos (.inr (by rw [List.length_map, length_longSeven]; decide))
  · rw [hnumber, decimal_longSeven, length_longSeven]
    rfl
  · rw [hread _ hconverts, decimal_longSeven]
    rfl

end ArithTree
