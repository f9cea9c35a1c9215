import ArithTree.Token.Basic
import Mathlib

/-!
# Text that can be taken apart

An integer is written in digits, with a minus in front if it is negative, and
so it can be read back. What is put together from integers by other characters
can be taken apart again, since none of these is a digit or a minus: a span at
the dots between its offsets, a value at the space behind it. Lines that are
put together can be taken apart if no newline is in them.

One law is behind it. Where two texts agree, and a character does not occur
before a certain place in either, the places are the same.
-/

namespace ArithTree

/-- What stands before the first of a kind, and what stands behind it. -/
theorem eq_of_append_cons_eq {α : Type} {a : α} {xs xs' ys ys' : List α} (h : a ∉ xs)
    (h' : a ∉ xs') (heq : xs ++ a :: ys = xs' ++ a :: ys') : xs = xs' ∧ ys = ys' := by
  induction xs generalizing xs' with
  | nil =>
      cases xs' with
      | nil => exact ⟨rfl, (List.cons.inj heq).2⟩
      | cons b xs' =>
          obtain ⟨rfl, -⟩ := List.cons.inj heq
          exact absurd List.mem_cons_self h'
  | cons b xs ih =>
      cases xs' with
      | nil =>
          obtain ⟨rfl, -⟩ := List.cons.inj heq
          exact absurd List.mem_cons_self h
      | cons b' xs' =>
          obtain ⟨rfl, htail⟩ := List.cons.inj heq
          obtain ⟨rfl, rfl⟩ := ih (fun hmem => h (List.mem_cons_of_mem _ hmem))
            (fun hmem => h' (List.mem_cons_of_mem _ hmem)) htail
          exact ⟨rfl, rfl⟩

theorem eq_of_joined_eq {ls ls' : List String} (h : ∀ l ∈ ls, '\n' ∉ l.toList)
    (h' : ∀ l ∈ ls', '\n' ∉ l.toList) (hne : ls ≠ []) (hne' : ls' ≠ [])
    (heq : "\n".intercalate ls = "\n".intercalate ls') : ls = ls' := by
  have hlines : ∀ ms : List String, (∀ l ∈ ms, '\n' ∉ l.toList) → ms ≠ [] →
      (("\n".intercalate ms).split '\n').toList.map (·.copy) = ms := fun ms hms hne =>
    (String.toList_split_intercalate hms).trans (if_neg hne)
  rw [← hlines ls h hne, heq, hlines ls' h' hne']

/-- Where all are of one kind, there is none of another. -/
theorem not_mem_of_forall {α : Type} {p : α → Bool} {a : α} {xs : List α} (ha : p a = false)
    (h : ∀ x ∈ xs, p x = true) : a ∉ xs :=
  fun hmem => Bool.false_ne_true (ha.symm.trans (h a hmem))

/-- A character that no integer is written with. -/
def Apart (c : Char) : Prop := c ≠ '-' ∧ c.isDigit = false

instance (c : Char) : Decidable (Apart c) := inferInstanceAs (Decidable (_ ∧ _))

theorem isDigit_of_mem_repr {c : Char} {n : Nat} (hc : c ∈ n.repr.toList) :
    c.isDigit = true := by
  rw [Nat.repr_eq_ofList_toDigits, String.toList_ofList] at hc
  exact Nat.isDigit_of_mem_toDigits (by decide) (by decide) hc

theorem not_mem_toString {c : Char} (hc : Apart c) (n : Int) : c ∉ (toString n).toList := by
  have hdigits : ∀ m : Nat, c ∉ m.repr.toList := fun m =>
    not_mem_of_forall hc.2 fun _ => isDigit_of_mem_repr
  rw [Int.toString_eq_repr, Int.repr_eq_if]
  split
  · exact hdigits _
  · rw [String.toList_append, List.mem_append, not_or]
    exact ⟨by simpa using hc.1, hdigits _⟩

theorem Span.text_inj {s s' : Span} : s.text = s'.text ↔ s = s' := by
  refine ⟨fun h => ?_, congrArg text⟩
  have hdot : Apart '.' := by decide
  have hlist := congrArg String.toList h
  simp only [text, String.toList_append, List.append_assoc] at hlist
  obtain ⟨hstart, hstop⟩ :=
    eq_of_append_cons_eq (not_mem_toString hdot _) (not_mem_toString hdot _) hlist
  have hstart := Int.repr_injective (String.toList_inj.mp hstart)
  have hstop := Int.repr_injective (String.toList_inj.mp (List.append_cancel_left hstop))
  cases s
  cases s'
  congr

theorem Span.not_mem_text {c : Char} (hc : Apart c) (hdot : c ≠ '.') (s : Span) :
    c ∉ s.text.toList := by
  simp only [text, String.toList_append, List.mem_append, not_or]
  exact ⟨⟨not_mem_toString hc _, by simpa using hdot⟩, not_mem_toString hc _⟩

theorem Token.not_mem_valueText {c : Char} (hc : Apart c) (hnone : c ∉ "None".toList)
    (value : Option Int) : c ∉ (valueText value).toList := by
  cases value with
  | none => exact hnone
  | some n => exact not_mem_toString hc n

theorem Token.valueText_inj {v w : Option Int} : valueText v = valueText w ↔ v = w := by
  have hnone : ∀ n : Int, toString n ≠ "None" := by
    intro n h
    have hnot := not_mem_toString (c := 'N') (by decide) n
    rw [h] at hnot
    exact hnot (by decide)
  cases v with
  | none =>
      cases w with
      | none => exact iff_of_true rfl rfl
      | some n => exact iff_of_false (fun h => hnone n h.symm) nofun
  | some m =>
      cases w with
      | none => exact iff_of_false (hnone m) nofun
      | some n => rw [Option.some_inj]; exact Int.repr_inj

end ArithTree
