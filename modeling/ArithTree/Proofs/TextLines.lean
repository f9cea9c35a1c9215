import ArithTree.Text.Lines

/-!
# The lines of text from outside

What it means that a line ends is said here twice, for the two stages in which
text from outside becomes lines. A line ends with a newline, with a carriage
return, or with both in this order, and each of the three is one newline
afterwards (`Unified`). Then a line is what stands before a newline, and what
stands after the last newline is a line if it is anything (`Lined`). The two
are relations, with one rule for each thing that may come first; the functions
that are run obey them.

Neither stage looks back past a newline. So the lines of a text that goes on
after a newline are the lines up to there and the lines from there on
(`readLines_append`), and this is all that a session needs to forget what it
has read.
-/

namespace ArithTree.Text

open CodePoint

/-- The same text with every line end as one newline. -/
inductive Unified : Text → Text → Prop where
  | nil : Unified [] []
  | other {c : CodePoint} {s t : Text} (hc : c ≠ carriageReturn) (h : Unified s t) :
      Unified (c :: s) (c :: t)
  | alone {s t : Text} (hs : s.head? ≠ some newline) (h : Unified s t) :
      Unified (carriageReturn :: s) (newline :: t)
  | both {s t : Text} (h : Unified s t) :
      Unified (carriageReturn :: newline :: s) (newline :: t)

theorem newline_ne_carriageReturn : newline ≠ carriageReturn := by decide

namespace Unified

/-- Behind a carriage return the rule that it was is open until the next code point. -/
theorem of_unifyFrom (s : Text) :
    Unified s (unifyFrom false s) ∧
      Unified (carriageReturn :: s) (newline :: unifyFrom true s) := by
  induction s with
  | nil => exact ⟨.nil, .alone (by simp) .nil⟩
  | cons c s ih =>
      by_cases hreturn : c = carriageReturn
      · subst hreturn
        simp only [unifyFrom, if_true]
        exact ⟨ih.2, .alone (by simp [newline_ne_carriageReturn.symm]) ih.2⟩
      · simp only [unifyFrom, if_neg hreturn]
        refine ⟨.other hreturn ih.1, ?_⟩
        by_cases hnewline : c = newline
        · subst hnewline
          exact .both ih.1
        · simp only [hnewline, and_false, if_false]
          exact .alone (by simpa using hnewline) (.other hreturn ih.1)

theorem unifyNewlines (s : Text) : Unified s s.unifyNewlines := (of_unifyFrom s).1

theorem unique {s t t' : Text} (h : Unified s t) (h' : Unified s t') : t = t' := by
  induction h generalizing t' with
  | nil =>
      cases h'
      rfl
  | other hc h ih =>
      cases h' with
      | other _ h' => rw [ih h']
      | alone | both => exact absurd rfl hc
  | alone hs h ih =>
      cases h' with
      | other hc => exact absurd rfl hc
      | alone _ h' => rw [ih h']
      | both => exact absurd rfl hs
  | both h ih =>
      cases h' with
      | other hc => exact absurd rfl hc
      | alone hs => exact absurd rfl hs
      | both h' => rw [ih h']

/-- Text without a carriage return stays as it is. -/
theorem refl {s : Text} (h : carriageReturn ∉ s) : Unified s s := by
  induction s with
  | nil => exact .nil
  | cons c s ih =>
      rw [List.mem_cons, not_or] at h
      exact .other (Ne.symm h.1) (ih h.2)

theorem not_mem {s t : Text} (h : Unified s t) : carriageReturn ∉ t := by
  induction h with
  | nil => simp
  | other hc h ih => simp [hc.symm, ih]
  | alone hs h ih => simp [newline_ne_carriageReturn.symm, ih]
  | both h ih => simp [newline_ne_carriageReturn.symm, ih]

/-- Nothing comes in but newlines. -/
theorem mem {s t : Text} (h : Unified s t) {c : CodePoint} (hc : c ∈ t) :
    c ∈ s ∨ c = newline := by
  induction h with
  | nil => exact .inl hc
  | other _ h ih =>
      rcases List.mem_cons.mp hc with rfl | hc
      · exact .inl List.mem_cons_self
      · exact (ih hc).imp_left (List.mem_cons_of_mem _)
  | alone _ h ih =>
      rcases List.mem_cons.mp hc with rfl | hc
      · exact .inr rfl
      · exact (ih hc).imp_left (List.mem_cons_of_mem _)
  | both h ih =>
      rcases List.mem_cons.mp hc with rfl | hc
      · exact .inr rfl
      · exact (ih hc).imp_left fun h => List.mem_cons_of_mem _ (List.mem_cons_of_mem _ h)

/-- Two texts may be put together unless a line end is put together as well. -/
theorem append {s t s' t' : Text} (h : Unified s t) (h' : Unified s' t')
    (hseam : s.getLast? = some carriageReturn → s'.head? ≠ some newline) :
    Unified (s ++ s') (t ++ t') := by
  induction h with
  | nil => exact h'
  | @other c s t hc h ih =>
      refine .other hc (ih fun hlast => hseam ?_)
      rw [List.getLast?_cons, hlast, Option.getD_some]
  | @alone s t hs h ih =>
      refine .alone ?_ (ih fun hlast => hseam ?_)
      · cases s with
        | nil => exact hseam rfl
        | cons c s => exact hs
      · rw [List.getLast?_cons, hlast, Option.getD_some]
  | @both s t h ih =>
      refine .both (ih fun hlast => hseam ?_)
      rw [List.getLast?_cons, List.getLast?_cons, hlast, Option.getD_some, Option.getD_some]

/-- What was a line end at the end of the text still is. -/
theorem getLast?_eq {s t : Text} (h : Unified s t) :
    t.getLast? = s.getLast?.map fun c => if c = carriageReturn then newline else c := by
  induction h with
  | nil => rfl
  | @other c s t hc h ih =>
      rw [List.getLast?_cons, List.getLast?_cons, ih]
      cases s.getLast? with
      | none => simp [hc]
      | some d => rfl
  | @alone s t hs h ih =>
      rw [List.getLast?_cons, List.getLast?_cons, ih]
      cases s.getLast? <;> rfl
  | @both s t h ih =>
      rw [List.getLast?_cons, List.getLast?_cons, List.getLast?_cons, ih]
      cases s.getLast? <;> rfl

end Unified

/-- No line end reaches past a newline. -/
theorem unifyNewlines_append (s t : Text) :
    (s ++ newline :: t).unifyNewlines = (s ++ [newline]).unifyNewlines ++ t.unifyNewlines := by
  have hseam : (s ++ [newline]).getLast? = some carriageReturn → t.head? ≠ some newline := by
    simp [newline_ne_carriageReturn]
  have happend := (Unified.unifyNewlines (s ++ [newline])).append (.unifyNewlines t) hseam
  rw [List.append_assoc, List.singleton_append] at happend
  exact (Unified.unifyNewlines _).unique happend

/-- The lines of a text in order, each without the newline that ends it. -/
inductive Lined : Text → List Text → Prop where
  | nil : Lined [] []
  | last {l : Text} (hne : l ≠ []) (hl : newline ∉ l) : Lined l [l]
  | line {l t : Text} {ls : List Text} (hl : newline ∉ l) (h : Lined t ls) :
      Lined (l ++ newline :: t) (l :: ls)

namespace Lined

theorem exists_lines (t : Text) : ∃ ls, Lined t ls := by
  induction t with
  | nil => exact ⟨_, .nil⟩
  | cons c t ih =>
      obtain ⟨ls, h⟩ := ih
      by_cases hc : c = newline
      · subst hc
        exact ⟨[] :: ls, .line List.not_mem_nil h⟩
      · have hlonger : ∀ {l : Text}, newline ∉ l → newline ∉ c :: l := by
          intro l hl
          rw [List.mem_cons, not_or]
          exact ⟨Ne.symm hc, hl⟩
        cases h with
        | nil => exact ⟨_, .last (List.cons_ne_nil c []) (hlonger List.not_mem_nil)⟩
        | last hne hl => exact ⟨_, .last (List.cons_ne_nil c t) (hlonger hl)⟩
        | line hl h => exact ⟨_, .line (hlonger hl) h⟩

theorem eq_readLines {t : Text} {ls : List Text} (h : Lined t ls) : t.readLines = ls := by
  induction h with
  | nil => rfl
  | last hne hl =>
      rw [readLines, splitLines, List.splitOn_eq_singleton hl]
      exact if_neg (by simpa using hne)
  | @line l t ls hl h ih =>
      have hpieces : splitLines (l ++ newline :: t) = l :: splitLines t :=
        List.splitOn_append_cons_self_of_not_mem hl t
      rw [readLines, hpieces, ← ih, readLines]
      cases hsplit : splitLines t with
      | nil => exact absurd hsplit (List.splitOn_ne_nil _ _)
      | cons piece pieces =>
          simp only [List.getLast?_cons_cons, List.dropLast_cons_cons]
          split <;> rfl

theorem readLines (t : Text) : Lined t t.readLines := by
  obtain ⟨ls, h⟩ := exists_lines t
  exact h.eq_readLines ▸ h

/-- The lines of two texts, the first of which does not break off in a line. -/
theorem append {s t : Text} {ls ls' : List Text} (h : Lined s ls) (h' : Lined t ls')
    (hs : s = [] ∨ s.getLast? = some newline) : Lined (s ++ t) (ls ++ ls') := by
  induction h with
  | nil => exact h'
  | @last l hne hl =>
      have hmem := hs.resolve_left hne
      exact absurd (List.mem_of_getLast? hmem) hl
  | @line l s ls hl h ih =>
      rw [List.append_assoc]
      refine .line hl (ih ?_)
      cases s with
      | nil => exact .inl rfl
      | cons c s =>
          have hlast := hs.resolve_left (by simp)
          rw [List.getLast?_append, List.getLast?_cons_cons, List.getLast?_cons,
            Option.some_or] at hlast
          exact .inr (List.getLast?_cons.trans hlast)

end Lined

/-- The lines of input that goes on after a newline. -/
theorem readLines_append (s t : Text) :
    (s ++ newline :: t).unifyNewlines.readLines =
      (s ++ [newline]).unifyNewlines.readLines ++ t.unifyNewlines.readLines := by
  have hends : (s ++ [newline]).unifyNewlines.getLast? = some newline := by
    rw [(Unified.unifyNewlines _).getLast?_eq]
    simp [newline_ne_carriageReturn]
  rw [unifyNewlines_append]
  exact ((Lined.readLines _).append (.readLines _) (.inr hends)).eq_readLines

end ArithTree.Text
