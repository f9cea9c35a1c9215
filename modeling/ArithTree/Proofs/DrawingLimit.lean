import ArithTree.Proofs.RenderParse
import ArithTree.Proofs.SessionTranscript

/-!
# What is too high to be drawn

A tree is drawn by calls inside each other, one for each level, and the limit on
nested groups does not bound the levels. It bounds how deep the parser goes, and
the parser reads a chain in a loop; but each operator of a chain is a level of
the tree. So for any number of frames there is a source without a single group
that is an expression and cannot be drawn, and it ends the program, be it the
source of a command or a line of a session (`runArgs_ones`).

The chain is a shape that is written back, and its height is that of its shape.
-/

namespace ArithTree

open Parse Text

/-- How many levels a tree of the shape has. -/
def Shape.height : Shape → Nat
  | number _ => 1
  | unary _ operand => operand.height + 1
  | binary _ left right => max left.height right.height + 1

theorem Expr.height_of_shape {e : Expr} {t : Shape} (h : e.shape? = some t) :
    e.height = t.height := by
  induction e generalizing t with
  | number span value =>
      cases value with
      | none => cases h
      | some n =>
          simp only [shape?] at h
          split at h
          · cases h
            rfl
          · cases h
  | unary span op operand ih =>
      simp only [shape?, bind, Option.bind_eq_some_iff] at h
      obtain ⟨a, ha, hunary⟩ := h
      cases hunary
      rw [height, Shape.height, ih ha]
  | binary span op left right ihl ihr =>
      simp only [shape?, bind, Option.bind_eq_some_iff] at h
      obtain ⟨a, ha, b, hb, hbinary⟩ := h
      cases hbinary
      rw [height, Shape.height, ihl ha, ihr hb]
  | bare => cases h

/-- A one and `n` more that are added to it. -/
def Text.ones (n : Nat) : Text :=
  Text.ofString "1" ++ (List.replicate n (Text.ofString "+1")).flatten

theorem Text.mem_ones {n : Nat} {c : CodePoint} (h : c ∈ ones n) : c ∈ Text.ofString "+1" := by
  rcases List.mem_append.mp h with h | h
  · exact List.mem_cons_of_mem (.ofChar '+') h
  · obtain ⟨l, hl, hc⟩ := List.mem_flatten.mp h
    rwa [List.eq_of_mem_replicate hl] at hc

theorem Text.isBlank_ones (n : Nat) : (ones n).isBlank = false := by
  rw [isBlank, ones, List.all_append]
  rfl

def Shape.ones : Nat → Shape
  | 0 => .number 1
  | n + 1 => .binary .add (ones n) (.number 1)

namespace Shape

theorem wide_ones (n : Nat) : (ones n).wide .sum = false := by
  cases n <;> rfl

theorem render_ones (n : Nat) : (ones n).render = Text.ones n := by
  induction n with
  | zero => rfl
  | succ n ih =>
      have hlast : BinaryOp.add.mark :: groupIf false (number 1).render = Text.ofString "+1" := rfl
      rw [Text.ones, List.replicate_succ', List.flatten_append, List.flatten_singleton,
        ← List.append_assoc, ← Text.ones, ← ih, ← hlast, ones, render]
      show groupIf ((ones n).wide .sum) _ ++ _ = _
      rw [wide_ones]
      rfl

theorem nesting_ones (n : Nat) : (ones n).nesting = 0 := by
  induction n with
  | zero => rfl
  | succ n ih =>
      show max ((ones n).nesting + ((ones n).wide .sum).toNat) 0 = 0
      rw [wide_ones, ih]
      rfl

theorem height_ones (n : Nat) : (ones n).height = n + 1 := by
  induction n with
  | zero => rfl
  | succ n ih =>
      show max (ones n).height 1 + 1 = _
      omega

end Shape

theorem parseSource_ones (n : Nat) : ∃ e, parseSource (ones n) = .ok e ∧ e.height = n + 1 := by
  have hnesting : (Shape.ones n).nesting ≤ nestingLimit := by
    rw [Shape.nesting_ones]
    exact Nat.zero_le _
  obtain ⟨e, hparse, hshape⟩ := Shape.parseSource_render hnesting
  rw [Shape.render_ones] at hparse
  exact ⟨e, hparse, (Expr.height_of_shape hshape).trans (Shape.height_ones n)⟩

/-- A chain with as many operators as there are frames is an expression, and it ends
the program with nothing drawn. In a session the lines behind it are not read. -/
theorem runArgs_ones {console : Console} {n : Nat} (h : console.frames ≤ n)
    (files : Text → Option (List UInt8)) (input : Text) :
    (∃ e, parseSource (ones n) = .ok e) ∧
      runArgs files input (Request.given ["parse"] (ones n)) console = .finished 1 "" "" ∧
      runArgs files (ones n ++ .newline :: input) [.ofString "repl"] console =
        .finished 1 (console.plain ">") "" := by
  obtain ⟨e, hparse, hheight⟩ := parseSource_ones n
  have hexhausted : Report.tree console (ones n) = ⟨"", .exhausted, parseLog (ones n)⟩ := by
    rw [Report.tree_of_ok console hparse, if_neg (by omega)]
  refine ⟨⟨e, hparse⟩, ?_, ?_⟩
  · rw [runArgs_parse, hexhausted]
    rfl
  · have hreply : Report.reply console (ones n) = ⟨"", .exhausted, parseLog (ones n)⟩ := by
      rw [Report.reply, isBlank_ones, hexhausted]
      rfl
    have hline : Report.answer console (console.plain ">") (ones n ++ [.newline]) =
        ⟨"", .exhausted, parseLog (ones n)⟩ := by
      rw [Report.answer_line (fun h => absurd (mem_ones h) (by decide))
        (fun h => absurd (mem_ones h) (by decide)), hreply]
      rfl
    rw [runArgs_of_isSession isSession_default, Report.answer_append, hline]
    show Outcome.finished 1 (_ ++ "") "" = _
    rw [String.append_empty]

/-- Two thousand operators are too many for the stack there is. -/
theorem runArgs_parse_of_ones :
    (∃ e, parseSource (ones 2000) = .ok e) ∧
      runArgs (fun _ => none) [] (Request.given ["parse"] (ones 2000)) = .finished 1 "" "" := by
  have hframes : Console.standard.frames ≤ 2000 := by decide
  obtain ⟨hparse, hended, -⟩ := runArgs_ones hframes (fun _ => none) []
  exact ⟨hparse, hended⟩

end ArithTree
