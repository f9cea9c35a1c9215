/-!
# Spans

A span is the stretch of a source from one byte offset up to another. The
offsets are integers and nothing is asked of them: a span that comes from
outside may be negative or run backwards. Merging two spans takes the lesser
start and the greater stop, so on spans that do run forwards it gives the
least one that covers both.
-/

namespace ArithTree

structure Span where
  start : Int
  stop : Int
deriving DecidableEq

namespace Span

def merge (a b : Span) : Span := ⟨min a.start b.start, max a.stop b.stop⟩

/-- The empty span at an offset. -/
def empty (offset : Int) : Span := ⟨offset, offset⟩

/-- Both offsets with two dots between them, as in `2..5`. -/
def text (s : Span) : String := toString s.start ++ ".." ++ toString s.stop

end Span

/-- A value together with the span it was read from. -/
structure Spanned (α : Type) where
  value : α
  span : Span
deriving DecidableEq

end ArithTree
