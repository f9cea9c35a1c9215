import ArithTree.Diagnostic.Basic
import ArithTree.Location
import ArithTree.Text.Lines
import ArithTree.Text.Styled

/-!
# Rendering diagnostics

Told in a line, a diagnostic says where it is as well as it can: by line and
column with a source, by offset without. Rendered, it shows the source line
first and under it a row of carets, in red: as many as the span has columns
on that line, at least one. Surrogates in the line are shown as U+FFFD, which
takes one column like any other code point.
-/

namespace ArithTree.Diagnostic

/-- Where the span starts, if there is a source to tell. -/
def location? (d : Diagnostic) : Option Location :=
  match d.span?, d.source? with
  | some span, some source => some (Location.of source.utf8 span.start)
  | _, _ => none

/-- The place as well as it is known, then the message. -/
def text (d : Diagnostic) : String :=
  match d.location?, d.span? with
  | some l, _ =>
    "[line " ++ toString l.line ++ ", col " ++ toString l.column ++ "] " ++ d.message
  | none, some span => "[byte " ++ toString span.start ++ "] " ++ d.message
  | none, none => d.message

/-- The line of a source on which a span starts, and the row of carets under
the span. A span that goes beyond the line is marked to the end of the line,
and one that ends where it starts, or before, by one caret. -/
def excerpt (source : Text) (span : Span) : List String :=
  let bytes := source.utf8
  let first := Location.of bytes span.start
  let last := Location.of bytes (if span.start ≤ span.stop then span.stop else span.start)
  let line := (source.splitLines[first.line - 1]?).getD []
  let width :=
    if last.line = first.line then last.column - first.column
    else line.length + 1 - first.column
  let indent := String.ofList (List.replicate (first.column - 1) ' ')
  let carets := String.ofList (List.replicate (if width = 0 then 1 else width) '^')
  [line.display, indent ++ Styled.red carets]

/-- The lines of a rendered diagnostic. -/
def renderLines (d : Diagnostic) : List String :=
  (match d.span?, d.source? with
    | some span, some source => excerpt source span
    | _, _ => [])
    ++ [Styled.red d.text]

def render (d : Diagnostic) : String := "\n".intercalate d.renderLines

end ArithTree.Diagnostic
