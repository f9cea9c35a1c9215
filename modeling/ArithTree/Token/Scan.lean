import ArithTree.Token.Cursor

/-!
# Scans

A scan is what becomes of the bytes from a cursor on: tokens up to the end of
the source or up to the first error. The tokens before an error are kept,
for there are uses for them; `lex` asks for all tokens or none.
-/

namespace ArithTree

/-- What scanning to the end gives: the tokens that were found, the error
that ended it early if one did, and the cursor after that. -/
structure Scan where
  tokens : List Token
  error? : Option LexError
  cursor : Cursor
deriving DecidableEq

namespace Scan

/-- Scans on from a cursor. -/
def onward (c : Cursor) : Scan :=
  match _h : Cursor.next c with
  | .ok none c' => ⟨[], none, c'⟩
  | .ok (some t) c' =>
    let more := onward c'
    { more with tokens := t :: more.tokens }
  | .error e c' => ⟨[], some e, c'⟩
termination_by c.rest.length
decreasing_by exact Cursor.next_rest_lt (by assumption)

/-- Scans a text from its beginning. -/
def of (source : Text) : Scan := onward (Cursor.ofOffset source.utf8 0)

end Scan

/-- The tokens of a text, or the first error in it. -/
def lex (source : Text) : Except LexError (List Token) :=
  let scan := Scan.of source
  match scan.error? with
  | some e => .error e
  | none => .ok scan.tokens

end ArithTree
