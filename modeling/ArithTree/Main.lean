import ArithTree.Command.Run

/-!
# The program

What stands between the library and the outside: files, standard input, and
the two streams of output. A session is held line by line, so that a prompt
is seen before its line is typed.
-/

namespace ArithTree

/-- The bytes of a file, if it is there. -/
def readFile? (path : Text) : IO (Option (List UInt8)) := do
  try
    let contents ← IO.FS.readBinFile path.display
    return some contents.data.toList
  catch _ => return none

/-- The file that a request names. -/
def Request.file? : Request → Option Text
  | .scan origin | .parse origin _ => origin.file?
  | .repl _ => none

/-- Prints what comes of a request and gives the exit code. -/
def Outcome.print : Outcome → IO UInt32
  | .finished code out err => do
    IO.print out
    IO.eprint err
    return code.toUInt32
  | .refused reason => do
    IO.eprintln ("Error: " ++ reason.message?.getD "the arguments make no sense")
    return 2

/-- Answers lines until the input ends, or until an answer ends the program. -/
partial def converse (console : Console) (verbose : Bool) (shown : String) : IO UInt32 := do
  (← IO.getStdout).flush
  let chunk ← (← IO.getStdin).getLine
  if chunk.isEmpty then return 0
  let r := Report.answer console shown (Text.ofString chunk)
  IO.eprint (Invocation.logText verbose r.log)
  IO.print r.output
  match r.verdict with
  | .accepted | .rejected => converse console verbose shown
  | .exhausted => return r.verdict.exitCode.toUInt32

end ArithTree

open ArithTree in
def main (args : List String) : IO UInt32 := do
  match Invocation.ofArgs? (args.map Text.ofString) with
  | none => Outcome.print (.refused .malformed)
  | some i =>
    match i.request with
    | .repl prompt =>
      let shown := Console.standard.plain prompt.display
      IO.print (Report.prompt shown).output
      converse .standard i.verbose shown
    | request =>
      let contents ← match request.file? with
        | some path => readFile? path
        | none => pure none
      (i.run .standard (fun _ => contents) []).print
