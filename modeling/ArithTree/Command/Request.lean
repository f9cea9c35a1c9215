import ArithTree.Text.CodePoint

/-!
# Requests

What the arguments of the command line ask for. The program has three
commands, and one flag of its own that comes before the command.

An argument that begins with a dash and is longer than that is an option,
until an argument of two dashes ends the options; everything else is a
positional argument. Options and positional arguments of a command may be
mixed. An option that takes a value takes what follows its equals sign, or
else the next argument, whatever that looks like. Where an option is given
more than once, the last one counts.
-/

namespace ArithTree

/-- Where a source comes from, as far as the arguments tell. -/
structure Origin where
  expression? : Option Text
  file? : Option Text
deriving DecidableEq

inductive Request where
  /-- List the tokens of a source. -/
  | scan (origin : Origin)
  /-- Draw the tree of a source, after a listing of its tokens if asked. -/
  | parse (origin : Origin) (listing : Bool)
  /-- Draw the tree of every line that comes in. -/
  | repl (prompt : Text)
deriving DecidableEq

structure Invocation where
  /-- Whether the log is wanted. -/
  verbose : Bool
  request : Request
deriving DecidableEq

namespace Request

/-- The options of the commands. -/
inductive Switch where
  | file
  | listing
  | noListing
  | prompt
deriving DecidableEq

def Switch.name : Switch → String
  | .file => "--file"
  | .listing => "--print-tokens"
  | .noListing => "--no-print-tokens"
  | .prompt => "--prompt"

def Switch.takesValue : Switch → Bool
  | .file | .prompt => true
  | .listing | .noListing => false

/-- An argument, or an option together with its value. -/
inductive Word where
  | positional (text : Text)
  | flag (switch : Switch)
  | valued (switch : Switch) (value : Text)
deriving DecidableEq

def dash : CodePoint := .ofChar '-'

def twoDashes : Text := .ofString "--"

/-- A dash and something after it. -/
def isOption : Text → Bool
  | c :: _ :: _ => c = dash
  | _ => false

/-- The name of an option, and the value after its equals sign. -/
def splitOption (arg : Text) : Text × Option Text :=
  let equals := CodePoint.ofChar '='
  match arg.dropWhile (· ≠ equals) with
  | [] => (arg, none)
  | _ :: value => (arg.takeWhile (· ≠ equals), some value)

/-- The words of a command that knows some options; none if an option is
unknown, lacks its value or has one it does not take. -/
def words? (known : List Switch) : List Text → Option (List Word)
  | [] => some []
  | arg :: rest =>
    if arg = twoDashes then some (rest.map .positional)
    else if !isOption arg then (words? known rest).map (.positional arg :: ·)
    else
      let (name, value?) := splitOption arg
      match known.find? (Text.ofString ·.name = name) with
      | none => none
      | some switch =>
        match switch.takesValue, value?, rest with
        | false, none, rest => (words? known rest).map (.flag switch :: ·)
        | true, some value, rest => (words? known rest).map (.valued switch value :: ·)
        | true, none, value :: rest => (words? known rest).map (.valued switch value :: ·)
        | _, _, _ => none

/-- The last value of an option. -/
def value? (switch : Switch) (words : List Word) : Option Text :=
  words.reverse.findSome? fun
    | .valued s value => if s = switch then some value else none
    | _ => none

/-- Whether the listing is on, after all flags about it. -/
def wantsListing (words : List Word) : Bool :=
  (words.reverse.findSome? fun
    | .flag .listing => some true
    | .flag .noListing => some false
    | _ => none).getD false

def positionals (words : List Word) : List Text :=
  words.filterMap fun
    | .positional text => some text
    | _ => none

/-- The origin of a source; none if there is more than one expression. -/
def origin? (words : List Word) : Option Origin :=
  match positionals words with
  | [] => some { expression? := none, file? := value? .file words }
  | [text] => some { expression? := some text, file? := value? .file words }
  | _ => none

/-- The prompt where none is given. -/
def defaultPrompt : Text := .ofString ">"

/-- The request of a command with its arguments. -/
def ofCommand? (name : Text) (args : List Text) : Option Request := do
  if name = .ofString "scan" then
    let words ← words? [.file] args
    return .scan (← origin? words)
  else if name = .ofString "parse" then
    let words ← words? [.file, .listing, .noListing] args
    return .parse (← origin? words) (wantsListing words)
  else if name = .ofString "repl" then
    let words ← words? [.prompt] args
    guard (positionals words).isEmpty
    return .repl ((value? .prompt words).getD defaultPrompt)
  else
    none

end Request

namespace Invocation

/-- One or more times the short name of the flag that asks for the log, or
its long name. -/
def isVerbose (arg : Text) : Bool :=
  arg = .ofString "--verbose" ||
    match arg with
    | c :: v :: rest => c = Request.dash && (v :: rest).all (· = .ofChar 'v')
    | _ => false

/-- What the arguments ask for; none if they make no sense. -/
def ofArgs? : List Text → Option Invocation
  | [] => none
  | arg :: rest =>
    if arg = Request.twoDashes then
      match rest with
      | [] => none
      | name :: args => (Request.ofCommand? name args).map (Invocation.mk false)
    else if Request.isOption arg then
      if isVerbose arg then (ofArgs? rest).map fun i => { i with verbose := true } else none
    else
      (Request.ofCommand? arg rest).map (Invocation.mk false)

end Invocation

end ArithTree
