/-!
# Styled text

A terminal takes its colours from control sequences among the characters it
prints. Where the output goes elsewhere the sequences are taken out again,
all of them, whoever put them in and whatever they ask for, a colour, a place
for the cursor or the shape of it.

A sequence is an escape, a bracket, any number of parameter characters, any
number of intermediate ones after those, and one final character. The three
classes share no character and no escape is in any of them, so where a
sequence ends is known when its end is read. What begins like a sequence and
breaks off stays as it is, up to the character that does not fit, and a
sequence may begin again there.
-/

namespace ArithTree.Styled

/-- Bright red from the first character to the last, and the usual style
after that. -/
def red (s : String) : String := "\x1b[31m\x1b[1m" ++ s ++ "\x1b[0m"

/-- The character that begins a sequence. -/
def escape : Char := '\x1b'

/-- A digit, a colon, a semicolon or one of `<=>?`. -/
def isParameter (c : Char) : Bool := 0x30 ≤ c.toNat && c.toNat ≤ 0x3F

/-- A blank or one of the signs before the digits. -/
def isIntermediate (c : Char) : Bool := 0x20 ≤ c.toNat && c.toNat ≤ 0x2F

/-- A letter or one of the signs around the letters, a bracket and a tilde
among them. -/
def isFinal (c : Char) : Bool := 0x40 ≤ c.toNat && c.toNat ≤ 0x7E

/-- How much of a sequence has been read. -/
inductive Progress where
  /-- No part of one. -/
  | nothing
  /-- The escape. -/
  | escape
  /-- The bracket, and parameter characters if anything. -/
  | parameters
  /-- An intermediate character. -/
  | intermediates

/-- What the next character does. -/
inductive Step where
  /-- It goes on with the sequence. -/
  | longer (now : Progress)
  /-- It ends the sequence. -/
  | complete
  /-- It is no part of the sequence. -/
  | broken

/-- One character after what has been read. -/
def step : Progress → Char → Step
  | .nothing, c => if c = escape then .longer .escape else .broken
  | .escape, c => if c = '[' then .longer .parameters else .broken
  | .parameters, c =>
    if isParameter c then .longer .parameters
    else if isIntermediate c then .longer .intermediates
    else if isFinal c then .complete
    else .broken
  | .intermediates, c =>
    if isIntermediate c then .longer .intermediates
    else if isFinal c then .complete
    else .broken

/-- The characters without sequences, after the beginning of one. The
characters of the beginning are held back, the last one first. -/
def plainFrom (progress : Progress) (held : List Char) : List Char → List Char
  | [] => held.reverse
  | c :: rest =>
    match step progress c with
    | .longer now => plainFrom now (c :: held) rest
    | .complete => plainFrom .nothing [] rest
    | .broken =>
      held.reverse ++
        if c = escape then plainFrom .escape [c] rest
        else c :: plainFrom .nothing [] rest

/-- The text without its control sequences. -/
def plain (s : String) : String := String.ofList (plainFrom .nothing [] s.toList)

theorem plainFrom_of_not_mem {cs : List Char} (h : escape ∉ cs) :
    plainFrom .nothing [] cs = cs := by
  induction cs with
  | nil => rfl
  | cons c cs ih =>
      rw [List.mem_cons, not_or] at h
      have hc : c ≠ escape := Ne.symm h.1
      simp only [plainFrom, step, if_neg hc, ih h.2]
      rfl

/-- Text without an escape has no control sequence. -/
theorem plain_of_not_mem {s : String} (h : escape ∉ s.toList) : plain s = s := by
  rw [plain, plainFrom_of_not_mem h, String.ofList_toList]

end ArithTree.Styled
