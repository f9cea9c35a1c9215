import ArithTree.Proofs.CommandAgreement
import ArithTree.Proofs.LossyDecoding
import ArithTree.Proofs.TextLines

/-!
# What the commands say about a file

A file holds bytes, and a command is about text. In between the bytes are read
as characters, with U+FFFD for what is none, and the line ends are made one
kind; what comes out is text like any other, and the command says about it
what it says about the same text among its arguments.

So a file can say less than an argument. No surrogate comes out of it and no
carriage return, since the one is read as U+FFFD and the other as a newline.
Anything else gets through: text with neither is read back from its encoding as
it was.
-/

namespace ArithTree

open CodePoint

namespace Text

/-- Text that can come out of a file. -/
structure Fileable (s : Text) : Prop where
  noSurrogate : ∀ c ∈ s, c.isSurrogate = false
  noReturn : carriageReturn ∉ s

/-- The text that a file of such bytes holds. -/
def Held (bytes : List UInt8) (s : Text) : Prop :=
  ∃ decoded, Lossy.Decodes bytes decoded ∧ Unified decoded s

theorem held_decode (bytes : List UInt8) : Held bytes (Lossy.decode bytes).unifyNewlines :=
  ⟨_, .decode bytes, .unifyNewlines _⟩

theorem Held.unique {bytes : List UInt8} {s t : Text} (h : Held bytes s) (h' : Held bytes t) :
    s = t := by
  obtain ⟨decoded, hdecodes, hunified⟩ := h
  obtain ⟨decoded', hdecodes', hunified'⟩ := h'
  obtain rfl := hdecodes.unique hdecodes'
  exact hunified.unique hunified'

theorem Held.fileable {bytes : List UInt8} {s : Text} (h : Held bytes s) : s.Fileable := by
  obtain ⟨decoded, hdecodes, hunified⟩ := h
  refine ⟨fun c hc => ?_, hunified.not_mem⟩
  rcases hunified.mem hc with hmem | rfl
  · exact hdecodes.not_surrogate c hmem
  · exact isSurrogate_ofChar '\n'

theorem Fileable.held {s : Text} (h : s.Fileable) : Held s.utf8 s :=
  ⟨s, .utf8 h.noSurrogate, .refl h.noReturn⟩

end Text

theorem Verdict.exitCode_eq (v : Verdict) : v.exitCode = 0 ∨ v.exitCode = 1 := by
  cases v with
  | accepted => exact .inl rfl
  | rejected | exhausted => exact .inr rfl

namespace Request

/-- The arguments that name a file to a command. -/
def fromFile (command : List String) (path : Text) : List Text :=
  command.map Text.ofString ++ [.ofString "--file", path]

/-- The commands that are about a source. -/
def sourced : List (List String) := [["scan"], ["parse"], ["parse", "--print-tokens"]]

end Request

section

variable {console : Console} {files : Text → Option (List UInt8)} {input path : Text}
  {bytes : List UInt8} {command : List String}

/-- A command reports on its source, and where the source comes from makes no
difference to the report. -/
theorem runArgs_sourced (console : Console) (files : Text → Option (List UInt8))
    (input path : Text) (hcommand : command ∈ Request.sourced) :
    ∃ report : Text → Report,
      (∀ s, runArgs files input (Request.given command s) console =
        Invocation.finish false (report s)) ∧
      runArgs files input (Request.fromFile command path) console =
        Invocation.single false report (Origin.source files ⟨none, some path⟩) := by
  simp only [Request.sourced, List.mem_cons, List.not_mem_nil, or_false] at hcommand
  rcases hcommand with rfl | rfl | rfl
  · exact ⟨Report.scan console, fun s => rfl, rfl⟩
  · exact ⟨Report.tree console, fun s => rfl, rfl⟩
  · exact ⟨Report.listedTree console, fun s => rfl, rfl⟩

theorem runArgs_fromFile (hfile : files path = some bytes) (hcommand : command ∈ Request.sourced)
    {s : Text} (hs : Text.Held bytes s) :
    runArgs files input (Request.fromFile command path) console =
      runArgs files input (Request.given command s) console := by
  obtain ⟨report, hgiven, hfrom⟩ := runArgs_sourced console files input path hcommand
  have hsource : Origin.source files ⟨none, some path⟩ = .ok s := by
    simp only [Origin.source, hfile]
    rw [(Text.held_decode bytes).unique hs]
  rw [hgiven, hfrom, hsource]
  rfl

/-- A command says about a file what it says about the text in the file, which
is there whatever the bytes are. Text that is fit for a file is what its own
encoding holds. -/
theorem runArgs_file (hfile : files path = some bytes) (hcommand : command ∈ Request.sourced) :
    (∀ s : Text, s.Fileable → bytes = s.utf8 →
      runArgs files input (Request.fromFile command path) console =
        runArgs files input (Request.given command s) console) ∧
    (∃ s : Text, Text.Held bytes s) ∧
    ∀ s : Text, Text.Held bytes s →
      s.Fileable ∧
      runArgs files input (Request.fromFile command path) console =
        runArgs files input (Request.given command s) console ∧
      ∃ exitCode output,
        runArgs files input (Request.fromFile command path) console =
          .finished exitCode output "" ∧
        (exitCode = 0 ∨ exitCode = 1) := by
  refine ⟨?_, ⟨_, Text.held_decode bytes⟩, fun s hs => ⟨hs.fileable, ?_, ?_⟩⟩
  · rintro s hs rfl
    exact runArgs_fromFile hfile hcommand hs.held
  · exact runArgs_fromFile hfile hcommand hs
  · obtain ⟨report, hgiven, -⟩ := runArgs_sourced console files input path hcommand
    rw [runArgs_fromFile hfile hcommand hs, hgiven]
    exact ⟨_, _, rfl, (report s).verdict.exitCode_eq⟩

end

/-- A carriage return and a byte that is none of a character. -/
theorem runArgs_file_of_return :
    ["scan"] ∈ Request.sourced ∧
      runArgs (fun _ => some [0x31, 0x0D, 0xFF]) [] (Request.fromFile ["scan"] (.ofString "f")) =
        runArgs (fun _ => some [0x31, 0x0D, 0xFF]) []
          (Request.given ["scan"] (.ofString "1\n\uFFFD")) := by
  have hcommand : ["scan"] ∈ Request.sourced := by decide
  have hheld : Text.Held [0x31, 0x0D, 0xFF] (.ofString "1\n\uFFFD") := by
    rw [show Text.ofString "1\n\uFFFD" = (Lossy.decode [0x31, 0x0D, 0xFF]).unifyNewlines by decide]
    exact Text.held_decode _
  exact ⟨hcommand, ((runArgs_file rfl hcommand).2.2 _ hheld).2.1⟩

end ArithTree
