import ArithTree.Command.Run
import ArithTree.Proofs.ParseGrammar
import ArithTree.Proofs.ScanAppend

/-!
# What the commands say about one text

A text can be scanned, drawn, or drawn below a listing of its tokens, and each
of the three goes its own way: a scan tells tokens as it finds them and may
come upon an error after some of them, a drawing takes all tokens or none, and
a listed drawing prints between its two stages. The ways agree. A listed
drawing is the scan above the drawing if the text can be scanned; if not, it is
the drawing, which is then the error alone, and the scan is this error below
the tokens of all that stands before it.

They agree as well where a tree has more levels than there are frames to draw
it. Then both drawings end the program, each behind what it had printed before.

This is shown of reports first, where it holds wherever the text comes from.
What an invocation adds to a report is an exit code, and the log if there is to
be one.
-/

namespace ArithTree

open Text

theorem lex_of_clean {source : Text} (h : source.Clean) : ∃ tokens, lex source = .ok tokens := by
  cases hlex : lex source with
  | ok tokens => exact ⟨tokens, rfl⟩
  | error e =>
      obtain ⟨span, hoffends, -⟩ := first_of_lex hlex
      exact absurd h hoffends.not_clean

theorem findings_of_lex_ok {source : Text} {tokens : List Token} (h : lex source = .ok tokens) :
    findings 0 source = (tokens, none) := by
  rw [lex_eq_findings] at h
  cases hfound : findings 0 source with
  | mk found error? =>
      rw [hfound] at h
      cases error? <;> cases h
      rfl

theorem findings_of_lex_error {source : Text} {e : LexError} (h : lex source = .error e) :
    findings 0 source = ((Scan.of source).tokens, some e) := by
  rw [lex_eq_findings] at h
  cases hfound : findings 0 source with
  | mk found error? =>
      have hfirst : (Scan.of source).tokens = found := congrArg Prod.fst hfound
      rw [hfound] at h
      cases error? <;> cases h
      rw [hfirst]

/-- The part of a text before the error in it. -/
structure Before (source : Text) (e : LexError) (a : Text) : Prop where
  isPrefix : a <+: source
  start : (Diagnostic.ofLexError e).span?.map Span.start = some (a.size : Int)

/-- The tokens that are found before an error are those of the text before the
error. -/
theorem lex_before_error {source : Text} {e : LexError} (h : lex source = .error e) :
    ∃ a, Before source e a ∧ lex a = .ok (Scan.of source).tokens := by
  have hfindings := findings_of_lex_error h
  obtain ⟨a, b, rfl, hparts⟩ := scanFrom_parts source 0
  have hrest := hparts.rest
  rw [show (scanFrom 0 (a ++ b)).error? = some e from congrArg Prod.snd hfindings] at hrest
  obtain ⟨error, hblocked, rfl⟩ := hrest
  obtain ⟨span, hstart, hoffends⟩ := Offends.of_blocked 0 hblocked hparts.seam
  obtain ⟨tokens, hlex⟩ := lex_of_clean hparts.clean
  refine ⟨a, ⟨⟨b, rfl⟩, ?_⟩, ?_⟩
  · rw [hoffends.span, Option.map_some, hstart, Nat.zero_add]
  · rw [findings_append a b 0 hparts.seam, findings_of_lex_ok hlex,
      findings_blocked _ hblocked] at hfindings
    have htokens : tokens ++ [] = (Scan.of (a ++ b)).tokens := congrArg Prod.fst hfindings
    rw [hlex, ← htokens, List.append_nil]

/-- Every level takes a token. -/
theorem Derives.height_le {x : Symbol} {ts : List Token} {e : Expr} {n : Nat}
    (h : Derives x ts e n) : e.height ≤ ts.length := by
  induction h with
  | number => exact Nat.le_refl 1
  | group _ _ _ ih =>
      rw [List.length_cons, List.length_append]
      omega
  | unsigned _ ih | single _ _ ih => exact ih
  | signed _ _ ih => exact Nat.succ_le_succ ih
  | more _ _ _ _ ihl ihr =>
      rw [Expr.applyBinary, Expr.height, List.length_append, List.length_cons]
      omega

theorem height_le_of_lex {source : Text} {tokens : List Token} {e : Expr}
    (hlex : lex source = .ok tokens) (h : parseSource source = .ok e) :
    e.height ≤ tokens.length := by
  obtain ⟨tokens', hlex', hparse⟩ := parseSource_ok h
  obtain rfl : tokens = tokens' := Except.ok.inj (hlex.symm.trans hlex')
  obtain ⟨n, -, hderives⟩ := parse_ok_iff.mp hparse
  exact hderives.height_le

namespace Report

section

variable (console : Console) {source : Text} {tokens : List Token}

theorem listing_eq (tokens : List Token) :
    listing tokens = String.join (tokens.map fun t => t.text ++ "\n") := by
  rw [listing, lines, List.map_map]
  rfl

theorem scan_of_lex_ok (h : lex source = .ok tokens) :
    scan console source = ⟨listing tokens, .accepted, scanLog source⟩ := by
  have hfindings := findings_of_lex_ok h
  have htokens : (Scan.of source).tokens = tokens := congrArg Prod.fst hfindings
  have herror : (Scan.of source).error? = none := congrArg Prod.snd hfindings
  simp only [scan, herror, htokens]

theorem scan_of_lex_error {e : LexError} (h : lex source = .error e) :
    scan console source =
      ⟨listing (Scan.of source).tokens ++ failure console (.lexical e) source, .rejected,
        scanLog source⟩ := by
  have herror : (Scan.of source).error? = some e := congrArg Prod.snd (findings_of_lex_error h)
  simp only [scan, herror]

/-- A tree is drawn exactly if it has no more levels than there are frames. -/
theorem tree_of_ok {e : Expr} (h : parseSource source = .ok e) :
    tree console source =
      if e.height ≤ console.frames then ⟨line e.draw, .accepted, parseLog source⟩
      else ⟨"", .exhausted, parseLog source⟩ := by
  simp only [tree, h, drawing, Expr.drawWithin_eq]
  by_cases hheight : e.height ≤ console.frames
  · simp only [if_pos hheight]
  · simp only [if_neg hheight]

theorem tree_of_error {e : SourceError} (h : parseSource source = .error e) :
    tree console source = ⟨failure console e source, .rejected, parseLog source⟩ := by
  simp only [tree, h]

/-- Tokens come above a tree, and above the error that a tree fails with. -/
theorem listedTree_of_lex_ok (h : lex source = .ok tokens) :
    listedTree console source =
      below (listing tokens ++ rule console) (tree console source) := by
  simp only [listedTree, tree, parseSource, h]
  cases parse tokens with
  | ok e => rfl
  | error e => rfl

theorem listedTree_of_lex_error {e : LexError} (h : lex source = .error e) :
    listedTree console source = tree console source := by
  rw [tree_of_error console (parseSource_of_lex_error h)]
  simp only [listedTree, h]

theorem listedTree_verdict (source : Text) :
    (listedTree console source).verdict = (tree console source).verdict := by
  cases h : lex source with
  | ok tokens =>
      rw [listedTree_of_lex_ok console h]
      rfl
  | error e => rw [listedTree_of_lex_error console h]

theorem exitCode_output_tree (source : Text) :
    match parseSource source with
    | .ok e =>
      if e.height ≤ console.frames then
        (tree console source).verdict.exitCode = 0 ∧
          (tree console source).output = e.draw ++ "\n"
      else (tree console source).verdict.exitCode = 1 ∧ (tree console source).output = ""
    | .error e =>
      (tree console source).verdict.exitCode = 1 ∧
        (tree console source).output = console.plain (e.diagnostic source).render ++ "\n" := by
  cases h : parseSource source with
  | ok e =>
      rw [tree_of_ok console h]
      show if e.height ≤ console.frames then _ else _
      split <;> exact ⟨rfl, rfl⟩
  | error e =>
      rw [tree_of_error console h]
      exact ⟨rfl, rfl⟩

end

end Report

/-- The arguments that give a text to a command. Behind two dashes, the text
may look like anything. -/
def Request.given (command : List String) (source : Text) : List Text :=
  command.map Text.ofString ++ [twoDashes, source]

section

variable (console : Console) (files : Text → Option (List UInt8)) (input source : Text)

theorem runArgs_scan :
    runArgs files input (Request.given ["scan"] source) console =
      .finished (Report.scan console source).verdict.exitCode
        (Report.scan console source).output "" := rfl

theorem runArgs_parse :
    runArgs files input (Request.given ["parse"] source) console =
      .finished (Report.tree console source).verdict.exitCode
        (Report.tree console source).output "" := rfl

theorem runArgs_parse_listing :
    runArgs files input (Request.given ["parse", "--print-tokens"] source) console =
      .finished (Report.tree console source).verdict.exitCode
        (Report.listedTree console source).output "" := by
  rw [← Report.listedTree_verdict]
  rfl

/-- The commands agree about a text: which exit codes go together, and how the
outputs are made of each other. A source that is an expression is drawn unless
its tree has more levels than there are frames, and then both ways to draw it
end the program with nothing drawn. There are no more levels than tokens. -/
theorem runArgs_agree :
    ∃ (scanned drawn : Nat) (scan tree listed : String),
      runArgs files input (Request.given ["scan"] source) console = .finished scanned scan "" ∧
      runArgs files input (Request.given ["parse"] source) console = .finished drawn tree "" ∧
      runArgs files input (Request.given ["parse", "--print-tokens"] source) console =
        .finished drawn listed "" ∧
      (match parseSource source with
        | .ok e =>
          if e.height ≤ console.frames then drawn = 0 ∧ tree = e.draw ++ "\n"
          else drawn = 1 ∧ tree = ""
        | .error e =>
          drawn = 1 ∧ tree = console.plain (e.diagnostic source).render ++ "\n") ∧
      match lex source with
      | .ok tokens =>
        scanned = 0 ∧ scan = String.join (tokens.map fun t => t.text ++ "\n") ∧
          listed = scan ++ (String.ofList (List.replicate console.columns '-') ++ "\n") ++ tree ∧
          ∀ e, parseSource source = .ok e → e.height ≤ tokens.length
      | .error e =>
        scanned = 1 ∧ parseSource source = .error (.lexical e) ∧ listed = tree ∧
          ∃ a tokens, Before source e a ∧ lex a = .ok tokens ∧
            scan = String.join (tokens.map fun t => t.text ++ "\n") ++ tree := by
  refine ⟨_, _, _, _, _, runArgs_scan console files input source,
    runArgs_parse console files input source, runArgs_parse_listing console files input source,
    Report.exitCode_output_tree console source, ?_⟩
  cases h : lex source with
  | ok tokens =>
      rw [Report.scan_of_lex_ok console h, Report.listedTree_of_lex_ok console h]
      exact ⟨rfl, Report.listing_eq tokens, rfl, fun e => height_le_of_lex h⟩
  | error e =>
      obtain ⟨a, hbefore, hlex⟩ := lex_before_error h
      have herror := parseSource_of_lex_error h
      rw [Report.scan_of_lex_error console h, Report.listedTree_of_lex_error console h,
        Report.tree_of_error console herror]
      refine ⟨rfl, herror, rfl, a, _, hbefore, hlex, ?_⟩
      rw [← Report.listing_eq]

end

end ArithTree
