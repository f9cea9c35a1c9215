import ArithTree.Command.Request
import ArithTree.Command.Run
import ArithTree.Diagnostic.Basic
import ArithTree.Diagnostic.Rendering
import ArithTree.Expr.Basic
import ArithTree.Expr.Drawing
import ArithTree.Expr.Parse.Basic
import ArithTree.Expr.Parse.Grammar
import ArithTree.Expr.Parse.Level
import ArithTree.Location
import ArithTree.Main
import ArithTree.Proofs.Carets
import ArithTree.Proofs.ChainFold
import ArithTree.Proofs.CommandAgreement
import ArithTree.Proofs.DepthAccount
import ArithTree.Proofs.DrawingLimit
import ArithTree.Proofs.DrawnRules
import ArithTree.Proofs.DrawnTrees
import ArithTree.Proofs.ExprRender
import ArithTree.Proofs.ExprSpans
import ArithTree.Proofs.FileAgreement
import ArithTree.Proofs.LiteralRange
import ArithTree.Proofs.LiteralValue
import ArithTree.Proofs.LocationScan
import ArithTree.Proofs.LogOrder
import ArithTree.Proofs.LossyDecoding
import ArithTree.Proofs.NextToken
import ArithTree.Proofs.OpenGroups
import ArithTree.Proofs.ParseAutomaton
import ArithTree.Proofs.ParseGrammar
import ArithTree.Proofs.ParseOutcome
import ArithTree.Proofs.Places
import ArithTree.Proofs.RecursionBound
import ArithTree.Proofs.RedundantGroups
import ArithTree.Proofs.Relabelling
import ArithTree.Proofs.RenderParse
import ArithTree.Proofs.ScanAppend
import ArithTree.Proofs.ScanListing
import ArithTree.Proofs.ScanWords
import ArithTree.Proofs.SeparatorInsertion
import ArithTree.Proofs.SessionTranscript
import ArithTree.Proofs.SourceOrder
import ArithTree.Proofs.SpanHulls
import ArithTree.Proofs.TextLines
import ArithTree.Proofs.TextParts
import ArithTree.Proofs.TokenLines
import ArithTree.Proofs.ViablePrefix
import ArithTree.Proofs.WritableErrors
import ArithTree.Source
import ArithTree.Span
import ArithTree.Text.CodePoint
import ArithTree.Text.Lines
import ArithTree.Text.Lossy
import ArithTree.Text.Quoted
import ArithTree.Text.Styled
import ArithTree.Text.Utf8
import ArithTree.Token.Basic
import ArithTree.Token.Cursor
import ArithTree.Token.Scan
