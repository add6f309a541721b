import FormulaTree.Main
import FormulaTree.Proofs.Position
import FormulaTree.Proofs.Token.Lexeme
import FormulaTree.Proofs.Token.Pieces
import FormulaTree.Proofs.Expr.Grammar
import FormulaTree.Proofs.Expr.Move
import FormulaTree.Proofs.Token.Partition
import FormulaTree.Proofs.Expr.Soundness
import FormulaTree.Proofs.Expr.Roles
import FormulaTree.Proofs.Expr.Completeness
import FormulaTree.Proofs.Expr.Layout
import FormulaTree.Proofs.Token.Spacing
import FormulaTree.Proofs.Token.Stray
import FormulaTree.Proofs.Expr.SingleLine
import FormulaTree.Proofs.RoundTrip
import FormulaTree.Proofs.Session.History
import FormulaTree.Proofs.Outline.Numbering
import FormulaTree.Proofs.Outline.Folding
import FormulaTree.Proofs.Outline.MarkedTree
import FormulaTree.Proofs.Markup.Reading
import FormulaTree.Proofs.Outline.Page
import FormulaTree.Proofs.Outline.Lossless
import FormulaTree.Proofs.Outline.Lines
import FormulaTree.Proofs.Outline.Printer
import FormulaTree.Proofs.Markup.Visible
import FormulaTree.Proofs.Outline.Content
import FormulaTree.Proofs.Outline.Recovery
import FormulaTree.Proofs.Expr.Mismatch
import FormulaTree.Proofs.Expr.Stop
import FormulaTree.Proofs.Outline.Labels
import FormulaTree.Proofs.Outline.Height
import FormulaTree.Proofs.Outline.Visibility
import FormulaTree.Proofs.Outline.ClosedLine
import FormulaTree.Proofs.Outline.Depth
import FormulaTree.Proofs.CommandLine.Dictionary
import FormulaTree.Proofs.CommandLine.Outcome
import FormulaTree.Proofs.CommandLine.Writing
import FormulaTree.Proofs.CommandLine.LeadingMinus
import FormulaTree.Proofs.Translation
import FormulaTree.Proofs.Session.FormulaLine
import FormulaTree.Proofs.Session.Failure
import FormulaTree.Proofs.Session.Transcript
import FormulaTree.Proofs.FormulaError
import FormulaTree.Proofs.Expr.Excess
import FormulaTree.Proofs.Expr.DoubleEquals
import FormulaTree.Proofs.Expr.Descent.Basic
import FormulaTree.Proofs.Expr.Descent.Operand
import FormulaTree.Proofs.Expr.Descent.Reader
import FormulaTree.Proofs.Expr.Calls
import FormulaTree.Proofs.Token.Resume
import FormulaTree.Proofs.Json.Ordered
import FormulaTree.Proofs.Json.Reader
import FormulaTree.Proofs.Label.Dictionary
import FormulaTree.Proofs.Text.Bytes
import FormulaTree.Proofs.Label.Document
import FormulaTree.Proofs.Label.Fallback
