import Docblock.CommandLine.Dump
import Docblock.CommandLine.Run
import Docblock.Directive.Settings
import Docblock.Main
import Docblock.Proofs.TypeExpr.Grammar
import Docblock.Proofs.TypeExpr.Reader
import Docblock.Proofs.TypeExpr.Shape
import Docblock.Proofs.TypeExpr.Printing
import Docblock.Proofs.TypeExpr.Arranged
import Docblock.Proofs.TypeExpr.RoundTrip
import Docblock.Proofs.TypeExpr.Boundary
import Docblock.Proofs.TypeExpr.Gaps
import Docblock.Proofs.TypeExpr.Refinement
import Docblock.Proofs.TypeExpr.Kinds
import Docblock.Proofs.TypeExpr.Unions
import Docblock.Proofs.TypeExpr.Expansion
import Docblock.Proofs.TypeExpr.Meaning
import Docblock.Proofs.TypeExpr.Condensed
import Docblock.Proofs.TypeExpr.Conservation
import Docblock.Proofs.TypeExpr.Leaves
import Docblock.Proofs.TypeExpr.Neat
import Docblock.Proofs.TypeExpr.Transport
import Docblock.Proofs.TypeExpr.Respacing
import Docblock.Proofs.TypeExpr.Relayout
import Docblock.Proofs.TypeExpr.Cursor
import Docblock.Proofs.TypeExpr.Stepwise
import Docblock.Proofs.TypeExpr.CursorTokens
import Docblock.Proofs.TypeExpr.CursorReader
import Docblock.Proofs.TypeExpr.CursorMoves
import Docblock.Proofs.TypeExpr.Trace
import Docblock.Proofs.TypeExpr.Advancing
import Docblock.Proofs.TypeExpr.Children
import Docblock.Proofs.TypeExpr.Regrouping
import Docblock.Proofs.TypeExpr.ExpandedAgain
import Docblock.Proofs.TypeExpr.Widths
import Docblock.Proofs.Text.Words
import Docblock.Proofs.Text.Columns
import Docblock.Proofs.Text.Offsets
import Docblock.Proofs.Text.Bytes
import Docblock.Proofs.Comment.Reading
import Docblock.Proofs.Comment.Filling
import Docblock.Proofs.Comment.Tags
import Docblock.Proofs.Comment.TypedTags
import Docblock.Proofs.Comment.Blocks
import Docblock.Proofs.Comment.Closing
import Docblock.Proofs.Comment.Content
import Docblock.Proofs.Comment.Composed
import Docblock.Proofs.Comment.Greedy
import Docblock.Proofs.Comment.Fitting
import Docblock.Proofs.Comment.TagLines
import Docblock.Proofs.Comment.WrittenBack
import Docblock.Proofs.Comment.BlankLines
import Docblock.Proofs.DocComment.Margin
import Docblock.Proofs.DocComment.Delimiters
import Docblock.Proofs.DocComment.FixedPoint
import Docblock.Proofs.DocComment.Rereading
import Docblock.Proofs.DocComment.Margined
import Docblock.Proofs.DocComment.Stars
import Docblock.Proofs.DocComment.OneLine
import Docblock.Proofs.Source.Lexing
import Docblock.Proofs.Source.Splice
import Docblock.Proofs.Source.Relexing
import Docblock.Proofs.Source.Rewriting
import Docblock.Proofs.Source.Changes
import Docblock.Proofs.Source.Places
import Docblock.Proofs.Diagnostic.Caret
import Docblock.Proofs.Edit.Simultaneous
import Docblock.Proofs.Directive.Settings
import Docblock.Proofs.Except
import Docblock.Proofs.Path.Order
import Docblock.Proofs.Path.CommonDirectory
import Docblock.Proofs.FileSystem.Tree
import Docblock.Proofs.FileSystem.Locations
import Docblock.Proofs.FileSystem.Writing
import Docblock.Proofs.FileSystem.Collected
import Docblock.Proofs.CommandLine.Targets
import Docblock.Proofs.CommandLine.Modes
