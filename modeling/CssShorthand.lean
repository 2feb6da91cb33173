import CssShorthand.Block
import CssShorthand.Box
import CssShorthand.CommandLine.Invocation
import CssShorthand.CommandLine.Response
import CssShorthand.CommandLine.Switch
import CssShorthand.Component.Basic
import CssShorthand.Component.Enclosed
import CssShorthand.Component.Lexeme
import CssShorthand.Component.Name
import CssShorthand.Component.Nesting
import CssShorthand.Component.Number
import CssShorthand.Component.Split
import CssShorthand.Component.Writer
import CssShorthand.Decimal.Numeral
import CssShorthand.Decimal.Shortest
import CssShorthand.Declaration.Basic
import CssShorthand.Declaration.Cleaning
import CssShorthand.Declaration.Value
import CssShorthand.Edit.Basic
import CssShorthand.Edit.Script
import CssShorthand.Entries
import CssShorthand.Expansion
import CssShorthand.Failure
import CssShorthand.Folding
import CssShorthand.Font.Class
import CssShorthand.Font.Cursor
import CssShorthand.Font.Value
import CssShorthand.Main
import CssShorthand.Notice
import CssShorthand.Pattern
import CssShorthand.Property
import CssShorthand.RuleSet
import CssShorthand.Selector.Attribute
import CssShorthand.Selector.Basic
import CssShorthand.Selector.Complex
import CssShorthand.Selector.Compound
import CssShorthand.Selector.Pseudo
import CssShorthand.Selector.Specificity
import CssShorthand.Selector.Token
import CssShorthand.Selector.Weight
import CssShorthand.Slice
import CssShorthand.Slice.Color
import CssShorthand.Slice.Part
import CssShorthand.Store.Basic
import CssShorthand.Store.Replace
import CssShorthand.Text.Basic
import CssShorthand.Text.Blank
import CssShorthand.Text.Case
import CssShorthand.Text.Digit
import CssShorthand.Text.Printable
import CssShorthand.Text.Quoted
import CssShorthand.Text.Ranges
import CssShorthand.Text.Word
import CssShorthand.Proofs.Block.Again
import CssShorthand.Proofs.Cascade.Alone
import CssShorthand.Proofs.Cascade.Failure
import CssShorthand.Proofs.Cascade.History
import CssShorthand.Proofs.Folding.Background
import CssShorthand.Proofs.Folding.Border
import CssShorthand.Proofs.Folding.Font
import CssShorthand.Proofs.Folding.Importance
import CssShorthand.Proofs.Folding.ListStyle
import CssShorthand.Proofs.Folding.Meaning
import CssShorthand.Proofs.Cascade.Expanded
import CssShorthand.Proofs.Declaration.Uncovered
import CssShorthand.Proofs.Edit.Session
import CssShorthand.Proofs.Cascade.Separate
import CssShorthand.Proofs.Folding.Folded
import CssShorthand.Proofs.Folding.Settled
import CssShorthand.Proofs.Slice.Uncut
import CssShorthand.Proofs.Component.Numeral
import CssShorthand.Proofs.Folding.Remains
import CssShorthand.Proofs.Folding.Unread
import CssShorthand.Proofs.Edit.Replace
import CssShorthand.Proofs.Font.Grammar
import CssShorthand.Proofs.Slice.Spaced
import CssShorthand.Proofs.Slice.AnyOrder
import CssShorthand.Proofs.Edit.Atomic
import CssShorthand.Proofs.Folding.Whole
import CssShorthand.Proofs.Folding.Family
import CssShorthand.Proofs.Component.Leading
import CssShorthand.Proofs.Slice.Lengths
import CssShorthand.Proofs.Slice.Comments
import CssShorthand.Proofs.Slice.Rewritten
import CssShorthand.Proofs.Cascade.Sides
import CssShorthand.Proofs.Selector.List
import CssShorthand.Proofs.Font.Steps
import CssShorthand.Proofs.Slice.Dealt
import CssShorthand.Proofs.Selector.Specificity
