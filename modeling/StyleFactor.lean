import StyleFactor.Text.Blank
import StyleFactor.Text.Slice
import StyleFactor.Text.Location
import StyleFactor.Text.Quoted
import StyleFactor.Text.Digit
import StyleFactor.Text.Template
import StyleFactor.Grammar.Production
import StyleFactor.Grammar.Lossless
import StyleFactor.Tree.Node
import StyleFactor.Sheet.Parse
import StyleFactor.Layout.Print
import StyleFactor.Layout.Mode
import StyleFactor.Value.Display
import StyleFactor.Draft.Display
import StyleFactor.Draft.Print
import StyleFactor.Grouping.OfDocument
import StyleFactor.Grouping.Request
import StyleFactor.Merge.Sequence
import StyleFactor.Refactoring
import StyleFactor.Proofs.Grouping.Agreement
import StyleFactor.Proofs.Merge.Coverage
import StyleFactor.Proofs.Merge.Conservation
import StyleFactor.Proofs.Merge.Regrouping
import StyleFactor.Proofs.Merge.Cascade
import StyleFactor.Proofs.Grammar.Ahead
import StyleFactor.Proofs.Grammar.Token
import StyleFactor.Proofs.Text.Words
import StyleFactor.Proofs.Sheet.AtRule
import StyleFactor.Proofs.Sheet.RoundTrip
import StyleFactor.Proofs.Sheet.Reformatting
import StyleFactor.Proofs.Grouping.Calls
import StyleFactor.Proofs.Grouping.Embedding
import StyleFactor.Proofs.Grouping.Refinement
import StyleFactor.Proofs.Grouping.Traces
import StyleFactor.Proofs.Grouping.Extraction
import StyleFactor.Proofs.Merge.Shape
import StyleFactor.Proofs.Rewriting
import StyleFactor.Proofs.Tree.Derivation
import StyleFactor.Proofs.Sheet.Walk
import StyleFactor.Proofs.Completion
import StyleFactor.Proofs.Sheet.Places
import StyleFactor.Proofs.Untouched
import StyleFactor.Proofs.Merge.Partition
import StyleFactor.Proofs.Merge.Classes
import StyleFactor.Proofs.Merge.EqualSaving
import StyleFactor.Proofs.Merge.Turns
import StyleFactor.Proofs.Grouping.Measure
import StyleFactor.Proofs.Sheet.Minified
import StyleFactor.Proofs.Grouping.FirstOccurrence
import StyleFactor.Proofs.Merge.OnePerSelector
import StyleFactor.Proofs.Merge.Gains
import StyleFactor.Proofs.Merge.SharedSaving
import StyleFactor.Proofs.Merge.Scores
import StyleFactor.Proofs.Grammar.Outside
import StyleFactor.Proofs.Tree.Tiling
import StyleFactor.Proofs.Tree.Growth
import StyleFactor.Proofs.Sheet.Origins
import StyleFactor.Proofs.Sheet.SelfContained
import StyleFactor.Proofs.Sheet.Positions
import StyleFactor.Proofs.Sheet.Quotes
import StyleFactor.Proofs.Text.Lines
import StyleFactor.Proofs.Outcomes
import StyleFactor.Proofs.Grouping.Validation
import StyleFactor.Proofs.Grouping.Copies
import StyleFactor.Proofs.Grouping.Leniency
import StyleFactor.Proofs.Layout.Nesting
