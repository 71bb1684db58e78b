import InlineMarkup.Cst.BuildStep
import InlineMarkup.Main
import InlineMarkup.Proofs.Cuts
import InlineMarkup.Proofs.Depth
import InlineMarkup.Proofs.Evaluation
import InlineMarkup.Proofs.Pieces
import InlineMarkup.Proofs.Rows
import InlineMarkup.Proofs.PreOrder
import InlineMarkup.Proofs.Unfolding
import InlineMarkup.Proofs.GapRuns
import InlineMarkup.Proofs.Spread
import InlineMarkup.Proofs.Starts
import InlineMarkup.Proofs.DocumentTree
import InlineMarkup.Proofs.Lossless
import InlineMarkup.Proofs.HostCode
import InlineMarkup.Proofs.FirstChar
import InlineMarkup.Proofs.Markup
import InlineMarkup.Proofs.Reading
import InlineMarkup.Proofs.MarkupReading
import InlineMarkup.Proofs.Finished
import InlineMarkup.Proofs.MarkupBelow
import InlineMarkup.Proofs.MarkupLowering
import InlineMarkup.Proofs.Shapes
import InlineMarkup.Proofs.TagCheck
import InlineMarkup.Proofs.Attributes
import InlineMarkup.Proofs.Index
import InlineMarkup.Proofs.LineBreaks
import InlineMarkup.Proofs.LineEnds
import InlineMarkup.Proofs.LineTails
import InlineMarkup.Proofs.Record
import InlineMarkup.Proofs.Comments
import InlineMarkup.Proofs.MultilineStrings
import InlineMarkup.Proofs.Masking
import InlineMarkup.Proofs.Regions
import InlineMarkup.Proofs.VerbatimMarkup
import InlineMarkup.Proofs.Faults
import InlineMarkup.Proofs.NestingLimit
import InlineMarkup.Proofs.Located
import InlineMarkup.Proofs.Discovered
import InlineMarkup.Proofs.Accounting
import InlineMarkup.Proofs.OutputPaths
import InlineMarkup.Proofs.Outputs
import InlineMarkup.Proofs.Components
import InlineMarkup.Proofs.Foreseen
import InlineMarkup.Proofs.PathOrder
import InlineMarkup.Proofs.Sources
import InlineMarkup.Proofs.Walks
import InlineMarkup.Proofs.TextRuns
import InlineMarkup.Proofs.HostStrings
import InlineMarkup.Proofs.QuotedValues
import InlineMarkup.Proofs.Indentation
import InlineMarkup.Proofs.Unwrapping
import InlineMarkup.Proofs.Positions
import InlineMarkup.Proofs.PositionOrder
import InlineMarkup.Proofs.Comparison
import InlineMarkup.Proofs.Listing
import InlineMarkup.Proofs.CallTargets
