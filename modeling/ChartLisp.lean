import ChartLisp.Main
import ChartLisp.Proofs.Capture
import ChartLisp.Proofs.DepthLimit
import ChartLisp.Proofs.Footprint
import ChartLisp.Proofs.Grammar
import ChartLisp.Proofs.Interrupts
import ChartLisp.Proofs.Layout
import ChartLisp.Proofs.Rendering
import ChartLisp.Proofs.Soundness
import ChartLisp.Proofs.Nesting
import ChartLisp.Proofs.Notebook
import ChartLisp.Proofs.Properties
import ChartLisp.Proofs.Reading
import ChartLisp.Proofs.Application
import ChartLisp.Proofs.Outcome
import ChartLisp.Proofs.Elementwise
import ChartLisp.Proofs.Completion
import ChartLisp.Proofs.Lines
import ChartLisp.Proofs.Plot.Structure
import ChartLisp.Proofs.Plot.Causality
import ChartLisp.Proofs.Plot.Permutation
import ChartLisp.Proofs.Plot.Shapes
import ChartLisp.Proofs.Ranges
import ChartLisp.Proofs.Number.Significant
import ChartLisp.Proofs.Data
import ChartLisp.Proofs.Plot.Finite
import ChartLisp.Proofs.Body.Names
import ChartLisp.Proofs.Body.Twin
import ChartLisp.Proofs.Definitions
import ChartLisp.Proofs.Body
import ChartLisp.Proofs.Number.Near
import ChartLisp.Proofs.Equality
import ChartLisp.Proofs.Plot.Domain
import ChartLisp.Proofs.Plot.Options
import ChartLisp.Proofs.Promotion
import ChartLisp.Proofs.Visibility
import ChartLisp.Proofs.Words
