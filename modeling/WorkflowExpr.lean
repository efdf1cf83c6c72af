import WorkflowExpr.Binary64.Bits
import WorkflowExpr.Eval
import WorkflowExpr.Span.Json
import WorkflowExpr.Ty.Json
import WorkflowExpr.Proofs.Binding
import WorkflowExpr.Proofs.ErrorOrigin
import WorkflowExpr.Proofs.Json.Values
import WorkflowExpr.Proofs.Strictness
import WorkflowExpr.Proofs.Paths
import WorkflowExpr.Proofs.CaseFolding
import WorkflowExpr.Proofs.Schedule
import WorkflowExpr.Proofs.Sharing
import WorkflowExpr.Proofs.Comparison
import WorkflowExpr.Proofs.Dependence
import WorkflowExpr.Proofs.Formula
import WorkflowExpr.Proofs.Decimal.Shortest
import WorkflowExpr.Proofs.Json.Decimals
import WorkflowExpr.Proofs.Binary64.Errors
import WorkflowExpr.Proofs.Binary64.RoundsTo
import WorkflowExpr.Proofs.Binary64.Operations
import WorkflowExpr.Proofs.Binary64.Ties
import WorkflowExpr.Proofs.Numeral.Grammar
import WorkflowExpr.Proofs.Numeral.Integers
import WorkflowExpr.Proofs.Numeral.Radix
import WorkflowExpr.Proofs.Numeral.Reading
import WorkflowExpr.Proofs.Numeral.Stability
import WorkflowExpr.Proofs.Numeral.WholeTexts
import WorkflowExpr.Proofs.Numeral.Writing
import WorkflowExpr.Proofs.Json.Scaling
import WorkflowExpr.Proofs.Json.ExactScaling
import WorkflowExpr.Proofs.Json.Floats
import WorkflowExpr.Proofs.NumberRoundTrip
import WorkflowExpr.Proofs.Json.Encodings
import WorkflowExpr.Proofs.Registration
import WorkflowExpr.Proofs.Transitivity
import WorkflowExpr.Proofs.Indexing
import WorkflowExpr.Proofs.Membership
import WorkflowExpr.Proofs.Templates
import WorkflowExpr.Proofs.TemplateComposition
import WorkflowExpr.Proofs.Coercion
import WorkflowExpr.Proofs.Searching
import WorkflowExpr.Proofs.Joining
import WorkflowExpr.Proofs.Json.Types
