import Formula.Compiled
import Formula.Host.Registry
import Formula.Report.Render
import Formula.Proofs.Evaluation.Agreement
import Formula.Proofs.Evaluation.Independence
import Formula.Proofs.Evaluation.Schedule
import Formula.Proofs.Syntax.Composition
import Formula.Proofs.Syntax.Grouping
import Formula.Proofs.Syntax.Levels
import Formula.Proofs.Evaluation.Failure
import Formula.Proofs.Evaluation.Lawful
import Formula.Proofs.Evaluation.Overlap
import Formula.Proofs.Number.Rounding
import Formula.Proofs.Number.Shortest
import Formula.Proofs.Json.Scaling
import Formula.Proofs.Json.Reading
import Formula.Proofs.Json.Documents
import Formula.Proofs.Json.Interchange
import Formula.Proofs.Evaluation.Limit
import Formula.Proofs.Json.Whole
import Formula.Proofs.Json.Foreign
import Formula.Proofs.Syntax.Refusal
import Formula.Proofs.Syntax.Places
import Formula.Proofs.Evaluation.Laziness
import Formula.Proofs.Evaluation.Reuse
import Formula.Proofs.Evaluation.Extent
import Formula.Proofs.Value.Member
import Formula.Proofs.Value.Equality
import Formula.Proofs.Value.Order
import Formula.Proofs.Value.Word
import Formula.Proofs.Number.Radix
import Formula.Proofs.Value.Indexing
import Formula.Proofs.Syntax.Spacing
import Formula.Proofs.Syntax.Threshold
import Formula.Proofs.Syntax.Bookkeeping
import Formula.Proofs.Value.Sharing
