import LayoutCheck.Main
import LayoutCheck.Proofs.Aggregation
import LayoutCheck.Proofs.Alteration
import LayoutCheck.Proofs.Balance
import LayoutCheck.Proofs.Built
import LayoutCheck.Proofs.Canonical
import LayoutCheck.Proofs.Colours
import LayoutCheck.Proofs.Conservation
import LayoutCheck.Proofs.Copy
import LayoutCheck.Proofs.Counterparts
import LayoutCheck.Proofs.DeclaredOrder
import LayoutCheck.Proofs.Deletion
import LayoutCheck.Proofs.DistinctKeys
import LayoutCheck.Proofs.Edit
import LayoutCheck.Proofs.Ignoring
import LayoutCheck.Proofs.Insertion
import LayoutCheck.Proofs.MissingSubtrees
import LayoutCheck.Proofs.NestedGrammar
import LayoutCheck.Proofs.Normalization
import LayoutCheck.Proofs.Outline
import LayoutCheck.Proofs.Pointwise
import LayoutCheck.Proofs.Prefixed
import LayoutCheck.Proofs.Priorities
import LayoutCheck.Proofs.Rearrangement
import LayoutCheck.Proofs.RecordOnce
import LayoutCheck.Proofs.Redeclaration
import LayoutCheck.Proofs.RemediationText
import LayoutCheck.Proofs.Repair
import LayoutCheck.Proofs.Replacement
import LayoutCheck.Proofs.Retouching
import LayoutCheck.Proofs.RoundTrip
import LayoutCheck.Proofs.Run
import LayoutCheck.Proofs.Selection
import LayoutCheck.Proofs.SelfDescribingGrammar
import LayoutCheck.Proofs.SelfDescription
import LayoutCheck.Proofs.Share
import LayoutCheck.Proofs.Siblings
import LayoutCheck.Proofs.StartingPoint
import LayoutCheck.Proofs.Swap
import LayoutCheck.Proofs.Undeclared
import LayoutCheck.Proofs.Unfolding
import LayoutCheck.Proofs.Verdict
import LayoutCheck.Scan.Graph
