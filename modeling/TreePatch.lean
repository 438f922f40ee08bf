import TreePatch.Bag
import TreePatch.Number.Exact
import TreePatch.Operation.Encoding
import TreePatch.Patch.Run
import TreePatch.Path.Grammar
import TreePatch.Path.Instance
import TreePatch.Proofs.Path.Alike
import TreePatch.Proofs.Path.ReadBack
import TreePatch.Proofs.Query.Places
import TreePatch.Proofs.Value.Children
import TreePatch.Value.Lens
import TreePatch.Value.Location
import TreePatch.Value.Reordered
import TreePatch.Value.WellFormed
import TreePatch.Proofs.Patch.Fanout
import TreePatch.Proofs.Patch.MemberOrder
import TreePatch.Proofs.Value.Overwrite
import TreePatch.Proofs.Path.Location
import TreePatch.Proofs.Patch.Move
import TreePatch.Proofs.Path.Acceptance
import TreePatch.Proofs.Path.Canonical
import TreePatch.Proofs.Path.PointerText
import TreePatch.Proofs.Operation.Command
import TreePatch.Proofs.Value.Comparison
import TreePatch.Proofs.Value.Domain
import TreePatch.Proofs.Query.PointerTexts
import TreePatch.Proofs.Value.WellFormed
import TreePatch.Proofs.Patch.WellFormed
import TreePatch.Proofs.Query.Concrete
import TreePatch.Proofs.Patch.Stages
import TreePatch.Proofs.Patch.Failure
import TreePatch.Proofs.Patch.QuerySpelling
import TreePatch.Proofs.Query.DeadEnds
import TreePatch.Proofs.Value.Surface
import TreePatch.Proofs.Query.Apart
import TreePatch.Value.NaN
import TreePatch.Proofs.Patch.ReplaceAll
import TreePatch.Proofs.Value.Entry
import TreePatch.Proofs.Patch.Independence
import TreePatch.Proofs.Patch.RemoveAll
import TreePatch.Proofs.Value.LastStep
import TreePatch.Proofs.Value.Shift
import TreePatch.Proofs.Patch.CrossProduct
import TreePatch.Proofs.Query.Elements
import TreePatch.Proofs.Patch.Sweep
import TreePatch.Proofs.Patch.MoveBack
import TreePatch.Proofs.Patch.OntoItself
import TreePatch.Proofs.Bag.Documents
import TreePatch.Proofs.Members.History
import TreePatch.Proofs.Number.Truncation
import TreePatch.Proofs.Number.Whole
import TreePatch.Proofs.Patch.Guards
import TreePatch.Proofs.Patch.Faults
import TreePatch.Proofs.Operation.RoundTrip
import TreePatch.Proofs.Unchecked.Comparison
import TreePatch.Proofs.Unchecked.Edit
import TreePatch.Proofs.Unchecked.Operation
