import ContentModel.ModelGroup.Restriction
import ContentModel.Summary.Json
import ContentModel.Summary.OfGroup
import ContentModel.Xml.Occurs
import ContentModel.Proofs.Effective.Exact
import ContentModel.Proofs.Effective.Presence
import ContentModel.Proofs.Effective.Range
import ContentModel.Proofs.Effective.Splice
import ContentModel.Proofs.Splice.Leaves
import ContentModel.Proofs.Walk.Encounters
import ContentModel.Proofs.Restriction.Soundness
import ContentModel.Proofs.Occurs.Counts
import ContentModel.Proofs.Occurs.Lax
import ContentModel.Proofs.ExpandedName.Clark
import ContentModel.Proofs.DepthLimit.Raised
import ContentModel.Proofs.Overall.Product
import ContentModel.Proofs.Overall.LowerProduct
import ContentModel.Proofs.Overall.Range
import ContentModel.Proofs.Leaf.Overlap
import ContentModel.Proofs.Presence.Loop
import ContentModel.Proofs.Presence.Missing
import ContentModel.Proofs.Walk.Reach
import ContentModel.Proofs.Summary.OfGroup
import ContentModel.Proofs.Json.Token
import ContentModel.Proofs.Json.Value
import ContentModel.Proofs.Summary.Json
import ContentModel.Proofs.Walk.Leaves
import ContentModel.Proofs.DepthLimit.Effective
import ContentModel.Proofs.DepthLimit.Guards
import ContentModel.Proofs.Permute.Answers
import ContentModel.Proofs.Permute.Positions
import ContentModel.Proofs.Leaf.Respelled
import ContentModel.Proofs.NamespaceConstraint.Lists
import ContentModel.Proofs.Occurs.Literals
import ContentModel.Proofs.Bound.Folds
