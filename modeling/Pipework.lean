import Pipework.Command
import Pipework.Main
import Pipework.Pipeline.Builder
import Pipework.Proofs.Reachability
import Pipework.Proofs.TopologicalOrder
import Pipework.Proofs.Reduction
import Pipework.Proofs.Step
import Pipework.Proofs.Outline
import Pipework.Proofs.WellFormed
import Pipework.Proofs.Construction
import Pipework.Proofs.Expansion
import Pipework.Proofs.Ordering
import Pipework.Proofs.ReplicaTemplates
import Pipework.Proofs.Links
import Pipework.Proofs.MultipliedNodes
import Pipework.Proofs.Precedence
import Pipework.Proofs.Filling
import Pipework.Proofs.Failure
import Pipework.Proofs.Circles
import Pipework.Proofs.Dependence
import Pipework.Proofs.Handing
import Pipework.Proofs.Bystander
import Pipework.Proofs.SplitLists
import Pipework.Proofs.KeptShares
import Pipework.Proofs.LastingValues
import Pipework.Proofs.Portions
import Pipework.Proofs.Meaning
import Pipework.Proofs.KeptMeaning
import Pipework.Proofs.Insertion
import Pipework.Proofs.Leaves
import Pipework.Proofs.Twins
import Pipework.Proofs.UnrepeatedJobs
import Pipework.Proofs.Gathering
import Pipework.Proofs.Receiving
import Pipework.Proofs.Arrival
import Pipework.Proofs.KeptReceivers
import Pipework.Proofs.Wholeness
import Pipework.Proofs.GrowingForest
import Pipework.Proofs.Operations
import Pipework.Proofs.Progress
import Pipework.Proofs.ReferenceCycles
import Pipework.Proofs.Singleness
import Pipework.Proofs.Shape
import Pipework.Proofs.Display
import Pipework.Proofs.Readiness
import Pipework.Proofs.NoListLeft
import Pipework.Proofs.Completeness
import Pipework.Proofs.Alignment
import Pipework.Proofs.ConsumersAndProducers
import Pipework.Proofs.Tokens
import Pipework.Proofs.ListFree
import Pipework.Proofs.Bounds
import Pipework.Proofs.Regularity
import Pipework.Proofs.Evaluation
import Pipework.Proofs.Carrying
import Pipework.Proofs.Placement
import Pipework.Proofs.Inference
import Pipework.Proofs.Demand
import Pipework.Proofs.Narrowing
import Pipework.Proofs.Replacement
import Pipework.Proofs.Verdict
import Pipework.Proofs.Outlook
import Pipework.Proofs.Writing
import Pipework.Proofs.UniqueScalars
import Pipework.Proofs.Accumulation
import Pipework.Proofs.AppendedScopes
import Pipework.Proofs.AppendedNodes
import Pipework.Proofs.PathParts
import Pipework.Proofs.FirstPlaces
import Pipework.Proofs.Splicing
import Pipework.Proofs.RoundTrip
import Pipework.Proofs.Nesting
import Pipework.Proofs.Application
