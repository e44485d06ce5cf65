import OmegaControl.Ident
import OmegaControl.IdentSet.Block
import OmegaControl.IdentSet.Basic
import OmegaControl.IdentSet.Subset
import OmegaControl.Segment
import OmegaControl.Transition
import OmegaControl.Traversal
import OmegaControl.Automaton.Basic
import OmegaControl.Fixpoint
import OmegaControl.Automaton.Trim
import OmegaControl.Automaton.Component
import OmegaControl.Automaton.Dot
import OmegaControl.Automaton.Numbering
import OmegaControl.Product
import OmegaControl.Projection
import OmegaControl.Inclusion
import OmegaControl.ControlPattern
import OmegaControl.Progress
import OmegaControl.SynthesisError
import OmegaControl.ControlProblem
import OmegaControl.RelativeClosedness
import OmegaControl.Controllability
import OmegaControl.Normality
import OmegaControl.ControlledProduct
import OmegaControl.Liveness.Rule
import OmegaControl.Liveness.Feedback
import OmegaControl.Liveness.Observed
import OmegaControl.Liveness.InPlace
import OmegaControl.Synthesis.Supremal
import OmegaControl.Synthesis.Normal
import OmegaControl.Synthesis.ClosedLoop
import OmegaControl.Plant
import OmegaControl.Edit
import OmegaControl.Proofs.Path
import OmegaControl.Proofs.Supervisor
import OmegaControl.Proofs.Observation
import OmegaControl.Proofs.Iteration
import OmegaControl.Proofs.Liveness.Enforceable
import OmegaControl.Proofs.Liveness.ProgressMeasure
import OmegaControl.Proofs.Liveness.Drive
import OmegaControl.Proofs.Liveness.Feedback
import OmegaControl.Proofs.Restriction
import OmegaControl.Proofs.Liveness.ClosedLoop
import OmegaControl.Proofs.WellFormed
import OmegaControl.Proofs.Liveness.Supervision
import OmegaControl.Proofs.Traversal
import OmegaControl.Proofs.ComponentSearch
import OmegaControl.Proofs.Components
import OmegaControl.Proofs.Numbering
import OmegaControl.Proofs.Product
import OmegaControl.Proofs.Trimming
import OmegaControl.Proofs.JoinByEvent
import OmegaControl.Proofs.Language
import OmegaControl.Proofs.Synthesis.ProductRun
import OmegaControl.Proofs.Synthesis.Represents
import OmegaControl.Proofs.Synthesis.Construction
import OmegaControl.Proofs.Synthesis.CriticalStates
import OmegaControl.Proofs.Synthesis.ControlledProduct
import OmegaControl.Proofs.Synthesis.Survivors
import OmegaControl.Proofs.Synthesis.ControllablePart
import OmegaControl.Proofs.Synthesis.ControllableWords
import OmegaControl.Proofs.Synthesis.Pruning
import OmegaControl.Proofs.Synthesis.Solution
import OmegaControl.Proofs.Synthesis.Checked
import OmegaControl.Proofs.Synthesis.Supremal
import OmegaControl.Proofs.Synthesis.Verification
import OmegaControl.Proofs.Synthesis.ClosedLoop
import OmegaControl.Proofs.Liveness.Lockstep
import OmegaControl.Proofs.Liveness.Patterns
import OmegaControl.Proofs.Liveness.Observed
import OmegaControl.Proofs.Liveness.ObservedLoop
import OmegaControl.Proofs.Liveness.Cautious
import OmegaControl.Proofs.Unfolding
import OmegaControl.Proofs.Renaming
import OmegaControl.Proofs.Projection
import OmegaControl.Proofs.Synthesis.NormalPart
import OmegaControl.Proofs.Synthesis.NormalPasses
import OmegaControl.Proofs.Synthesis.NormalWords
import OmegaControl.Proofs.Synthesis.ObserverProduct
import OmegaControl.Proofs.Synthesis.SupremalNormalPart
import OmegaControl.Proofs.Synthesis.NormalPruning
import OmegaControl.Proofs.Liveness.NestedFixpoint
import OmegaControl.Proofs.Liveness.ObservedRefinement
import OmegaControl.Proofs.Synthesis.Alphabet
import OmegaControl.Proofs.Synthesis.Interior
import OmegaControl.Proofs.Reaching
import OmegaControl.Proofs.ReachabilitySets
import OmegaControl.Proofs.OmegaTrim
import OmegaControl.Proofs.Synthesis.Attachment
import OmegaControl.Proofs.Inclusion
import OmegaControl.Proofs.Normality
import OmegaControl.Proofs.Synthesis.NormalSolution
import OmegaControl.Proofs.Synthesis.NormalCandidate
import OmegaControl.Proofs.Synthesis.NormalClosedLoop
import OmegaControl.Proofs.Liveness.Matching
import OmegaControl.Proofs.Liveness.Renaming
import OmegaControl.Proofs.Synthesis.Renaming
import OmegaControl.Proofs.Synthesis.Sustainable
import OmegaControl.Proofs.Synthesis.FullObservation
import OmegaControl.Proofs.Synthesis.NormalRenaming
import OmegaControl.Proofs.RelativeClosedness
import OmegaControl.Proofs.Controllability
import OmegaControl.Proofs.ProjectedWords
import OmegaControl.Proofs.IdentSet
import OmegaControl.Proofs.Liveness.Points
import OmegaControl.Proofs.Liveness.Commitments
import OmegaControl.Proofs.Liveness.Confinement
import OmegaControl.Proofs.Liveness.ObservedWinning
import OmegaControl.Proofs.Edit
import OmegaControl.Proofs.StateNames
import OmegaControl.Proofs.Synthesis.Deletion
import OmegaControl.Proofs.Synthesis.StateNames
import OmegaControl.Proofs.Liveness.Reports
import OmegaControl.Proofs.Synthesis.Reports
import OmegaControl.Proofs.Cancellation
import OmegaControl.Proofs.Drawing
import OmegaControl.Proofs.OuterJoin
