import BottomUp.Parse.Deterministic
import BottomUp.Parse.Generalized
import BottomUp.Registry
import BottomUp.Samples
import BottomUp.Tree.Xml
import BottomUp.Words
import BottomUp.Proofs.Families
import BottomUp.Proofs.Lawful
import BottomUp.Proofs.First
import BottomUp.Proofs.Closure
import BottomUp.Proofs.Kernels
import BottomUp.Proofs.Complete
import BottomUp.Proofs.Quotient
import BottomUp.Proofs.Derivation
import BottomUp.Proofs.Moves
import BottomUp.Proofs.Consistency
import BottomUp.Proofs.Openings
import BottomUp.Proofs.Reading
import BottomUp.Proofs.Stack
import BottomUp.Proofs.Soundness
import BottomUp.Proofs.Completeness
import BottomUp.Proofs.Packing
import BottomUp.Proofs.Yields
import BottomUp.Proofs.Walks
import BottomUp.Proofs.Sessions
import BottomUp.Proofs.Rounds
import BottomUp.Proofs.Exactness
import BottomUp.Proofs.Links
import BottomUp.Proofs.Outlines
import BottomUp.Proofs.Slots
import BottomUp.Proofs.Compaction
import BottomUp.Proofs.Grafting
import BottomUp.Proofs.Awaiting
import BottomUp.Proofs.Closing
import BottomUp.Proofs.Reducing
import BottomUp.Proofs.Layout
import BottomUp.Proofs.Splicing
import BottomUp.Proofs.Places
import BottomUp.Proofs.FirstTree
import BottomUp.Proofs.Safety
import BottomUp.Proofs.Piles
import BottomUp.Proofs.Grounding
import BottomUp.Proofs.Renaming
import BottomUp.Proofs.Agreement
import BottomUp.Proofs.Fronts
import BottomUp.Proofs.StateStacks
import BottomUp.Proofs.Halting
import BottomUp.Proofs.Steps
import BottomUp.Proofs.Termination
import BottomUp.Proofs.Unread
import BottomUp.Proofs.Simulation
import BottomUp.Proofs.Continuations
import BottomUp.Proofs.SyntaxErrors
import BottomUp.Proofs.Coherence
import BottomUp.Proofs.Exhaustion
import BottomUp.Proofs.FirstFamilies
import BottomUp.Proofs.Ambiguity
import BottomUp.Proofs.WellFormed
import BottomUp.Proofs.Conflicts
import BottomUp.Proofs.Cells
import BottomUp.Proofs.Origins
import BottomUp.Proofs.NormalForm
import BottomUp.Proofs.Expansion
import BottomUp.Proofs.Effective
import BottomUp.Proofs.Containment
import BottomUp.Proofs.Turns
import BottomUp.Proofs.Histories
import BottomUp.Proofs.Storage
import BottomUp.Proofs.ForestSize
import BottomUp.Proofs.Ledgers
import BottomUp.Proofs.InPlace
import BottomUp.Proofs.Tours
import BottomUp.Proofs.Makings
import BottomUp.Proofs.Ancestors
import BottomUp.Proofs.Markup
import BottomUp.Proofs.Keys
import BottomUp.Proofs.Attributes
import BottomUp.Proofs.Paths
import BottomUp.Proofs.Shapes
import BottomUp.Proofs.Coverage
import BottomUp.Proofs.FirstDescent
