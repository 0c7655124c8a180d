import ReachingWrites.ClassTable
import ReachingWrites.Reaching.Analysis
import ReachingWrites.Reaching.Listing
import ReachingWrites.Proofs.Fixpoint.Turn
import ReachingWrites.Proofs.Failure
import ReachingWrites.Proofs.Ordinals
import ReachingWrites.Proofs.FlowGraph.Predecessors
import ReachingWrites.Proofs.Fixpoint.Equations
import ReachingWrites.Proofs.Fixpoint.Least
import ReachingWrites.Proofs.Fixpoint.Effort
import ReachingWrites.Proofs.BitSet.Members
import ReachingWrites.Proofs.BitSet.Lattice
import ReachingWrites.Proofs.Transfer.Basic
import ReachingWrites.Proofs.Facts.Numbering
import ReachingWrites.Proofs.Transfer.Blocks
import ReachingWrites.Proofs.Reaching.Prepared
import ReachingWrites.Proofs.Reaching.Termination
import ReachingWrites.Proofs.Facts.Places
import ReachingWrites.Proofs.Reaching.Paths
import ReachingWrites.Proofs.Fixpoint.Course
import ReachingWrites.Proofs.Fixpoint.Journal
import ReachingWrites.Proofs.Fixpoint.GrowthCheck
import ReachingWrites.Proofs.Fixpoint.Cancellation
import ReachingWrites.Proofs.Fixpoint.Visits
import ReachingWrites.Proofs.Fixpoint.Replay
import ReachingWrites.Proofs.Facts.ScanOrder
import ReachingWrites.Proofs.FlowGraph.Transpose
import ReachingWrites.Proofs.Reaching.Preparation
import ReachingWrites.Proofs.BitSet.Cursor
import ReachingWrites.Proofs.Reaching.Positions
import ReachingWrites.Proofs.Reaching.Aliasing
import ReachingWrites.Proofs.FlowGraph.Cut
import ReachingWrites.Proofs.Reaching.Cut
import ReachingWrites.Proofs.Facts.Partition
import ReachingWrites.Proofs.Reaching.AddedEdges
import ReachingWrites.Proofs.Reaching.Renumbering
import ReachingWrites.Proofs.FlowGraph.Distinct
import ReachingWrites.Proofs.Reaching.Distinct
import ReachingWrites.Proofs.BitSet.Iteration
import ReachingWrites.Proofs.BitSet.Refinement
import ReachingWrites.Proofs.Transfer.Composition
import ReachingWrites.Proofs.Transfer.ClosedForm
import ReachingWrites.Proofs.ClassTable.Nearest
import ReachingWrites.Proofs.ClassTable.Contents
import ReachingWrites.Proofs.BitSet.Confined
import ReachingWrites.Proofs.Reaching.Queries
import ReachingWrites.Proofs.Fixpoint.Sweep
import ReachingWrites.Proofs.Fixpoint.Integrity
import ReachingWrites.Proofs.Text.Lines
import ReachingWrites.Proofs.Text.Readings
import ReachingWrites.Proofs.Reaching.Listing
