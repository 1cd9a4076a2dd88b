import FlowTrace.Main
import FlowTrace.Proofs.Table
import FlowTrace.Proofs.Lattice.Names
import FlowTrace.Proofs.Lattice.Constants
import FlowTrace.Proofs.Program.Order
import FlowTrace.Proofs.Graph.Blocks
import FlowTrace.Proofs.Graph.WellFormed
import FlowTrace.Proofs.Dataflow.System
import FlowTrace.Proofs.Dataflow.Actions
import FlowTrace.Proofs.Dataflow.Reading
import FlowTrace.Proofs.Dataflow.Rise
import FlowTrace.Proofs.Dataflow.Fixpoint
import FlowTrace.Proofs.Dataflow.GainLoss
import FlowTrace.Proofs.Dataflow.Knowledge
import FlowTrace.Proofs.Dataflow.LeastSolution
import FlowTrace.Proofs.Dataflow.Execution
import FlowTrace.Proofs.Dataflow.Transfer
import FlowTrace.Proofs.Dataflow.LivePaths
import FlowTrace.Proofs.Dataflow.Granularity
import FlowTrace.Proofs.Graph.Chains
import FlowTrace.Proofs.Dataflow.Tags
import FlowTrace.Proofs.Dataflow.ReachingPaths
import FlowTrace.Proofs.Graph.Quotient
import FlowTrace.Proofs.Dataflow.Agreement
import FlowTrace.Proofs.Dataflow.Analysis
import FlowTrace.Proofs.Dataflow.Chaotic
import FlowTrace.Proofs.Graph.Builds
import FlowTrace.Proofs.Program.Renaming
import FlowTrace.Proofs.Graph.Renaming
import FlowTrace.Proofs.Dataflow.Renaming
import FlowTrace.Proofs.Dataflow.Independence
import FlowTrace.Proofs.Session.Stepping
import FlowTrace.Proofs.Session.Reselection
import FlowTrace.Proofs.Text.Cutting
import FlowTrace.Proofs.Text.Decimal
import FlowTrace.Proofs.Source.Spelling
import FlowTrace.Proofs.Source.Grammar
import FlowTrace.Proofs.Source.RoundTrip
import FlowTrace.Proofs.Source.Acceptance
import FlowTrace.Proofs.Source.Locality
import FlowTrace.Proofs.Source.Segments
import FlowTrace.Proofs.Navigator.Cursor
import FlowTrace.Proofs.Navigator.Window
import FlowTrace.Proofs.Source.Diagnosis
import FlowTrace.Proofs.Navigator.Memo
import FlowTrace.Proofs.Dataflow.Assigned
import FlowTrace.Proofs.Session.Consistency
import FlowTrace.Proofs.Dataflow.Marks
import FlowTrace.Proofs.Dataflow.Sweeps
import FlowTrace.Proofs.Graph.BackEdges
import FlowTrace.Proofs.Program.Labels
import FlowTrace.Proofs.Dataflow.SweepBound
import FlowTrace.Proofs.Dataflow.Ascent
import FlowTrace.Proofs.Dataflow.Contributions
import FlowTrace.Proofs.Graph.Leaders
import FlowTrace.Proofs.Report.Pages
import FlowTrace.Proofs.Command.Printing
import FlowTrace.Proofs.Source.Forms
import FlowTrace.Proofs.Source.ViablePrefix
import FlowTrace.Proofs.Source.Expectations
import FlowTrace.Proofs.Source.Vocabulary
import FlowTrace.Proofs.Source.Repetition
import FlowTrace.Proofs.Text.Display
import FlowTrace.Proofs.Report.Excerpt
import FlowTrace.Proofs.Dataflow.Accesses
import FlowTrace.Proofs.Dataflow.GenKill
import FlowTrace.Proofs.Sort
import FlowTrace.Proofs.Text.NaturalKey
import FlowTrace.Proofs.Session.NameOrder
import FlowTrace.Proofs.Text.Escapes
import FlowTrace.Proofs.Dataflow.Maintained
import FlowTrace.Proofs.Dataflow.FactNames
import FlowTrace.Proofs.Report.Colors
import FlowTrace.Proofs.Lattice.Laws
import FlowTrace.Proofs.Dataflow.Replay
import FlowTrace.Proofs.Source.Division
import FlowTrace.Proofs.Source.Pieces
