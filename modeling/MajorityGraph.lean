import MajorityGraph.Signal
import MajorityGraph.Pairing
import MajorityGraph.Fault
import MajorityGraph.TruthTable.Basic
import MajorityGraph.TruthTable.Text
import MajorityGraph.IndexList.Literal
import MajorityGraph.Network.NodeData
import MajorityGraph.UniqueTable
import MajorityGraph.IndexList.Basic
import MajorityGraph.Journal
import MajorityGraph.Network.Basic
import MajorityGraph.Network.Build
import MajorityGraph.Network.Substitute
import MajorityGraph.LogicNetwork
import MajorityGraph.Simulation
import MajorityGraph.Cut
import MajorityGraph.Mffc
import MajorityGraph.Network.Cleanup
import MajorityGraph.ConeView
import MajorityGraph.IndexList.Simulate
import MajorityGraph.Network.Insert
import MajorityGraph.Resynthesis
import MajorityGraph.Text.Decimal
import MajorityGraph.Window
import MajorityGraph.Optimize.Commit
import MajorityGraph.Optimize.Refactor
import MajorityGraph.Optimize.Resubstitute
import MajorityGraph.Random.ChaCha
import MajorityGraph.Random.Uniform
import MajorityGraph.Demo.Options
import MajorityGraph.Demo.Run
import MajorityGraph.Main
import MajorityGraph.Proofs.Run
import MajorityGraph.Proofs.UniqueTable.Chains
import MajorityGraph.Proofs.UniqueTable.Links
import MajorityGraph.Proofs.UniqueTable.Runs
import MajorityGraph.Proofs.Network.WellFormed
import MajorityGraph.Proofs.Network.Normalize
import MajorityGraph.Proofs.Network.Semantics
import MajorityGraph.Proofs.Network.Gates
import MajorityGraph.Proofs.Network.TakeOut
import MajorityGraph.Proofs.Network.Redirect
import MajorityGraph.Proofs.Network.Substitution
import MajorityGraph.Proofs.Network.HashConsing
import MajorityGraph.Proofs.Network.Coherence
import MajorityGraph.Proofs.IndexList.Codec
import MajorityGraph.Proofs.IndexList.Rejection
import MajorityGraph.Proofs.Simulation.NetworkOrder
import MajorityGraph.Proofs.Simulation.Tables
import MajorityGraph.Proofs.TruthTable.Words
import MajorityGraph.Proofs.TruthTable.Tests
import MajorityGraph.Proofs.Simulation.Values
import MajorityGraph.Proofs.Simulation.Denotation
import MajorityGraph.Proofs.Simulation.ConeViews
import MajorityGraph.Proofs.Mffc.Cone
import MajorityGraph.Proofs.Mffc.Removal
import MajorityGraph.Proofs.Network.Bookkeeping
import MajorityGraph.Proofs.Network.Worklist
import MajorityGraph.Proofs.Network.Progress
import MajorityGraph.Proofs.Network.Mutations
import MajorityGraph.Proofs.Simulation.Majorities
import MajorityGraph.Proofs.IndexList.Replay
import MajorityGraph.Proofs.Resynthesis.Relations
import MajorityGraph.Proofs.Resynthesis.Search
import MajorityGraph.Proofs.Resynthesis.Exactness
import MajorityGraph.Proofs.Network.Cleanup
import MajorityGraph.Proofs.Resynthesis.Engine
import MajorityGraph.Proofs.Resynthesis.Completeness
import MajorityGraph.Proofs.Cut.Separation
import MajorityGraph.Proofs.TruthTable.Bits
import MajorityGraph.Proofs.Simulation.Cuts
import MajorityGraph.Proofs.Cut.Growth
import MajorityGraph.Proofs.Window.Divisors
import MajorityGraph.Proofs.View.Preorder
import MajorityGraph.Proofs.View.Sort
import MajorityGraph.Proofs.View.Soundness
import MajorityGraph.Proofs.Simulation.Exact
import MajorityGraph.Proofs.TruthTable.Ones
import MajorityGraph.Proofs.TruthTable.Algebra
import MajorityGraph.Proofs.TruthTable.Hex
import MajorityGraph.Proofs.View.Functions
import MajorityGraph.Proofs.Pairing
