import MemoGraph.Graph.Checked
import MemoGraph.Graph.Dump
import MemoGraph.Round.Message
import MemoGraph.Script.Workspace
import MemoGraph.Proofs.Graph.Edges
import MemoGraph.Proofs.Graph.Sweep
import MemoGraph.Proofs.Graph.Reliance
import MemoGraph.Proofs.Round.Reading
import MemoGraph.Proofs.Round.Signals
import MemoGraph.Proofs.Cycle.Search
import MemoGraph.Proofs.Round.Ground
import MemoGraph.Proofs.Round.Report
import MemoGraph.Proofs.Sample
import MemoGraph.Proofs.Session.History
import MemoGraph.Proofs.Session.KeepGoing
import MemoGraph.Proofs.Cycle.Breaking
import MemoGraph.Proofs.Session.Accounts
import MemoGraph.Proofs.Session.CycleErrors
import MemoGraph.Proofs.Session.CycleVerdicts
import MemoGraph.Proofs.Session.Justified
import MemoGraph.Proofs.Round.Founded
import MemoGraph.Proofs.Round.Replay
import MemoGraph.Proofs.Session.Founded
import MemoGraph.Proofs.Session.FromScratch
import MemoGraph.Proofs.Session.Verification
import MemoGraph.Proofs.Session.Coverage
import MemoGraph.Proofs.Session.FailFast
import MemoGraph.Proofs.Session.Orders
import MemoGraph.Proofs.Session.Agreement
import MemoGraph.Proofs.Session.Changes
import MemoGraph.Proofs.Session.Causes
import MemoGraph.Proofs.Session.Values
import MemoGraph.Proofs.Session.Reasons
import MemoGraph.Proofs.Graph.Walk
import MemoGraph.Proofs.Session.Deletion
import MemoGraph.Proofs.Round.Arrivals
import MemoGraph.Proofs.Session.Resurrection
import MemoGraph.Proofs.Round.Restarts
import MemoGraph.Proofs.Session.Termination
import MemoGraph.Proofs.Session.Contracts
import MemoGraph.Proofs.Session.Interrupts
import MemoGraph.Proofs.Session.Recording
import MemoGraph.Proofs.Session.ComputeState
import MemoGraph.Proofs.Session.Signals
import MemoGraph.Proofs.Failure.Propagation
import MemoGraph.Proofs.Graph.Dump
