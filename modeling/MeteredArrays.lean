import MeteredArrays.Format.Binary
import MeteredArrays.Format.Text
import MeteredArrays.Invocation.Call
import MeteredArrays.Invocation.Chain
import MeteredArrays.Invocation.Ending
import MeteredArrays.Proofs.Energy.Settlement
import MeteredArrays.Proofs.Heap.Effort
import MeteredArrays.Proofs.History
import MeteredArrays.Proofs.Invocation.Accounting
import MeteredArrays.Proofs.Invocation.Audit
import MeteredArrays.Proofs.Invocation.Cleanness
import MeteredArrays.Proofs.Invocation.Cloning
import MeteredArrays.Proofs.Invocation.ExactCommit
import MeteredArrays.Proofs.Invocation.Faults
import MeteredArrays.Proofs.Invocation.Finality
import MeteredArrays.Proofs.Invocation.Integrity
import MeteredArrays.Proofs.Invocation.Lifecycle
import MeteredArrays.Proofs.Invocation.Lockstep
import MeteredArrays.Proofs.Invocation.OnDemand
import MeteredArrays.Proofs.Invocation.Prefix
import MeteredArrays.Proofs.Invocation.Rejection
import MeteredArrays.Proofs.Invocation.Reload
import MeteredArrays.Proofs.Invocation.Solvency
import MeteredArrays.Proofs.Invocation.Transparency
import MeteredArrays.Proofs.Layering
import MeteredArrays.Proofs.Record.Canonical
import MeteredArrays.Proofs.Record.Framing
import MeteredArrays.Proofs.Record.Grammar
import MeteredArrays.Proofs.Record.RoundTrip
import MeteredArrays.Proofs.Storage.Atomicity
import MeteredArrays.Proofs.Storage.Counter
import MeteredArrays.Proofs.Storage.Freshness
import MeteredArrays.Proofs.Storage.Transactions
import MeteredArrays.Proofs.Workspace.Committed
import MeteredArrays.Proofs.Workspace.DepthFirst
import MeteredArrays.Proofs.Workspace.Isolation
import MeteredArrays.Proofs.Workspace.Renaming
import MeteredArrays.Proofs.Workspace.Repeat
import MeteredArrays.Storage.Layers
import MeteredArrays.Storage.Memory
import MeteredArrays.Storage.Rationed
