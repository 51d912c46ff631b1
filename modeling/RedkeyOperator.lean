import RedkeyOperator.Interleave.Program
import RedkeyOperator.Interleave.System
import RedkeyOperator.Interleave.Exec
import RedkeyOperator.Interleave.Automaton
import RedkeyOperator.Interleave.Pool
import RedkeyOperator.Interleave.Observer
import RedkeyOperator.Interleave.Product
import RedkeyOperator.Interleave.Parallel
import RedkeyOperator.Api.GoValue
import RedkeyOperator.Api.Filled
import RedkeyOperator.Api.Types
import RedkeyOperator.Api.Admission
import RedkeyOperator.Kube.Store
import RedkeyOperator.Kube.World
import RedkeyOperator.Kube.Fleet
import RedkeyOperator.Kube.Authorization
import RedkeyOperator.Kube.Frame
import RedkeyOperator.Kube.Names
import RedkeyOperator.Kube.Direct
import RedkeyOperator.Data.Keyed
import RedkeyOperator.Data.Cel
import RedkeyOperator.Data.LastWins
import RedkeyOperator.Data.Slice
import RedkeyOperator.Api.AdmissionHistory
import RedkeyOperator.Controller.Status
import RedkeyOperator.Controller.Conditions
import RedkeyOperator.Controller.Config
import RedkeyOperator.Controller.Pure
import RedkeyOperator.Controller.Snapshot
import RedkeyOperator.Controller.Metrics
import RedkeyOperator.Controller.Gauges
import RedkeyOperator.Controller.Cleanup
import RedkeyOperator.Controller.Robin
import RedkeyOperator.Controller.Ensure
import RedkeyOperator.Controller.EnvVars
import RedkeyOperator.Controller.RobinIdentity
import RedkeyOperator.Controller.RobinDeployment
import RedkeyOperator.Controller.Reconcile
import RedkeyOperator.Controller.Calls
import RedkeyOperator.Controller.Emits
import RedkeyOperator.Controller.Sent
import RedkeyOperator.Controller.Signed
import RedkeyOperator.Controller.Undisturbed
import RedkeyOperator.Controller.Rbac
import RedkeyOperator.Controller.Ownership
import RedkeyOperator.Controller.RobinEdits
import RedkeyOperator.Data.Block
import RedkeyOperator.Data.Forall2
import RedkeyOperator.Protocol.Machine
import RedkeyOperator.Protocol.Refinement
import RedkeyOperator.Protocol.Isolation
import RedkeyOperator.Protocol.Trace
import RedkeyOperator.Protocol.History
import RedkeyOperator.Protocol.StatusHistory
import RedkeyOperator.Protocol.Resume
import RedkeyOperator.Protocol.Generations
import RedkeyOperator.Protocol.NoLostUpdate
import RedkeyOperator.Protocol.Lineage
import RedkeyOperator.Protocol.Phases
import RedkeyOperator.Protocol.Topology
import RedkeyOperator.Protocol.WakeUp
import RedkeyOperator.Protocol.Baseline
import RedkeyOperator.Protocol.Health
import RedkeyOperator.Protocol.ScaleToZero
import RedkeyOperator.Protocol.Recreated
import RedkeyOperator.Protocol.Upkeep
import RedkeyOperator.Protocol.Orphans
import RedkeyOperator.Protocol.Leftovers
import RedkeyOperator.Protocol.Owned
import RedkeyOperator.Protocol.Provision
import RedkeyOperator.Protocol.Equipped
import RedkeyOperator.Protocol.Granting
import RedkeyOperator.Protocol.Permissions
import RedkeyOperator.Interleave.Behaviour
import RedkeyOperator.Protocol.Newest
import RedkeyOperator.Protocol.Part
import RedkeyOperator.Protocol.Fleet
import RedkeyOperator.Protocol.Replicas
import RedkeyOperator.Data.JobQueue
import RedkeyOperator.Protocol.Queue
import RedkeyOperator.Protocol.Progress
import RedkeyOperator.Protocol.Fairness
import RedkeyOperator.Protocol.Convergence
import RedkeyOperator.Protocol.Emptying
import RedkeyOperator.Protocol.Repair
import RedkeyOperator.Protocol.Telemetry
