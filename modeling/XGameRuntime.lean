import XGameRuntime.Concurrency.Pool
import XGameRuntime.Concurrency.Traces
import XGameRuntime.Concurrency.Arena
import XGameRuntime.Concurrency.Ledger
import XGameRuntime.Concurrency.Registrations
import XGameRuntime.Concurrency.Deadlock
import XGameRuntime.Concurrency.Names
import XGameRuntime.Concurrency.Threads
import XGameRuntime.Concurrency.Windows
import XGameRuntime.Results
import XGameRuntime.Bytes.Memory
import XGameRuntime.Bytes.Stream
import XGameRuntime.Bytes.Text
import XGameRuntime.Bytes.Sextets
import XGameRuntime.Bytes.Slices
import XGameRuntime.Ipc.Transport
import XGameRuntime.Ipc.Socket
import XGameRuntime.Ipc.Parking
import XGameRuntime.Ipc.Base64
import XGameRuntime.Ipc.Hex
import XGameRuntime.Config.GameConfig
import XGameRuntime.HandleTable
import XGameRuntime.HandleTable.Calls
import XGameRuntime.XUser.Users
import XGameRuntime.XUser.Holders
import XGameRuntime.XUser.Accounts
import XGameRuntime.XUser.Registry
import XGameRuntime.XUser.SignIn
import XGameRuntime.XUser.SignOut
import XGameRuntime.XUser.Listeners
import XGameRuntime.TaskQueue.Port
import XGameRuntime.TaskQueue.Queue
import XGameRuntime.TaskQueue.Machine
import XGameRuntime.TaskQueue.Api
import XGameRuntime.TaskQueue.History
import XGameRuntime.TaskQueue.Callbacks
import XGameRuntime.TaskQueue.Placement
import XGameRuntime.TaskQueue.Counting
import XGameRuntime.TaskQueue.InFlight
import XGameRuntime.TaskQueue.Tally
import XGameRuntime.TaskQueue.Submitted
import XGameRuntime.TaskQueue.Termination
import XGameRuntime.TaskQueue.Load
import XGameRuntime.TaskQueue.Live
import XGameRuntime.XAsync.State
import XGameRuntime.XAsync.Engine
import XGameRuntime.XAsync.Steps
import XGameRuntime.XAsync.Invariant
import XGameRuntime.XAsync.Parking
import XGameRuntime.XAsync.Status
import XGameRuntime.XAsync.Protocol
import XGameRuntime.XAsync.Operations
import XGameRuntime.XAsync.Contexts
import XGameRuntime.XAsync.Lifetime
import XGameRuntime.XAsync.Polling
import XGameRuntime.XAsync.Observation
import XGameRuntime.TaskQueue.ProcessQueue
import XGameRuntime.TaskQueue.Provenance
import XGameRuntime.TaskQueue.Names
import XGameRuntime.XAsync.Routing
import XGameRuntime.XAsync.Affinity
import XGameRuntime.XAsync.Notification
import XGameRuntime.XAsync.Handover
import XGameRuntime.TaskQueue.Monitors
import XGameRuntime.TaskQueue.Refusal
import XGameRuntime.XAsync.Refusal
import XGameRuntime.ResultTables.Buffers
import XGameRuntime.ResultTables.Strings
import XGameRuntime.ResultTables.Freshness
import XGameRuntime.GameSave.Confinement
import XGameRuntime.GameSave.Update
import XGameRuntime.GameSave.Batch
import XGameRuntime.GameSave.Reads
import XGameRuntime.GameSave.Views
import XGameRuntime.Retrieval
import XGameRuntime.XAsync.Payloads
import XGameRuntime.XAsync.SingleRun
import XGameRuntime.XAsync.Workers
import XGameRuntime.XAsync.RunSync
import XGameRuntime.XAsync.References
import XGameRuntime.XAsync.Isolation
import XGameRuntime.TaskQueue.Order
import XGameRuntime.TaskQueue.Turns
import XGameRuntime.TaskQueue.Serialized
import XGameRuntime.TaskQueue.ReadyOrder
import XGameRuntime.TaskQueue.Dispatch
import XGameRuntime.TaskQueue.Waiter
import XGameRuntime.TaskQueue.Notifying
import XGameRuntime.TaskQueue.Timing
import XGameRuntime.TaskQueue.Use
import XGameRuntime.TaskQueue.Lifetime
import XGameRuntime.Unregistration
import XGameRuntime.TaskQueue.Rules
import XGameRuntime.TaskQueue.Deadlock
import XGameRuntime.TaskQueue.LockOrder
import XGameRuntime.Pickers.Operation
import XGameRuntime.Pickers.Completion
import XGameRuntime.Pickers.Delivery
import XGameRuntime.Pickers.Deferred
import XGameRuntime.Pickers.Work
import XGameRuntime.Runtime.Lifecycle
import XGameRuntime.XStore.Runs
import XGameRuntime.Ipc.Tokens
