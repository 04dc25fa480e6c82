import GoMachine.Builtin
import GoMachine.Channel
import GoMachine.Character.Extending
import GoMachine.Character.Ranges
import GoMachine.Character.Unprinted
import GoMachine.Decimal
import GoMachine.Fault
import GoMachine.Heap.Basic
import GoMachine.Heap.Error
import GoMachine.Heap.Header
import GoMachine.Heap.Sweep
import GoMachine.Lock
import GoMachine.Lowering
import GoMachine.Machine
import GoMachine.Machine.Calls
import GoMachine.Machine.Communication
import GoMachine.Machine.Composite
import GoMachine.Machine.Flow
import GoMachine.Machine.Names
import GoMachine.Machine.Natives
import GoMachine.Machine.Rules
import GoMachine.Machine.Turn
import GoMachine.Memory
import GoMachine.Node
import GoMachine.Outline
import GoMachine.Pool
import GoMachine.Proofs.Aggregates.Built
import GoMachine.Proofs.Aggregates.Depth
import GoMachine.Proofs.Aggregates.Furnished
import GoMachine.Proofs.Aggregates.Recalls
import GoMachine.Proofs.Aggregates.Trails
import GoMachine.Proofs.Aggregates.Zero
import GoMachine.Proofs.Atomic.Constructors
import GoMachine.Proofs.Atomic.Restores
import GoMachine.Proofs.Atomic.Values
import GoMachine.Proofs.Counts
import GoMachine.Proofs.Exchange.Balance
import GoMachine.Proofs.Exchange.Log
import GoMachine.Proofs.Exchange.Moves
import GoMachine.Proofs.Exchange.Once
import GoMachine.Proofs.Exchange.Operations
import GoMachine.Proofs.Exchange.Scene
import GoMachine.Proofs.Exchange.Select
import GoMachine.Proofs.Exchange.Session
import GoMachine.Proofs.Exchange.Shown
import GoMachine.Proofs.Exchange.Stage
import GoMachine.Proofs.Following
import GoMachine.Proofs.Gives
import GoMachine.Proofs.Heap.Arises
import GoMachine.Proofs.Heap.Cascade
import GoMachine.Proofs.Heap.Cell
import GoMachine.Proofs.Heap.Client
import GoMachine.Proofs.Heap.Collect
import GoMachine.Proofs.Heap.Copy
import GoMachine.Proofs.Heap.Edges
import GoMachine.Proofs.Heap.Exact
import GoMachine.Proofs.Heap.Facts
import GoMachine.Proofs.Heap.Outcome
import GoMachine.Proofs.Heap.Owns
import GoMachine.Proofs.Heap.Prune
import GoMachine.Proofs.Heap.Raise
import GoMachine.Proofs.Heap.Records
import GoMachine.Proofs.Heap.Refused
import GoMachine.Proofs.Heap.Reports
import GoMachine.Proofs.Heap.Sweep
import GoMachine.Proofs.Heap.Write
import GoMachine.Proofs.Loading.Failure
import GoMachine.Proofs.Locking.Chronicle
import GoMachine.Proofs.Locking.Contention
import GoMachine.Proofs.Locking.Exclusion
import GoMachine.Proofs.Locking.Layout
import GoMachine.Proofs.Locking.Moves
import GoMachine.Proofs.Locking.Semaphore
import GoMachine.Proofs.Locking.WaitGroup
import GoMachine.Proofs.Owns.Calls
import GoMachine.Proofs.Owns.Channels
import GoMachine.Proofs.Owns.Composite
import GoMachine.Proofs.Owns.Lowering
import GoMachine.Proofs.Owns.Machine
import GoMachine.Proofs.Owns.Nodes
import GoMachine.Proofs.Owns.Statements
import GoMachine.Proofs.Owns.Threads
import GoMachine.Proofs.Owns.Turn
import GoMachine.Proofs.Owns.Types
import GoMachine.Proofs.Owns.Values
import GoMachine.Proofs.Pool.Block
import GoMachine.Proofs.Pool.Buddy
import GoMachine.Proofs.Pool.Client
import GoMachine.Proofs.Pool.Complete
import GoMachine.Proofs.Pool.FreeList
import GoMachine.Proofs.Pool.Refusal
import GoMachine.Proofs.Pool.Tiling
import GoMachine.Proofs.Pool.Words
import GoMachine.Proofs.Ran
import GoMachine.Proofs.Schedule.Channels
import GoMachine.Proofs.Schedule.Collect
import GoMachine.Proofs.Schedule.Composite
import GoMachine.Proofs.Schedule.Guards
import GoMachine.Proofs.Schedule.Known
import GoMachine.Proofs.Schedule.Lowering
import GoMachine.Proofs.Schedule.Machine
import GoMachine.Proofs.Schedule.Nodes
import GoMachine.Proofs.Schedule.Orderly
import GoMachine.Proofs.Schedule.Round
import GoMachine.Proofs.Schedule.RunQueue
import GoMachine.Proofs.Schedule.Statements
import GoMachine.Proofs.Schedule.Tame
import GoMachine.Proofs.Schedule.Threads
import GoMachine.Proofs.Schedule.Turns
import GoMachine.Proofs.Schedule.Values
import GoMachine.Proofs.Scopes.Lookup
import GoMachine.Proofs.Scopes.Namer
import GoMachine.Proofs.Shuffle
import GoMachine.Proofs.Slices.Append
import GoMachine.Proofs.Slices.Contents
import GoMachine.Proofs.Slices.Made
import GoMachine.Proofs.Slices.Session
import GoMachine.Proofs.Slices.Store
import GoMachine.Proofs.Store.Aside
import GoMachine.Proofs.Store.Basic
import GoMachine.Proofs.Store.Chains
import GoMachine.Proofs.Store.Keeper
import GoMachine.Proofs.Strings.Making
import GoMachine.Proofs.Strings.Spelling
import GoMachine.Proofs.Strings.Writer
import GoMachine.Proofs.Tasks.Calls
import GoMachine.Proofs.Tasks.Channels
import GoMachine.Proofs.Tasks.Choices
import GoMachine.Proofs.Tasks.Code
import GoMachine.Proofs.Tasks.Composites
import GoMachine.Proofs.Tasks.Deliver
import GoMachine.Proofs.Tasks.Exchanges
import GoMachine.Proofs.Tasks.Forks
import GoMachine.Proofs.Tasks.Knows
import GoMachine.Proofs.Tasks.Locks
import GoMachine.Proofs.Tasks.Lowered
import GoMachine.Proofs.Tasks.Nesting
import GoMachine.Proofs.Tasks.Operands
import GoMachine.Proofs.Tasks.Queues
import GoMachine.Proofs.Tasks.Retains
import GoMachine.Proofs.Tasks.Roles
import GoMachine.Proofs.Tasks.Sees
import GoMachine.Proofs.Tasks.Stacks
import GoMachine.Proofs.Tasks.Turn
import GoMachine.Proofs.Tasks.Waits
import GoMachine.Proofs.Teardown
import GoMachine.Random
import GoMachine.Scope
import GoMachine.Select
import GoMachine.Snapshot
import GoMachine.Syntax
import GoMachine.Tag
import GoMachine.Thread
import GoMachine.Value.Aggregate
import GoMachine.Value.Cell
import GoMachine.Value.Chain
import GoMachine.Value.Operator
import GoMachine.Value.Scalar
import GoMachine.Value.Text
import GoMachine.Value.TypeDesc
import GoMachine.Value.View
import GoMachine.Value.Zero
