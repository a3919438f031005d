import Mutual.Proof.Members
import Mutual.Proof.Matches
import Mutual.Proof.Subset
import Mutual.Concurrency.Linearizability
import Mutual.Proof.Insertion
import Mutual.Proof.Locking
import Mutual.Proof.MutexExclusion
import Mutual.Proof.Reading
import Mutual.Proof.Refinement
import Mutual.Proof.Removal
import Mutual.Proof.Stack
import Mutual.CowCalls
import Mutual.Proof.LockLeak
import Mutual.Concurrency.Composite
import Mutual.SharedMap
import Mutual.Proof.Buckets
import Mutual.Proof.InsertFrame
import Mutual.Proof.Capacity
import Mutual.Data.Trail
import Mutual.Proof.Iteration
import Mutual.Proof.Lookups
import Mutual.Proof.Membership
import Mutual.SharedSet
import Mutual.PlainMap
import Mutual.Proof.MapRefinement
import Mutual.Data.Grading
import Mutual.Data.Sight
import Mutual.Concurrency.Layers
import Mutual.Proof.Phases
import Mutual.Concurrency.Exclusion
import Mutual.CowShared
import Mutual.Proof.ImmLocks
import Mutual.Proof.SlotLocks
import Mutual.Proof.Counting
import Mutual.Proof.Sorting
import Mutual.Proof.Agreement
import Mutual.Proof.Settling
import Mutual.Proof.ComputeIfAbsent
import Mutual.Proof.Overwriting
import Mutual.Proof.Placing
import Mutual.Proof.Presence
import Mutual.Proof.MutexProgress
import Mutual.Proof.SortedInsertion
import Mutual.Proof.FirstMatches
import Mutual.Proof.MutPasses
import Mutual.Proof.Computing
import Mutual.CowGuarded
import Mutual.Proof.GuardWrites
import Mutual.Proof.GuardData
import Mutual.Proof.SwapBalance
import Mutual.Proof.Awaiting
import Mutual.Proof.SecondFind
import Mutual.Concurrency.Debts
import Mutual.Concurrency.Altered
import Mutual.Concurrency.Unwinding
import Mutual.Proof.Callbacks
import Mutual.Proof.Unlocking
import Mutual.Proof.Recounting
import Mutual.Proof.Ordering
import Mutual.Proof.StoredOnce
import Mutual.Proof.Bumping
import Mutual.Proof.Displacing
import Mutual.Proof.NonBlocking
import Mutual.Concurrency.Points
import Mutual.Proof.Registers
import Mutual.Proof.StackSteps
import Mutual.Proof.Snapshots
import Mutual.Concurrency.Draining
import Mutual.Proof.Resting
import Mutual.Concurrency.Completion
import Mutual.Proof.Conservation
import Mutual.Concurrency.Provenance
import Mutual.Proof.Origins
import Mutual.Proof.EntryOrigins
import Mutual.Proof.MutexHome
import Mutual.HashTable
import Mutual.Proof.Colliding
import Mutual.MutexSections
import Mutual.Proof.MutexSections
import Mutual.Concurrency.Weaving
import Mutual.Proof.BucketRuns
import Mutual.Proof.MutexWaiting
import Mutual.Proof.Tours
