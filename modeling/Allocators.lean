import Allocators.AlignedAlloc
import Allocators.AllocHelpers
import Allocators.ContentionFree.Exclusion
import Allocators.ContentionFree.Mutex
import Allocators.ContentionFree.Progress
import Allocators.ContentionFree.Recursion
import Allocators.ContentionFree.Steps
import Allocators.FreeList.Arena
import Allocators.FreeList.Coalescing
import Allocators.FreeList.Conservation
import Allocators.FreeList.Drift
import Allocators.FreeList.Entries
import Allocators.FreeList.Equivalence
import Allocators.FreeList.FirstFit
import Allocators.FreeList.Policy
import Allocators.FreeList.Requests
import Allocators.FreeList.Safety
import Allocators.FreeList.Steps
import Allocators.FreeList.Storage
import Allocators.IndexList
import Allocators.Lib.BlockPool
import Allocators.Lib.Extent
import Allocators.Lib.Holes
import Allocators.Lib.Ledger
import Allocators.Lib.Lifetime
import Allocators.Lib.Links
import Allocators.Lib.LockOrder
import Allocators.Lib.Memory
import Allocators.Lib.Moves
import Allocators.Lib.Pending
import Allocators.Lib.Run
import Allocators.Lib.Scan
import Allocators.Lib.Vector
import Allocators.Linear
import Allocators.ListT.Allocation
import Allocators.ListT.Heap
import Allocators.ListT.Memory
import Allocators.ListT.Nodes
import Allocators.ListT.Ownership
import Allocators.ListT.Refinement
import Allocators.ListT.SameList
import Allocators.ListT.Sequences
import Allocators.ListT.Writes
import Allocators.SharedMutex.Addresses
import Allocators.SharedMutex.Exclusion
import Allocators.SharedMutex.Mutex
import Allocators.SharedMutex.Owner
import Allocators.SharedMutex.Progress
import Allocators.SharedMutex.Sections
import Allocators.SharedMutex.TryLock
import Allocators.SizeClasses
import Allocators.SlabImpl.Cache
import Allocators.SlabImpl.Exhaustion
import Allocators.SlabImpl.Filled
import Allocators.SlabImpl.Growth
import Allocators.SlabImpl.Pool
import Allocators.SlabImpl.Steps
import Allocators.SlabImpl.Traced
import Allocators.SlabImpl.Transfer
import Allocators.SlabMem.Doubling
import Allocators.SlabMem.IndexLists
import Allocators.SlabMem.Interface
import Allocators.SlabMem.LargeBlocks
import Allocators.SlabMem.LateCaches
import Allocators.SlabMem.Release
import Allocators.SlabMem.Routing
import Allocators.SlabMulti.ActiveSlab
import Allocators.SlabMulti.Buckets
import Allocators.SlabMulti.Cache
import Allocators.SlabMulti.Calls
import Allocators.SlabMulti.Client
import Allocators.SlabMulti.Deferred
import Allocators.SlabMulti.Depot
import Allocators.SlabMulti.Dispatcher
import Allocators.SlabMulti.Exhaustion
import Allocators.SlabMulti.ForeignFrees
import Allocators.SlabMulti.Handles
import Allocators.SlabMulti.Interface
import Allocators.SlabMulti.Interleaving
import Allocators.SlabMulti.Leaks
import Allocators.SlabMulti.Loans
import Allocators.SlabMulti.Locks
import Allocators.SlabMulti.MapLock
import Allocators.SlabMulti.Overlapping
import Allocators.SlabMulti.Rearrangement
import Allocators.SlabMulti.Representation
import Allocators.SlabMulti.Routing
import Allocators.SlabMulti.Rows
import Allocators.SlabMulti.Safety
import Allocators.SlabMulti.Search
import Allocators.SlabMulti.Shelf
import Allocators.SlabMulti.Sizes
import Allocators.SlabMulti.Stock
import Allocators.SlabMulti.Visits
import Allocators.SlabMulti.Waste
import Allocators.SlabObj.Capacity
import Allocators.SlabObj.Interface
import Allocators.SlabObj.Lifetimes
import Allocators.SmpContainer
