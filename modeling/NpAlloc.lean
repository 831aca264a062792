import NpAlloc.GlobalPool.Singleton
import NpAlloc.Mmap.Creep
import NpAlloc.Mmap.FailedCommit
import NpAlloc.Pool.Containment
import NpAlloc.Pool.Shortage
import NpAlloc.Pool.ChunkCount
import NpAlloc.Pool.SizeTable
import NpAlloc.Mmap.Exhaustion
import NpAlloc.Mmap.Reserve
import NpAlloc.LfStack.Refinement
import NpAlloc.LfStack.EveryNode
import NpAlloc.Threads.Conservation
import NpAlloc.Threads.Leaks
import NpAlloc.Threads.Alignment
import NpAlloc.Shutdown.Safety
import NpAlloc.AtExit.PoolLifetime
import NpAlloc.AtExit.EveryThread
import NpAlloc.Bitset.Count
import NpAlloc.Bitset.Iteration
import NpAlloc.Bitset.Range
import NpAlloc.Bitset.Iterators
import NpAlloc.LfStack.Progress
import NpAlloc.Mmap.Progress
import NpAlloc.Mmap.Lifetime
import NpAlloc.Mmap.Realised
import NpAlloc.Mmap.Atomic
import NpAlloc.Threads.Heap
import NpAlloc.Threads.Reuse
import NpAlloc.Threads.Handoff
import NpAlloc.Threads.Deinit
import NpAlloc.Threads.Fences
import NpAlloc.Threads.Addresses
import NpAlloc.Threads.Placement
import NpAlloc.Threads.Large
import NpAlloc.Threads.Reservation
import NpAlloc.Threads.ChunkCalls
import NpAlloc.Threads.Reorder
import NpAlloc.Threads.Private
