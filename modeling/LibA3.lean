import LibA3.Ht.Size
import LibA3.Ht.History
import LibA3.Cache.Clear
import LibA3.Cache.Bounds
import LibA3.Spmc.Wrap
import LibA3.Buf.Overlay
import LibA3.Buf.Room
import LibA3.Sll.Stale
import LibA3.Buf.MaxCap
import LibA3.Buf.NoMemory
import LibA3.Buf.Order
import LibA3.Ht.Duplicate
import LibA3.Cache.Shift
import LibA3.Buf.Memmem
import LibA3.Sll.Iterate
import LibA3.Ht.HashKey
import LibA3.Pool.Zero
import LibA3.Pool.Free
import LibA3.Vec.Storage
import LibA3.Rc.Flat
import LibA3.Spmc.Progress
import LibA3.Rc.Leak
import LibA3.Cache.Coherence
import LibA3.Cache.Drain
import LibA3.Ht.Optimal
import LibA3.Ht.Amortized
import LibA3.Vec.Growth
import LibA3.Vec.ForEach
import LibA3.Buf.Records
import LibA3.Ht.Merge
import LibA3.Pool.Stack
import LibA3.Rc.Pooled
import LibA3.Log.History
import LibA3.Shim.AlignedAlloc
import LibA3.Pq.Order
import LibA3.Spmc.Interleave
