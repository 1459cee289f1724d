import Qthreads.Loop.QueueExact
import Qthreads.Feb.Invariant
import Qthreads.Hash.Traverse
import Qthreads.Feb.Removal
import Qthreads.Syncvar.Records
import Qthreads.Hazard.Retire
import Qthreads.Mpool.Exact
import Qthreads.Precond.Exact
import Qthreads.Qlfqueue.Alone
import Qthreads.Barrier.Gate
import Qthreads.Barrier.Sinc
import Qthreads.Nemesis.Fifo
import Qthreads.Dict.SimpleExact
import Qthreads.Barrier.Array
import Qthreads.Barrier.Log
import Qthreads.Hash.LockFreeExact
import Qthreads.Swsr.Exact
import Qthreads.Qdqueue.Exact
import Qthreads.Io.Exact
import Qthreads.Shepherds.Counts
import Qthreads.Rwlock.Progress
import Qthreads.Loop.Polling
import Qthreads.Net.Exact
import Qthreads.Sincs.Agreement
import Qthreads.Sincs.Balance
import Qthreads.Qutil.MergesortExact
import Qthreads.Qutil.ChainExact
import Qthreads.Sherwood.FilterExact
import Qthreads.Tqueue.FilterExact
import Qthreads.Nottingham.SpecificExact
import Qthreads.Sincs.Reduced
import Qthreads.Qsort.Rounds
import Qthreads.Syncvar.Nonblocking
import Qthreads.Mpool.Sizing
import Qthreads.Qarray.Tracker
import Qthreads.Dict.IteratorExact
import Qthreads.Qalloc.DynmallocExact
import Qthreads.Qarray.LoopaccumExact
import Qthreads.Dict.HashBytes
import Qthreads.Loop.Loopaccum
import Qthreads.Net.Registry
import Qthreads.Qalloc.StatmapExact
import Qthreads.Shepherds.Rehome
import Qthreads.Spawn.Tasklocal
