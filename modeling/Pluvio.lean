import Pluvio.Runs
import Pluvio.Runtime.Reactor
import Pluvio.Runtime.SpscQueue
import Pluvio.Collective.AmRouter
import Pluvio.Collective.Mailbox
import Pluvio.Circle
import Pluvio.Collective.Op
import Pluvio.Collective.Ring
import Pluvio.Collective.RecursiveDoubling
import Pluvio.Collective.AmNet
import Pluvio.Collective.AmPlan
import Pluvio.Collective.AmInvariant
import Pluvio.Collective.AmProgress
import Pluvio.Collective.AmOutline
import Pluvio.Collective.Bruck
import Pluvio.Collective.PipelinedRing
import Pluvio.Collective.PipelinedWrap
import Pluvio.Ucx.Worker
import Pluvio.Uring.Allocator
import Pluvio.Uring.Reactor
import Pluvio.Uring.FixedIo
import Pluvio.Runtime.Executor
import Pluvio.Runtime.Schedule
import Pluvio.Runtime.Completion
import Pluvio.Runtime.Frames
import Pluvio.Runtime.Wakeup
import Pluvio.Oneshot
import Pluvio.Rc
import Pluvio.Runtime.Polls
import Pluvio.Runtime.Join
import Pluvio.Runtime.Fairness
import Pluvio.Runtime.Cadence
import Pluvio.Runtime.Reentry
import Pluvio.Runtime.BlockOn
import Pluvio.Runtime.Stuck
import Pluvio.Uring.Saturation
import Pluvio.Uring.Latency
import Pluvio.Teardown
import Pluvio.Collective.Broadcast
import Pluvio.Collective.Scatter
import Pluvio.Collective.BackToBack
import Pluvio.Collective.Rooted
import Pluvio.Runtime.Disconnect
import Pluvio.Runtime.Waker
import Pluvio.OrdMap
import Pluvio.Timer.Delay
import Pluvio.Timer.Sleep
import Pluvio.Timer.Timed
import Pluvio.Framing
import Pluvio.Collective.Bootstrap
import Pluvio.Collective.Receive
import Pluvio.Collective.Cancelled
import Pluvio.Collective.AmLog
import Pluvio.Collective.BroadcastTree
import Pluvio.Collective.AmLoss
import Pluvio.Collective.PipelinedChain
import Pluvio.Collective.PipelinedLoss
import Pluvio.Collective.Allreduce
import Pluvio.Collective.Agreement
import Pluvio.Collective.Reduction
import Pluvio.Collective.Wire
import Pluvio.Collective.Dispatcher
import Pluvio.Collective.Adaptive
import Pluvio.Collective.AmArea
import Pluvio.TagArea
import Pluvio.Collective.Together
import Pluvio.Collective.Concurrent
import Pluvio.Ucx.Listening
import Pluvio.Ucx.Serving
import Pluvio.Runtime.Track
import Pluvio.Mpi.Reactor
import Pluvio.Mpi.Future
import Pluvio.Collective.BadPeers
import Pluvio.Checked
import Pluvio.Collective.Bounds
import Pluvio.Runtime.Arithmetic
import Pluvio.Chunks
import Pluvio.Collective.BulkReduce
import Pluvio.Collective.AmViews
import Pluvio.Collective.PipelinedSlots
import Pluvio.Collective.AmSequence
import Pluvio.Collective.Delivery
import Pluvio.Future
import Pluvio.Mpi.Serving
import Pluvio.Runtime.Select
