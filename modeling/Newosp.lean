import Newosp.App.ProcessOne
import Newosp.Breaker.Recovery
import Newosp.Bt.Parallel
import Newosp.Bus.Backpressure
import Newosp.Bus.Dispatch
import Newosp.Bus.QueueRefinement
import Newosp.Bus.SpinLockSafety
import Newosp.Bus.StaticNode
import Newosp.Config.ConfigStore
import Newosp.Config.ReadFile
import Newosp.Dispatcher.ConsumerSafety
import Newosp.Dispatcher.Deadlines
import Newosp.Dispatcher.FreeListSafety
import Newosp.Dispatcher.PipelineBuild
import Newosp.Dispatcher.PoolInvariant
import Newosp.Fault.ActiveSet
import Newosp.Fault.BreakerFeed
import Newosp.Fusion.Activation
import Newosp.Fusion.TimeSynchronizer
import Newosp.Hsm.Equivalence
import Newosp.MemPool.Safety
import Newosp.Mpsc.SignedDifference
import Newosp.Nodes.Identifiers
import Newosp.Nodes.LoopRuns
import Newosp.Nodes.Monitored
import Newosp.Nodes.Supervision
import Newosp.Pool.Shutdown
import Newosp.Ring.ProducerClear
import Newosp.Serial.Buffers
import Newosp.Serial.Crc
import Newosp.Serial.Resync
import Newosp.Service.Registry
import Newosp.Service.Workers
import Newosp.Shell.Login
import Newosp.Shell.Soundness
import Newosp.Shm.Refusals
import Newosp.Shm.SpmcJoining
import Newosp.Shm.SpscCalls
import Newosp.Shutdown.Manager
import Newosp.Timer.Rounds
import Newosp.Timer.Stopping
import Newosp.Transport.Boundaries
import Newosp.Transport.SequenceTracker
import Newosp.Watchdog.Ids
import Newosp.Watchdog.Owners
import Newosp.Watchdog.Verdicts
