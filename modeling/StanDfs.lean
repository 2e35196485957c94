import StanDfs.Connection.Accept
import StanDfs.Connection.Delivery
import StanDfs.Connection.EndOfStream
import StanDfs.Connection.Lifetime
import StanDfs.Connection.Wakeups
import StanDfs.Connection.WriteCb
import StanDfs.Lock.Exclusion
import StanDfs.Lock.Layers
import StanDfs.Lock.Pool
import StanDfs.Lock.Replies
import StanDfs.Lock.Table
import StanDfs.Marshall.Bounds
import StanDfs.Marshall.Growth
import StanDfs.Marshall.RoundTrip
import StanDfs.Marshall.Rounds
import StanDfs.PollMgr.EPoll
import StanDfs.PollMgr.Pipe
import StanDfs.PollMgr.Removal
import StanDfs.PollMgr.Select
import StanDfs.Process.Deadlock
import StanDfs.Rpc.Acknowledged
import StanDfs.Rpc.AtMostOnce
import StanDfs.Rpc.Authentic
import StanDfs.Rpc.Buffers
import StanDfs.Rpc.CallM
import StanDfs.Rpc.Cancelled
import StanDfs.Rpc.Chans
import StanDfs.Rpc.Fresh
import StanDfs.Rpc.InProgress
import StanDfs.Rpc.Layers
import StanDfs.Rpc.Newest
import StanDfs.Rpc.Ownership
import StanDfs.Rpc.Pointers
import StanDfs.Rpc.Reclaim
import StanDfs.Rpc.Reg
import StanDfs.Rpc.Remote
import StanDfs.Rpc.Repeats
import StanDfs.Rpc.Retry
import StanDfs.Rpc.Timespec
import StanDfs.Rpc.Wanted
import StanDfs.ThrPool.Fifo
import StanDfs.ThrPool.Shutdown
