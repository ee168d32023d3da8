import MuduoServer.Http.Chunking
import MuduoServer.Http.Pipelining
import MuduoServer.Http.Framing
import MuduoServer.Http.Recovery
import MuduoServer.Http.GracefulClose
import MuduoServer.Http.HeadErrors
import MuduoServer.Http.AllHanded
import MuduoServer.Http.Verdicts
import MuduoServer.Http.Lookups
import MuduoServer.Http.ContextReuse
import MuduoServer.Http.WriteBack
import MuduoServer.Tcp.BufferQueue
import MuduoServer.Tcp.WriteInterest
import MuduoServer.Tcp.FileRelease
import MuduoServer.Tcp.OutputOrder
import MuduoServer.Tcp.EventLoop
import MuduoServer.Tcp.SocketClose
import MuduoServer.Tcp.LeftBytes
import MuduoServer.Tcp.SendLoop
import MuduoServer.Tcp.HalfClose
import MuduoServer.Tcp.ThreadPool
import MuduoServer.Tcp.ChannelLifetime
import MuduoServer.Http.ConnectionOwners
import MuduoServer.Http.WatchedTree
import MuduoServer.Http.StaticRoot
import MuduoServer.Base.CacheSubtree
import MuduoServer.Base.CacheCapacity
import MuduoServer.Base.CacheErrors
import MuduoServer.Log.LogStop
import MuduoServer.Timer.Firing
import MuduoServer.Timer.Cancel
import MuduoServer.Timer.Wakeup
import MuduoServer.Log.Logger
import MuduoServer.Log.LogFile
import MuduoServer.Base.Executor
import MuduoServer.Http.Evaluate
import MuduoServer.Http.InotifyRead
import MuduoServer.Tcp.BufferSwap
import MuduoServer.Base.ReadFile
import MuduoServer.Log.DoubleText
import MuduoServer.Log.LogPipeline
import MuduoServer.Http.Exchange
import MuduoServer.Base.ExecutorReturns
import MuduoServer.Base.Latch
import MuduoServer.Tcp.ThreadStart
import MuduoServer.Http.IdleTimeout
import MuduoServer.Tcp.LoopQuit
import MuduoServer.Tcp.LoadBalance
