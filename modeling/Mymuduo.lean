import Mymuduo.ByteQueue
import Mymuduo.ReceivePath
import Mymuduo.Execution
import Mymuduo.EventLoopThread
import Mymuduo.FunctorQueue
import Mymuduo.ConnectionSystem
import Mymuduo.CallOrder
import Mymuduo.OutputStream
import Mymuduo.SendValue
import Mymuduo.Establishment
import Mymuduo.GracefulShutdown
import Mymuduo.Notification
import Mymuduo.Lifecycle
import Mymuduo.TcpServer
import Mymuduo.Teardown
import Mymuduo.Foundation.Directory
import Mymuduo.PollerCoherence
import Mymuduo.ChannelInterest
import Mymuduo.WriteComplete
import Mymuduo.WriteInterest
import Mymuduo.HalfClose
import Mymuduo.StateOrder
import Mymuduo.MapAccounting
import Mymuduo.Reactors
import Mymuduo.ReactorView
import Mymuduo.Refinement
import Mymuduo.ThreadConfinement
import Mymuduo.Ownership
import Mymuduo.PendingFunctors
import Mymuduo.CloseProtocol
import Mymuduo.ConnectionOwnership
import Mymuduo.BufferGrowth
import Mymuduo.HighWaterMark
import Mymuduo.Buffer64
import Mymuduo.Buffer64IO
import Mymuduo.BufferLimits
import Mymuduo.Foundation.Variant
import Mymuduo.LoopProgress
import Mymuduo.ServerProgress
import Mymuduo.CloseProgress
import Mymuduo.SharedPoller
import Mymuduo.Polling
import Mymuduo.Distribution
import Mymuduo.LoopLaunch
import Mymuduo.ServerStart
import Mymuduo.OutputDrain
import Mymuduo.Isolation
import Mymuduo.EchoServer
import Mymuduo.EchoStream
