import ReliableUdpBench.Lib.System
import ReliableUdpBench.Lib.Conduit
import ReliableUdpBench.Lib.Blocks
import ReliableUdpBench.Lib.Windows
import ReliableUdpBench.Lib.Words
import ReliableUdpBench.Lib.Chain
import ReliableUdpBench.Lib.Drain
import ReliableUdpBench.Lib.Throttle
import ReliableUdpBench.Udt
import ReliableUdpBench.Transport
import ReliableUdpBench.TestUtil
import ReliableUdpBench.PaddingLength
import ReliableUdpBench.PaddingLayout
import ReliableUdpBench.Statistics
import ReliableUdpBench.Averages
import ReliableUdpBench.ThroughputWindows
import ReliableUdpBench.StreamReceive
import ReliableUdpBench.StreamServer
import ReliableUdpBench.StreamClient
import ReliableUdpBench.StreamEndToEnd
import ReliableUdpBench.Dgram
import ReliableUdpBench.DgramServer
import ReliableUdpBench.DgramClient
import ReliableUdpBench.DgramEndToEnd
import ReliableUdpBench.RecvDrain
import ReliableUdpBench.AcceptLoop
import ReliableUdpBench.FailStop
import ReliableUdpBench.Backlog
import ReliableUdpBench.Lib.Monitor
import ReliableUdpBench.ThreadsafeQueue
import ReliableUdpBench.DgramClientThreads
import ReliableUdpBench.Measurement
import ReliableUdpBench.Connections
import ReliableUdpBench.Lib.Fair
import ReliableUdpBench.Shutdown
import ReliableUdpBench.DgramDelivery
import ReliableUdpBench.StreamDelivery
import ReliableUdpBench.Clock
import ReliableUdpBench.ServerBacklog
import ReliableUdpBench.Fragments
import ReliableUdpBench.Lib.Producer
import ReliableUdpBench.MainLoop
import ReliableUdpBench.Lockout
import ReliableUdpBench.NetDelivery
