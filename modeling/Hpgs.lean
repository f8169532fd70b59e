import Hpgs.Library.Transition
import Hpgs.Library.OrderedSet
import Hpgs.Library.Counting
import Hpgs.Library.Ledger
import Hpgs.Library.Base128
import Hpgs.Library.Blocks
import Hpgs.Library.Digits
import Hpgs.Library.PrefixMask
import Hpgs.Library.AddressText
import Hpgs.Library.SortedMap
import Hpgs.Library.Trimming
import Hpgs.Library.Bisection
import Hpgs.Library.LazyCopy
import Hpgs.Library.Runs
import Hpgs.Library.Lexicographic
import Hpgs.Library.Hierarchy
import Hpgs.Concurrency.FibreContexts
import Hpgs.Concurrency.FibreProtocol
import Hpgs.Concurrency.Timer
import Hpgs.Concurrency.TimerLifecycle
import Hpgs.Concurrency.TimerWakeup
import Hpgs.Concurrency.TimerExpiry
import Hpgs.Concurrency.TimerEarliness
import Hpgs.Concurrency.ClockRollover
import Hpgs.Concurrency.EpollTimeout
import Hpgs.Concurrency.IOManager
import Hpgs.Concurrency.EventRegistry
import Hpgs.Concurrency.EventRegistryRuns
import Hpgs.Concurrency.ContextTable
import Hpgs.Concurrency.EventConsumption
import Hpgs.Concurrency.Scheduler
import Hpgs.Concurrency.SchedulerSteps
import Hpgs.Concurrency.SchedulerInvariants
import Hpgs.Concurrency.SchedulerExclusion
import Hpgs.Concurrency.SchedulerContexts
import Hpgs.Concurrency.SchedulerQueue
import Hpgs.Concurrency.SchedulerPinning
import Hpgs.Concurrency.SchedulerShutdown
import Hpgs.Concurrency.SchedulerWakeup
import Hpgs.Concurrency.RegisteredFibres
import Hpgs.Util.FdManager
import Hpgs.Util.Nonblock
import Hpgs.Util.FdContexts
import Hpgs.Util.DescriptorIndex
import Hpgs.Util.Hook
import Hpgs.Util.HookSteps
import Hpgs.Util.HookInvariant
import Hpgs.Util.HookTimeout
import Hpgs.Util.Connect
import Hpgs.Util.SocketTimeouts
import Hpgs.Util.HookedDescriptors
import Hpgs.Util.Sleep
import Hpgs.Util.Trim
import Hpgs.Util.UrlCoding
import Hpgs.Util.JsonEscape
import Hpgs.Util.BinarySearch
import Hpgs.Util.Slice
import Hpgs.Util.FileRemoval
import Hpgs.Logging.FileLogAppender
import Hpgs.Logging.LogPattern
import Hpgs.Logging.PatternEscapes
import Hpgs.Logging.Appenders
import Hpgs.Logging.Loggers
import Hpgs.Configuration.ConfigVar
import Hpgs.Configuration.Yaml
import Hpgs.Configuration.Config
import Hpgs.Configuration.Loading
import Hpgs.Configuration.Env
import Hpgs.Network.ByteArray
import Hpgs.Network.NumberStream
import Hpgs.Network.StringStream
import Hpgs.Network.Varint
import Hpgs.Network.Zigzag
import Hpgs.Network.ByteArrayRuns
import Hpgs.Network.HexDump
import Hpgs.Network.Decoding
import Hpgs.Network.PositionalRead
import Hpgs.Network.ReadBuffers
import Hpgs.Network.FileTransfer
import Hpgs.Network.TcpServerConf
import Hpgs.Network.Address
import Hpgs.Network.IPv4Address
import Hpgs.Network.IPv6Address
import Hpgs.Network.IPv6Text
import Hpgs.Network.Lookup
import Hpgs.Network.UnixAddress
import Hpgs.Network.AddressOrder
import Hpgs.Network.Stream
import Hpgs.Network.SslTransfer
import Hpgs.Network.Socket
import Hpgs.Network.TcpServer
import Hpgs.Network.TcpServerRuns
import Hpgs.Network.SocketState
import Hpgs.Network.SocketAddresses
import Hpgs.Configuration.Containers
import Hpgs.Concurrency.SchedulerOrder
import Hpgs.Concurrency.ThreadHandshake
import Hpgs.Util.FileListing
import Hpgs.Network.AddressLookup
import Hpgs.Concurrency.ScopedLocks
import Hpgs.Util.GuardedFdManager
