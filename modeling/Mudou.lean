import Mudou.Buffer
import Mudou.TaskPool
import Mudou.Timer.Firing
import Mudou.Lib.Outcome
import Mudou.Net.Connection
import Mudou.Net.UserCode
import Mudou.Lib.History
import Mudou.Net.Output
import Mudou.Net.Release
import Mudou.Http.Util
import Mudou.Lib.Decimal
import Mudou.Lib.Regex
import Mudou.Lib.UnorderedMap
import Mudou.Lib.WorkLoop
import Mudou.Http.Context
import Mudou.Http.Server
import Mudou.Http.Parsing
import Mudou.Http.Serving
import Mudou.Http.Closing
import Mudou.Http.Stream
import Mudou.Http.Encoding
import Mudou.Http.Pipeline
import Mudou.Lib.LexicalPath
import Mudou.Http.Confinement
import Mudou.Lib.HttpClient
import Mudou.Http.Framing
import Mudou.Lib.Run
import Mudou.Timer.Denotes
import Mudou.Net.Inactivity
import Mudou.Net.Progress
import Mudou.Net.Status
import Mudou.Lib.Epoll
import Mudou.Src.EPollPoller
import Mudou.Src.Buffer
import Mudou.Net.ConnTable
import Mudou.Net.Reactor
import Mudou.Net.PollerTable
import Mudou.Net.Batch
import Mudou.Http.UrlCoding
import Mudou.Net.Errno
import Mudou.Src.EventLoop
import Mudou.Timer.Punctual
import Mudou.Http.BodyLength
import Mudou.Http.ConnectionMode
import Mudou.Http.Passes
import Mudou.Http.BackCalls
import Mudou.Http.ContextStates
import Mudou.Http.Unparsed
import Mudou.Http.Splitting
import Mudou.Http.StaticFiles
import Mudou.Timer.Reentry
import Mudou.Lib.Monitor
import Mudou.Lib.RoundRobin
import Mudou.Net.LoopThread
import Mudou.Net.LoopThreadPool
import Mudou.Http.InputBuffer
import Mudou.Src.EventLoopThread
import Mudou.Lib.Heap
import Mudou.Net.Any
import Mudou.Http.RoundTrip
import Mudou.Lib.Endless
import Mudou.Net.TaskLiveness
import Mudou.Http.Grammar
import Mudou.Lib.Calendar
import Mudou.Timer.Retention
import Mudou.Net.ConnLiveness
import Mudou.Src.Polling
import Mudou.Http.Answered
import Mudou.Net.Reaping
import Mudou.Src.FunctorLiveness
import Mudou.Src.EventLoopThreadPool
import Mudou.Net.SingleRelease
