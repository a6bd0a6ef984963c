import Codesnip.Common.TimerClock
import Codesnip.Common.ThreadPool
import Codesnip.Common.ThreadPoolHandover
import Codesnip.Common.ThreadPoolWakeup
import Codesnip.Common.ThreadPoolShutdown
import Codesnip.Common.RWLock
import Codesnip.Common.RWLockRefine
import Codesnip.Common.RWLockWakeup
import Codesnip.Theory.Buffer
import Codesnip.Unit.SysCallWrap
import Codesnip.Unit.ByteStream
import Codesnip.Common.ThreadPoolIncoming
import Codesnip.Common.TimerEncode
import Codesnip.Common.TimerLife
import Codesnip.Common.TimerCancel
import Codesnip.ExtraModule.Kvisual
import Codesnip.Net.Connection
import Codesnip.Theory.Slots
import Codesnip.Net.SelectServer
import Codesnip.Net.PollServer
import Codesnip.Net.Pool
import Codesnip.Net.EPollServer
import Codesnip.Net.ThreadPools
import Codesnip.Net.Release
import Codesnip.Net.Report
import Codesnip.Net.Deliver
import Codesnip.Theory.Decimal
import Codesnip.Unit.Unit
import Codesnip.Snip.ProcessOptArgs
import Codesnip.Snip.OptionValues
import Codesnip.Snip.ParaArgs
import Codesnip.Net.SelectCalls
import Codesnip.Net.PollCalls
import Codesnip.Net.Reset
import Codesnip.Net.DoitReports
import Codesnip.Net.Drain
import Codesnip.Net.Stranded
import Codesnip.Net.Client
import Codesnip.Net.MultiProcess
import Codesnip.Common.RWLockStuck
import Codesnip.Common.ThreadPoolDropped
import Codesnip.Common.TimerRearm
import Codesnip.Snip.Main
import Codesnip.Common.ThreadPoolHeld
import Codesnip.Net.ThreadPoolsRest
