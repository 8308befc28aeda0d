import FlagBearer.Queue.Runs
import FlagBearer.Core.Counter
import FlagBearer.Lib.Allotment
import FlagBearer.Lib.History
import FlagBearer.Lib.Precedence
import FlagBearer.Mutex.Futex
import FlagBearer.Mutex.Safety
import FlagBearer.Queue.Closing
import FlagBearer.Queue.Destructors
import FlagBearer.Queue.FifoCounter
import FlagBearer.Queue.Ordering
import FlagBearer.Queue.Permits
import FlagBearer.Queue.Poison
import FlagBearer.Queue.Confined
import FlagBearer.Queue.Consultations
import FlagBearer.Queue.OwnParams
import FlagBearer.Queue.DeadWaiters
import FlagBearer.Queue.FastPath
import FlagBearer.Queue.CloseBound
import FlagBearer.Queue.Promises
import FlagBearer.Queue.Work
import FlagBearer.Queue.Closeability
import FlagBearer.Queue.Starvation
import FlagBearer.Queue.Recovery
import FlagBearer.Queue.Pending
import FlagBearer.Queue.Completion
import FlagBearer.Mutex.Sections
import FlagBearer.Mutex.Progress
