import ThreadManager.Schemes.Outcome
import ThreadManager.Schemes.Transition
import ThreadManager.Schemes.Refinement
import ThreadManager.Schemes.Heap
import ThreadManager.Schemes.Segment
import ThreadManager.Schemes.Width
import ThreadManager.Schemes.CString
import ThreadManager.Schemes.Decimal
import ThreadManager.Schemes.Monitor
import ThreadManager.Schemes.RoundRobin
import ThreadManager.Clock.Timers
import ThreadManager.Clock.WaitRelative
import ThreadManager.Clock.DurationTimer
import ThreadManager.Queue.Queue
import ThreadManager.Queue.Links
import ThreadManager.Queue.Sequence
import ThreadManager.Queue.TimedInsert
import ThreadManager.Message.Message
import ThreadManager.Queue.BackLinks
import ThreadManager.Queue.Position
import ThreadManager.Queue.SelfLink
import ThreadManager.Poll.WakePipe
import ThreadManager.Poll.PollInner
import ThreadManager.Poll.Association
import ThreadManager.Poll.Ownership
import ThreadManager.Poll.InterestSet
import ThreadManager.Poll.PollOnce
import ThreadManager.Poll.PollAll
import ThreadManager.Poll.Events
import ThreadManager.Message.MessageQueue
import ThreadManager.Message.PollTimeout
import ThreadManager.Message.History
import ThreadManager.Message.Mailbox
import ThreadManager.Message.Order
import ThreadManager.Message.Sender
import ThreadManager.Message.SendResult
import ThreadManager.Looper.System
import ThreadManager.Looper.WakeUp
import ThreadManager.Looper.Delivery
import ThreadManager.Looper.Safety
import ThreadManager.Looper.Duplicates
import ThreadManager.Looper.ForThread
import ThreadManager.Looper.SystemCalls
import ThreadManager.Looper.Accounting
import ThreadManager.Thread.Thread
import ThreadManager.Thread.LifeCycle
import ThreadManager.Thread.Exit
import ThreadManager.Thread.RunLog
import ThreadManager.Thread.WaitStatus
import ThreadManager.Thread.HandleThread
import ThreadManager.Thread.Priority
import ThreadManager.Thread.SchedulerGroup
import ThreadManager.Thread.CgroupFile
import ThreadManager.Thread.SchedPolicy
import ThreadManager.Thread.PolicyCalls
import ThreadManager.Thread.PolicyHistory
import ThreadManager.Thread.PriorityCalls
import ThreadManager.Thread.ThreadName
import ThreadManager.Thread.Creation
import ThreadManager.Thread.Waiters
import ThreadManager.Thread.LooperThread
