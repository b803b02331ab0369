import LocalSync.Lib.Store
import LocalSync.Lib.Chain
import LocalSync.Lib.Line
import LocalSync.Lib.Run
import LocalSync.Lib.Flags
import LocalSync.Lib.Callback
import LocalSync.Basic
import LocalSync.RefCell
import LocalSync.LinkedList
import LocalSync.Equiv.LinkedList
import LocalSync.Equiv.Sequence
import LocalSync.WakeList
import LocalSync.WakeArray
import LocalSync.Equiv.WakeArray
import LocalSync.Semaphore.Inner
import LocalSync.Semaphore.Fair
import LocalSync.Semaphore.Sound
import LocalSync.Semaphore.Line
import LocalSync.Equiv.Semaphore
import LocalSync.Equiv.Acquire
import LocalSync.Semaphore.History
import LocalSync.Equiv.History
import LocalSync.Equiv.Tracked
import LocalSync.Semaphore.System
import LocalSync.Equiv.SemaphoreSystem
import LocalSync.Equiv.SemaphoreRuns
import LocalSync.Equiv.Cancelling
import LocalSync.Equiv.Wrapping
import LocalSync.Equiv.Closing
import LocalSync.Equiv.Limit
import LocalSync.Equiv.HandOut
import LocalSync.Equiv.Portions
import LocalSync.Semaphore.Machine
import LocalSync.Equiv.SemaphoreMachine
import LocalSync.Equiv.Stranded
import LocalSync.Equiv.TryAcquire
import LocalSync.Semaphore.Panicking
import LocalSync.Equiv.Panicking
import LocalSync.Equiv.Service
import LocalSync.Rc
import LocalSync.Semaphore.Owned
import LocalSync.Equiv.Owned
import LocalSync.Mpsc.Block
import LocalSync.Equiv.Block
import LocalSync.Equiv.Recycling
import LocalSync.Mpsc.Semaphore
import LocalSync.Mpsc.Chan
import LocalSync.Mpsc.Handles
import LocalSync.Mpsc.Unbounded
import LocalSync.Mpsc.Bounded
import LocalSync.Semaphore.Turnstile
import LocalSync.Mpsc.Machine
import LocalSync.Equiv.Machine
import LocalSync.Equiv.Chan
import LocalSync.Equiv.Bounded
import LocalSync.Equiv.Capacity
import LocalSync.Equiv.Delivery
import LocalSync.Equiv.Receiver
import LocalSync.Equiv.Channels
import LocalSync.Equiv.Slots
import LocalSync.Equiv.Turnstile
import LocalSync.Equiv.BoundedMachine
import LocalSync.Equiv.Admission
import LocalSync.OnceCell
import LocalSync.OnceCell.Life
import LocalSync.Equiv.OnceCell
import LocalSync.Equiv.Initializing
import LocalSync.Equiv.OnceCellMachine
import LocalSync.Oneshot.Inner
import LocalSync.Oneshot.System
import LocalSync.Oneshot.Spec
import LocalSync.Equiv.Oneshot
import LocalSync.Equiv.OneshotWakers
import LocalSync.Oneshot.Reentrant
import LocalSync.Equiv.OneshotReentrant
import LocalSync.Semaphore.Reentrant
import LocalSync.Mpsc.Reentrant
import LocalSync.Equiv.Reentrant
import LocalSync.Equiv.ReentrantChannel
import LocalSync.Equiv.Waking
import LocalSync.Equiv.ReentrantRuns
