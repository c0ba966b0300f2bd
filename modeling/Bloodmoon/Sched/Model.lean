import Bloodmoon.Machine.Outcome
import Bloodmoon.Machine.Word

/-!
# Tasks

The model of `scheduler.c` and `sline.c`. Tasks are at addresses and linked by `next` and `prev`, as
in the source. The sleep queues are lists, with the head first.

The scheduler is locked by a counter, and `yield` returns at once while it is not 0; a function that
does not yield between locking and unlocking is written without the two. The spin lock of the sleep
queues is a flag, and a call that finds it taken goes round and round.

Left out are the fields of a task that have no part in its state or in its place in the list (its
memory, context, files and times), and the messages that are printed.
-/

namespace Bloodmoon

open Machine

/-- The values of `state` in `struct task`; a reason for blocking may be a number without a name. -/
inductive TaskState where
  | executing
  | ready
  | stopped
  | uninterruptible
  | interruptible
  | zombie
  | created
  | free
  | idle
  | other (code : ℤ)
  deriving DecidableEq

/-- `struct task`. -/
structure Task where
  pid : ℤ
  state : TaskState
  exitCode : ℕ
  exitSignal : ℕ
  next : ℕ
  prev : ℕ

/-- `struct sleep_queue`, without the links. -/
structure SleepQueue where
  startedAt : ℕ
  expiresIn : ℕ
  sleepReason : ℕ
  task : ℕ

/-- The variables of the scheduler and of the sleep queues. -/
structure Sched where
  task : ℕ → Task
  taskHead : ℕ
  currentTask : ℕ
  irqDisableCounter : ℕ
  schedulerReady : Bool
  ticks : ℕ
  sleepTimeQueue : List SleepQueue
  sleepReasonQueue : List SleepQueue
  sleepLock : Bool

namespace Sched

variable (s : Sched)

/-- The task at an address is replaced. -/
def setTask (a : ℕ) (t : Task) : Sched := { s with task := Function.update s.task a t }

/-- The state of a task is written. -/
def setState (a : ℕ) (state : TaskState) : Sched :=
  s.setTask a { s.task a with state := state }

/-- `lock_scheduler`. -/
def lockScheduler : Sched := { s with irqDisableCounter := s.irqDisableCounter + 1 }

/-- `unlock_scheduler`. -/
def unlockScheduler : Sched := { s with irqDisableCounter := s.irqDisableCounter - 1 }

/-! ### The list of tasks -/

/-- A round of the walk of `get_task`, at the task `current`. -/
def getTaskBody (pid : ℤ) (current : ℕ) : Outcome (ℕ ⊕ ℕ) :=
  if (s.task current).pid = pid then .ok (.inr current)
  else if (s.task current).next = 0 then .ok (.inr 0)
  else .ok (.inl (s.task current).next)

/-- `get_task`. -/
def getTask (pid : ℤ) (fuel : ℕ) : Outcome ℕ :=
  if s.taskHead = 0 then .ok 0 else loop (s.getTaskBody pid) fuel s.taskHead

/-- The successor of a number of type `int16_t`. -/
def nextPid (pid : ℤ) : ℤ := if pid = 32767 then -32768 else pid + 1

/-- `get_free_pid`. -/
def getFreePid (fuel : ℕ) : Outcome ℤ :=
  loop (fun pid => do
    let found ← s.getTask pid fuel
    if found ≠ 0 then .ok (.inl (nextPid pid)) else .ok (.inr pid)) fuel 1

/-- A round of the walk of `add_task` to the last task of the list. -/
def lastTaskBody (current : ℕ) : Outcome (ℕ ⊕ ℕ) :=
  if (s.task current).next ≠ 0 then .ok (.inl (s.task current).next) else .ok (.inr current)

/-- `add_task`. -/
def addTask (a fuel : ℕ) : Outcome Sched :=
  if s.taskHead = 0 then .ok { s with taskHead := a }
  else do
    let last ← loop s.lastTaskBody fuel s.taskHead
    let s := s.setTask last { s.task last with next := a }
    .ok (s.setTask a { s.task a with prev := last })

/-- `create_task`, with the task at the address `a`. -/
def createTask (a fuel : ℕ) : Outcome Sched := do
  let pid ← s.getFreePid fuel
  .ok (s.setTask a ⟨pid, .ready, 0, 0, 0, 0⟩)

/-- `init_scheduler`, with the idle task at the address `a`. -/
def initScheduler (a fuel : ℕ) : Outcome Sched := do
  let s ← s.createTask a fuel
  let s := s.setTask a { s.task a with pid := 0, state := .idle }
  let s ← s.addTask a fuel
  .ok { s with currentTask := s.taskHead }

/-! ### The next task -/

/-- The task is `TASK_READY` or `TASK_EXECUTING`. -/
def runnable (a : ℕ) : Bool := (s.task a).state = .ready ∨ (s.task a).state = .executing

/-- The task after another one, which is the first one at the end of the list. -/
def nextTask (a : ℕ) : ℕ := if (s.task a).next = 0 then s.taskHead else (s.task a).next

/-- A round of the search of `schedule`: it ends with a task that can run, or with none when it is
back at the current one. -/
def scheduleBody (current : ℕ) : Outcome (ℕ ⊕ Option ℕ) :=
  let current := s.nextTask current
  if s.runnable current then .ok (.inr (some current))
  else if current = s.currentTask then .ok (.inr none)
  else .ok (.inl current)

/-- The current task no longer executes. -/
def leave : Sched :=
  if (s.task s.currentTask).state = .executing then s.setState s.currentTask .ready else s

/-- A task becomes current. -/
def enter (a : ℕ) : Sched :=
  if (s.task a).state = .ready then { s with currentTask := a }.setState a .executing
  else { s with currentTask := a }

/-- The change from the current task to another one. -/
def switchTo (a : ℕ) : Sched := s.leave.enter a

/-- The task to run after the search, which is the idle one when nothing was found. -/
def foundOrIdle : Option ℕ → Outcome ℕ
  | some a => .ok a
  | none =>
    if (s.task s.taskHead).state ≠ .idle then kpanic "Idle task is not valid or at head\n"
    else .ok s.taskHead

/-- `schedule`; it returns the task that was current. -/
def schedule (fuel : ℕ) : Outcome (Sched × ℕ) := do
  let found ← loop s.scheduleBody fuel s.currentTask
  let next ← s.foundOrIdle found
  if next = 0 then kpanic "No tasks found, not even idle!!!\n"
  else .ok (s.switchTo next, s.currentTask)

/-- `yield`. -/
def yield (fuel : ℕ) : Outcome Sched :=
  if s.irqDisableCounter ≠ 0 ∨ s.schedulerReady = false then .ok s
  else do
    let r ← s.schedule fuel
    .ok r.1

/-! ### The states of tasks -/

/-- `block_task`. -/
def blockTask (reason : TaskState) (fuel : ℕ) : Outcome Sched := do
  let s := s.lockScheduler
  let s ← (s.setState s.currentTask reason).yield fuel
  .ok s.unlockScheduler

/-- `unblock_task`. -/
def unblockTask (a fuel : ℕ) : Outcome Sched := do
  let s ← (s.lockScheduler.setState a .ready).yield fuel
  .ok s.unlockScheduler

/-- `pause_task`. -/
def pauseTask (a : ℕ) : Sched := s.setState a .uninterruptible

/-- `resume_task`. -/
def resumeTask (a : ℕ) : Sched := s.setState a .ready

/-- `exit`. -/
def exit : Sched :=
  s.setTask s.currentTask { s.task s.currentTask with exitCode := 0, state := .zombie }

/-- `kill_task`; `SIGKILL` is 9. -/
def killTask (pid : ℤ) (fuel : ℕ) : Outcome Sched := do
  let a ← s.getTask pid fuel
  if a = 0 then .ok s
  else .ok (s.setTask a { s.task a with exitCode := 0, exitSignal := 9, state := .zombie })

/-! ### Sleeping -/

/-- `acquire_spinlock` on the lock of the sleep queues. -/
def acquireSleepLock (fuel : ℕ) : Outcome Sched :=
  loop (fun s =>
    if s.sleepLock then .ok (.inl s) else .ok (.inr { s with sleepLock := true })) fuel s

/-- `release_spinlock` on the lock of the sleep queues. -/
def releaseSleepLock : Sched := { s with sleepLock := false }

/-- A task that is taken off a queue can run again if it was `TASK_UNINTERRUPTIBLE`. -/
def wake (a : ℕ) : Sched :=
  if (s.task a).state = .uninterruptible then s.setState a .ready else s

/-- The walk over a queue that wakes the tasks of the entries that are due, and keeps the others. -/
def wakeEntries (due : SleepQueue → Bool) : List SleepQueue → Sched → List SleepQueue × Sched
  | [], s => ([], s)
  | e :: es, s =>
    if due e && decide (e.task ≠ 0) then wakeEntries due es (s.wake e.task)
    else
      let r := wakeEntries due es s
      (e :: r.1, r.2)

/-- The time of an entry is up. -/
def expired (e : SleepQueue) : Bool :=
  e.expiresIn ≠ 0 ∧ e.expiresIn ≤ wsub s.ticks e.startedAt

/-- `wakeup_handler`. -/
def wakeupHandler (fuel : ℕ) : Outcome Sched := do
  let s ← s.acquireSleepLock fuel
  let r := wakeEntries s.expired s.sleepTimeQueue s
  .ok { r.2 with sleepTimeQueue := r.1 }.releaseSleepLock

/-- `_tsleep`; `SLEEP_AWAITING_IO` is 1. -/
def tsleep (ticks fuel : ℕ) : Outcome Sched := do
  let s ← s.acquireSleepLock fuel
  if s.currentTask = 0 then .ok s.releaseSleepLock
  else
    let s := { s with sleepTimeQueue := ⟨s.ticks, ticks, 1, s.currentTask⟩ :: s.sleepTimeQueue }
    .ok (s.setState s.currentTask .uninterruptible).releaseSleepLock

/-- `_ksleep`; its last statement takes the lock once more. -/
def ksleep (addr fuel : ℕ) : Outcome Sched := do
  let s ← s.acquireSleepLock fuel
  if s.currentTask = 0 then .ok s.releaseSleepLock
  else
    let s := { s with sleepReasonQueue := ⟨s.ticks, 0, addr, s.currentTask⟩ :: s.sleepReasonQueue }
    (s.setState s.currentTask .uninterruptible).acquireSleepLock fuel

/-- `_kwakeup`. -/
def kwakeup (addr fuel : ℕ) : Outcome Sched := do
  let s ← s.acquireSleepLock fuel
  let r := wakeEntries (fun e => e.sleepReason = addr) s.sleepReasonQueue s
  .ok { r.2 with sleepReasonQueue := r.1 }.releaseSleepLock

end Sched

end Bloodmoon
