import Bloodmoon.Sched.Schedule

/-!
# What the calls of the scheduler write

Each call but `schedule` writes one state to the tasks in `SchedOp.target`, and leaves the current
task and all other states (`SchedOp.effect_of`). `schedule` changes to a task that can run or to the
idle task (`SchedOp.schedule_of`). The invariants of runs follow from these two facts.
-/

namespace Bloodmoon

open Machine Relation

namespace Sched

variable {s t : Sched} {a b fuel : ℕ}

/-! ### The calls -/

/-- A call is made with the scheduler locked, and yields to no other task. -/
theorem yield_of_locked (h : s.irqDisableCounter ≠ 0) : s.yield fuel = .ok s := by
  rw [yield, if_pos (.inl h)]

theorem blockTask_eq (s : Sched) (reason : TaskState) (fuel : ℕ) :
    s.blockTask reason fuel = .ok (s.setState s.currentTask reason) := by
  have hlocked : (s.lockScheduler.setState s.currentTask reason).irqDisableCounter ≠ 0 :=
    Nat.succ_ne_zero _
  rw [blockTask]
  exact congrArg (· >>= fun s => .ok s.unlockScheduler) (yield_of_locked hlocked)

theorem unblockTask_eq (s : Sched) (a fuel : ℕ) :
    s.unblockTask a fuel = .ok (s.setState a .ready) := by
  have hlocked : (s.lockScheduler.setState a .ready).irqDisableCounter ≠ 0 := Nat.succ_ne_zero _
  rw [unblockTask]
  exact congrArg (· >>= fun s => .ok s.unlockScheduler) (yield_of_locked hlocked)

/-- The lock of the sleep queues is taken when it is free, and never when it is not. -/
theorem acquireSleepLock_eq_ok_iff :
    s.acquireSleepLock fuel = .ok t ↔
      s.sleepLock = false ∧ 0 < fuel ∧ t = { s with sleepLock := true } := by
  rw [acquireSleepLock]
  cases hlock : s.sleepLock with
  | false =>
    cases fuel with
    | zero => simp [loop]
    | succ fuel =>
      rw [loop_succ_of_leaves (by rw [hlock]; rfl)]
      simp [eq_comm]
  | true =>
    -- each round leaves everything as it is
    have hspin : loop (fun s : Sched => if s.sleepLock then .ok (.inl s)
        else .ok (.inr { s with sleepLock := true })) fuel s = .error .timeout := by
      induction fuel with
      | zero => rfl
      | succ fuel ih =>
        rw [loop_succ_of_continues (by rw [Continues, hlock]; rfl)]
        exact ih
    rw [hspin]
    simp

theorem state_wake (s : Sched) (a b : ℕ) :
    ((s.wake b).task a).state =
      if (s.task a).state = .uninterruptible ∧ b = a then .ready else (s.task a).state := by
  by_cases hab : b = a
  · subst hab
    by_cases hstate : (s.task b).state = .uninterruptible
    · simp [wake, hstate, task_setState]
    · simp [wake, hstate]
  · by_cases hstate : (s.task b).state = .uninterruptible
    · simp [wake, hstate, task_setState, hab, Ne.symm hab]
    · simp [wake, hstate, hab]

/-- The tasks of the entries that are due and were `TASK_UNINTERRUPTIBLE` are ready, and no other
state changes. -/
theorem state_wakeEntries (due : SleepQueue → Bool) (es : List SleepQueue) (s : Sched) (a : ℕ) :
    ((wakeEntries due es s).2.task a).state =
      if (s.task a).state = .uninterruptible ∧ ∃ e ∈ es, due e = true ∧ e.task ≠ 0 ∧ e.task = a
      then .ready else (s.task a).state := by
  induction es generalizing s with
  | nil => simp [wakeEntries]
  | cons e es ih =>
    have hcons : (∃ e' ∈ e :: es, due e' = true ∧ e'.task ≠ 0 ∧ e'.task = a) ↔
        (due e = true ∧ e.task ≠ 0 ∧ e.task = a) ∨
          ∃ e' ∈ es, due e' = true ∧ e'.task ≠ 0 ∧ e'.task = a := by simp
    rw [wakeEntries]
    by_cases hdue : due e = true ∧ e.task ≠ 0
    · rw [if_pos (by simp [hdue]), ih]
      by_cases heq : e.task = a
      · by_cases hstate : (s.task a).state = .uninterruptible
        · -- once woken, the task is no longer one to be woken
          have hwake : ((s.wake e.task).task a).state = .ready := by
            rw [state_wake, if_pos ⟨hstate, heq⟩]
          rw [hwake, if_neg (by simp), if_pos ⟨hstate, hcons.2 (.inl ⟨hdue.1, hdue.2, heq⟩)⟩]
        · simp [state_wake, hstate]
      · simp only [state_wake, hcons, heq, and_false, false_or, if_false]
    · rw [if_neg (by simpa using hdue)]
      refine (ih s).trans (if_congr (and_congr_right fun _ => ?_) rfl rfl)
      rw [hcons]
      exact (or_iff_right fun hand => hdue ⟨hand.1, hand.2.1⟩).symm

/-- A task that the search finds can run, and a link leads to it. -/
theorem search_found (h : loop s.scheduleBody fuel s.currentTask = .ok (some a)) :
    s.runnable a = true ∧ ∃ current, a = s.nextTask current := by
  obtain ⟨current, -, hlast⟩ := loop_returns_iff.1 ⟨fuel, h⟩
  rw [scheduleBody] at hlast
  split_ifs at hlast with hrun
  · cases hlast
    exact ⟨hrun, current, rfl⟩
  · cases hlast
  · cases hlast

/-- **What `schedule` does**: it changes to a task that can run, or to the idle task at the head of
the list. -/
theorem schedule_cases {r : Sched × ℕ} (h : Returns s.schedule r) :
    ∃ a, r = (s.switchTo a, s.currentTask) ∧
      (s.runnable a = true ∨ a = s.taskHead ∧ (s.task s.taskHead).state = .idle) := by
  obtain ⟨fuel, h⟩ := h
  obtain ⟨found, hfound, h⟩ := bind_eq_ok.1 h
  obtain ⟨next, hnext, h⟩ := bind_eq_ok.1 h
  split_ifs at h with hzero
  · exact absurd h kpanic_ne_ok
  refine ⟨next, (Except.ok.inj h).symm, ?_⟩
  cases found with
  | some a =>
    obtain rfl := Except.ok.inj hnext
    exact .inl (search_found hfound).1
  | none =>
    rw [foundOrIdle] at hnext
    split_ifs at hnext with hidle
    · exact absurd hnext kpanic_ne_ok
    · exact .inr ⟨(Except.ok.inj hnext).symm, not_not.1 hidle⟩

/-! ### What the calls keep -/

/-- The head of the list and the numbers of the tasks are the same. -/
structure SameTasks (s t : Sched) : Prop where
  head : t.taskHead = s.taskHead
  pid : ∀ b, (t.task b).pid = (s.task b).pid

theorem SameTasks.refl (s : Sched) : SameTasks s s := ⟨rfl, fun _ => rfl⟩

theorem SameTasks.trans {u : Sched} (h : SameTasks s t) (h' : SameTasks t u) : SameTasks s u :=
  ⟨h'.head.trans h.head, fun b => (h'.pid b).trans (h.pid b)⟩

theorem sameTasks_setTask {u : Task} (hu : u.pid = (s.task a).pid) :
    SameTasks s (s.setTask a u) := by
  refine ⟨rfl, fun b => ?_⟩
  rw [task_setTask]
  split_ifs with hb
  · rw [hu, hb]
  · rfl

theorem sameTasks_setState (s : Sched) (a : ℕ) (state : TaskState) :
    SameTasks s (s.setState a state) := sameTasks_setTask rfl

theorem sameTasks_switchTo (s : Sched) (a : ℕ) : SameTasks s (s.switchTo a) := by
  have hleave : SameTasks s s.leave := by
    unfold leave
    split_ifs
    · exact sameTasks_setState s _ _
    · exact .refl s
  have hcurrent : SameTasks s.leave { s.leave with currentTask := a } := ⟨rfl, fun _ => rfl⟩
  unfold switchTo enter
  split_ifs
  · exact hleave.trans (hcurrent.trans (sameTasks_setState _ _ _))
  · exact hleave.trans hcurrent

theorem sameTasks_wakeEntries (due : SleepQueue → Bool) (es : List SleepQueue) (s : Sched) :
    SameTasks s (wakeEntries due es s).2 := by
  induction es generalizing s with
  | nil => exact .refl s
  | cons e es ih =>
    rw [wakeEntries]
    split_ifs
    · refine SameTasks.trans ?_ (ih _)
      unfold wake
      split_ifs
      · exact sameTasks_setState s _ _
      · exact .refl s
    · exact ih s

theorem currentTask_wakeEntries (due : SleepQueue → Bool) (es : List SleepQueue) (s : Sched) :
    (wakeEntries due es s).2.currentTask = s.currentTask := by
  induction es generalizing s with
  | nil => rfl
  | cons e es ih =>
    rw [wakeEntries]
    split_ifs
    · refine (ih _).trans ?_
      unfold wake
      split_ifs <;> rfl
    · exact ih s

/-- A task is added at the end of the list, which only changes links. -/
theorem addTask_cases (hhead : s.taskHead ≠ 0) (h : s.addTask a fuel = .ok t) :
    SameTasks s t ∧ t.currentTask = s.currentTask ∧
      ∀ b, (t.task b).state = (s.task b).state := by
  rw [addTask, if_neg hhead] at h
  obtain ⟨last, -, h⟩ := bind_eq_ok.1 h
  cases h
  have hfirst : SameTasks s (s.setTask last { s.task last with next := a }) := sameTasks_setTask rfl
  refine ⟨hfirst.trans (sameTasks_setTask rfl), rfl, fun b => ?_⟩
  have hlast : ∀ b, ((s.setTask last { s.task last with next := a }).task b).state =
      (s.task b).state := by
    intro b
    rw [state_setTask]
    split_ifs with hb
    · rw [hb]
    · rfl
  rw [state_setTask]
  split_ifs with hb
  · rw [hb]
    exact hlast a
  · exact hlast b

end Sched

/-! ### Which tasks can run -/

/-- A state in which a task can run. -/
def TaskState.Runs (state : TaskState) : Prop := state = .ready ∨ state = .executing

/-- A step of the scheduler. -/
inductive SchedOp where
  | create (a : ℕ)
  | add (a : ℕ)
  | kill (pid : ℤ)
  | exit
  | block (reason : TaskState)
  | unblock (a : ℕ)
  | pause (a : ℕ)
  | resume (a : ℕ)
  | tsleep (ticks : ℕ)
  | tick (now : ℕ)
  | wakeup
  | schedule

namespace SchedOp

open Sched

variable {s t : Sched} {op : SchedOp}

/-- The call of the source; a tick is the time that passes. -/
def run (s : Sched) (fuel : ℕ) : SchedOp → Outcome Sched
  | create a => s.createTask a fuel
  | add a => s.addTask a fuel
  | kill pid => s.killTask pid fuel
  | exit => .ok s.exit
  | block reason => s.blockTask reason fuel
  | unblock a => s.unblockTask a fuel
  | pause a => .ok (s.pauseTask a)
  | resume a => .ok (s.resumeTask a)
  | tsleep ticks => s.tsleep ticks fuel
  | tick now => .ok { s with ticks := now }
  | wakeup => s.wakeupHandler fuel
  | schedule => do
    let r ← s.schedule fuel
    .ok r.1

/-- The tasks that a call makes able to run. -/
def revives (s : Sched) : SchedOp → Set ℕ
  | create a | unblock a | resume a => {a}
  | block reason => {a | reason.Runs ∧ a = s.currentTask}
  | wakeup => {a | (s.task a).state = .uninterruptible ∧
      ∃ e ∈ s.sleepTimeQueue, s.expired e = true ∧ e.task ≠ 0 ∧ e.task = a}
  | _ => ∅

/-- The tasks whose states a call writes; `schedule` is treated on its own. -/
def target (s : Sched) : SchedOp → Set ℕ
  | create a | unblock a | resume a | pause a => {a}
  | kill pid => {b | Returns (s.getTask pid) b ∧ b ≠ 0}
  | exit | block _ => {s.currentTask}
  | tsleep _ => {b | b = s.currentTask ∧ b ≠ 0}
  | wakeup => wakeup.revives s
  | add _ | tick _ | schedule => ∅

/-- The state that a call writes. -/
def newState : SchedOp → TaskState
  | kill _ | exit => .zombie
  | block reason => reason
  | pause _ | tsleep _ => .uninterruptible
  | _ => .ready

/-- A call has written its state to its tasks, and no other state, and the current task is the
same. -/
structure Effect (s t : Sched) (op : SchedOp) : Prop where
  current : t.currentTask = s.currentTask
  written : ∀ b ∈ op.target s, (t.task b).state = op.newState
  kept : ∀ b ∉ op.target s, (t.task b).state = (s.task b).state
  head : s.taskHead ≠ 0 → t.taskHead = s.taskHead
  pid : ∀ b, op ≠ .create b → (t.task b).pid = (s.task b).pid

theorem getTask_fuelStable (s : Sched) (pid : ℤ) : FuelStable (s.getTask pid) := by
  by_cases hhead : s.taskHead = 0
  · intro n m _ _
    simp only [getTask, if_pos hhead]
  · have hrun : s.getTask pid = fun fuel => loop (s.getTaskBody pid) fuel s.taskHead := by
      funext fuel
      rw [getTask, if_neg hhead]
    rw [hrun]
    exact loop_fuelStable s.taskHead

/-- **What a call writes.** -/
theorem effect_of (hop : op ≠ .schedule) (h : Returns (fun fuel => op.run s fuel) t) :
    op.Effect s t := by
  obtain ⟨fuel, h⟩ := h
  change op.run s fuel = .ok t at h
  -- a call that writes the state of one task, and may change its other fields
  have hone : ∀ {a u}, s.setTask a u = t → op.target s = {a} → op.newState = u.state →
      (op ≠ .create a → u.pid = (s.task a).pid) → op.Effect s t := by
    rintro a u rfl htarget hnew hpid
    refine ⟨rfl, fun b hb => ?_, fun b hb => ?_, fun _ => rfl, fun b hb => ?_⟩
    · rw [state_setTask, if_pos (by simpa [htarget] using hb), hnew]
    · rw [state_setTask, if_neg (by simpa [htarget] using hb)]
    · rw [task_setTask]
      split_ifs with hba
      · rw [hba]
        exact hpid (hba ▸ hb)
      · rfl
  -- a call that writes no state
  have hnone : op.target s = ∅ → SameTasks s t → t.currentTask = s.currentTask →
      (∀ b, (t.task b).state = (s.task b).state) → op.Effect s t := by
    intro htarget hsame hcurrent hstate
    exact ⟨hcurrent, fun b hb => by simp [htarget] at hb, fun b _ => hstate b,
      fun _ => hsame.head, fun b _ => hsame.pid b⟩
  cases op with
  | create a =>
    obtain ⟨pid, -, h⟩ := bind_eq_ok.1 h
    exact hone (Except.ok.inj h) rfl rfl (absurd rfl)
  | add a =>
    by_cases hhead : s.taskHead = 0
    · rw [run, addTask, if_pos hhead] at h
      cases h
      exact ⟨rfl, fun _ hb => absurd hb (Set.notMem_empty _), fun _ _ => rfl,
        fun hne => absurd hhead hne, fun _ _ => rfl⟩
    · obtain ⟨hsame, hcurrent, hstate⟩ := addTask_cases hhead h
      exact hnone rfl hsame hcurrent hstate
  | kill pid =>
    obtain ⟨a, ha, h⟩ := bind_eq_ok.1 h
    have hunique : ∀ b, Returns (s.getTask pid) b ↔ b = a := fun b =>
      ⟨fun hb => (getTask_fuelStable s pid).returns_unique hb ⟨fuel, ha⟩, fun hb => hb ▸ ⟨fuel, ha⟩⟩
    split_ifs at h with hzero
    · cases h
      refine hnone ?_ (.refl s) rfl fun _ => rfl
      ext b
      simp [target, hunique, hzero]
    · refine hone (Except.ok.inj h) ?_ rfl fun _ => rfl
      ext b
      simp only [target, hunique, Set.mem_ofPred_eq, Set.mem_singleton_iff]
      exact and_iff_left_of_imp fun hb => hb ▸ hzero
  | exit => exact hone (Except.ok.inj h) rfl rfl fun _ => rfl
  | block reason =>
    exact hone (Except.ok.inj ((blockTask_eq s reason fuel).symm.trans h)) rfl rfl fun _ => rfl
  | unblock a =>
    exact hone (Except.ok.inj ((unblockTask_eq s a fuel).symm.trans h)) rfl rfl fun _ => rfl
  | pause a => exact hone (Except.ok.inj h) rfl rfl fun _ => rfl
  | resume a => exact hone (Except.ok.inj h) rfl rfl fun _ => rfl
  | tsleep ticks =>
    obtain ⟨u, hlock, h⟩ := bind_eq_ok.1 h
    obtain ⟨-, -, rfl⟩ := acquireSleepLock_eq_ok_iff.1 hlock
    split_ifs at h with hzero
    · cases h
      refine hnone ?_ ⟨rfl, fun _ => rfl⟩ rfl fun _ => rfl
      ext b
      simp only [target, Set.mem_ofPred_eq, Set.mem_empty_iff_false, iff_false, not_and, not_not]
      exact fun hb => hb.trans hzero
    · cases h
      have htarget : ∀ b, b ∈ (SchedOp.tsleep ticks).target s ↔ b = s.currentTask := fun b =>
        and_iff_left_of_imp fun hb => hb ▸ hzero
      have hsame := sameTasks_setState s s.currentTask .uninterruptible
      refine ⟨rfl, fun b hb => ?_, fun b hb => ?_, fun _ => rfl, fun b _ => hsame.pid b⟩
      · exact (state_setState s _ _ b).trans (if_pos ((htarget b).1 hb))
      · exact (state_setState s _ _ b).trans (if_neg (mt (htarget b).2 hb))
  | tick now =>
    cases h
    exact hnone rfl ⟨rfl, fun _ => rfl⟩ rfl fun _ => rfl
  | wakeup =>
    obtain ⟨u, hlock, h⟩ := bind_eq_ok.1 h
    obtain ⟨-, -, rfl⟩ := acquireSleepLock_eq_ok_iff.1 hlock
    cases h
    have hstate := state_wakeEntries s.expired s.sleepTimeQueue { s with sleepLock := true }
    have hsame := sameTasks_wakeEntries s.expired s.sleepTimeQueue { s with sleepLock := true }
    refine ⟨currentTask_wakeEntries s.expired s.sleepTimeQueue { s with sleepLock := true },
      fun b hb => (hstate b).trans (if_pos hb), fun b hb => (hstate b).trans (if_neg hb),
      fun _ => hsame.head, fun b _ => hsame.pid b⟩
  | schedule => exact absurd rfl hop

/-- What `schedule` keeps. -/
theorem schedule_of (h : Returns (fun fuel => SchedOp.schedule.run s fuel) t) :
    ∃ a, t = s.switchTo a ∧
      (s.runnable a = true ∨ a = s.taskHead ∧ (s.task s.taskHead).state = .idle) := by
  obtain ⟨fuel, h⟩ := h
  obtain ⟨r, hr, h⟩ := bind_eq_ok.1 h
  obtain ⟨a, rfl, ha⟩ := schedule_cases ⟨fuel, hr⟩
  exact ⟨a, (Except.ok.inj h).symm, ha⟩

end SchedOp

end Bloodmoon
