import Bloodmoon.Sched.Zombies

/-!
# The idle task and the task that executes

The idle task at the head of the list keeps its state unless a call is made for it (`idle_run`), and
no task but the current one executes (`executing_run`).

`block_task` holds the lock of the scheduler when it calls `yield`, so that another task never
becomes current in it (`not_switchesOnBlock`).
-/

namespace Bloodmoon

open Machine Relation

namespace Sched

variable {s t : Sched} {a b : ℕ}

theorem state_switchTo_idle (a : ℕ) (hb : (s.task b).state = .idle) :
    ((s.switchTo a).task b).state = .idle := by
  have hleave : (s.leave.task b).state = .idle := by
    rw [state_leave, hb, if_neg (by simp)]
  rw [switchTo, state_enter, hleave, if_neg (by simp)]

/-- The idle task is taken when there is no other one, so that the code does not panic. -/
theorem not_panics_schedule (hhead : s.taskHead ≠ 0) (hidle : (s.task s.taskHead).state = .idle) :
    ¬ Panics s.schedule := by
  intro hpanics
  obtain ⟨fuel, msg, hsearch⟩ | ⟨found, msg, ⟨fuel, hfound⟩, hpanic⟩ := panics_bind_iff.1 hpanics
  · -- no round of the search panics
    obtain ⟨current, msg, -, hlast⟩ := loop_panics_iff.1 ⟨fuel, msg, hsearch⟩
    rw [scheduleBody] at hlast
    split_ifs at hlast <;> cases hlast
  · obtain ⟨next, hnext, hne⟩ : ∃ next, s.foundOrIdle found = .ok next ∧ next ≠ 0 := by
      cases found with
      | none => exact ⟨s.taskHead, if_neg (not_not.2 hidle), hhead⟩
      | some a =>
        obtain ⟨-, current, rfl⟩ := search_found hfound
        refine ⟨_, rfl, ?_⟩
        rw [nextTask]
        split_ifs with hlast
        · exact hhead
        · exact hlast
    rw [hnext, ok_bind, if_neg hne] at hpanic
    cases hpanic

end Sched

/-! ### Runs -/

namespace SchedSession

open Sched

variable {v w : SchedSession} {op : SchedOp} {t : Sched}

theorem step_of {allowed : SchedSession → SchedOp → Prop} {s : Sched} (op : SchedOp) (fuel : ℕ)
    (hfresh : v.Fresh op) (hallowed : allowed v op) (h : op.run v.sched fuel = .ok s) :
    Step allowed v (v.after op s) := ⟨op, s, hfresh, hallowed, ⟨fuel, h⟩, rfl⟩

/-- `init_scheduler` has been called with the list of tasks empty, as it is at the beginning. -/
def Started (v : SchedSession) : Prop :=
  ∃ (s : Sched) (a : ℕ), s.taskHead = 0 ∧ a ≠ 0 ∧ Returns (s.initScheduler a) v.sched ∧
    v.tasks = {a}

end SchedSession

namespace Sched

variable {s t : Sched} {a : ℕ}

/-- **`init_scheduler`** leaves the idle task in the list, which is the current one. -/
theorem initScheduler_eq (hhead : s.taskHead = 0) (h : Returns (s.initScheduler a) t) :
    t = { s.setTask a ⟨0, .idle, 0, 0, 0, 0⟩ with taskHead := a, currentTask := a } := by
  obtain ⟨fuel, h⟩ := h
  obtain ⟨u, hu, h⟩ := bind_eq_ok.1 h
  obtain ⟨pid, -, hu⟩ := bind_eq_ok.1 hu
  obtain rfl := Except.ok.inj hu
  obtain ⟨u, hu, h⟩ := bind_eq_ok.1 h
  obtain rfl := Except.ok.inj ((if_pos hhead).symm.trans hu)
  obtain rfl := Except.ok.inj h
  simp [setTask]

end Sched

/-! ### The idle task -/

namespace SchedSession

open Sched

variable {v w : SchedSession} {op : SchedOp} {t : Sched}

/-- The idle task is at the head of the list. -/
structure IdleAtHead (v : SchedSession) : Prop where
  ne_zero : v.sched.taskHead ≠ 0
  created : v.sched.taskHead ∈ v.tasks
  pid : (v.sched.task v.sched.taskHead).pid = 0
  idle : (v.sched.task v.sched.taskHead).state = .idle

/-- The call is not made for the idle task: not with its number or its address, and not while it is
the current task. -/
def SparesIdle (v : SchedSession) : SchedOp → Prop
  | .kill pid => pid ≠ 0
  | .pause a | .resume a | .unblock a => a ≠ v.sched.taskHead
  | .exit | .tsleep _ => v.sched.currentTask ≠ v.sched.taskHead
  | .block reason => v.sched.currentTask = v.sched.taskHead → reason = .idle
  | _ => True

theorem Started.idleAtHead (h : v.Started) : v.IdleAtHead := by
  obtain ⟨s, a, hhead, ha, hinit, htasks⟩ := h
  have heq := initScheduler_eq hhead hinit
  refine ⟨?_, ?_, ?_, ?_⟩
  · rw [heq]
    exact ha
  · rw [heq, htasks]
    rfl
  · rw [heq]
    simp [setTask]
  · rw [heq]
    simp [setTask]

/-- Only the idle task has the number of the idle task, as far as `get_task` is concerned. -/
theorem IdleAtHead.mem_target_kill_iff (h : v.IdleAtHead) (pid : ℤ) :
    v.sched.taskHead ∈ (SchedOp.kill pid).target v.sched ↔ pid = 0 := by
  have hfirst : Returns (v.sched.getTask 0) v.sched.taskHead := by
    refine ⟨1, ?_⟩
    rw [getTask, if_neg h.ne_zero]
    refine loop_succ_of_leaves ?_ 0
    rw [getTaskBody, if_pos h.pid]
  constructor
  · rintro ⟨⟨fuel, hfound⟩, -⟩
    rw [getTask, if_neg h.ne_zero] at hfound
    obtain ⟨current, -, hlast⟩ := loop_returns_iff.1 ⟨fuel, hfound⟩
    rw [getTaskBody] at hlast
    split_ifs at hlast with hpid
    · cases hlast
      exact hpid.symm.trans h.pid
    · exact absurd (Sum.inr.inj (Except.ok.inj hlast)).symm h.ne_zero
    · cases hlast
  · rintro rfl
    exact ⟨hfirst, h.ne_zero⟩

/-- A call writes the state of the idle task exactly when it is made for it. -/
theorem IdleAtHead.sparesIdle_iff (h : v.IdleAtHead) (hfresh : v.Fresh op) :
    SparesIdle v op ↔ v.sched.taskHead ∈ op.target v.sched → op.newState = .idle := by
  cases op with
  | create a =>
    refine iff_of_true trivial fun hmem => absurd h.created ?_
    rw [show v.sched.taskHead = a from hmem]
    exact hfresh.2
  | kill pid =>
    rw [h.mem_target_kill_iff]
    exact ⟨fun hne heq => absurd heq hne, fun himp heq => nomatch himp heq⟩
  | exit | pause _ | resume _ | unblock _ =>
    exact ⟨fun hne hmem => absurd (Eq.symm hmem) hne, fun himp heq => nomatch himp heq.symm⟩
  | block reason =>
    exact ⟨fun himp hmem => himp (Eq.symm hmem), fun himp heq => himp heq.symm⟩
  | tsleep ticks =>
    exact ⟨fun hne hmem => absurd hmem.1.symm hne,
      fun himp heq => nomatch himp ⟨heq.symm, h.ne_zero⟩⟩
  | wakeup =>
    refine iff_of_true trivial fun hmem => ?_
    have hstate := hmem.1
    rw [h.idle] at hstate
    cases hstate
  | add _ | tick _ | schedule =>
    exact iff_of_true trivial fun hmem => absurd hmem (Set.notMem_empty _)

theorem mem_tasks_after {a : ℕ} (ha : a ∈ v.tasks) : a ∈ (v.after op t).tasks := by
  cases op with
  | create b => exact Set.mem_insert_of_mem b ha
  | _ => exact ha

/-- **A call leaves the state of the idle task** exactly when it is not made for it. -/
theorem IdleAtHead.idle_iff (h : v.IdleAtHead) (hfresh : v.Fresh op)
    (hret : Returns (fun fuel => op.run v.sched fuel) t) :
    t.taskHead = v.sched.taskHead ∧ (t.task t.taskHead).pid = 0 ∧
      ((t.task t.taskHead).state = .idle ↔ SparesIdle v op) := by
  by_cases hop : op = .schedule
  · subst hop
    obtain ⟨a, rfl, -⟩ := SchedOp.schedule_of hret
    have hsame := sameTasks_switchTo v.sched a
    refine ⟨hsame.head, ?_, iff_of_true ?_ trivial⟩
    · rw [hsame.head, hsame.pid, h.pid]
    · rw [hsame.head]
      exact state_switchTo_idle a h.idle
  · have heffect := SchedOp.effect_of hop hret
    have hpid : op ≠ .create v.sched.taskHead := by
      rintro rfl
      exact hfresh.2 h.created
    rw [heffect.head h.ne_zero]
    refine ⟨rfl, (heffect.pid _ hpid).trans h.pid, ?_⟩
    rw [h.sparesIdle_iff hfresh]
    by_cases hmem : v.sched.taskHead ∈ op.target v.sched
    · rw [heffect.written _ hmem]
      exact ⟨fun hidle _ => hidle, fun himp => himp hmem⟩
    · rw [heffect.kept _ hmem]
      exact iff_of_true h.idle fun hmem' => absurd hmem' hmem

theorem IdleAtHead.after (h : v.IdleAtHead) (hfresh : v.Fresh op)
    (hret : Returns (fun fuel => op.run v.sched fuel) t) (hspares : SparesIdle v op) :
    (v.after op t).IdleAtHead := by
  obtain ⟨hhead, hpid, hidle⟩ := h.idle_iff hfresh hret
  refine ⟨?_, ?_, hpid, hidle.2 hspares⟩
  · exact hhead ▸ h.ne_zero
  · change t.taskHead ∈ _
    rw [hhead]
    exact mem_tasks_after h.created

/-- **The idle task stays at the head** in every run whose calls are not made for it, so that
`schedule` does not panic, and a call in a state of such a run leaves the idle task in its state
exactly when it is not made for it. -/
theorem idle_run (hstart : v.Started) (hrun : ReflTransGen (Step SparesIdle) v w) :
    ¬ Panics w.sched.schedule ∧ (w.sched.task w.sched.taskHead).state = .idle ∧
      ∀ op t, w.Fresh op → Returns (fun fuel => op.run w.sched fuel) t →
        ((t.task t.taskHead).state = .idle ↔ SparesIdle w op) := by
  have hw : w.IdleAtHead := by
    induction hrun with
    | refl => exact hstart.idleAtHead
    | tail _ hstep ih =>
      obtain ⟨op, t, hfresh, hspares, hret, rfl⟩ := hstep
      exact ih.after hfresh hret hspares
  exact ⟨not_panics_schedule hw.ne_zero hw.idle, hw.idle, fun op t hfresh hret =>
    (hw.idle_iff hfresh hret).2.2⟩

/-- What `init_scheduler` leaves, with the idle task at 1. -/
def boot : SchedSession where
  sched := { Sched.boot.setTask 1 ⟨0, .idle, 0, 0, 0, 0⟩ with taskHead := 1, currentTask := 1 }
  tasks := {1}
  zombies := ∅

theorem boot_init : Returns (Sched.boot.initScheduler 1) boot.sched := by
  have hinit : Returns (Sched.boot.initScheduler 1) _ := ⟨2, rfl⟩
  rwa [initScheduler_eq rfl hinit] at hinit

theorem boot_started : boot.Started := ⟨Sched.boot, 1, rfl, by decide, boot_init, rfl⟩

/-- A task is created, added, made current and killed, and `schedule` takes the idle task. -/
theorem idle_boot :
    ∃ w, boot.Started ∧ ReflTransGen (Step SparesIdle) boot w ∧
      w.sched.currentTask = 2 ∧ (w.sched.task 2).state = .zombie ∧ ¬ Panics w.sched.schedule := by
  have hrun : ReflTransGen (Step SparesIdle) boot _ :=
    (((ReflTransGen.single (step_of (.create 2) 9 ⟨by decide, by simp [boot]⟩ trivial rfl)).tail
      (step_of (.add 2) 9 trivial trivial rfl)).tail
      (step_of .schedule 9 trivial trivial rfl)).tail
      (step_of (.kill 1) 9 trivial (by decide : (1 : ℤ) ≠ 0) rfl)
  exact ⟨_, boot_started, hrun, rfl, rfl, (idle_run boot_started hrun).1⟩

/-- The idle task is killed by its number, and `schedule` panics. -/
theorem idle_boot_kill :
    ∃ s, (do
        let s ← Sched.boot.initScheduler 1 9
        s.killTask 0 9) = .ok s ∧
      (s.task s.taskHead).state = .zombie ∧ Panics s.schedule :=
  ⟨_, rfl, rfl, 9, _, rfl⟩

/-! ### The task that executes -/

/-- Every call but `block_task` with `TASK_EXECUTING` as the reason. -/
def NotBlockedExecuting (_ : SchedSession) (op : SchedOp) : Prop := op ≠ .block .executing

/-- No task but the current one executes. -/
def OneExecutes (v : SchedSession) : Prop :=
  ∀ b ∈ v.tasks, (v.sched.task b).state = .executing → b = v.sched.currentTask

/-- No state but that of the current task is executing after a change of tasks, as there was none
but the one that was left. -/
theorem OneExecutes.switchTo (h : v.OneExecutes) (a : ℕ) {b : ℕ} (hb : b ∈ v.tasks)
    (hexec : ((v.sched.switchTo a).task b).state = .executing) : b = a := by
  rw [Sched.switchTo, state_enter, state_leave] at hexec
  by_contra hne
  rw [if_neg fun hand => hne hand.1] at hexec
  split_ifs at hexec with hleft
  exact hleft ⟨h b hb hexec, hexec⟩

/-- The task that becomes current executes if it could run. -/
theorem state_switchTo_runnable {s : Sched} {a : ℕ} (hrun : s.runnable a = true) :
    ((s.switchTo a).task a).state = .executing := by
  have hleave : (s.leave.task a).state = .ready ∨ (s.leave.task a).state = .executing := by
    rw [state_leave]
    split_ifs
    · exact .inl rfl
    · exact decide_eq_true_iff.1 hrun
  rw [Sched.switchTo, state_enter]
  split_ifs with hready
  · rfl
  · exact hleave.resolve_left fun h => hready ⟨rfl, h⟩

theorem newState_ne_executing (hop : op ≠ .block .executing) : op.newState ≠ .executing := by
  cases op with
  | block reason => exact fun heq => hop (congrArg _ heq)
  | _ => exact nofun

/-- **A call lets no second task execute.** -/
theorem OneExecutes.after (h : v.OneExecutes) (hhead : v.sched.taskHead ≠ 0)
    (hallowed : NotBlockedExecuting v op)
    (hret : Returns (fun fuel => op.run v.sched fuel) t) :
    (v.after op t).OneExecutes ∧ t.taskHead ≠ 0 := by
  by_cases hop : op = .schedule
  · subst hop
    obtain ⟨a, rfl, -⟩ := SchedOp.schedule_of hret
    refine ⟨fun b hb hexec => ?_, (sameTasks_switchTo v.sched a).head ▸ hhead⟩
    exact (h.switchTo a hb hexec).trans (currentTask_switchTo v.sched a).symm
  · have heffect := SchedOp.effect_of hop hret
    refine ⟨fun b hb hexec => ?_, heffect.head hhead ▸ hhead⟩
    have hnot : b ∉ op.target v.sched := fun hmem =>
      newState_ne_executing hallowed ((heffect.written b hmem).symm.trans hexec)
    have hold : b ∈ v.tasks := by
      cases op with
      | create a => exact hb.resolve_left hnot
      | _ => exact hb
    exact (h b hold ((heffect.kept b hnot).symm.trans hexec)).trans heffect.current.symm

/-- **At most one task executes**, the current one, in every run in which no task is blocked with
`TASK_EXECUTING` as the reason; and after `schedule` the current task executes or is the idle task
at the head of the list. -/
theorem executing_run (hstart : v.Started) (hrun : ReflTransGen (Step NotBlockedExecuting) v w) :
    w.OneExecutes ∧ ∀ r, Returns w.sched.schedule r →
      (r.1.task r.1.currentTask).state = .executing ∨
        r.1.currentTask = r.1.taskHead ∧ (r.1.task r.1.currentTask).state = .idle := by
  have hw : w.OneExecutes ∧ w.sched.taskHead ≠ 0 := by
    induction hrun with
    | refl =>
      have hidle := hstart.idleAtHead
      obtain ⟨s, a, hhead, -, hinit, htasks⟩ := hstart
      refine ⟨fun b hb hexec => ?_, hidle.ne_zero⟩
      -- the only task is the idle one
      have heq := initScheduler_eq hhead hinit
      rw [htasks] at hb
      rw [hb, heq]
    | tail _ hstep ih =>
      obtain ⟨op, t, -, hallowed, hret, rfl⟩ := hstep
      exact ih.1.after ih.2 hallowed hret
  refine ⟨hw.1, fun r hr => ?_⟩
  obtain ⟨a, rfl, hrunnable | ⟨rfl, hidle⟩⟩ := schedule_cases hr
  · rw [currentTask_switchTo]
    exact .inl (state_switchTo_runnable hrunnable)
  · rw [currentTask_switchTo, (sameTasks_switchTo w.sched _).head]
    exact .inr ⟨rfl, state_switchTo_idle _ hidle⟩

/-- A task is created, added and made current. -/
theorem executing_boot :
    ∃ w, boot.Started ∧ ReflTransGen (Step NotBlockedExecuting) boot w ∧
      (w.sched.task 2).state = .executing ∧ w.OneExecutes := by
  have hrun : ReflTransGen (Step NotBlockedExecuting) boot _ :=
    ((ReflTransGen.single (step_of (.create 2) 9 ⟨by decide, by simp [boot]⟩ nofun rfl)).tail
      (step_of (.add 2) 9 trivial nofun rfl)).tail
      (step_of .schedule 9 trivial nofun rfl)
  exact ⟨_, boot_started, hrun, rfl, (executing_run boot_started hrun).1⟩

end SchedSession

/-! ### Blocking -/

namespace Sched

variable {s t : Sched} {l : List ℕ} {x : ℕ} {reason : TaskState}

/-- Another task is made current before `block_task` returns. -/
def SwitchesOnBlock (s : Sched) (reason : TaskState) : Prop :=
  ∀ t, Returns (s.blockTask reason) t → t.currentTask ≠ s.currentTask

/-- The task that `schedule` takes can run if there is one that can. -/
theorem Listed.runnable_pick (h : s.Listed l) (hx : x ∈ l) (hrun : s.runnable x = true) :
    s.runnable (s.pick l) = true := by
  rw [pick]
  rcases hfind : (turnOrder l s.currentTask).find? s.runnable with _ | a
  · exact absurd hrun (List.find?_eq_none.1 hfind x ((mem_turnOrder h.current h.nodup).2 hx))
  · exact List.find?_some hfind

/-- **`block_task` never changes to another task**: it returns with the same task current, though
`yield` would have changed to another one if the scheduler had not been locked. -/
theorem not_switchesOnBlock (h : s.Listed l) (hready : s.schedulerReady = true)
    (hcounter : s.irqDisableCounter = 0) (hx : x ∈ l) (hne : x ≠ s.currentTask)
    (hrun : s.runnable x = true) (hreason : ¬ reason.Runs) :
    Returns (s.blockTask reason) (s.setState s.currentTask reason) ∧ ¬ s.SwitchesOnBlock reason ∧
      ∃ t, Returns (s.setState s.currentTask reason).yield t ∧ t.currentTask ≠ s.currentTask := by
  have hblock : Returns (s.blockTask reason) (s.setState s.currentTask reason) :=
    ⟨0, blockTask_eq s reason 0⟩
  refine ⟨hblock, fun hswitches => hswitches _ hblock rfl, ?_⟩
  -- the task that is blocked cannot run, and the other one can
  have hrunnable : ∀ b, (s.setState s.currentTask reason).runnable b = true ↔
      if b = s.currentTask then reason.Runs else (s.task b).state.Runs := fun b => by
    rw [runnable, decide_eq_true_iff]
    rw [state_setState]
    split_ifs <;> rfl
  have hlisted : (s.setState s.currentTask reason).Listed l :=
    h.congr (sameList_setState s _ _) h.current
  have hother : (s.setState s.currentTask reason).runnable x = true := by
    rw [hrunnable, if_neg hne]
    exact (decide_eq_true_iff (p := _ ∨ _)).1 hrun
  obtain ⟨fuel, hschedule⟩ := hlisted.schedule_returns (.inr ⟨x, hx, hother⟩)
  have hyield : Returns (s.setState s.currentTask reason).yield
      ((s.setState s.currentTask reason).switchTo ((s.setState s.currentTask reason).pick l)) := by
    refine ⟨fuel, ?_⟩
    rw [yield, if_neg (by simp [setState, setTask, hready, hcounter]), hschedule]
    rfl
  refine ⟨_, hyield, fun heq => ?_⟩
  rw [currentTask_switchTo] at heq
  have hpick := (hrunnable _).1 (hlisted.runnable_pick hx hother)
  rw [if_pos heq] at hpick
  exact hreason hpick

/-- The idle task at 1, a task at 2 that executes, and a ready task at 3. -/
def threeTasks : Sched where
  task a := if a = 1 then ⟨0, .idle, 0, 0, 2, 0⟩ else if a = 2 then ⟨1, .executing, 0, 0, 3, 1⟩
    else ⟨2, .ready, 0, 0, 0, 2⟩
  taskHead := 1
  currentTask := 2
  irqDisableCounter := 0
  schedulerReady := true
  ticks := 0
  sleepTimeQueue := []
  sleepReasonQueue := []
  sleepLock := false

theorem threeTasks_listed : threeTasks.Listed [1, 2, 3] where
  linked := ⟨⟨by decide, rfl, rfl⟩, ⟨by decide, rfl, rfl⟩, ⟨by decide, rfl, rfl⟩, trivial⟩
  head := rfl
  nodup := by decide
  current := by decide

/-- The task stops, and is still the current one. -/
theorem not_switchesOnBlock_threeTasks :
    threeTasks.Listed [1, 2, 3] ∧ ¬ threeTasks.SwitchesOnBlock .stopped :=
  ⟨threeTasks_listed, (not_switchesOnBlock threeTasks_listed rfl rfl (x := 3) (by decide)
    (by decide) rfl (by simp [TaskState.Runs])).2.1⟩

/-- The task at 3 is ready, and `block_task` returns with the task at 2 stopped and current. -/
theorem blockTask_threeTasks : ∃ t, threeTasks.blockTask .stopped 9 = .ok t ∧
    t.currentTask = 2 ∧ (t.task 2).state = .stopped ∧ t.runnable 3 = true :=
  ⟨_, rfl, rfl, rfl, rfl⟩

end Sched

end Bloodmoon
