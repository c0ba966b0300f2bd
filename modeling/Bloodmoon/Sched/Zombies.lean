import Bloodmoon.Sched.Effects

/-!
# Tasks that have ended

`exit` and `kill_task` make a task `TASK_ZOMBIE`. Whether it stays dead depends on the calls that
write the state of a task without looking at it. `SchedOp.revives` is the set of tasks that a call
makes able to run, and this is all that a call adds to the tasks that can run
(`SchedOp.runs_of`). A run keeps its zombies dead when no call revives one of them.
-/

namespace Bloodmoon

open Machine Relation

namespace SchedOp

open Sched

variable {s t : Sched} {op : SchedOp}

theorem not_runs_zombie : ¬ TaskState.Runs .zombie := by simp [TaskState.Runs]

/-- The change to another task makes no other task able to run. -/
theorem runs_switchTo (s : Sched) (a b : ℕ) :
    ((s.switchTo a).task b).state.Runs ↔ (s.task b).state.Runs := by
  have hleave : (s.leave.task b).state.Runs ↔ (s.task b).state.Runs := by
    rw [state_leave]
    split_ifs with hexec
    · simp [TaskState.Runs, hexec.2]
    · rfl
  rw [switchTo, state_enter, ← hleave]
  split_ifs with hready
  · simp [TaskState.Runs, hready.2]
  · rfl

/-- A call revives the tasks to which it writes a state in which a task can run. -/
theorem mem_revives_iff (s : Sched) (op : SchedOp) (a : ℕ) :
    a ∈ op.revives s ↔ a ∈ op.target s ∧ op.newState.Runs := by
  cases op <;> simp [revives, target, newState, TaskState.Runs, and_comm]

/-- **What a call does to the tasks that can run**: those it revives can run afterwards, and no
other one that could not before. -/
theorem runs_of (h : Returns (fun fuel => op.run s fuel) t) :
    (∀ a ∈ op.revives s, (t.task a).state.Runs) ∧
      ∀ a, (t.task a).state.Runs → (s.task a).state.Runs ∨ a ∈ op.revives s := by
  by_cases hop : op = .schedule
  · subst hop
    obtain ⟨next, rfl, -⟩ := schedule_of h
    exact ⟨fun a ha => absurd ha (Set.notMem_empty a),
      fun a ha => .inl ((runs_switchTo s next a).1 ha)⟩
  have heffect := effect_of hop h
  refine ⟨fun a ha => ?_, fun a ha => ?_⟩
  · obtain ⟨htarget, hruns⟩ := (mem_revives_iff s op a).1 ha
    rwa [heffect.written a htarget]
  · by_cases htarget : a ∈ op.target s
    · rw [heffect.written a htarget] at ha
      exact .inr ((mem_revives_iff s op a).2 ⟨htarget, ha⟩)
    · exact .inl (heffect.kept a htarget ▸ ha)

end SchedOp

/-! ### Runs -/

/-- The scheduler in a run, with the tasks that have been created and those that have been
`TASK_ZOMBIE`. -/
structure SchedSession where
  sched : Sched
  tasks : Set ℕ
  zombies : Set ℕ

namespace SchedSession

variable {v w : SchedSession} {op : SchedOp} {s : Sched}

/-- The tasks that exist after a call. -/
def tasksAfter (v : SchedSession) : SchedOp → Set ℕ
  | .create a => insert a v.tasks
  | _ => v.tasks

/-- The state of the run after a call that leaves `s`. -/
def after (v : SchedSession) (op : SchedOp) (s : Sched) : SchedSession where
  sched := s
  tasks := v.tasksAfter op
  zombies := v.zombies ∪ {a ∈ v.tasksAfter op | (s.task a).state = .zombie}

/-- A new task is at an address of its own, as `kmalloc` gives it. -/
def Fresh (v : SchedSession) : SchedOp → Prop
  | .create a => a ≠ 0 ∧ a ∉ v.tasks
  | _ => True

/-- A call that is allowed and returns. -/
def Step (allowed : SchedSession → SchedOp → Prop) (v w : SchedSession) : Prop :=
  ∃ op s, v.Fresh op ∧ allowed v op ∧ Returns (fun fuel => op.run v.sched fuel) s ∧
    w = v.after op s

/-- No task that has been a zombie can run. -/
def Buried (w : SchedSession) : Prop := ∀ a ∈ w.zombies, ¬ (w.sched.task a).state.Runs

/-- The call revives no task that has been a zombie. -/
def RevivesNone (w : SchedSession) (op : SchedOp) : Prop :=
  ∀ a ∈ op.revives w.sched, a ∉ w.zombies

/-- A call keeps the zombies dead exactly when it revives none of them. -/
theorem Buried.after_iff (h : w.Buried) (hret : Returns (fun fuel => op.run w.sched fuel) s) :
    (w.after op s).Buried ↔ w.RevivesNone op := by
  obtain ⟨hrevived, hother⟩ := SchedOp.runs_of hret
  constructor
  · intro hafter a ha hzombie
    exact hafter a (.inl hzombie) (hrevived a ha)
  · rintro hnone a (hzombie | ⟨-, hstate⟩) hruns
    · rcases hother a hruns with hbefore | ha
      · exact h a hzombie hbefore
      · exact hnone a ha hzombie
    · exact SchedOp.not_runs_zombie (hstate ▸ hruns)

/-- **Zombies stay dead** in every run whose calls meet the condition, and a call in a state of such
a run keeps them dead exactly when it meets it. The run starts in any state in which no task has
ended yet, such as the one that `init_scheduler` leaves. -/
theorem zombies_run (hv : v.zombies = ∅) (hrun : ReflTransGen (Step RevivesNone) v w) :
    w.Buried ∧ ∀ op t, w.Fresh op → Returns (fun fuel => op.run w.sched fuel) t →
      ((w.after op t).Buried ↔ w.RevivesNone op) := by
  have hw : w.Buried := by
    induction hrun with
    | refl =>
      intro a ha
      rw [hv] at ha
      exact absurd ha (Set.notMem_empty a)
    | tail _ hstep ih =>
      obtain ⟨op, t, -, hnone, hret, rfl⟩ := hstep
      exact (ih.after_iff hret).2 hnone
  exact ⟨hw, fun op t _ hret => hw.after_iff hret⟩

end SchedSession

/-- The variables before `init_scheduler`. -/
def Sched.boot : Sched where
  task _ := ⟨0, .free, 0, 0, 0, 0⟩
  taskHead := 0
  currentTask := 0
  irqDisableCounter := 0
  schedulerReady := false
  ticks := 0
  sleepTimeQueue := []
  sleepReasonQueue := []
  sleepLock := false

namespace SchedSession

/-- The idle task ends after `init_scheduler`, and stays dead. -/
theorem zombies_boot :
    ∃ s, Returns (Sched.boot.initScheduler 1) s ∧
      ∃ w, ReflTransGen (Step RevivesNone) ⟨s, {1}, ∅⟩ w ∧ 1 ∈ w.zombies ∧ w.Buried := by
  refine ⟨_, ⟨2, rfl⟩, _, .single ⟨.exit, _, trivial, ?_, ⟨0, rfl⟩, rfl⟩, .inr ⟨rfl, rfl⟩, ?_⟩
  · exact fun a ha => absurd ha (Set.notMem_empty a)
  · exact (zombies_run rfl (.single ⟨.exit, _, trivial,
      fun a ha => absurd ha (Set.notMem_empty a), ⟨0, rfl⟩, rfl⟩)).1

/-- A task is created, added and killed, and `resume_task` makes it ready. -/
theorem zombies_boot_resume :
    ∃ s, (do
        let s ← Sched.boot.initScheduler 1 9
        let s ← s.createTask 2 9
        let s ← s.addTask 2 9
        s.killTask 1 9) = .ok s ∧
      (s.task 2).state = .zombie ∧ ((s.resumeTask 2).task 2).state = .ready ∧
      (⟨s, {1, 2}, {2}⟩ : SchedSession).Buried ∧
      ¬ ((⟨s, {1, 2}, {2}⟩ : SchedSession).after (.resume 2) (s.resumeTask 2)).Buried := by
  refine ⟨_, rfl, rfl, rfl, ?_, fun hburied => ?_⟩
  · rintro a rfl
    exact SchedOp.not_runs_zombie
  · exact hburied 2 (.inl rfl) (.inl rfl)

end SchedSession

end Bloodmoon
