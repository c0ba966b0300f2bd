import Bloodmoon.Machine.LinkedList
import Bloodmoon.Machine.RoundRobin
import Bloodmoon.Sched.Model

/-!
# Choosing the next task

`schedule` follows the links from the current task, so that on a well-formed list (`Sched.Listed`)
it sees the tasks in their `turnOrder` and takes the first one that can run. Each call that passes a
ready task over moves it up in that order, which bounds how often that can happen.
-/

namespace Bloodmoon

open Machine Relation List

namespace Sched

/-- A task in the list of tasks, between the tasks at `a` and `b`. -/
def TaskNode (task : ℕ → Task) (x a b : ℕ) : Prop := x ≠ 0 ∧ (task x).prev = a ∧ (task x).next = b

/-- The list of tasks is well formed, with the tasks at the addresses `l`, and the current task is
in it. -/
structure Listed (s : Sched) (l : List ℕ) : Prop where
  linked : Linked id TaskNode s.task 0 l 0
  head : s.taskHead = firstAddr id 0 l
  nodup : l.Nodup
  current : s.currentTask ∈ l

variable {s t u : Sched} {l : List ℕ} {a x : ℕ}

/-! ### The search -/

/-- The link of a task leads to the next one in cyclic order. -/
theorem Listed.head?_turnOrder (h : s.Listed l) (ha : a ∈ l) :
    (turnOrder l a).head? = some (s.nextTask a) := by
  obtain ⟨as, bs, rfl⟩ := append_of_mem ha
  have hnode := (linked_append.1 h.linked).2
  rw [turnOrder_append h.nodup, nextTask]
  cases bs with
  | nil =>
    have hlast : (s.task a).next = 0 := hnode.1.2.2
    rw [if_pos hlast, h.head]
    cases as <;> rfl
  | cons b bs =>
    have hnext : (s.task a).next = b := hnode.1.2.2
    have hb : b ≠ 0 := hnode.2.1.1
    rw [if_neg (hnext ▸ hb), hnext]
    rfl

theorem Listed.nextTask_eq (h : s.Listed l) (ha : a ∈ l) {us : List ℕ}
    (heq : turnOrder l a = x :: us) : s.nextTask a = x := by
  have hhead := h.head?_turnOrder ha
  rw [heq, head?_cons] at hhead
  exact (Option.some.inj hhead).symm

/-- The search goes over tasks that cannot run, up to the one before `x`. -/
theorem Listed.continues_over (h : s.Listed l) {us vs : List ℕ}
    (heq : turnOrder l s.currentTask = us ++ x :: vs) (hus : ∀ a ∈ us, s.runnable a = false) :
    ReflTransGen (Continues s.scheduleBody) s.currentTask (us.getLastD s.currentTask) ∧
      s.nextTask (us.getLastD s.currentTask) = x := by
  induction us using List.reverseRecOn generalizing x vs with
  | nil => exact ⟨.refl, h.nextTask_eq h.current heq⟩
  | append_singleton us a ih =>
    rw [append_assoc, singleton_append] at heq
    obtain ⟨hcont, hnext⟩ := ih heq fun b hb => hus b (mem_append_left _ hb)
    have hmem : a ∈ l := (mem_turnOrder h.current h.nodup).1 (heq ▸ by simp)
    -- only the last task of the order is the current one
    have hne : a ≠ s.currentTask := by
      rintro rfl
      exact cons_ne_nil x vs (turnOrder_last h.current h.nodup heq)
    rw [getLastD_concat]
    refine ⟨hcont.tail ?_, h.nextTask_eq hmem (turnOrder_turn h.current h.nodup heq)⟩
    change s.scheduleBody _ = _
    rw [scheduleBody, hnext, if_neg (by simp [hus a]), if_neg hne]

/-- **The search finds the first task in cyclic order that can run.** -/
theorem Listed.search_returns (h : s.Listed l) :
    Returns (fun fuel => loop s.scheduleBody fuel s.currentTask)
      ((turnOrder l s.currentTask).find? s.runnable) := by
  rw [loop_returns_iff]
  rcases hfind : (turnOrder l s.currentTask).find? s.runnable with _ | x
  · -- the last task that is looked at is the current one
    have hnone := find?_eq_none.1 hfind
    obtain ⟨us, heq⟩ : ∃ us, turnOrder l s.currentTask = us ++ [s.currentTask] := ⟨_, rfl⟩
    rw [heq] at hnone
    obtain ⟨hcont, hnext⟩ := h.continues_over heq fun a ha =>
      Bool.eq_false_iff.2 (hnone a (mem_append_left _ ha))
    refine ⟨_, hcont, ?_⟩
    rw [scheduleBody, hnext, if_neg (hnone _ (by simp)), if_pos rfl]
  · obtain ⟨hx, us, vs, heq, hus⟩ := find?_eq_some_iff_append.1 hfind
    obtain ⟨hcont, hnext⟩ := h.continues_over heq fun a ha => by simpa using hus a ha
    refine ⟨_, hcont, ?_⟩
    rw [scheduleBody, hnext, if_pos hx]

theorem Listed.ne_zero (h : s.Listed l) (ha : a ∈ l) : a ≠ 0 := by
  obtain ⟨_, _, hnode⟩ := h.linked.exists_node ha
  exact hnode.1

theorem Listed.taskHead_mem (h : s.Listed l) : s.taskHead ∈ l := by
  rw [h.head]
  cases l with
  | nil => exact absurd h.current not_mem_nil
  | cons b bs => exact mem_cons_self

/-- The task that `schedule` makes current: the first one in cyclic order that can run, and the head
of the list if there is none. -/
def pick (s : Sched) (l : List ℕ) : ℕ :=
  ((turnOrder l s.currentTask).find? s.runnable).getD s.taskHead

theorem Listed.schedule_returns (h : s.Listed l)
    (hpick : (s.task s.taskHead).state = .idle ∨ ∃ x ∈ l, s.runnable x = true) :
    Returns s.schedule (s.switchTo (s.pick l), s.currentTask) := by
  refine returns_bind_iff.2 ⟨_, h.search_returns, ?_⟩
  rw [pick]
  rcases hfind : (turnOrder l s.currentTask).find? s.runnable with _ | x
  · have hidle := hpick.resolve_right fun ⟨x, hx, hrun⟩ =>
      find?_eq_none.1 hfind x ((mem_turnOrder h.current h.nodup).2 hx) hrun
    simp [foundOrIdle, hidle, h.ne_zero h.taskHead_mem]
  · have hx : x ∈ l := (mem_turnOrder h.current h.nodup).1 (mem_of_find?_eq_some hfind)
    simp [foundOrIdle, h.ne_zero hx]

theorem schedule_fuelStable (s : Sched) : FuelStable s.schedule :=
  (loop_fuelStable s.currentTask).bind _

theorem Listed.schedule_eq (h : s.Listed l)
    (hpick : (s.task s.taskHead).state = .idle ∨ ∃ x ∈ l, s.runnable x = true)
    (hret : Returns s.schedule (t, a)) : t = s.switchTo (s.pick l) :=
  congrArg Prod.fst ((schedule_fuelStable s).returns_unique hret (h.schedule_returns hpick))

/-! ### The change of tasks -/

theorem task_setTask (s : Sched) (a : ℕ) (u : Task) (b : ℕ) :
    (s.setTask a u).task b = if b = a then u else s.task b :=
  Function.update_apply _ _ _ _

theorem task_setState (s : Sched) (a : ℕ) (state : TaskState) (b : ℕ) :
    (s.setState a state).task b =
      if b = a then { s.task b with state := state } else s.task b := by
  rw [setState, task_setTask]
  split_ifs with hb
  · rw [hb]
  · rfl

theorem state_setTask (s : Sched) (a : ℕ) (u : Task) (b : ℕ) :
    ((s.setTask a u).task b).state = if b = a then u.state else (s.task b).state := by
  rw [task_setTask]
  split_ifs <;> rfl

theorem state_setState (s : Sched) (a : ℕ) (state : TaskState) (b : ℕ) :
    ((s.setState a state).task b).state = if b = a then state else (s.task b).state := by
  rw [task_setState]
  split_ifs <;> rfl

/-- The current task is ready when it no longer executes. -/
theorem state_leave (s : Sched) (b : ℕ) :
    (s.leave.task b).state =
      if b = s.currentTask ∧ (s.task b).state = .executing then .ready else (s.task b).state := by
  unfold leave
  by_cases hexec : (s.task s.currentTask).state = .executing
  · rw [if_pos hexec, state_setState]
    by_cases hb : b = s.currentTask
    · rw [if_pos hb, if_pos ⟨hb, hb ▸ hexec⟩]
    · rw [if_neg hb, if_neg fun h => hb h.1]
  · rw [if_neg hexec, if_neg]
    rintro ⟨rfl, h⟩
    exact hexec h

/-- A task that is ready executes when it becomes current. -/
theorem state_enter (s : Sched) (a b : ℕ) :
    ((s.enter a).task b).state =
      if b = a ∧ (s.task b).state = .ready then .executing else (s.task b).state := by
  unfold enter
  by_cases hready : (s.task a).state = .ready
  · rw [if_pos hready, state_setState]
    by_cases hb : b = a
    · rw [if_pos hb, if_pos ⟨hb, hb ▸ hready⟩]
    · rw [if_neg hb, if_neg fun h => hb h.1]
  · rw [if_neg hready, if_neg]
    rintro ⟨rfl, h⟩
    exact hready h

/-- The two states have the same list of tasks. -/
structure SameList (s t : Sched) : Prop where
  head : t.taskHead = s.taskHead
  next : ∀ a, (t.task a).next = (s.task a).next
  prev : ∀ a, (t.task a).prev = (s.task a).prev

theorem SameList.trans (h : SameList s t) (h' : SameList t u) : SameList s u :=
  ⟨h'.head.trans h.head, fun a => (h'.next a).trans (h.next a),
    fun a => (h'.prev a).trans (h.prev a)⟩

theorem sameList_setState (s : Sched) (a : ℕ) (state : TaskState) :
    SameList s (s.setState a state) := by
  refine ⟨rfl, fun b => ?_, fun b => ?_⟩ <;> rw [task_setState] <;> split_ifs <;> rfl

theorem sameList_leave (s : Sched) : SameList s s.leave := by
  unfold leave
  split_ifs
  · exact sameList_setState s _ _
  · exact ⟨rfl, fun _ => rfl, fun _ => rfl⟩

theorem sameList_enter (s : Sched) (a : ℕ) : SameList s (s.enter a) := by
  have hcurrent : SameList s { s with currentTask := a } := ⟨rfl, fun _ => rfl, fun _ => rfl⟩
  unfold enter
  split_ifs
  · exact hcurrent.trans (sameList_setState _ _ _)
  · exact hcurrent

theorem sameList_switchTo (s : Sched) (a : ℕ) : SameList s (s.switchTo a) :=
  (sameList_leave s).trans (sameList_enter _ a)

@[simp]
theorem currentTask_switchTo (s : Sched) (a : ℕ) : (s.switchTo a).currentTask = a := by
  rw [switchTo, enter]
  split_ifs <;> rfl

theorem Listed.congr (h : s.Listed l) (hsame : SameList s t) (hcurrent : t.currentTask ∈ l) :
    t.Listed l where
  linked := h.linked.congr fun x _ _ _ hnode =>
    ⟨hnode.1, (hsame.prev x).trans hnode.2.1, (hsame.next x).trans hnode.2.2⟩
  head := hsame.head.trans h.head
  nodup := h.nodup
  current := hcurrent

/-- A task that is neither left nor entered keeps its state. -/
theorem state_switchTo (hx : (s.task x).state = .ready) (hne : a ≠ x) :
    ((s.switchTo a).task x).state = .ready := by
  rw [switchTo, state_enter, if_neg fun hand => hne hand.1.symm, state_leave, hx,
    if_neg fun hand => nomatch hand.2]

/-! ### Runs -/

/-- Calls of `schedule` from `s` to `t` that made the tasks `chosen` current, one after the other.
In between the states of tasks change, and that of `x` does not until it has been chosen. -/
inductive Turns (x : ℕ) (s : Sched) : List ℕ → Sched → Prop
  | start : Turns x s [] s
  | change {chosen : List ℕ} {t u : Sched} (hrun : Turns x s chosen t) (hsame : SameList t u)
      (hcurrent : u.currentTask = t.currentTask)
      (hx : x ∉ chosen → (u.task x).state = (t.task x).state) : Turns x s chosen u
  | call {chosen : List ℕ} {t u : Sched} {prev : ℕ} (hrun : Turns x s chosen t)
      (hret : Returns t.schedule (u, prev)) : Turns x s (chosen ++ [u.currentTask]) u

theorem Listed.pick_mem (h : s.Listed l) : s.pick l ∈ l := by
  rw [pick]
  rcases hfind : (turnOrder l s.currentTask).find? s.runnable with _ | a
  · exact h.taskHead_mem
  · exact (mem_turnOrder h.current h.nodup).1 (mem_of_find?_eq_some hfind)

theorem runnable_of_ready (h : (s.task x).state = .ready) : s.runnable x = true := by
  simp [runnable, h]

/-- As long as `x` has not been chosen, it is ready, and each call has moved it up. -/
theorem Turns.waiting {chosen : List ℕ} (hrun : Turns x s chosen t) (h : s.Listed l) (hx : x ∈ l)
    (hready : (s.task x).state = .ready) (hnot : x ∉ chosen) :
    t.Listed l ∧ (t.task x).state = .ready ∧
      chosen.length + (turnOrder l t.currentTask).idxOf x ≤
        (turnOrder l s.currentTask).idxOf x := by
  induction hrun with
  | start => exact ⟨h, hready, by simp⟩
  | change hrun hsame hcurrent hstate ih =>
    obtain ⟨hlisted, hready, hle⟩ := ih hnot
    refine ⟨hlisted.congr hsame (hcurrent ▸ hlisted.current), (hstate hnot).trans hready, ?_⟩
    rwa [hcurrent]
  | @call chosen t u prev hrun hret ih =>
    obtain ⟨hlisted, hready, hle⟩ := ih fun hmem => hnot (mem_append_left _ hmem)
    have hrunnable := runnable_of_ready hready
    obtain rfl := hlisted.schedule_eq (.inr ⟨x, hx, hrunnable⟩) hret
    rw [currentTask_switchTo] at hnot ⊢
    have hne : t.pick l ≠ x := fun heq => hnot (by simp [heq])
    refine ⟨hlisted.congr (sameList_switchTo t _) ?_, state_switchTo hready hne, ?_⟩
    · rw [currentTask_switchTo]
      exact hlisted.pick_mem
    · rcases hfind : (turnOrder l t.currentTask).find? t.runnable with _ | a
      · exact absurd hrunnable (find?_eq_none.1 hfind x
          ((mem_turnOrder hlisted.current hlisted.nodup).2 hx))
      · have hpick : t.pick l = a := by rw [pick, hfind, Option.getD_some]
        rw [hpick] at hne ⊢
        have hlt := idxOf_turnOrder_lt hlisted.current hlisted.nodup hx hrunnable hfind hne
        rw [length_append, length_singleton]
        omega

/-- **`schedule` takes turns.** On a well-formed list whose head is the idle task it makes current
the first task in cyclic order that can run, and the head if there is none. In every run, a task
that is ready until it is chosen is chosen by one of as many calls as there are tasks, and the next
call always returns until then. -/
theorem schedule_turns (h : s.Listed l) (hidle : (s.task s.taskHead).state = .idle) :
    (Returns s.schedule (s.switchTo (s.pick l), s.currentTask) ∧
      (s.switchTo (s.pick l)).currentTask = s.pick l) ∧
    ∀ x ∈ l, (s.task x).state = .ready → ∀ chosen t, Turns x s chosen t →
      (l.length ≤ chosen.length → x ∈ chosen) ∧
        (x ∉ chosen → ∃ r, Returns t.schedule r) := by
  refine ⟨⟨h.schedule_returns (.inl hidle), currentTask_switchTo s _⟩, ?_⟩
  intro x hx hready chosen t hrun
  refine ⟨fun hlen => ?_, fun hnot => ?_⟩
  · by_contra hnot
    obtain ⟨-, -, hle⟩ := hrun.waiting h hx hready hnot
    have hlt : (turnOrder l s.currentTask).idxOf x < (turnOrder l s.currentTask).length :=
      idxOf_lt_length_iff.2 ((mem_turnOrder h.current h.nodup).2 hx)
    rw [(perm_turnOrder h.current h.nodup).length_eq] at hlt
    omega
  · obtain ⟨hlisted, hready, -⟩ := hrun.waiting h hx hready hnot
    exact ⟨_, hlisted.schedule_returns (.inr ⟨x, hx, runnable_of_ready hready⟩)⟩

/-- The idle task at 1, which is current, and a ready task at 2. -/
def twoTasks : Sched where
  task a := if a = 1 then ⟨0, .idle, 0, 0, 2, 0⟩ else ⟨1, .ready, 0, 0, 0, 1⟩
  taskHead := 1
  currentTask := 1
  irqDisableCounter := 0
  schedulerReady := true
  ticks := 0
  sleepTimeQueue := []
  sleepReasonQueue := []
  sleepLock := false

theorem twoTasks_listed : twoTasks.Listed [1, 2] where
  linked := ⟨⟨by decide, rfl, rfl⟩, ⟨by decide, rfl, rfl⟩, trivial⟩
  head := rfl
  nodup := by decide
  current := by decide

/-- The ready task is chosen by the first call, and in every run by the second one at the latest. -/
theorem schedule_twoTasks :
    twoTasks.Listed [1, 2] ∧ twoTasks.pick [1, 2] = 2 ∧
      Returns twoTasks.schedule (twoTasks.switchTo 2, 1) ∧
      ∀ chosen t, Turns 2 twoTasks chosen t → 2 ≤ chosen.length → 2 ∈ chosen := by
  have hturns := schedule_turns twoTasks_listed rfl
  exact ⟨twoTasks_listed, by decide, hturns.1.1, fun chosen t hrun hlen =>
    (hturns.2 2 (by decide) rfl chosen t hrun).1 hlen⟩

end Sched

end Bloodmoon
