import Bloodmoon.Sched.Effects

/-!
# Sleeping until the timer

`_tsleep` puts an entry into the queue and leaves the older ones of the same task there, which
`resume_task` does not remove either. `wakeup_handler` wakes the task at the first entry whose time
is up, and this is in time if no older entry ends before the sleep that begins (`Sleepers.Meets`).
-/

namespace Bloodmoon

open Machine Relation List

theorem Sched.wakeEntries_subset (due : SleepQueue → Bool) (es : List SleepQueue) (s : Sched) :
    (wakeEntries due es s).1 ⊆ es ∧ (wakeEntries due es s).2.ticks = s.ticks := by
  induction es generalizing s with
  | nil => exact ⟨List.Subset.refl _, rfl⟩
  | cons e es ih =>
    rw [wakeEntries]
    split_ifs
    · refine ⟨List.Subset.trans (ih _).1 (subset_cons_self e es), (ih _).2.trans ?_⟩
      unfold wake
      split_ifs <;> rfl
    · exact ⟨cons_subset_cons e (ih s).1, (ih s).2⟩

theorem Sched.queue_switchTo (s : Sched) (a : ℕ) :
    (s.switchTo a).sleepTimeQueue = s.sleepTimeQueue ∧ (s.switchTo a).ticks = s.ticks := by
  unfold switchTo enter leave
  split_ifs <;> exact ⟨rfl, rfl⟩

/-- The scheduler in a run, with the tick and the length of the latest `_tsleep` of each task. -/
structure Sleepers where
  sched : Sched
  latest : ℕ → Option (ℕ × ℕ)

namespace Sleepers

variable {v w : Sleepers}

/-- The state of the run after a call that leaves `t`. -/
def after (w : Sleepers) (op : SchedOp) (t : Sched) : Sleepers where
  sched := t
  latest := match op with
    | .tsleep ticks => Function.update w.latest w.sched.currentTask (some (w.sched.ticks, ticks))
    | _ => w.latest

/-- The steps are the calls, and the time that passes. -/
def Valid (w : Sleepers) : SchedOp → Prop
  | .tsleep _ | .resume _ | .schedule | .wakeup => True
  | .tick now => w.sched.ticks ≤ now ∧ now < 2 ^ 64
  | _ => False

/-- No entry of a task that begins to sleep ends before the sleep. -/
def Meets (w : Sleepers) : SchedOp → Prop
  | .tsleep ticks => ticks = 0 ∨ ∀ e ∈ w.sched.sleepTimeQueue, e.task = w.sched.currentTask →
      e.expiresIn ≠ 0 → w.sched.ticks + ticks ≤ e.startedAt + e.expiresIn
  | _ => True

/-- A call that is valid, meets the condition and returns. -/
def Step (v w : Sleepers) : Prop :=
  ∃ op t, v.Valid op ∧ v.Meets op ∧ Returns (fun fuel => op.run v.sched fuel) t ∧ w = v.after op t

/-- The timer wakes no task before the end of its latest sleep. -/
def WakesInTime (w : Sleepers) : Prop :=
  ∀ t, Returns w.sched.wakeupHandler t → ∀ a, (w.sched.task a).state = .uninterruptible →
    (t.task a).state = .ready →
    ∃ start ticks, w.latest a = some (start, ticks) ∧ start + ticks ≤ w.sched.ticks

/-- An entry has begun, and if it ends, then not before the latest sleep of its task. -/
def Covers (w : Sleepers) (e : SleepQueue) : Prop :=
  e.startedAt ≤ w.sched.ticks ∧ (e.expiresIn ≠ 0 → ∃ start ticks,
    w.latest e.task = some (start, ticks) ∧ start ≤ w.sched.ticks ∧
      (ticks = 0 ∨ start + ticks ≤ e.startedAt + e.expiresIn))

/-- All entries cover the latest sleeps of their tasks. -/
structure Covered (w : Sleepers) : Prop where
  time : w.sched.ticks < 2 ^ 64
  covers : ∀ e ∈ w.sched.sleepTimeQueue, w.Covers e

theorem Covers.mono {e : SleepQueue} (h : v.Covers e) (hticks : v.sched.ticks ≤ w.sched.ticks)
    (hlatest : w.latest e.task = v.latest e.task) : w.Covers e := by
  refine ⟨h.1.trans hticks, fun hne => ?_⟩
  obtain ⟨start, ticks, heq, hstart, hend⟩ := h.2 hne
  exact ⟨start, ticks, hlatest.trans heq, hstart.trans hticks, hend⟩

theorem Covered.of_subset (h : v.Covered) (htime : w.sched.ticks < 2 ^ 64)
    (hticks : v.sched.ticks ≤ w.sched.ticks)
    (hqueue : w.sched.sleepTimeQueue ⊆ v.sched.sleepTimeQueue) (hlatest : w.latest = v.latest) :
    w.Covered :=
  ⟨htime, fun e he => (h.covers e (hqueue he)).mono hticks (by rw [hlatest])⟩

theorem Covered.step (h : v.Covered) (hstep : Step v w) : w.Covered := by
  obtain ⟨op, t, hvalid, hmeets, ⟨fuel, hret⟩, rfl⟩ := hstep
  cases op with
  | create _ | add _ | kill _ | exit | block _ | unblock _ | pause _ => exact hvalid.elim
  | resume a =>
    cases hret
    exact h.of_subset h.time le_rfl (List.Subset.refl _) rfl
  | tick now =>
    cases hret
    exact h.of_subset hvalid.2 hvalid.1 (List.Subset.refl _) rfl
  | schedule =>
    obtain ⟨a, rfl, -⟩ := SchedOp.schedule_of ⟨fuel, hret⟩
    obtain ⟨hqueue, hticks⟩ := v.sched.queue_switchTo a
    exact h.of_subset (hticks.trans_lt h.time) hticks.ge (fun _ he => hqueue ▸ he) rfl
  | wakeup =>
    obtain ⟨u, hlock, hret⟩ := bind_eq_ok.1 hret
    obtain ⟨-, -, rfl⟩ := Sched.acquireSleepLock_eq_ok_iff.1 hlock
    cases hret
    obtain ⟨hqueue, hticks⟩ := Sched.wakeEntries_subset v.sched.expired v.sched.sleepTimeQueue
      { v.sched with sleepLock := true }
    exact h.of_subset (hticks.trans_lt h.time) hticks.ge hqueue rfl
  | tsleep ticks =>
    obtain ⟨u, hlock, hret⟩ := bind_eq_ok.1 hret
    obtain ⟨-, -, rfl⟩ := Sched.acquireSleepLock_eq_ok_iff.1 hlock
    -- the entries that are there, when the new sleep is the latest one
    have hold : ∀ t, t.ticks = v.sched.ticks → ∀ e ∈ v.sched.sleepTimeQueue,
        (v.after (.tsleep ticks) t).Covers e := by
      intro t ht e he
      by_cases htask : e.task = v.sched.currentTask
      · refine ⟨(h.covers e he).1.trans ht.ge, fun hne => ⟨v.sched.ticks, ticks, ?_, ht.ge, ?_⟩⟩
        · rw [htask]
          exact Function.update_self ..
        · exact hmeets.imp_right fun hend => hend e he htask hne
      · exact (h.covers e he).mono ht.ge (Function.update_of_ne htask ..)
    split_ifs at hret with hzero
    · cases hret
      exact ⟨h.time, hold _ rfl⟩
    · cases hret
      refine ⟨h.time, fun e he => ?_⟩
      rcases mem_cons.1 he with rfl | he
      · exact ⟨le_rfl, fun _ => ⟨_, ticks, Function.update_self .., le_rfl, .inr le_rfl⟩⟩
      · exact hold _ rfl e he

/-- **The timer wakes in time** in every run whose sleeps meet the condition. -/
theorem wakes_run (htime : v.sched.ticks < 2 ^ 64) (hqueue : v.sched.sleepTimeQueue = [])
    (hrun : ReflTransGen Step v w) : w.WakesInTime := by
  have hw : w.Covered := by
    induction hrun with
    | refl => exact ⟨htime, by simp [hqueue]⟩
    | tail _ hstep ih => exact ih.step hstep
  rintro t hret a hstate hready
  have heffect : SchedOp.wakeup.Effect w.sched t := SchedOp.effect_of nofun hret
  have hmem : a ∈ SchedOp.wakeup.target w.sched := by
    by_contra hnot
    rw [heffect.kept a hnot, hstate] at hready
    cases hready
  obtain ⟨-, e, he, hexpired, -, rfl⟩ := hmem
  obtain ⟨hne, hle⟩ := of_decide_eq_true hexpired
  obtain ⟨hstarted, hcovers⟩ := hw.covers e he
  rw [wsub_of_le hstarted hw.time] at hle
  obtain ⟨start, ticks, hlatest, hstart, hend⟩ := hcovers hne
  exact ⟨start, ticks, hlatest, by omega⟩

/-- The current task sleeps for five ticks. -/
theorem wakes_twoTasks : ∃ w, ReflTransGen Step ⟨Sched.twoTasks, fun _ => none⟩ w ∧
    w.latest 1 = some (0, 5) ∧ w.WakesInTime := by
  have hrun : ReflTransGen Step ⟨Sched.twoTasks, fun _ => none⟩ _ :=
    .single ⟨.tsleep 5, _, trivial, .inr fun _ he => absurd he not_mem_nil, ⟨1, rfl⟩, rfl⟩
  exact ⟨_, hrun, rfl, wakes_run (by decide) rfl hrun⟩

/-- A task that sleeps for five ticks is resumed and sleeps for a hundred. At the tick 5 it is
woken. -/
theorem not_wakes_twoTasks : ∃ s s' t,
    Returns (Sched.twoTasks.tsleep 5) s ∧ Returns ((s.resumeTask 1).tsleep 100) s' ∧
    Returns { s' with ticks := 5 }.wakeupHandler t ∧ (s'.task 1).state = .uninterruptible ∧
    (t.task 1).state = .ready ∧
    ¬ WakesInTime ⟨{ s' with ticks := 5 }, Function.update (fun _ => none) 1 (some (0, 100))⟩ := by
  refine ⟨_, _, _, ⟨1, rfl⟩, ⟨1, rfl⟩, ⟨1, rfl⟩, rfl, rfl, fun hwakes => ?_⟩
  obtain ⟨start, ticks, hlatest, hle⟩ := hwakes _ ⟨1, rfl⟩ 1 rfl rfl
  cases hlatest
  exact absurd hle (by decide)

end Sleepers

end Bloodmoon
