import Bloodmoon.Sched.Zombies

/-!
# Locks that put tasks to sleep

The model of `acquire_lock` and `release_lock` in `concurrency.c`. A task that finds the lock taken
is put to sleep with the address of the local variable `lock` as its reason, which `slot` stands
for. The last statement of `_ksleep` takes the lock of the sleep queues, which the same call already
holds, so that it never returns. Nobody waits for a lock successfully; what can be shown is that all
is well as long as nobody has to wait.
-/

namespace Bloodmoon

open Machine Relation

/-- A lock of type `lock_t`, with the scheduler and the tasks that have been put to sleep inside
`acquire_lock`. -/
structure Locked where
  sched : Sched
  lock : Bool
  sleepers : Set ℕ

namespace Locked

variable {v w : Locked} {task slot fuel : ℕ}

/-- A round of the loop of `acquire_lock` by a task: the lock is tested and set, and if it was taken
the task goes to sleep and yields. -/
def acquireLockBody (w : Locked) (task slot fuel : ℕ) : Outcome (Locked ⊕ Locked) :=
  if w.lock = false then .ok (.inr { w with lock := true })
  else do
    let s ← { w.sched with currentTask := task }.ksleep slot fuel
    let s ← s.yield fuel
    .ok (.inl { w with sched := s, sleepers := insert task w.sleepers })

/-- `release_lock`. -/
def releaseLock (w : Locked) (slot fuel : ℕ) : Outcome Locked := do
  let s ← w.sched.kwakeup slot fuel
  .ok { w with sched := s, lock := false }

end Locked

/-- A step of one of the tasks that use the lock: a round of `acquire_lock`, or `release_lock`. -/
inductive LockOp where
  | acquire (task slot : ℕ)
  | release (slot : ℕ)

namespace LockOp

open Locked

variable {v w : Locked} {op : LockOp}

/-- The code of the step; a round of `acquire_lock` that does not end it is followed by another. -/
def run (w : Locked) (fuel : ℕ) : LockOp → Outcome Locked
  | acquire task slot => do
    let r ← w.acquireLockBody task slot fuel
    .ok (r.elim id id)
  | release slot => w.releaseLock slot fuel

/-- A task acquires the lock. -/
def Valid : LockOp → Prop
  | acquire task _ => task ≠ 0
  | release _ => True

/-- The step comes to an end and leaves the lock of the sleep queues free, and when the lock has
been released every task that was put to sleep for it is ready. -/
def Right (w : Locked) (op : LockOp) : Prop :=
  ∃ v, Returns (fun fuel => op.run w fuel) v ∧ v.sched.sleepLock = false ∧
    ∀ slot, op = release slot → ∀ a ∈ w.sleepers, (v.sched.task a).state = .ready

/-- The lock is free when it is acquired. -/
def Meets (w : Locked) : LockOp → Prop
  | acquire _ _ => w.lock = false
  | release _ => True

end LockOp

namespace Locked

variable {v w : Locked} {s t : Sched} {task slot fuel : ℕ}

/-- `_ksleep` does not return. -/
theorem ksleep_ne_ok (h : s.currentTask ≠ 0) : s.ksleep slot fuel ≠ .ok t := by
  intro hret
  obtain ⟨u, hlock, hret⟩ := bind_eq_ok.1 hret
  obtain ⟨-, -, rfl⟩ := Sched.acquireSleepLock_eq_ok_iff.1 hlock
  rw [if_neg h] at hret
  exact Bool.noConfusion (Sched.acquireSleepLock_eq_ok_iff.1 hret).1

/-- `_kwakeup` comes to an end if the lock of the sleep queues is free, and leaves it free. -/
theorem exists_kwakeup (slot : ℕ) (h : s.sleepLock = false) :
    ∃ t, Returns (fun fuel => s.kwakeup slot fuel) t ∧ t.sleepLock = false :=
  ⟨_, ⟨1, bind_eq_ok.2 ⟨_, Sched.acquireSleepLock_eq_ok_iff.2 ⟨h, Nat.one_pos, rfl⟩, rfl⟩⟩, rfl⟩

theorem acquireLockBody_of_free (h : w.lock = false) :
    w.acquireLockBody task slot fuel = .ok (.inr { w with lock := true }) := if_pos h

/-- A task that finds the lock taken never gets through the round. -/
theorem acquireLockBody_ne_ok {r : Locked ⊕ Locked} (htask : task ≠ 0) (hlock : w.lock = true) :
    w.acquireLockBody task slot fuel ≠ .ok r := by
  intro h
  rw [acquireLockBody, if_neg (by simp [hlock])] at h
  obtain ⟨s, hs, -⟩ := bind_eq_ok.1 h
  exact ksleep_ne_ok htask hs

/-- Nobody has been put to sleep yet, and the lock of the sleep queues is free. -/
structure Awake (w : Locked) : Prop where
  sleepLock : w.sched.sleepLock = false
  sleepers : w.sleepers = ∅

/-- A step that is valid, meets the condition and comes to an end. -/
def Step (v w : Locked) : Prop :=
  ∃ op : LockOp, op.Valid ∧ op.Meets v ∧ Returns (fun fuel => op.run v fuel) w

/-- While nobody has been put to sleep, a step is right exactly when it does not have to wait. -/
theorem Awake.right_iff (h : w.Awake) {op : LockOp} (hvalid : op.Valid) :
    op.Right w ↔ op.Meets w := by
  cases op with
  | acquire task slot =>
    constructor
    · rintro ⟨v, ⟨fuel, hret⟩, -⟩
      obtain ⟨r, hr, -⟩ := bind_eq_ok.1 hret
      by_contra hlock
      exact acquireLockBody_ne_ok hvalid (by simpa [LockOp.Meets] using hlock) hr
    · intro hfree
      refine ⟨{ w with lock := true }, ⟨0, ?_⟩, h.sleepLock, fun _ heq => nomatch heq⟩
      exact bind_eq_ok.2 ⟨_, acquireLockBody_of_free hfree, rfl⟩
  | release slot =>
    obtain ⟨t, ⟨fuel, hret⟩, ht⟩ := exists_kwakeup slot h.sleepLock
    refine iff_of_true ?_ trivial
    refine ⟨{ w with sched := t, lock := false }, ⟨fuel, ?_⟩, ht, fun _ _ a ha => ?_⟩
    · exact bind_eq_ok.2 ⟨t, hret, rfl⟩
    · rw [h.sleepers] at ha
      exact absurd ha (Set.notMem_empty a)

/-- A step that does not have to wait puts nobody to sleep. -/
theorem Awake.step (h : v.Awake) (hstep : Step v w) : w.Awake := by
  obtain ⟨op, -, hmeets, fuel, hret⟩ := hstep
  cases op with
  | acquire task slot =>
    obtain ⟨r, hr, hret⟩ := bind_eq_ok.1 hret
    rw [acquireLockBody_of_free hmeets] at hr
    cases hr
    cases hret
    exact ⟨h.sleepLock, h.sleepers⟩
  | release slot =>
    obtain ⟨t, ht, hret⟩ := bind_eq_ok.1 hret
    obtain ⟨u, hlock, ht⟩ := bind_eq_ok.1 ht
    cases ht
    cases hret
    exact ⟨rfl, h.sleepers⟩

/-- **Locks** in every run in which no task has to wait for the lock: a step in a state of such a
run comes to an end, leaves the lock of the sleep queues free and wakes all who slept for the lock
exactly when it does not have to wait either. -/
theorem locks_run (hv : v.Awake) (hrun : ReflTransGen Step v w) :
    w.Awake ∧ ∀ op : LockOp, op.Valid → (op.Right w ↔ op.Meets w) := by
  have hw : w.Awake := by
    induction hrun with
    | refl => exact hv
    | tail _ hstep ih => exact ih.step hstep
  exact ⟨hw, fun _ hvalid => hw.right_iff hvalid⟩

/-- A free lock before any task has used it. -/
def free : Locked := ⟨Sched.boot, false, ∅⟩

/-- The lock is taken and released. -/
theorem locks_free : ∃ w : Locked, ReflTransGen Step free w ∧ w.lock = true ∧
    (LockOp.release 0x9000).Right w := by
  have hrun : ReflTransGen Step free { free with lock := true } :=
    .single ⟨.acquire 1 0x8000, Nat.one_ne_zero, rfl, 0, rfl⟩
  exact ⟨_, hrun, rfl, ((locks_run ⟨rfl, rfl⟩ hrun).2 (.release 0x9000) trivial).2 trivial⟩

/-- The second of two tasks that acquire the lock never gets out of `_ksleep`. -/
theorem locks_free_acquire_twice : ∃ w : Locked, ReflTransGen Step free w ∧
    (∀ v, ¬ Returns (fun fuel => (LockOp.acquire 2 0x9000).run w fuel) v) ∧
      ¬ (LockOp.acquire 2 0x9000).Right w := by
  have hstuck : ∀ v : Locked, ¬ Returns
      (fun fuel => (LockOp.acquire 2 0x9000).run { free with lock := true } fuel) v := by
    rintro v ⟨fuel, hret⟩
    obtain ⟨r, hr, -⟩ := bind_eq_ok.1 hret
    exact acquireLockBody_ne_ok (Nat.succ_ne_zero 1) rfl hr
  refine ⟨_, .single ⟨.acquire 1 0x8000, Nat.one_ne_zero, rfl, 0, rfl⟩, hstuck, ?_⟩
  rintro ⟨v, hret, -⟩
  exact hstuck v hret

end Locked

end Bloodmoon
