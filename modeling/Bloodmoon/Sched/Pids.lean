import Bloodmoon.Sched.States

/-!
# The numbers of tasks

`create_task` gives a task the first number that no task in the list has (`Listed.getFreePid_spec`),
but the task is in the list only after `add_task`. Two tasks that are created with no task added in
between therefore have the same number. So the numbers in the list are distinct, and positive but
for that of the idle task, exactly when each task that is added has been created since the last one
was added (`Prompt`), and there are no more tasks than positive numbers (`pids_iff`).
-/

namespace Bloodmoon

open Machine Relation SchedOp List

namespace Sched

variable {s t u : Sched} {l xs : List ℕ} {a p x fuel : ℕ} {pid : ℤ}

/-- The numbers of tasks. -/
def pids (s : Sched) (l : List ℕ) : List ℤ := l.map fun a => (s.task a).pid

/-! ### Walks over the list -/

/-- The walk of `get_task` over the rest of the list. -/
theorem getTask_walk (h : Linked id TaskNode s.task p (x :: xs) 0)
    (hret : loop (s.getTaskBody pid) fuel x = .ok a) : a ≠ 0 ↔ pid ∈ s.pids (x :: xs) := by
  induction fuel generalizing p x xs with
  | zero => cases hret
  | succ fuel ih =>
    obtain ⟨⟨hx, -, hnext⟩, hrest⟩ := h
    rw [pids, map_cons, mem_cons]
    by_cases hpid : (s.task x).pid = pid
    · have hbody : s.getTaskBody pid x = .ok (.inr x) := if_pos hpid
      rw [loop_succ_of_leaves hbody] at hret
      cases hret
      exact iff_of_true hx (.inl hpid.symm)
    · rw [or_iff_right fun heq => hpid heq.symm]
      cases xs with
      | nil =>
        have hbody : s.getTaskBody pid x = .ok (.inr 0) := (if_neg hpid).trans (if_pos hnext)
        rw [loop_succ_of_leaves hbody] at hret
        cases hret
        exact iff_of_false (fun hne => hne rfl) not_mem_nil
      | cons y ys =>
        have hbody : Continues (s.getTaskBody pid) x y := by
          rw [Continues, getTaskBody, if_neg hpid, hnext]
          exact if_neg hrest.1.1
        rw [loop_succ_of_continues hbody] at hret
        exact ih hrest hret

/-- **`get_task`** finds a task exactly when one in the list has the number. -/
theorem Listed.getTask_spec (h : s.Listed l) (hret : s.getTask pid fuel = .ok a) :
    a ≠ 0 ↔ pid ∈ s.pids l := by
  obtain ⟨x, xs, rfl⟩ := exists_cons_of_ne_nil (ne_nil_of_mem h.current)
  have hhead : s.taskHead = x := h.head
  rw [getTask, if_neg (hhead ▸ h.linked.1.1), hhead] at hret
  exact getTask_walk h.linked hret

/-- What the search for a free number knows when it has come to `pid`: the positive numbers before
it are taken, or all of them. -/
def Searched (taken : List ℤ) (pid : ℤ) : Prop :=
  (1 ≤ pid ∧ pid ≤ 32767 ∧ ∀ q, 1 ≤ q → q < pid → q ∈ taken) ∨
    pid ≤ 0 ∧ ∀ q, 1 ≤ q → q ≤ 32767 → q ∈ taken

theorem Searched.next {taken : List ℤ} (h : Searched taken pid) (hpid : pid ∈ taken) :
    Searched taken (nextPid pid) := by
  rw [nextPid]
  rcases h with ⟨hpos, hle, hbelow⟩ | ⟨hneg, hall⟩
  · split_ifs with hlast
    · refine .inr ⟨by decide, fun q hq hqle => ?_⟩
      rcases eq_or_lt_of_le (hlast ▸ hqle : q ≤ pid) with rfl | hlt
      · exact hpid
      · exact hbelow q hq hlt
    · refine .inl ⟨by omega, by omega, fun q hq hqlt => ?_⟩
      rcases eq_or_lt_of_le (Int.lt_add_one_iff.1 hqlt) with rfl | hlt
      · exact hpid
      · exact hbelow q hq hlt
  · rcases eq_or_lt_of_le hneg with rfl | hlt
    · exact .inl ⟨by decide, by decide, fun q hq hqlt => by omega⟩
    · exact .inr ⟨by omega, hall⟩

/-- A round of `get_free_pid`, where a task is looked for with bounded fuel. -/
theorem Listed.getFreePid_round (h : s.Listed l) {r : ℤ ⊕ ℤ} (hround : (do
      let found ← s.getTask pid fuel
      if found ≠ 0 then .ok (.inl (nextPid pid)) else .ok (.inr pid)) = (.ok r : Outcome (ℤ ⊕ ℤ))) :
    pid ∈ s.pids l ∧ r = .inl (nextPid pid) ∨ pid ∉ s.pids l ∧ r = .inr pid := by
  obtain ⟨found, hfound, hround⟩ := bind_eq_ok.1 hround
  rw [← h.getTask_spec hfound]
  split_ifs at hround with hne
  · exact .inl ⟨hne, (Except.ok.inj hround).symm⟩
  · exact .inr ⟨hne, (Except.ok.inj hround).symm⟩

/-- **`get_free_pid`** returns a number that no task in the list has, and the first one if it is
positive. -/
theorem Listed.getFreePid_spec (h : s.Listed l) (hret : s.getFreePid fuel = .ok pid) :
    pid ∉ s.pids l ∧ Searched (s.pids l) pid := by
  rw [getFreePid] at hret
  obtain ⟨pid', hrounds, ⟨r, hlast, hr⟩ | ⟨e, -, he⟩⟩ := exists_last_round (by
    rw [hret]
    exact nofun)
  · have hsearched : Searched (s.pids l) pid' := by
      -- each number that was passed over belongs to a task
      clear hlast
      induction hrounds with
      | refl => exact .inl ⟨Int.le_refl 1, by decide, fun q hq hqlt => by omega⟩
      | tail _ hround ih =>
        rcases h.getFreePid_round hround with ⟨hmem, heq⟩ | ⟨-, heq⟩
        · exact Sum.inl.inj heq ▸ ih.next hmem
        · cases heq
    obtain rfl := Except.ok.inj (hr.symm.trans hret)
    rcases h.getFreePid_round hlast with ⟨-, heq⟩ | ⟨hnot, heq⟩
    · cases heq
    · exact Sum.inr.inj heq ▸ ⟨hnot, hsearched⟩
  · exact absurd (hret.symm.trans he) nofun

/-- The walk of `add_task` ends at the last task. -/
theorem lastTask_walk (h : Linked id TaskNode s.task p (x :: xs) 0)
    (hret : loop s.lastTaskBody fuel x = .ok a) :
    a = (x :: xs).getLast (cons_ne_nil x xs) := by
  induction fuel generalizing p x xs with
  | zero => cases hret
  | succ fuel ih =>
    obtain ⟨⟨-, -, hnext⟩, hrest⟩ := h
    cases xs with
    | nil =>
      have hbody : s.lastTaskBody x = .ok (.inr x) := if_neg (not_not.2 hnext)
      rw [loop_succ_of_leaves hbody] at hret
      exact (Except.ok.inj hret).symm
    | cons y ys =>
      have hbody : Continues s.lastTaskBody x y := by
        rw [Continues, lastTaskBody, hnext]
        exact if_pos hrest.1.1
      rw [loop_succ_of_continues hbody] at hret
      rw [getLast_cons (cons_ne_nil y ys)]
      exact ih hrest hret

/-- **`add_task`** appends a task to the list. -/
theorem Listed.addTask (h : s.Listed l) (ha : a ≠ 0) (hnot : a ∉ l) (hnext : (s.task a).next = 0)
    (hret : s.addTask a fuel = .ok t) :
    t.Listed (l ++ [a]) ∧ ∀ b ∉ l, (t.task b).next = (s.task b).next := by
  obtain ⟨ys, z, rfl⟩ : ∃ ys z, l = ys ++ [z] := by
    obtain rfl | ⟨ys, z, heq⟩ := eq_nil_or_concat l
    · exact absurd h.current not_mem_nil
    · exact ⟨ys, z, heq.trans concat_eq_append⟩
  have hhead : s.taskHead ≠ 0 := h.ne_zero h.taskHead_mem
  have hlast : ∀ {last}, loop s.lastTaskBody fuel s.taskHead = .ok last → last = z := by
    intro last hloop
    obtain ⟨x, xs, heq⟩ := exists_cons_of_ne_nil (ne_nil_of_mem h.current)
    have hlinked := h.linked
    rw [h.head, heq] at hloop
    rw [heq] at hlinked
    rw [lastTask_walk hlinked hloop]
    simp only [← heq, getLast_append_singleton]
  rw [Sched.addTask, if_neg hhead] at hret
  obtain ⟨last, hloop, hret⟩ := bind_eq_ok.1 hret
  obtain rfl := hlast hloop
  obtain rfl := Except.ok.inj hret
  obtain ⟨hbefore, ⟨hz, hprev, -⟩, -⟩ := linked_append.1 h.linked
  obtain ⟨hane, haz⟩ : a ∉ ys ∧ a ≠ last := by simpa using hnot
  have hnodup : last ∉ ys := fun hmem =>
    (nodup_append.1 h.nodup).2.2 last hmem last (mem_singleton_self last) rfl
  refine ⟨⟨linked_append.2 ⟨linked_append.2 ⟨?_, ?_⟩, ?_⟩,
    h.head.trans (by cases ys <;> rfl), ?_, ?_⟩, fun b hb => ?_⟩
  · -- the tasks before the last one are as they were
    refine hbefore.congr fun x hx c d hnode => ?_
    have hxa : x ≠ a := fun heq => hane (heq ▸ hx)
    have hxl : x ≠ last := fun heq => hnodup (heq ▸ hx)
    simpa only [TaskNode, task_setTask, if_neg hxa, if_neg hxl] using hnode
  · simp [TaskNode, task_setTask, haz.symm, hz, hprev]
  · simp [TaskNode, task_setTask, haz, ha, hnext]
  · exact nodup_append.2 ⟨h.nodup, nodup_singleton a, fun x hx y hy heq =>
      hnot (mem_singleton.1 hy ▸ heq ▸ hx)⟩
  · exact mem_append_left _ h.current
  · have hbl : b ≠ last := by
      rintro rfl
      exact hb (mem_append_right ys (mem_singleton_self b))
    by_cases hba : b = a
    · simp [task_setTask, hba, haz]
    · simp [task_setTask, hba, hbl]

end Sched

/-! ### Orders of calls -/

namespace SchedOp

variable {ops : List SchedOp} {op : SchedOp} {a : ℕ}

/-- The tasks that the calls create. -/
def created (ops : List SchedOp) : List ℕ :=
  ops.filterMap fun
    | create a => some a
    | _ => none

/-- The tasks that the calls add to the list. -/
def added (ops : List SchedOp) : List ℕ :=
  ops.filterMap fun
    | add a => some a
    | _ => none

/-- The tasks that have been created since a task was last added. -/
def recent (ops : List SchedOp) : List ℕ :=
  ops.foldl (fun tasks op => match op with
    | create a => a :: tasks
    | add _ => []
    | _ => tasks) []

/-- Each task that is added has been created since the last one was added. -/
def Prompt (ops : List SchedOp) : Prop :=
  ∀ before a after, ops = before ++ add a :: after → a ∈ recent before

@[simp]
theorem created_append_create : created (ops ++ [create a]) = created ops ++ [a] := by
  simp [created]

@[simp]
theorem created_append_add : created (ops ++ [add a]) = created ops := by
  simp [created]

@[simp]
theorem added_append_create : added (ops ++ [create a]) = added ops := by
  simp [added]

@[simp]
theorem added_append_add : added (ops ++ [add a]) = added ops ++ [a] := by
  simp [added]

@[simp]
theorem recent_append_create : recent (ops ++ [create a]) = a :: recent ops := by
  simp [recent]

@[simp]
theorem recent_append_add : recent (ops ++ [add a]) = [] := by
  simp [recent]

/-- The last call is prompt, and so are those before it. -/
theorem prompt_append : Prompt (ops ++ [op]) ↔ Prompt ops ∧ ∀ a, op = add a → a ∈ recent ops := by
  constructor
  · intro h
    refine ⟨fun before a after heq => ?_, fun a ha => ?_⟩
    · exact h before a (after ++ [op]) (by rw [heq, append_assoc, cons_append])
    · exact h ops a [] (by rw [ha])
  · rintro ⟨hbefore, hlast⟩ before a after heq
    obtain rfl | ⟨after, op', rfl⟩ := eq_nil_or_concat after
    · obtain ⟨rfl, hop⟩ := append_inj' heq rfl
      exact hlast a (List.cons.inj hop).1
    · rw [concat_eq_append, ← cons_append, ← append_assoc] at heq
      exact hbefore before a after (append_inj' heq rfl).1

theorem prompt_nil : Prompt [] := fun before a after heq => absurd heq.symm (by simp)

theorem prompt_append_create : Prompt (ops ++ [create a]) ↔ Prompt ops := by
  rw [prompt_append]
  exact and_iff_left nofun

theorem prompt_append_add : Prompt (ops ++ [add a]) ↔ Prompt ops ∧ a ∈ recent ops := by
  simp [prompt_append]

end SchedOp

namespace Sched

open SchedOp

variable {s t u : Sched} {l : List ℕ} {ops : List SchedOp} {idle a : ℕ}
variable {fuel k : ℕ}

/-- Calls of `create_task` and `add_task` from `s` to `t`. A new task is at an address of its own,
and each task that has been created is added at most once. -/
inductive Calls (idle : ℕ) (s : Sched) : List SchedOp → Sched → Prop
  | start : Calls idle s [] s
  | create {ops : List SchedOp} {t u : Sched} {a : ℕ} (hrun : Calls idle s ops t)
      (hzero : a ≠ 0) (hidle : a ≠ idle) (hnew : a ∉ created ops)
      (hret : Returns (t.createTask a) u) : Calls idle s (ops ++ [.create a]) u
  | add {ops : List SchedOp} {t u : Sched} {a : ℕ} (hrun : Calls idle s ops t)
      (ha : a ∈ created ops) (hnot : a ∉ added ops) (hret : Returns (t.addTask a) u) :
      Calls idle s (ops ++ [.add a]) u

/-- The numbers of the tasks after the idle one are distinct and positive, and that of the idle task
is 0. -/
def DistinctPids (t : Sched) (idle : ℕ) (l : List ℕ) : Prop :=
  (t.task idle).pid = 0 ∧ (t.pids l).Nodup ∧ ∀ pid ∈ t.pids l, 0 < pid

/-- What the calls have made of the list. -/
structure Roster (idle : ℕ) (ops : List SchedOp) (t : Sched) : Prop where
  listed : t.Listed (idle :: added ops)
  zero : (t.task idle).pid = 0
  new : ∀ a ∈ created ops, a ≠ 0 ∧ a ≠ idle ∧ (a ∉ added ops → (t.task a).next = 0)
  known : ∀ a ∈ added ops, a ∈ created ops

/-- The numbers `1`, …, `k`. -/
def firstPids (k : ℕ) : List ℤ := (List.range k).map fun i : ℕ => (i : ℤ) + 1

theorem mem_firstPids {pid : ℤ} : pid ∈ firstPids k ↔ 1 ≤ pid ∧ pid ≤ k := by
  simp only [firstPids, mem_map, mem_range]
  constructor
  · rintro ⟨i, hi, rfl⟩
    omega
  · rintro ⟨hpos, hle⟩
    exact ⟨(pid - 1).toNat, by omega, by omega⟩

theorem nodup_firstPids (k : ℕ) : (firstPids k).Nodup :=
  nodup_range.map fun i j heq => by
    omega

/-- The first number that is free when those up to `k` are taken. -/
theorem searched_firstPids {pid : ℤ} (hnot : pid ∉ (0 : ℤ) :: firstPids k)
    (h : Searched (0 :: firstPids k) pid) : pid = k + 1 ∧ k < 32767 ∨ pid < 0 ∧ 32767 ≤ k := by
  rw [mem_cons, not_or, mem_firstPids] at hnot
  rcases h with ⟨hpos, hle, hbelow⟩ | ⟨hneg, hall⟩
  · refine .inl ?_
    -- the number before it is taken, and it is not
    rcases eq_or_lt_of_le hpos with rfl | hlt
    · omega
    · have hmem := hbelow (pid - 1) (by omega) (by omega)
      rw [mem_cons, mem_firstPids] at hmem
      omega
  · have hmem := hall 32767 (by decide) (Int.le_refl _)
    rw [mem_cons, mem_firstPids] at hmem
    omega

/-- The numbers as long as the calls are prompt: those in the list are the first ones, those of the
tasks created since are the next one, and those of the others that are not in the list are taken. -/
structure Numbered (ops : List SchedOp) (t : Sched) : Prop where
  inList : t.pids (added ops) = firstPids (added ops).length
  next : ∀ a ∈ recent ops, (t.task a).pid = (added ops).length + 1 ∧ (added ops).length < 32767 ∨
    (t.task a).pid < 0 ∧ 32767 ≤ (added ops).length
  others : ∀ a ∈ created ops, a ∉ recent ops → (t.task a).pid ∈ firstPids (added ops).length

theorem pids_congr (h : ∀ a ∈ l, (t.task a).pid = (s.task a).pid) : t.pids l = s.pids l :=
  map_congr_left h

/-- `create_task` writes the new task. -/
theorem createTask_eq (h : t.createTask a fuel = .ok u) :
    ∃ pid, t.getFreePid fuel = .ok pid ∧ u = t.setTask a ⟨pid, .ready, 0, 0, 0, 0⟩ := by
  obtain ⟨pid, hpid, h⟩ := bind_eq_ok.1 h
  exact ⟨pid, hpid, (Except.ok.inj h).symm⟩

theorem Listed.setTask (h : s.Listed l) (ha : a ∉ l) (u : Task) : (s.setTask a u).Listed l where
  linked := h.linked.congr fun x hx c d hnode => by
    have hxa : x ≠ a := fun heq => ha (heq ▸ hx)
    simpa only [TaskNode, task_setTask, if_neg hxa] using hnode
  head := h.head
  nodup := h.nodup
  current := h.current

theorem Roster.notMem (h : Roster idle ops t) (ha : a ∉ created ops) (hidle : a ≠ idle) :
    a ∉ idle :: added ops := by
  rw [mem_cons, not_or]
  exact ⟨hidle, fun hmem => ha (h.known a hmem)⟩

theorem Roster.create (h : Roster idle ops t) (hzero : a ≠ 0) (hidle : a ≠ idle)
    (hnew : a ∉ created ops) (hret : t.createTask a fuel = .ok u) :
    Roster idle (ops ++ [.create a]) u := by
  obtain ⟨pid, -, rfl⟩ := createTask_eq hret
  have hnot := h.notMem hnew hidle
  refine ⟨?_, ?_, fun b hb => ?_, fun b hb => ?_⟩
  · rw [added_append_create]
    exact h.listed.setTask hnot _
  · rw [task_setTask, if_neg hidle.symm, h.zero]
  · rw [created_append_create, mem_append, mem_singleton] at hb
    rw [added_append_create, task_setTask]
    split_ifs with hba
    · exact hba ▸ ⟨hzero, hidle, fun _ => rfl⟩
    · exact h.new b (hb.resolve_right hba)
  · rw [added_append_create] at hb
    rw [created_append_create]
    exact mem_append_left _ (h.known b hb)

theorem Roster.add (h : Roster idle ops t) (ha : a ∈ created ops)
    (hnot : a ∉ added ops) (hret : t.addTask a fuel = .ok u) :
    Roster idle (ops ++ [.add a]) u ∧ ∀ b, (u.task b).pid = (t.task b).pid := by
  have hhead := h.listed.ne_zero h.listed.taskHead_mem
  obtain ⟨hsame, -, -⟩ := addTask_cases hhead hret
  obtain ⟨hne, hidle, hnext⟩ := h.new a ha
  have hlist : ∀ {b}, b ≠ idle → b ∉ added ops → b ∉ idle :: added ops :=
    fun hbidle hbnot hmem => (mem_cons.1 hmem).elim hbidle hbnot
  obtain ⟨hlisted, hkept⟩ := h.listed.addTask hne (hlist hidle hnot) (hnext hnot) hret
  refine ⟨⟨?_, ?_, fun b hb => ?_, fun b hb => ?_⟩, hsame.pid⟩
  · rw [added_append_add]
    exact hlisted
  · rw [hsame.pid, h.zero]
  · rw [created_append_add] at hb
    obtain ⟨hb0, hbidle, hbnext⟩ := h.new b hb
    refine ⟨hb0, hbidle, fun hbnot => ?_⟩
    rw [added_append_add, mem_append, not_or] at hbnot
    rw [hkept b (hlist hbidle hbnot.1), hbnext hbnot.1]
  · rw [added_append_add, mem_append, mem_singleton] at hb
    rw [created_append_add]
    rcases hb with hb | rfl
    · exact h.known b hb
    · exact ha

theorem Numbered.create (h : Numbered ops t) (hr : Roster idle ops t) (hidle : a ≠ idle)
    (hnew : a ∉ created ops) (hret : t.createTask a fuel = .ok u) :
    Numbered (ops ++ [.create a]) u := by
  obtain ⟨pid, hpid, rfl⟩ := createTask_eq hret
  have hnot := hr.notMem hnew hidle
  obtain ⟨hfree, hsearched⟩ := hr.listed.getFreePid_spec hpid
  rw [pids, map_cons, hr.zero, ← pids, h.inList] at hfree hsearched
  have hother : ∀ b ≠ a, ((t.setTask a ⟨pid, .ready, 0, 0, 0, 0⟩).task b).pid = (t.task b).pid :=
    fun b hb => by rw [task_setTask, if_neg hb]
  refine ⟨?_, fun b hb => ?_, fun b hb hbnot => ?_⟩
  · rw [added_append_create, ← h.inList]
    refine pids_congr fun b hb => hother b ?_
    rintro rfl
    exact hnot (mem_cons_of_mem idle hb)
  · rw [recent_append_create, mem_cons] at hb
    rw [added_append_create]
    by_cases hba : b = a
    · rw [hba, task_setTask, if_pos rfl]
      exact searched_firstPids hfree hsearched
    · rw [hother b hba]
      exact h.next b (hb.resolve_left hba)
  · rw [recent_append_create, mem_cons, not_or] at hbnot
    rw [created_append_create, mem_append, mem_singleton] at hb
    rw [added_append_create, hother b hbnot.1]
    exact h.others b (hb.resolve_right hbnot.1) hbnot.2

theorem firstPids_succ (k : ℕ) : firstPids (k + 1) = firstPids k ++ [(k : ℤ) + 1] := by
  rw [firstPids, range_succ, map_append]
  rfl

theorem Numbered.add (h : Numbered ops t) (hpid : ∀ b, (u.task b).pid = (t.task b).pid)
    (ha : a ∈ recent ops) (hlt : (added ops).length < 32767) :
    Numbered (ops ++ [.add a]) u := by
  have hnext : ∀ b ∈ recent ops, (t.task b).pid = (added ops).length + 1 := by
    intro b hb
    rcases h.next b hb with ⟨heq, -⟩ | ⟨-, hle⟩
    · exact heq
    · omega
  have hlength : (added (ops ++ [.add a])).length = (added ops).length + 1 := by
    rw [added_append_add, length_append, length_singleton]
  refine ⟨?_, fun b hb => ?_, fun b hb _ => ?_⟩
  · rw [hlength, firstPids_succ, pids_congr fun b _ => hpid b, added_append_add, pids,
      map_append, ← pids, h.inList, map_singleton, hnext a ha]
  · rw [recent_append_add] at hb
    exact absurd hb not_mem_nil
  · rw [created_append_add] at hb
    rw [hlength, firstPids_succ, hpid, mem_append, mem_singleton]
    by_cases hrecent : b ∈ recent ops
    · exact .inr (hnext b hrecent)
    · exact .inl (h.others b hb hrecent)

theorem DistinctPids.congr (h : t.DistinctPids idle l)
    (hpid : ∀ b ∈ idle :: l, (u.task b).pid = (t.task b).pid) : u.DistinctPids idle l := by
  obtain ⟨hidle, hnodup, hpos⟩ := h
  rw [← pids_congr (forall_mem_cons.1 hpid).2] at hnodup hpos
  exact ⟨(hpid idle mem_cons_self).trans hidle, hnodup, hpos⟩

theorem pids_append (t : Sched) (l : List ℕ) (a : ℕ) :
    t.pids (l ++ [a]) = t.pids l ++ [(t.task a).pid] :=
  map_append

theorem DistinctPids.of_append (h : t.DistinctPids idle (l ++ [a])) :
    t.DistinctPids idle l ∧ (t.task a).pid ∉ t.pids l ∧ 0 < (t.task a).pid := by
  obtain ⟨hidle, hnodup, hpos⟩ := h
  rw [pids_append] at hnodup hpos
  refine ⟨⟨hidle, hnodup.of_append_left, fun pid hmem => hpos pid (mem_append_left _ hmem)⟩,
    fun hmem => ?_, hpos _ (mem_append_right _ (mem_singleton_self _))⟩
  exact (nodup_append.1 hnodup).2.2 _ hmem _ (mem_singleton_self _) rfl

/-- **The calls give distinct numbers** as long as they are prompt and there are numbers, and no
longer. -/
theorem Calls.numbered (hrun : Calls idle s ops t) (hlisted : s.Listed [idle])
    (hzero : (s.task idle).pid = 0) :
    Roster idle ops t ∧
      (Prompt ops ∧ (added ops).length ≤ 32767 ∧ Numbered ops t ∨
        ¬ (Prompt ops ∧ (added ops).length ≤ 32767) ∧
          ¬ t.DistinctPids idle (added ops)) := by
  induction hrun with
  | start =>
    exact ⟨⟨hlisted, hzero, fun a ha => absurd ha not_mem_nil,
      fun a ha => absurd ha not_mem_nil⟩, .inl ⟨prompt_nil, Nat.zero_le _, rfl,
        fun a ha => absurd ha not_mem_nil, fun a ha => absurd ha not_mem_nil⟩⟩
  | @create ops t u a _ hne hidle hnew hret ih =>
    obtain ⟨hroster, hcase⟩ := ih
    obtain ⟨fuel, hret⟩ := hret
    refine ⟨hroster.create hne hidle hnew hret, ?_⟩
    rw [prompt_append_create, added_append_create]
    rcases hcase with ⟨hp, hle, hnumbered⟩ | ⟨hnot, hdup⟩
    · exact .inl ⟨hp, hle, hnumbered.create hroster hidle hnew hret⟩
    · refine .inr ⟨hnot, fun hdistinct => hdup (hdistinct.congr fun b hb => ?_)⟩
      obtain ⟨pid, -, rfl⟩ := createTask_eq hret
      rw [task_setTask, if_neg]
      rintro rfl
      exact hroster.notMem hnew hidle hb
  | @add ops t u a _ ha hnot hret ih =>
    obtain ⟨hroster, hcase⟩ := ih
    obtain ⟨fuel, hret⟩ := hret
    obtain ⟨hroster', hpid⟩ := hroster.add ha hnot hret
    refine ⟨hroster', ?_⟩
    have hback : u.DistinctPids idle (added ops ++ [a]) →
        t.DistinctPids idle (added ops ++ [a]) := fun h => h.congr fun b _ => (hpid b).symm
    rw [prompt_append_add, added_append_add, length_append, length_singleton]
    rcases hcase with ⟨hp, hle, hnumbered⟩ | ⟨hbad, hdup⟩
    · by_cases hrecent : a ∈ recent ops
      · by_cases hlt : (added ops).length < 32767
        · exact .inl ⟨⟨hp, hrecent⟩, hlt, hnumbered.add hpid hrecent hlt⟩
        · -- the numbers are used up, and the new one is negative
          refine .inr ⟨fun hand => hlt hand.2, fun hdistinct => ?_⟩
          have hpos := (hback hdistinct).of_append.2.2
          rcases hnumbered.next a hrecent with ⟨-, hlt'⟩ | ⟨hneg, -⟩
          · exact hlt hlt'
          · omega
      · -- the number of the task is in the list already
        refine .inr ⟨fun hand => hrecent hand.1.2, fun hdistinct => ?_⟩
        refine (hback hdistinct).of_append.2.1 ?_
        rw [hnumbered.inList]
        exact hnumbered.others a ha hrecent
    · exact .inr ⟨fun hand => hbad ⟨hand.1.1, Nat.le_of_succ_le hand.2⟩,
        fun hdistinct => hdup (hback hdistinct).of_append.1⟩

/-- **When the numbers are distinct.** After `init_scheduler` and any calls of `create_task` and
`add_task`, the tasks in the list are the idle task and those that have been added, and their
numbers are distinct, and positive but for that of the idle task, exactly when each task has been
added before another one was added since its creation, and there are at most 32767 of them. -/
theorem pids_iff {boot : Sched} (hboot : boot.taskHead = 0) (hidle : idle ≠ 0)
    (hinit : Returns (boot.initScheduler idle) s) (hrun : Calls idle s ops t) :
    t.Listed (idle :: added ops) ∧
      (t.DistinctPids idle (added ops) ↔
        Prompt ops ∧ (added ops).length ≤ 32767) := by
  have hs := initScheduler_eq hboot hinit
  have hlisted : s.Listed [idle] := by
    rw [hs]
    exact ⟨⟨⟨hidle, by simp [setTask], by simp [setTask]⟩, trivial⟩, rfl, nodup_singleton _,
      mem_singleton_self _⟩
  have hzero : (s.task idle).pid = 0 := by
    rw [hs]
    simp [setTask]
  obtain ⟨hroster, ⟨hp, hle, hnumbered⟩ | ⟨hnot, hdup⟩⟩ := hrun.numbered hlisted hzero
  · refine ⟨hroster.listed, iff_of_true ⟨hroster.zero, ?_, fun pid hpid => ?_⟩ ⟨hp, hle⟩⟩
    · rw [hnumbered.inList]
      exact nodup_firstPids _
    · rw [hnumbered.inList, mem_firstPids] at hpid
      omega
  · exact ⟨hroster.listed, iff_of_false hdup hnot⟩

/-- Two tasks are created and added in turn. -/
theorem pids_boot :
    ∃ t, Returns (Sched.boot.initScheduler 1) SchedSession.boot.sched ∧
      Calls 1 SchedSession.boot.sched [.create 2, .add 2, .create 3, .add 3] t ∧
        t.DistinctPids 1 [2, 3] := by
  have hfirst : Calls 1 SchedSession.boot.sched [.create 2, .add 2] _ :=
    .add (.create .start (by decide) (by decide) (by decide) ⟨9, rfl⟩) (by decide) (by decide)
      ⟨9, rfl⟩
  have hcalls : Calls 1 SchedSession.boot.sched [.create 2, .add 2, .create 3, .add 3] _ :=
    .add (.create hfirst (by decide) (by decide) (by decide) ⟨9, rfl⟩) (by decide) (by decide)
      ⟨9, rfl⟩
  have hprompt : Prompt ([] ++ [.create 2] ++ [.add 2] ++ [.create 3] ++ [.add 3]) := by
    rw [prompt_append_add, prompt_append_create, prompt_append_add, prompt_append_create]
    exact ⟨⟨prompt_nil, by decide⟩, by decide⟩
  exact ⟨_, SchedSession.boot_init, hcalls, (pids_iff rfl (by decide)
    SchedSession.boot_init hcalls).2.2 ⟨hprompt, by decide⟩⟩

/-- Two tasks are created before the first is added, and have the same number. -/
theorem pids_boot_twice :
    ∃ t, Returns (Sched.boot.initScheduler 1) SchedSession.boot.sched ∧
      Calls 1 SchedSession.boot.sched [.create 2, .create 3, .add 2, .add 3] t ∧
        t.pids [1, 2, 3] = [0, 1, 1] ∧ ¬ t.DistinctPids 1 [2, 3] := by
  have hcreated : Calls 1 SchedSession.boot.sched [.create 2, .create 3] _ :=
    .create (.create .start (by decide) (by decide) (by decide) ⟨9, rfl⟩) (by decide) (by decide)
      (by decide) ⟨9, rfl⟩
  have hcalls : Calls 1 SchedSession.boot.sched [.create 2, .create 3, .add 2, .add 3] _ :=
    .add (.add hcreated (by decide) (by decide) ⟨9, rfl⟩) (by decide) (by decide) ⟨9, rfl⟩
  refine ⟨_, SchedSession.boot_init, hcalls, rfl, fun hdistinct => ?_⟩
  exact absurd hdistinct.2.1 (by decide)

end Sched

end Bloodmoon
