import Bloodmoon.Vfs.Model

/-!
# Handing out file descriptors

A search for a free slot goes round the table once, from the slot behind the one that was handed out
last. Nothing brings the start back to the first slot when the last one has been handed out: the
next search reads behind the table. Every other search is right, in whatever state the table is.
-/

namespace Bloodmoon

open Machine Relation Option

namespace Slots

variable {E : Type} {K : SlotKind E} {fill : E → E} {t u : Slots E} {path mount : Text} {k : ℕ}

/-- The slot that a search looks at after `j` steps. -/
def visited (K : SlotKind E) (t : Slots E) (j : ℕ) : ℕ := (t.cursor + j) % K.size

/-- A search that starts inside the table stays there: it takes a free slot, or has seen only open
ones. -/
theorem search_eq (fill : E → E) (h : t.cursor < K.size) (k : ℕ) :
    (∃ c, t.search K fill k = some (-1, { t with cursor := c }) ∧ c < K.size ∧
        ∀ j < k, K.loaded (t.slot (t.visited K j)) = true) ∨
      ∃ i < K.size, K.loaded (t.slot i) = false ∧
        t.search K fill k =
          some ((i : ℤ), ⟨Function.update t.slot i (fill (t.slot i)), i + 1⟩) := by
  induction k generalizing t with
  | zero => exact .inl ⟨t.cursor, rfl, h, fun j hj => absurd hj (Nat.not_lt_zero j)⟩
  | succ k ih =>
    rw [search, if_neg (Nat.not_le.2 h)]
    cases hopen : K.loaded (t.slot t.cursor) with
    | false => exact .inr ⟨t.cursor, h, hopen, rfl⟩
    | true =>
      rw [if_neg (by simp)]
      have hnext : (if K.size ≤ t.cursor + 1 then 0 else t.cursor + 1) =
          (t.cursor + 1) % K.size := by
        split_ifs with hlast
        · rw [show t.cursor + 1 = K.size by omega, Nat.mod_self]
        · rw [Nat.mod_eq_of_lt (by omega)]
      rw [hnext]
      have hlt : (t.cursor + 1) % K.size < K.size := Nat.mod_lt _ (by omega)
      rcases ih (t := { t with cursor := (t.cursor + 1) % K.size }) hlt with
        ⟨c, hc, hcn, hall⟩ | ⟨i, hi, hfree, hsome⟩
      · refine .inl ⟨c, hc, hcn, fun j hj => ?_⟩
        cases j with
        | zero => rw [visited, Nat.add_zero, Nat.mod_eq_of_lt h, hopen]
        | succ j =>
          rw [visited, ← Nat.add_assoc, Nat.add_right_comm, ← Nat.mod_add_mod]
          exact hall j (by omega)
      · exact .inr ⟨i, hi, hfree, hsome⟩

/-- A search that takes as many steps as there are slots looks at all of them. -/
theorem exists_visited (h : t.cursor < K.size) {i : ℕ} (hi : i < K.size) :
    ∃ j < K.size, t.visited K j = i := by
  by_cases hle : t.cursor ≤ i
  · exact ⟨i - t.cursor, by omega, by rw [visited, Nat.add_sub_cancel' hle, Nat.mod_eq_of_lt hi]⟩
  · refine ⟨K.size - t.cursor + i, by omega, ?_⟩
    rw [visited, show t.cursor + (K.size - t.cursor + i) = i + K.size by omega,
      Nat.add_mod_right, Nat.mod_eq_of_lt hi]

theorem search_of_le (h : K.size ≤ t.cursor) : t.search K fill (k + 1) = none := if_pos h

/-- The path or the mount is longer than its array. -/
def TooLong (path mount : Text) : Prop :=
  vfsFdeNameMaxLen < path.length ∨ vfsFdeNameMaxLen < mount.length

instance (path mount : Text) : Decidable (TooLong path mount) := inferInstanceAs (Decidable (_ ∨ _))

theorem get_of_tooLong (h : TooLong path mount) : t.get K fill path mount = some (-1, t) := by
  rw [get]
  split_ifs with hpath hmount
  · rfl
  · rfl
  · exact absurd h (not_or.2 ⟨hpath, hmount⟩)

theorem get_of_not_tooLong (h : ¬ TooLong path mount) :
    t.get K fill path mount = t.search K fill K.size := by
  obtain ⟨hpath, hmount⟩ := not_or.1 h
  rw [get, if_neg hpath, if_neg hmount]

/-- The slot at which a search starts is taken if it is free. -/
theorem get_of_free (hlong : ¬ TooLong path mount) (h : t.cursor < K.size)
    (hfree : K.loaded (t.slot t.cursor) = false) :
    t.get K fill path mount = some ((t.cursor : ℤ),
      ⟨Function.update t.slot t.cursor (fill (t.slot t.cursor)), t.cursor + 1⟩) := by
  obtain ⟨k, hk⟩ := Nat.exists_eq_add_of_lt (Nat.zero_lt_of_lt h)
  rw [get_of_not_tooLong hlong, show K.size = k + 1 by omega, search, if_neg (Nat.not_le.2 h),
    if_pos hfree]

/-- What a descriptor that is handed out has to be: a slot of the table that was not open, or -1
when all slots were. -/
def Answer (K : SlotKind E) (t : Slots E) (path mount : Text) (r : ℤ) : Prop :=
  (r = -1 ∧ (¬ TooLong path mount → ∀ i < K.size, K.loaded (t.slot i) = true)) ∨
    ∃ i : ℕ, r = i ∧ i < K.size ∧ K.loaded (t.slot i) = false

/-- A call is right exactly when it does not search or its search starts inside the table. -/
theorem get_answer_iff (hsize : 0 < K.size) :
    (∃ r u, t.get K fill path mount = some (r, u) ∧ Answer K t path mount r) ↔
      TooLong path mount ∨ t.cursor < K.size := by
  by_cases hlong : TooLong path mount
  · exact iff_of_true ⟨-1, t, get_of_tooLong hlong, .inl ⟨rfl, (absurd hlong ·)⟩⟩ (.inl hlong)
  rw [get_of_not_tooLong hlong, or_iff_right hlong]
  constructor
  · rintro ⟨r, u, hsome, -⟩
    by_contra hout
    obtain ⟨k, hk⟩ := Nat.exists_eq_add_of_lt hsize
    rw [show K.size = k + 1 by omega, search_of_le (Nat.not_lt.1 hout)] at hsome
    exact absurd hsome.symm (some_ne_none _)
  · intro h
    rcases search_eq fill h K.size with ⟨c, hsome, -, hall⟩ | ⟨i, hi, hfree, hsome⟩
    · refine ⟨_, _, hsome, .inl ⟨rfl, fun _ i hi => ?_⟩⟩
      obtain ⟨j, hj, rfl⟩ := exists_visited h hi
      exact hall j hj
    · exact ⟨_, _, hsome, .inr ⟨i, rfl, hi, hfree⟩⟩

/-- A call leaves the slots alone or takes one that was free. -/
theorem get_cases (hsize : 0 < K.size) {r : ℤ} (hget : t.get K fill path mount = some (r, u)) :
    (r = -1 ∧ ∃ c, u = { t with cursor := c } ∧ (c = t.cursor ∨ c < K.size)) ∨
      ∃ i < K.size, r = (i : ℤ) ∧ ¬ TooLong path mount ∧ K.loaded (t.slot i) = false ∧
        u = ⟨Function.update t.slot i (fill (t.slot i)), i + 1⟩ := by
  by_cases hlong : TooLong path mount
  · rw [get_of_tooLong hlong] at hget
    cases hget
    exact .inl ⟨rfl, t.cursor, rfl, .inl rfl⟩
  rw [get_of_not_tooLong hlong] at hget
  by_cases hin : t.cursor < K.size
  · rcases search_eq fill hin K.size with ⟨c, hsome, hc, -⟩ | ⟨i, hi, hfree, hsome⟩
    · cases hsome.symm.trans hget
      exact .inl ⟨rfl, c, rfl, .inr hc⟩
    · cases hsome.symm.trans hget
      exact .inr ⟨i, hi, rfl, hlong, hfree, rfl⟩
  · obtain ⟨k, hk⟩ := Nat.exists_eq_add_of_lt hsize
    rw [show K.size = k + 1 by omega, search_of_le (Nat.not_lt.1 hin)] at hget
    exact absurd hget.symm (some_ne_none _)

/-- The start of the next search is inside the table or right behind it. -/
theorem cursor_le_of_get (hsize : 0 < K.size) (h : t.cursor ≤ K.size) {r : ℤ}
    (hget : t.get K fill path mount = some (r, u)) : u.cursor ≤ K.size := by
  rcases get_cases hsize hget with ⟨-, c, rfl, rfl | hc⟩ | ⟨i, hi, -, -, -, rfl⟩
  · exact h
  · exact Nat.le_of_lt hc
  · exact hi

/-- A descriptor of the table. -/
def IsOpen (K : SlotKind E) (t : Slots E) (fd : ℤ) : Prop :=
  0 ≤ fd ∧ fd < K.size ∧ K.loaded (t.slot fd.toNat) = true

theorem release_of_isOpen {fd : ℤ} (h : t.IsOpen K fd) :
    t.release K fd = some
      (0, { t with slot := Function.update t.slot fd.toNat (K.unload (t.slot fd.toNat)) }) := by
  rw [release, if_neg (by simpa using h.2.1), if_neg (by simpa using h.1)]

theorem slot_setOffset (t : Slots FileDescriptorEntry) (fd offset i : ℕ) :
    (t.setOffset fd offset).slot i =
      if i = fd then { t.slot fd with offset := offset } else t.slot i :=
  Function.update_apply _ _ _ _

end Slots

/-! ### Runs -/

/-- The two tables of descriptors. -/
structure Descriptors where
  files : Slots FileDescriptorEntry
  dirs : Slots Dir

/-- A call that hands out a descriptor or takes one back. -/
inductive DescriptorOp where
  | getFd (path mount : Text) (flags mode : ℕ)
  | releaseFd (fd : ℤ)
  | getDirfd (path mount : Text) (flags mode : ℕ)
  | releaseDirfd (fd : ℤ)

namespace DescriptorOp

open Slots

variable {d e : Descriptors}

/-- The code of the call. -/
def run (d : Descriptors) : DescriptorOp → Option (ℤ × Descriptors)
  | getFd path mount flags mode =>
    (Bloodmoon.getFd d.files path mount flags mode).map fun r => (r.1, { d with files := r.2 })
  | releaseFd fd => (Bloodmoon.releaseFd d.files fd).map fun r => (r.1, { d with files := r.2 })
  | getDirfd path mount flags mode =>
    (Bloodmoon.getDirfd d.dirs path mount flags mode).map fun r => (r.1, { d with dirs := r.2 })
  | releaseDirfd fd => (Bloodmoon.releaseDirfd d.dirs fd).map fun r => (r.1, { d with dirs := r.2 })

/-- Only open descriptors are released. -/
def Valid (d : Descriptors) : DescriptorOp → Prop
  | getFd _ _ _ _ => True
  | releaseFd fd => d.files.IsOpen fileSlots fd
  | getDirfd _ _ _ _ => True
  | releaseDirfd fd => d.dirs.IsOpen dirSlots fd

/-- What the call may return. -/
def Returned (d : Descriptors) (r : ℤ) : DescriptorOp → Prop
  | getFd path mount _ _ => Answer fileSlots d.files path mount r
  | releaseFd _ => True
  | getDirfd path mount _ _ => Answer dirSlots d.dirs path mount r
  | releaseDirfd _ => True

/-- The call stays inside the tables and returns what it may return. -/
def Right (d : Descriptors) (op : DescriptorOp) : Prop :=
  ∃ r e, op.run d = some (r, e) ∧ op.Returned d r

/-- The search for a slot, if there is one, starts inside the table. -/
def Meets (d : Descriptors) : DescriptorOp → Prop
  | getFd path mount _ _ => TooLong path mount ∨ d.files.cursor < fileSlots.size
  | releaseFd _ => True
  | getDirfd path mount _ _ => TooLong path mount ∨ d.dirs.cursor < dirSlots.size
  | releaseDirfd _ => True

/-- A call acts on one of the two tables. -/
theorem exists_map_iff {E : Type} {x : Option (ℤ × Slots E)} (f : Slots E → Descriptors)
    {P : ℤ → Prop} :
    (∃ r e, x.map (fun r => (r.1, f r.2)) = some (r, e) ∧ P r) ↔ ∃ r u, x = some (r, u) ∧ P r := by
  constructor
  · rintro ⟨r, e, hsome, hr⟩
    obtain ⟨y, hy, heq⟩ := map_eq_some_iff.1 hsome
    cases heq
    exact ⟨_, _, hy, hr⟩
  · rintro ⟨r, u, rfl, hr⟩
    exact ⟨r, f u, rfl, hr⟩

/-- In whatever state the tables are, a call is right exactly when it meets the condition. -/
theorem right_iff {op : DescriptorOp} (hvalid : op.Valid d) : op.Right d ↔ op.Meets d := by
  cases op with
  | getFd path mount flags mode =>
    exact (exists_map_iff fun t => { d with files := t }).trans
      (get_answer_iff (K := fileSlots) (by decide))
  | releaseFd fd =>
    refine iff_of_true ((exists_map_iff fun t => { d with files := t }).2 ?_) trivial
    exact ⟨_, _, release_of_isOpen hvalid, trivial⟩
  | getDirfd path mount flags mode =>
    exact (exists_map_iff fun t => { d with dirs := t }).trans
      (get_answer_iff (K := dirSlots) (by decide))
  | releaseDirfd fd =>
    refine iff_of_true ((exists_map_iff fun t => { d with dirs := t }).2 ?_) trivial
    exact ⟨_, _, release_of_isOpen hvalid, trivial⟩

end DescriptorOp

namespace Descriptors

variable {d e : Descriptors}

/-- A valid call that stays inside the tables. -/
def Step (d e : Descriptors) : Prop := ∃ op r, op.Valid d ∧ DescriptorOp.run d op = some (r, e)

/-- Searches start inside the tables or right behind them. -/
def Cursors (d : Descriptors) : Prop :=
  d.files.cursor ≤ fileSlots.size ∧ d.dirs.cursor ≤ dirSlots.size

theorem Cursors.step (h : d.Cursors) (hstep : Step d e) : e.Cursors := by
  obtain ⟨op, r, hvalid, hrun⟩ := hstep
  cases op with
  | getFd path mount flags mode =>
    obtain ⟨x, hx, heq⟩ := map_eq_some_iff.1 hrun
    cases heq
    exact ⟨Slots.cursor_le_of_get (by decide) h.1 hx, h.2⟩
  | releaseFd fd =>
    rw [DescriptorOp.run, releaseFd, Slots.release_of_isOpen hvalid] at hrun
    cases hrun
    exact h
  | getDirfd path mount flags mode =>
    obtain ⟨x, hx, heq⟩ := map_eq_some_iff.1 hrun
    cases heq
    exact ⟨h.1, Slots.cursor_le_of_get (by decide) h.2 hx⟩
  | releaseDirfd fd =>
    rw [DescriptorOp.run, releaseDirfd, Slots.release_of_isOpen hvalid] at hrun
    cases hrun
    exact h

/-- The zeroed tables. -/
def zeroed : Descriptors where
  files := ⟨fun _ => ⟨fun _ => 0#8, 0, 0, false⟩, 0⟩
  dirs := ⟨fun _ => ⟨⟨fun _ => 0#8, 0, 0, false⟩, 0, 0⟩, 0⟩

/-- **Descriptors** in every run from the zeroed tables: a call stays inside the tables and returns
a slot that was not open, or -1 when there is none, exactly when its search starts inside the table,
which it does unless the last slot is the one that was handed out last. -/
theorem descriptors_run (hrun : ReflTransGen Step zeroed d) :
    d.Cursors ∧ ∀ op : DescriptorOp, op.Valid d → (op.Right d ↔ op.Meets d) := by
  have hd : d.Cursors := by
    induction hrun with
    | refl => exact ⟨Nat.zero_le _, Nat.zero_le _⟩
    | tail _ hstep ih => exact ih.step hstep
  exact ⟨hd, fun _ hvalid => DescriptorOp.right_iff hvalid⟩

/-- The tables after a file has been opened in the slot at which the search starts. -/
def opened (d : Descriptors) (path : Text) : Descriptors :=
  { d with files := ⟨Function.update d.files.slot d.files.cursor
      (.fill path [] 0 0 (d.files.slot d.files.cursor)), d.files.cursor + 1⟩ }

theorem step_opened {path : Text} (hpath : ¬ Slots.TooLong path [])
    (h : d.files.cursor < fileSlots.size) (hfree : (d.files.slot d.files.cursor).loaded = false) :
    Step d (d.opened path) :=
  ⟨.getFd path [] 0 0, d.files.cursor, trivial,
    congrArg (Option.map _) (Slots.get_of_free (K := fileSlots) hpath h hfree)⟩

/-- The first file is opened, and then the second. -/
theorem descriptors_zeroed : ∃ d, ReflTransGen Step zeroed d ∧
    (DescriptorOp.releaseFd 0).Right d ∧ (DescriptorOp.getFd [0x61#8] [] 0 0).Right d := by
  have hrun : ReflTransGen Step zeroed (zeroed.opened [0x61#8]) :=
    .single (step_opened (by decide) (by decide) rfl)
  obtain ⟨-, hright⟩ := descriptors_run hrun
  exact ⟨_, hrun, (hright (.releaseFd 0) ⟨by decide, by decide, rfl⟩).2 trivial,
    (hright (.getFd [0x61#8] [] 0 0) trivial).2 (.inr (by decide))⟩

/-- Files can be opened until the next search starts at any given slot. -/
theorem exists_run_cursor {k : ℕ} (hk : k ≤ fileSlots.size) : ∃ d, ReflTransGen Step zeroed d ∧
    d.files.cursor = k ∧ ∀ i, k ≤ i → (d.files.slot i).loaded = false := by
  induction k with
  | zero => exact ⟨zeroed, .refl, rfl, fun _ _ => rfl⟩
  | succ k ih =>
    obtain ⟨d, hrun, rfl, hfree⟩ := ih (Nat.le_of_succ_le hk)
    have hstep : Step d (d.opened [0x61#8]) := step_opened (by decide) hk (hfree _ (Nat.le_refl _))
    refine ⟨d.opened [0x61#8], hrun.tail hstep, rfl, fun i hi => ?_⟩
    have hne : i ≠ d.files.cursor := by omega
    have hslot : (d.opened [0x61#8]).files.slot i = d.files.slot i := Function.update_of_ne hne _ _
    rw [hslot]
    exact hfree i (by omega)

/-- After as many files have been opened as there are slots, the next call reads behind the
table. -/
theorem descriptors_zeroed_last : ∃ d, ReflTransGen Step zeroed d ∧
    (DescriptorOp.getFd [0x61#8] [] 0 0).run d = none := by
  obtain ⟨d, hrun, hcursor, -⟩ := exists_run_cursor (Nat.le_refl _)
  refine ⟨d, hrun, ?_⟩
  rw [DescriptorOp.run, getFd, Slots.get_of_not_tooLong (by decide)]
  exact congrArg (Option.map _) (Slots.search_of_le (k := 65535) (Nat.le_of_eq hcursor.symm))

end Descriptors

end Bloodmoon
