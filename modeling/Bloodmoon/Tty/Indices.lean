import Bloodmoon.Tty.EditedLine

/-!
# The indices of a line discipline

The head and the tail of the ring stay in the buffer as long as no character is erased when the tail
is at the first cell and the line is not empty (`indices_iff`); there `%` of C gives a negative
tail.
-/

namespace Bloodmoon

namespace LineDiscipline

variable {ld : LineDiscipline} {c : BitVec 8}

/-- The line discipline after `line_discipline_read`. With the indices in the buffer, `read` has no
value only if `flush_cb` is made to read behind the buffer; then the head is set all the same. -/
def after (ld : LineDiscipline) (c : BitVec 8) : LineDiscipline :=
  match ld.read c with
  | some r => r.1
  | none => { ld with head := ld.tail }

/-- Both indices are in the buffer. -/
def InRange (ld : LineDiscipline) : Prop :=
  (0 ≤ ld.head ∧ ld.head < ld.size) ∧ 0 ≤ ld.tail ∧ ld.tail < ld.size

/-- The calls: `line_discipline_read` and `line_discipline_set_mode`. -/
inductive Op where
  | read (c : BitVec 8)
  | setMode (mode : LdMode)

/-- A call. -/
def step (ld : LineDiscipline) : Op → LineDiscipline
  | .read c => ld.after c
  | .setMode mode => { ld with mode := mode }

/-- After every call the indices are in the buffer. -/
def StaysInRange (ld : LineDiscipline) : List Op → Prop
  | [] => True
  | op :: ops => (ld.step op).InRange ∧ StaysInRange (ld.step op) ops

/-- No character is erased at the first cell, unless the line is empty. -/
def Erasable (ld : LineDiscipline) : Op → Prop
  | .read c => ld.mode = .canonical → Erases c → ld.tail ≠ 0 ∨ ld.tail = ld.head
  | .setMode _ => True

/-- That holds of all calls. -/
def AllErasable (ld : LineDiscipline) : List Op → Prop
  | [] => True
  | op :: ops => ld.Erasable op ∧ AllErasable (ld.step op) ops

theorem InRange.deleteLast_iff (h : ld.InRange) :
    ld.deleteLast.InRange ↔ (ld.tail ≠ 0 ∨ ld.tail = ld.head) := by
  obtain ⟨hhead, htail⟩ := h
  rw [deleteLast, InRange]
  split_ifs with hempty
  · omega
  show (0 ≤ ld.head ∧ ld.head < ld.size) ∧ 0 ≤ (ld.tail - 1).tmod ld.size ∧
    (ld.tail - 1).tmod ld.size < ld.size ↔ _
  by_cases hzero : ld.tail = 0
  · rw [hzero, Int.zero_sub, Int.neg_tmod, Int.tmod_eq_of_lt (by omega) (by omega)]
    omega
  · rw [Int.tmod_eq_of_lt (by omega) (by omega)]
    omega

theorem InRange.read_typed (h : ld.InRange) (hmode : ld.mode = .canonical) (hc : Typed c) :
    (ld.after c).InRange := by
  obtain ⟨hhead, htail⟩ := h
  have hsucc : ∀ i : ℤ, 0 ≤ i → 0 ≤ (i + 1).tmod ld.size ∧ (i + 1).tmod ld.size < ld.size :=
    fun i hi => ⟨Int.tmod_nonneg _ (by omega), Int.tmod_lt_of_pos _ (by omega)⟩
  rw [after, LineDiscipline.read_typed hmode hc, insert, if_neg (hc.ne (by decide)),
    if_neg (by omega), advance]
  split_ifs
  · exact ⟨hsucc _ hhead.1, hsucc _ htail.1⟩
  · exact ⟨hhead, hsucc _ htail.1⟩

/-- Most characters have an entry that changes nothing. -/
theorem after_other (hmode : ld.mode = .canonical) (htyped : ¬ Typed c) (herase : ¬ Erases c)
    (hreturn : c ≠ 13#8) : ld.after c = ld := by
  obtain ⟨hback, hdel⟩ := not_or.1 herase
  have hentry : ∀ n, n ≠ 8 → n ≠ 13 → ∃ output action, defaultLdTable n = .of output action ∧
      ∃ events, ld.act action = some (ld, events) := by
    intro n hback hreturn
    unfold defaultLdTable
    split
    case h_4 => exact absurd rfl hback
    case h_9 => exact absurd rfl hreturn
    all_goals exact ⟨_, _, rfl, _, rfl⟩
  obtain ⟨output, action, hentry, events, hact⟩ := hentry c.toNat
    (fun heq => hback (BitVec.toNat_inj.1 heq)) fun heq => hreturn (BitVec.toNat_inj.1 heq)
  have hread : ld.read c = ld.control (defaultLdTable c.toNat) := by
    rw [read, hmode]
    exact (if_neg htyped).trans (if_neg hdel)
  rw [after, hread, hentry, control_of, hact]
  rfl

/-- One call. -/
theorem InRange.step_iff (h : ld.InRange) (op : Op) : (ld.step op).InRange ↔ ld.Erasable op := by
  cases op with
  | setMode mode => exact iff_of_true h trivial
  | read c =>
    rw [step, Erasable]
    cases hmode : ld.mode with
    | raw =>
      rw [after, read, hmode]
      exact iff_of_true h fun heq => absurd heq (by decide)
    | canonical =>
      rw [imp_iff_right rfl]
      by_cases herase : Erases c
      · obtain ⟨events, hread, -⟩ := read_erases hmode herase
        rw [after, hread, imp_iff_right herase]
        exact h.deleteLast_iff
      refine iff_of_true ?_ fun hc => absurd hc herase
      by_cases htyped : Typed c
      · exact h.read_typed hmode htyped
      by_cases hreturn : c = 13#8
      · rw [after, hreturn, read_return hmode, flushLine]
        split_ifs <;> exact ⟨h.2, h.2⟩
      · rwa [after_other hmode htyped herase hreturn]

/-- All calls. -/
theorem InRange.stays_iff (h : ld.InRange) (ops : List Op) :
    ld.StaysInRange ops ↔ ld.AllErasable ops := by
  induction ops generalizing ld with
  | nil => rfl
  | cons op ops ih =>
    rw [StaysInRange, AllErasable, ← h.step_iff]
    exact and_congr_right fun hin => ih hin

/-- **When the indices stay in the buffer**: in every run, as long as no character is erased at the
first cell, unless the line is empty. -/
theorem indices_iff {size : ℤ} (hsize : 2 ≤ size) (mode : LdMode) (echo : Bool)
    (buffer : ℕ → BitVec 8) (ops : List Op) :
    (create mode echo size buffer).StaysInRange ops ↔
      (create mode echo size buffer).AllErasable ops := by
  have hpos : 0 < size := by omega
  exact InRange.stays_iff ⟨⟨le_rfl, hpos⟩, le_rfl, hpos⟩ ops

/-- A character is typed and erased. -/
theorem indices_erased :
    (create .canonical false 2 fun _ => 0#8).StaysInRange [.read 0x61#8, .read 8#8] :=
  (indices_iff (by decide) _ _ _ _).2
    ⟨fun _ h => absurd h (by decide), fun _ _ => .inl (by decide), trivial⟩

/-- The second character goes to the last of the two cells and pushes out the first one; when it is
erased the tail is negative. -/
theorem not_indices_wrapped : ¬ (create .canonical false 2 fun _ => 0#8).StaysInRange
    [.read 0x61#8, .read 0x62#8, .read 8#8] :=
  fun h => absurd h.2.2.1.2.1 (by decide)

end LineDiscipline

end Bloodmoon
