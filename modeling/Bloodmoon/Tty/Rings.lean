import Bloodmoon.Machine.Outcome
import Bloodmoon.Machine.Ring

/-!
# The rings of a terminal

The model of the two rings in `tty.c`. A character that is written to a full ring drops the oldest
one, so that a ring of `n` cells keeps the most recent `n - 1` characters (`inb_run`).
`_tty_get_size` subtracts the indices, which gives a negative number when the characters reach over
the end of the array (`ttyGetSize_iff`), and `_tty_flush` sends only those before the end then
(`delivers_iff`).

The indices start at 0 and are natural numbers. The terminal is valid and has its buffers. What goes
to `device_write` is recorded; the events for the subscribers are left out.
-/

namespace Bloodmoon

open Machine

/-- A ring with its indices: `inb` or `outb`. -/
structure TtyRing where
  buf : ℕ → BitVec 8
  size : ℕ
  write : ℕ
  read : ℕ

/-- `outb`, with what has been passed to `device_write`. -/
structure TtyOut where
  outb : TtyRing
  sent : List (BitVec 8)

namespace TtyRing

/-- An index is increased, and set to 0 at the end of the array. -/
def bump (r : TtyRing) (i : ℕ) : ℕ := if r.size ≤ i + 1 then 0 else i + 1

/-- `tty_write_inb`, which is also the first part of `tty_write_outb`. -/
def ttyWriteInb (r : TtyRing) (c : BitVec 8) : TtyRing where
  buf := Function.update r.buf r.write c
  size := r.size
  write := r.bump r.write
  read := if r.bump r.write = r.read then r.bump r.read else r.read

/-- `tty_read_inb`: the character is 0 when there is none. -/
def ttyReadInb (r : TtyRing) : TtyRing × BitVec 8 :=
  if r.read = r.write then (r, 0#8) else ({ r with read := r.bump r.read }, r.buf r.read)

/-- `_tty_get_size`. -/
def ttyGetSize (r : TtyRing) : ℤ := r.write - r.read

/-- The number of characters that `_tty_flush` sends. -/
def len (r : TtyRing) : ℕ := if r.write < r.read then r.size - r.read else r.write - r.read

end TtyRing

namespace TtyOut

/-- `_tty_flush`. -/
def ttyFlush (o : TtyOut) : TtyOut :=
  let r := o.outb
  if r.read = r.write then o
  else
    { outb := { r with read := if r.size ≤ r.read + r.len then 0 else r.read + r.len }
      sent := o.sent ++ (List.range r.len).map fun i => r.buf (r.read + i) }

/-- `tty_write_outb`, where `TTY_FLUSH_CHAR` is 13. -/
def ttyWriteOutb (o : TtyOut) (c : BitVec 8) : TtyOut :=
  let o := { o with outb := o.outb.ttyWriteInb c }
  if c = 13#8 then o.ttyFlush else o

end TtyOut

/-! ### One call -/

/-- The characters that a ring of `n` cells keeps when `c` is written. -/
def keep (n : ℕ) (l : List (BitVec 8)) (c : BitVec 8) : List (BitVec 8) :=
  if l.length + 1 = n then (l ++ [c]).tail else l ++ [c]

namespace TtyRing

variable {r : TtyRing} {n : ℕ} {l : List (BitVec 8)}

/-- The ring of `n` cells holds the characters. -/
structure Holds (r : TtyRing) (n : ℕ) (l : List (BitVec 8)) : Prop where
  size : r.size = n
  ring : RingHolds r.buf n r.read r.write l

/-- The characters do not reach over the end of the array. -/
def Straight (r : TtyRing) : Prop := r.read ≤ r.write ∨ r.write = 0

theorem Holds.bump_eq (h : r.Holds n l) {i : ℕ} (hi : i < n) : r.bump i = (i + 1) % n := by
  rw [bump, h.size, succ_mod hi]

theorem Holds.ttyWriteInb (h : r.Holds n l) (c : BitVec 8) :
    (r.ttyWriteInb c).Holds n (keep n l c) := by
  refine ⟨h.size, ?_⟩
  simp only [TtyRing.ttyWriteInb, keep, h.bump_eq h.ring.tail_lt, h.bump_eq h.ring.head_lt]
  by_cases hfull : l.length + 1 = n
  · -- the oldest character goes first
    rw [if_pos (h.ring.head_eq_succ_iff.2 hfull).symm, if_pos hfull]
    cases l with
    | nil =>
      obtain rfl : 1 = n := hfull
      rw [Nat.mod_one, Nat.mod_one]
      exact .nil _ Nat.one_pos
    | cons x l => exact h.ring.pop.2.push (by rw [List.length_cons] at hfull; omega) c
  · rw [if_neg fun heq => hfull (h.ring.head_eq_succ_iff.1 heq.symm), if_neg hfull]
    have := h.ring.length_lt
    exact h.ring.push (by omega) c

theorem Holds.ttyReadInb (h : r.Holds n l) :
    r.ttyReadInb.1.Holds n l.tail ∧ r.ttyReadInb.2 = l.headD 0#8 := by
  rw [TtyRing.ttyReadInb]
  cases l with
  | nil =>
    rw [if_pos (h.ring.head_eq_tail_iff.2 rfl)]
    exact ⟨h, rfl⟩
  | cons x l =>
    rw [if_neg (mt h.ring.head_eq_tail_iff.1 (List.cons_ne_nil x l))]
    obtain ⟨hx, hpop⟩ := h.ring.pop
    exact ⟨⟨h.size, by rwa [h.bump_eq h.ring.head_lt]⟩, hx⟩

theorem holds_create (buf : ℕ → BitVec 8) (hn : 0 < n) : Holds ⟨buf, n, 0, 0⟩ n [] :=
  ⟨rfl, .nil buf hn⟩

/-! ### The input -/

/-- The calls on `inb`. -/
inductive InbOp where
  | write (c : BitVec 8)
  | read

/-- A call, with the character that is read. -/
def inbStep (r : TtyRing) : InbOp → TtyRing × Option (BitVec 8)
  | .write c => (r.ttyWriteInb c, none)
  | .read => (r.ttyReadInb.1, some r.ttyReadInb.2)

/-- The same for the queue of the characters that are kept. -/
def queueStep (n : ℕ) (l : List (BitVec 8)) : InbOp → List (BitVec 8) × Option (BitVec 8)
  | .write c => (keep n l c, none)
  | .read => (l.tail, some (l.headD 0#8))

theorem Holds.inbStep (h : r.Holds n l) (op : InbOp) :
    (r.inbStep op).1.Holds n (queueStep n l op).1 ∧ (r.inbStep op).2 = (queueStep n l op).2 := by
  cases op with
  | write c => exact ⟨h.ttyWriteInb c, rfl⟩
  | read => exact ⟨h.ttyReadInb.1, congrArg some h.ttyReadInb.2⟩

/-- The ring after calls, with the buffer as it was allocated. -/
def inbAfter (n : ℕ) (buf : ℕ → BitVec 8) (ops : List InbOp) : TtyRing × List (Option (BitVec 8)) :=
  answers inbStep ⟨buf, n, 0, 0⟩ ops

/-- The queue after calls. -/
def queueAfter (n : ℕ) (ops : List InbOp) : List (BitVec 8) × List (Option (BitVec 8)) :=
  answers (queueStep n) [] ops

theorem holds_inbAfter (hn : 0 < n) (buf : ℕ → BitVec 8) (ops : List InbOp) :
    (inbAfter n buf ops).1.Holds n (queueAfter n ops).1 ∧
      (inbAfter n buf ops).2 = (queueAfter n ops).2 :=
  answers_sim (R := fun r l => Holds r n l) Holds.inbStep (holds_create buf hn) ops

/-- **The input ring is a queue** of the most recent characters. -/
theorem inb_run (hn : 0 < n) (buf : ℕ → BitVec 8) (ops : List InbOp) :
    (inbAfter n buf ops).2 = (queueAfter n ops).2 ∧ (queueAfter n ops).1.length < n ∧
      (inbAfter n buf ops).1.read < n ∧ (inbAfter n buf ops).1.write < n := by
  obtain ⟨h, heq⟩ := holds_inbAfter hn buf ops
  exact ⟨heq, h.ring.length_lt, h.ring.head_lt, h.ring.tail_lt⟩

theorem inb_run_two :
    (inbAfter 2 (fun _ => 0) [.write 1, .write 2, .read, .read]).2 = [none, none, some 2, some 0] :=
  (inb_run Nat.two_pos _ _).1

/-- **When `_tty_get_size` is right**: as long as the characters do not reach over the end of the
array. -/
theorem ttyGetSize_iff (hn : 0 < n) (buf : ℕ → BitVec 8) (ops : List InbOp) :
    ((inbAfter n buf ops).1.ttyGetSize = (queueAfter n ops).1.length ∧
        0 ≤ (inbAfter n buf ops).1.ttyGetSize ∧ (inbAfter n buf ops).1.ttyGetSize < n) ↔
      (inbAfter n buf ops).1.read ≤ (inbAfter n buf ops).1.write := by
  have h := (holds_inbAfter hn buf ops).1
  have hlt := h.ring.length_lt
  have htail := h.ring.tail_cases
  rw [ttyGetSize]
  omega

theorem ttyGetSize_one : (inbAfter 2 (fun _ => 0) [.write 1]).1.ttyGetSize = 1 :=
  ((ttyGetSize_iff Nat.two_pos (fun _ => 0) [.write 1]).2 (by decide)).1

/-- Two characters are written and one is read, and the next one closes the ring. -/
theorem ttyGetSize_three :
    (inbAfter 3 (fun _ => 0) [.write 1, .write 2, .read, .write 3]).1.ttyGetSize = -1 ∧
      (queueAfter 3 [.write 1, .write 2, .read, .write 3]).1 = [2, 3] := by
  decide

end TtyRing

/-! ### The output -/

namespace TtyOut

open TtyRing

variable {o : TtyOut} {n : ℕ} {l : List (BitVec 8)}

/-- The calls on `outb`. -/
inductive OutbOp where
  | write (c : BitVec 8)
  | flush

/-- A call. -/
def outbStep (o : TtyOut) : OutbOp → TtyOut
  | .write c => o.ttyWriteOutb c
  | .flush => o.ttyFlush

/-- Where `_tty_flush` starts, if a call makes use of it. -/
def flushed (o : TtyOut) : OutbOp → Option TtyOut
  | .write c => if c = 13#8 then some { o with outb := o.outb.ttyWriteInb c } else none
  | .flush => some o

/-- The characters that should be pending and those that should have been sent after a call. -/
def pendingStep (n : ℕ) (q : List (BitVec 8) × List (BitVec 8)) :
    OutbOp → List (BitVec 8) × List (BitVec 8)
  | .write c => if c = 13#8 then ([], q.2 ++ keep n q.1 c) else (keep n q.1 c, q.2)
  | .flush => ([], q.2 ++ q.1)

/-- After each flush the ring is empty, and what has been sent is what should have been. -/
def Delivers (n : ℕ) (o : TtyOut) (q : List (BitVec 8) × List (BitVec 8)) : List OutbOp → Prop
  | [] => True
  | op :: ops => (∀ o' ∈ o.flushed op, o'.ttyFlush.outb.read = o'.ttyFlush.outb.write ∧
      o'.ttyFlush.sent = (pendingStep n q op).2) ∧
        Delivers n (o.outbStep op) (pendingStep n q op) ops

/-- The characters never reach over the end of the array when they are flushed. -/
def AllStraight (o : TtyOut) : List OutbOp → Prop
  | [] => True
  | op :: ops => (∀ o' ∈ o.flushed op, o'.outb.Straight) ∧ AllStraight (o.outbStep op) ops

/-- **`_tty_flush`** sends all characters and leaves the ring empty, or else does not. -/
theorem ttyFlush_spec (h : o.outb.Holds n l) :
    (o.ttyFlush.outb.read = o.ttyFlush.outb.write ↔ o.outb.Straight) ∧
      (o.outb.Straight → o.ttyFlush.outb.Holds n [] ∧ o.ttyFlush.sent = o.sent ++ l) := by
  have hlt := h.ring.length_lt
  have htail := h.ring.tail_cases
  rw [ttyFlush]
  by_cases hnil : o.outb.read = o.outb.write
  · obtain rfl := h.ring.head_eq_tail_iff.1 hnil
    rw [if_pos hnil]
    exact ⟨iff_of_true hnil (.inl (Nat.le_of_eq hnil)), fun _ => ⟨h, (List.append_nil _).symm⟩⟩
  · have hnext : (if o.outb.size ≤ o.outb.read + o.outb.len then 0
        else o.outb.read + o.outb.len) = o.outb.write ↔ o.outb.Straight := by
      rw [Straight, len, h.size]
      split_ifs <;> omega
    rw [if_neg hnil]
    refine ⟨hnext, fun hstraight => ⟨⟨h.size, ?_⟩, congrArg (o.sent ++ ·) ?_⟩⟩
    · simp only [hnext.2 hstraight]
      exact .nil _ h.ring.tail_lt
    · -- the characters are there in one piece
      have hlen : o.outb.len = l.length := by
        rw [Straight] at hstraight
        rw [len, h.size]
        split_ifs <;> omega
      rw [Straight] at hstraight
      rw [hlen, ← ringList_eq (show o.outb.read + l.length ≤ n by omega), h.ring.list_eq]

/-- The ring holds what is pending, and what should have been sent has been. -/
def Matches (n : ℕ) (o : TtyOut) (q : List (BitVec 8) × List (BitVec 8)) : Prop :=
  o.outb.Holds n q.1 ∧ o.sent = q.2

theorem Matches.outbStep {q : List (BitVec 8) × List (BitVec 8)} (h : Matches n o q) (op : OutbOp) :
    o.flushed op = none ∧ Matches n (o.outbStep op) (pendingStep n q op) ∨
      ∃ o' l, o.flushed op = some o' ∧ o.outbStep op = o'.ttyFlush ∧ Matches n o' (l, q.2) ∧
        pendingStep n q op = ([], q.2 ++ l) := by
  cases op with
  | flush => exact .inr ⟨o, q.1, rfl, rfl, h, rfl⟩
  | write c =>
    rw [flushed, TtyOut.outbStep, ttyWriteOutb, pendingStep]
    split_ifs
    · exact .inr ⟨_, _, rfl, rfl, ⟨h.1.ttyWriteInb c, h.2⟩, rfl⟩
    · exact .inl ⟨rfl, h.1.ttyWriteInb c, h.2⟩

/-- The rest of the calls. -/
theorem Matches.delivers {q : List (BitVec 8) × List (BitVec 8)} (h : Matches n o q)
    (ops : List OutbOp) : Delivers n o q ops ↔ o.AllStraight ops := by
  induction ops generalizing o q with
  | nil => rfl
  | cons op ops ih =>
    rw [Delivers, AllStraight]
    rcases h.outbStep op with ⟨hnone, hnext⟩ | ⟨o', l, hsome, hstep, ⟨hring, hsent⟩, hpending⟩
    · simp only [hnone, Option.not_mem_none, false_implies, implies_true, true_and, ih hnext]
    · obtain ⟨hempty, hspec⟩ := ttyFlush_spec hring
      simp only [hsome, Option.mem_some_iff, forall_eq', hpending, hstep]
      constructor
      · rintro ⟨⟨hread, -⟩, hrest⟩
        have hstraight := hempty.1 hread
        exact ⟨hstraight, (ih ⟨(hspec hstraight).1, hsent ▸ (hspec hstraight).2⟩).1 hrest⟩
      · rintro ⟨hstraight, hrest⟩
        obtain ⟨hnew, hall⟩ := hspec hstraight
        rw [hsent] at hall
        exact ⟨⟨hempty.2 hstraight, hall⟩, (ih ⟨hnew, hall⟩).2 hrest⟩

/-- **When the output is delivered**: in every run, as long as the characters do not reach over the
end of the array when they are flushed. -/
theorem delivers_iff (hn : 0 < n) (buf : ℕ → BitVec 8) (ops : List OutbOp) :
    Delivers n ⟨⟨buf, n, 0, 0⟩, []⟩ ([], []) ops ↔ AllStraight ⟨⟨buf, n, 0, 0⟩, []⟩ ops :=
  Matches.delivers ⟨holds_create buf hn, rfl⟩ ops

theorem delivers_return : Delivers 3 ⟨⟨fun _ => 0, 3, 0, 0⟩, []⟩ ([], []) [.write 1, .write 13] :=
  (delivers_iff (by decide) _ _).2 ⟨nofun, fun _ ho => by cases ho; exact .inl (by decide), trivial⟩

/-- The fourth character is in the first cell, and stays there when the third one is sent. -/
theorem not_delivers_wrap : ¬ Delivers 3 ⟨⟨fun _ => 0, 3, 0, 0⟩, []⟩ ([], [])
    [.write 1, .write 2, .flush, .write 3, .write 4, .flush] :=
  fun h => absurd (h.2.2.2.2.2.1 _ rfl).1 (by decide)

end TtyOut

end Bloodmoon
