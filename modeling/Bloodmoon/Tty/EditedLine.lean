import Bloodmoon.Machine.Ring
import Bloodmoon.Tty.Model

/-!
# Lines that are edited in a ring

The buffer of a line discipline is a ring that is never reset. As long as no character is erased at
the place where the ring closes, it holds the end of the line that has been edited; a carriage
return delivers the line when it lies in the buffer in one piece and no character of it has been
pushed out and uncovered again by an erasure.
-/

namespace Bloodmoon

open Machine Relation List Option

namespace LineDiscipline

variable {ld : LineDiscipline} {n h r : ℕ} {c : BitVec 8} {R : List (BitVec 8)}

/-- The ring holds the characters `R`, from the cell `h` on. -/
structure RingHolds (ld : LineDiscipline) (n h : ℕ) (R : List (BitVec 8)) : Prop where
  mode : ld.mode = .canonical
  size : ld.size = n
  head : ld.head = h
  head_lt : h < n
  length_lt : R.length < n
  tail : ld.tail = ((h + R.length) % n : ℕ)
  text : ringList ld.buffer n h R.length = R

namespace RingHolds

variable (hR : ld.RingHolds n h R)
include hR

theorem tail_lt : ld.tail < ld.size := by
  rw [hR.tail, hR.size]
  exact Int.ofNat_lt.2 (Nat.mod_lt _ (Nat.zero_lt_of_lt hR.head_lt))

theorem tail_nonneg : 0 ≤ ld.tail := by
  rw [hR.tail]
  exact Int.natCast_nonneg _

theorem ring : Machine.RingHolds ld.buffer n h ((h + R.length) % n) R :=
  ⟨hR.head_lt, hR.length_lt, rfl, hR.text⟩

/-- The tail meets the head when the ring is empty. -/
theorem tail_eq_head_iff : ld.tail = ld.head ↔ R = [] := by
  rw [hR.tail, hR.head, Int.natCast_inj, eq_comm, hR.ring.head_eq_tail_iff]

/-- The tail is behind the last character, or the ring closes between the head and the tail. -/
theorem tail_cases : (h + R.length < n ∧ ld.tail = h + R.length) ∨
    (n ≤ h + R.length ∧ ld.tail = h + R.length - n) := by
  rw [hR.tail]
  rcases hR.ring.tail_cases with htail | htail
  · omega
  · omega

/-- The number of characters is computed right. -/
theorem held_eq : ld.held = R.length := by
  have hlt := hR.length_lt
  rw [held, hR.head, hR.size]
  rcases hR.tail_cases with ⟨-, htail⟩ | ⟨-, htail⟩
  · rw [htail, Int.tmod_eq_emod_of_nonneg (by omega),
      show (h + R.length - h + n : ℤ) = R.length + n by omega, Int.add_emod_right,
      Int.emod_eq_of_lt (by omega) (by omega)]
  · rw [htail, Int.tmod_eq_of_lt (by omega) (by omega)]
    omega

/-- The line lies in the buffer in one piece unless the ring closes inside it. -/
theorem contiguous_iff (hne : 0 < R.length) :
    h + R.length ≤ n ↔ ld.head ≤ ld.tail ∨ ld.tail = 0 := by
  have hlt := hR.length_lt
  rw [hR.head]
  rcases hR.tail_cases with ⟨hin, htail⟩ | ⟨hwrap, htail⟩
  · omega
  · omega

/-- The tail moves on by one cell. -/
theorem tail_succ : (ld.tail + 1).tmod ld.size = ((h + (R.length + 1)) % n : ℕ) := by
  rw [hR.tail, hR.size, ← Nat.add_assoc, ← Nat.mod_add_mod (h + R.length)]
  exact (Int.ofNat_tmod _ _).symm

/-- A character is put behind the others, and pushes out the first if there is no room. -/
theorem insert (hc : c ≠ 0#8) : ∃ ld' h', ld.insert c = some ld' ∧
    ld'.RingHolds n h' ((R ++ [c]).drop (R.length + 1 - (n - 1))) := by
  have hhead := hR.head_lt
  have hlt := hR.length_lt
  have hnonneg := hR.tail_nonneg
  have hcell : ld.tail.toNat = (h + R.length) % n := by
    rw [hR.tail]
    exact Int.toNat_natCast _
  have htext := ringList_update (b := ld.buffer) (h := h) (x := c) hlt
  rw [hR.text] at htext
  rw [LineDiscipline.insert, if_neg hc, if_neg (by have := hR.tail_lt; omega), hR.tail_succ, hcell]
  by_cases hfull : R.length + 1 = n
  · -- the tail meets the head
    have htail : (h + (R.length + 1)) % n = h := by
      rw [hfull, Nat.add_mod_right, Nat.mod_eq_of_lt hhead]
    have hlen : (R ++ [c]).tail.length = R.length := by simp
    refine ⟨_, (h + 1) % n, rfl, ?_⟩
    rw [advance, if_pos (by rw [hR.head, htail]), show R.length + 1 - (n - 1) = 1 by omega,
      drop_one]
    refine ⟨hR.mode, hR.size, ?_, Nat.mod_lt _ (by omega), by omega, ?_, ?_⟩
    · show (ld.head + 1).tmod ld.size = _
      rw [hR.head, hR.size]
      exact (Int.ofNat_tmod _ _).symm
    · rw [hlen, htail, Nat.mod_add_mod, Nat.add_assoc, Nat.add_comm 1, hfull, Nat.add_mod_right,
        Nat.mod_eq_of_lt hhead]
    · rw [hlen, ← htext, ringList_cons, tail_cons]
  · have hlen : (R ++ [c]).length = R.length + 1 := by simp
    have hnew : RingHolds { ld with
        buffer := Function.update ld.buffer ((h + R.length) % n) c
        tail := ((h + (R.length + 1)) % n : ℕ) } n h (R ++ [c]) :=
      ⟨hR.mode, hR.size, hR.head, hhead, by omega, by rw [hlen], by rw [hlen, htext]⟩
    refine ⟨_, h, rfl, ?_⟩
    rw [advance, if_neg (mt hnew.tail_eq_head_iff.1 (by simp)),
      show R.length + 1 - (n - 1) = 0 by omega, drop_zero]
    exact hnew

/-- The last character is erased unless the tail is at the first cell. -/
theorem deleteLast (htail : ld.tail ≠ 0 ∨ ld.tail = ld.head) :
    ld.deleteLast.RingHolds n h R.dropLast := by
  have hnonneg := hR.tail_nonneg
  rw [LineDiscipline.deleteLast]
  rcases eq_nil_or_concat' R with rfl | ⟨Q, x, rfl⟩
  · rw [if_pos (hR.tail_eq_head_iff.2 rfl)]
    exact hR
  · have hne : ld.tail ≠ ld.head := mt hR.tail_eq_head_iff.1 (by simp)
    have hlt := hR.tail_lt
    have hlen : (Q ++ [x]).length = Q.length + 1 := by simp
    have hQ := hR.length_lt
    have hprev : (ld.tail - 1).tmod ld.size = ((h + Q.length) % n : ℕ) := by
      rw [Int.tmod_eq_of_lt (by omega) (by omega)]
      have hsucc : ld.tail = (((h + Q.length) % n + 1) % n : ℕ) := by
        rw [Nat.mod_add_mod, hR.tail, hlen, Nat.add_assoc]
      have hpos : (h + Q.length) % n < n := Nat.mod_lt _ (by omega)
      rcases Nat.lt_or_ge ((h + Q.length) % n + 1) n with hin | hout
      · rw [hsucc, Nat.mod_eq_of_lt hin]
        omega
      · rw [show (h + Q.length) % n + 1 = n by omega, Nat.mod_self] at hsucc
        omega
    rw [if_neg hne, dropLast_concat]
    refine ⟨hR.mode, hR.size, hR.head, hR.head_lt, by omega, hprev, ?_⟩
    have htext := congrArg List.dropLast hR.text
    rwa [hlen, dropLast_ringList, dropLast_concat] at htext

/-- When a character is erased at the place where the ring closes, the tail leaves the buffer. -/
theorem tail_deleteLast (htail : ld.tail = 0) (hne : ld.tail ≠ ld.head) :
    ld.deleteLast.tail = -1 := by
  have hhead := hR.head_lt
  have hpos := hR.head
  rw [LineDiscipline.deleteLast, if_neg hne]
  show (ld.tail - 1).tmod ld.size = -1
  rw [htail, hR.size, Int.zero_sub, Int.neg_tmod, Int.tmod_eq_of_lt (by omega) (by omega)]

/-- A line is delivered if it lies in the buffer in one piece. -/
theorem flushLine (hint : ld.tail - ld.head + ld.size < 2 ^ 31) (hfit : h + R.length ≤ n) :
    ld.flushLine = some ({ ld with head := ld.tail }, [.flush R]) := by
  rw [LineDiscipline.flushLine, if_neg (Int.not_le.2 hint), hR.held_eq, hR.head, hR.size,
    if_neg (by omega), Int.toNat_natCast, Int.toNat_natCast, ← ringList_eq hfit, hR.text]

theorem flushLine_of_lt (hfit : n < h + R.length) : ld.flushLine = none := by
  have hhead := hR.head_lt
  rw [LineDiscipline.flushLine, hR.held_eq, hR.head, hR.size]
  split_ifs with hint hout
  · rfl
  · rfl
  · exact absurd ⟨by omega, .inr (by omega)⟩ hout

/-- The ring is empty afterwards. -/
theorem flushed : RingHolds { ld with head := ld.tail } n ((h + R.length) % n) [] := by
  have hpos := Nat.zero_lt_of_lt hR.head_lt
  refine ⟨hR.mode, hR.size, hR.tail, Nat.mod_lt _ hpos, hpos, ?_, rfl⟩
  rw [length_nil, Nat.add_zero, Nat.mod_mod]
  exact hR.tail

end RingHolds

/-! ### What is read -/

/-- The texts that `flush_cb` receives. -/
def flushes (events : List LdEvent) : List (List (BitVec 8)) :=
  events.filterMap fun
    | .flush text => some text
    | _ => none

/-- A character that becomes part of the line. -/
def Typed (c : BitVec 8) : Prop := c ≠ ldDel ∧ (c.toInt < 0 ∨ 27 < c.toInt)

/-- A character that erases the last one. -/
def Erases (c : BitVec 8) : Prop := c = 8#8 ∨ c = ldDel

instance : DecidablePred Typed := fun _ => inferInstanceAs (Decidable (_ ∧ _))

instance : DecidablePred Erases := fun _ => inferInstanceAs (Decidable (_ ∨ _))

theorem Typed.ne {d : BitVec 8} (hc : Typed c) (hd : ¬ Typed d) : c ≠ d := fun heq => hd (heq ▸ hc)

theorem not_typed_of_erases (hc : Erases c) : ¬ Typed c := by
  rcases hc with rfl | rfl
  · decide
  · decide

theorem flushes_echoed (cs : List (BitVec 8)) (events : List LdEvent) :
    flushes (ld.echoed cs ++ events) = flushes events := by
  rw [flushes, filterMap_append, echoed]
  split_ifs with hecho
  · rw [filterMap_map]
    exact congrArg (· ++ flushes events) (filterMap_eq_nil_iff.2 fun _ _ => rfl)
  · rfl

theorem read_typed (hmode : ld.mode = .canonical) (hc : Typed c) :
    ld.read c = (ld.insert c).map fun ld' => (ld', ld'.echoed [c]) := by
  rw [read, hmode]
  exact if_pos hc

/-- No entry of the table inserts anything. -/
theorem control_of (output : List (BitVec 8)) (action : LdAction) :
    ld.control (.of output action) = (ld.act action).map fun r =>
      (r.1, ld.echoed (output.takeWhile (· ≠ 0#8)) ++ r.2) := by
  have hinsert : [0#8, 0#8, 0#8, 0#8].foldlM insert ld = some ld := rfl
  rw [map_eq_bind, control, LdActionTableEntry.of, hinsert]
  rfl

theorem read_erases (hmode : ld.mode = .canonical) (hc : Erases c) :
    ∃ events, ld.read c = some (ld.deleteLast, events) ∧ flushes events = [] := by
  rw [read, hmode]
  rcases hc with rfl | rfl
  · exact ⟨_, control_of [8#8, 0x20#8, 8#8, 0#8] .erase, flushes_echoed _ []⟩
  · exact ⟨_, rfl, rfl⟩

theorem read_return (hmode : ld.mode = .canonical) :
    ld.read 13#8 = ld.flushLine.map fun r => (r.1, ld.echoed [13#8, 10#8] ++ r.2) := by
  have hflush : ld.forceFlush = ld.flushLine := if_pos hmode
  rw [read, hmode, ← hflush]
  exact control_of [13#8, 10#8, 0#8, 0#8] .cret

/-- A ring takes any character that is typed. -/
theorem RingHolds.isSome_read (hR : ld.RingHolds n h R) (hc : Typed c) : (ld.read c).isSome := by
  obtain ⟨ld', h', hinsert, -⟩ := hR.insert (hc.ne (by decide))
  rw [read_typed hR.mode hc, hinsert]
  rfl

/-- Nothing can be typed when the tail has left the buffer. -/
theorem read_of_tail_neg (hmode : ld.mode = .canonical) (htail : ld.tail < 0) (hc : Typed c) :
    ld.read c = none := by
  rw [read_typed hmode hc, insert, if_neg (hc.ne (by decide)), if_pos (.inl htail)]
  rfl

end LineDiscipline

/-! ### Runs -/

/-- A line discipline, with the line that has been edited since the last carriage return. -/
structure LineSession where
  ld : LineDiscipline
  line : List (BitVec 8)

namespace LineSession

open LineDiscipline

variable {s t : LineSession} {c : BitVec 8} {n : ℕ}
variable {R line : List (BitVec 8)}

/-- The characters that are read: text, erasures and carriage returns. -/
def Input (c : BitVec 8) : Prop := Typed c ∨ Erases c ∨ c = 13#8

/-- What a character does to the line. -/
def edit (line : List (BitVec 8)) (c : BitVec 8) : List (BitVec 8) :=
  if c = 13#8 then [] else if Erases c then line.dropLast else line ++ [c]

/-- The most recent characters of a line. -/
def latest (k : ℕ) (line : List (BitVec 8)) : List (BitVec 8) := line.drop (line.length - k)

/-- A carriage return delivers the most recent characters of the line, and nothing else delivers
anything. The character is read without an access outside the buffer, and so is the next one that is
typed. -/
def Right (s : LineSession) (c : BitVec 8) : Prop :=
  ∃ ld' events, s.ld.read c = some (ld', events) ∧
    flushes events = (if c = 13#8 then [latest (s.ld.size - 1).toNat s.line] else []) ∧
    ∀ d, Typed d → (ld'.read d).isSome

/-- No character is erased at the place where the ring closes, and a line that is delivered lies in
the buffer in one piece and is all there. -/
def Meets (s : LineSession) (c : BitVec 8) : Prop :=
  (Erases c → s.ld.tail ≠ 0 ∨ s.ld.tail = s.ld.head) ∧
    (c = 13#8 → (s.ld.head ≤ s.ld.tail ∨ s.ld.tail = 0) ∧
      s.ld.tail - s.ld.head + s.ld.size < 2 ^ 31 ∧
      s.ld.held = min (s.line.length : ℤ) (s.ld.size - 1))

/-- A character that meets the condition is read. -/
def Step (s t : LineSession) : Prop :=
  ∃ c events, Input c ∧ s.Meets c ∧ s.ld.read c = some (t.ld, events) ∧ t.line = edit s.line c

/-- The ring holds the end of the line. -/
def Holds (s : LineSession) (n : ℕ) : Prop := ∃ h R, s.ld.RingHolds n h R ∧ R <:+ s.line

theorem edit_of_typed (hc : Typed c) (line : List (BitVec 8)) : edit line c = line ++ [c] := by
  rw [edit, if_neg (hc.ne (by decide)), if_neg fun herase => not_typed_of_erases herase hc]

theorem edit_of_erases (hc : Erases c) (line : List (BitVec 8)) : edit line c = line.dropLast := by
  rw [edit, if_neg (by rintro rfl; exact absurd hc (by decide)), if_pos hc]

/-- The end of a line is its most recent characters if it has the right number of them. -/
theorem eq_latest_iff (h : R <:+ line) (k : ℕ) :
    R = latest k line ↔ R.length = min line.length k := by
  constructor
  · intro heq
    rw [heq, latest, length_drop]
    omega
  · intro hlen
    rw [suffix_iff_eq_drop.1 h, latest, hlen]
    congr 1
    omega

/-- A suffix stays one when a character is put behind both lists and the first ones are dropped. -/
theorem suffix_concat (h : R <:+ line) (k : ℕ) : (R ++ [c]).drop k <:+ line ++ [c] := by
  obtain ⟨l, rfl⟩ := h
  refine (drop_suffix k (R ++ [c])).trans ⟨l, ?_⟩
  rw [append_assoc]

theorem suffix_dropLast (h : R <:+ line) : R.dropLast <:+ line.dropLast := by
  obtain ⟨l, rfl⟩ := h
  rcases eq_nil_or_concat' R with rfl | ⟨Q, x, rfl⟩
  · exact nil_suffix
  · rw [← append_assoc, dropLast_concat, dropLast_concat]
    exact suffix_append l Q

section

variable (hs : s.Holds n)

include hs

/-- A typed character is always read right. -/
theorem Holds.typed (hc : Typed c) :
    ∃ ld' events, s.ld.read c = some (ld', events) ∧ flushes events = [] ∧
      Holds ⟨ld', edit s.line c⟩ n := by
  obtain ⟨h, R, hR, hsuffix⟩ := hs
  obtain ⟨ld', h', hinsert, hnew⟩ := hR.insert (hc.ne (by decide))
  refine ⟨ld', ld'.echoed [c], ?_, ?_, h', _, hnew, ?_⟩
  · rw [read_typed hR.mode hc, hinsert]
    rfl
  · rw [← append_nil (ld'.echoed [c]), flushes_echoed]
    rfl
  · rw [edit_of_typed hc]
    exact suffix_concat hsuffix _

/-- An erasure keeps the end of the line in the ring unless it takes the tail out of the buffer. -/
theorem Holds.erases (hc : Erases c) (htail : s.ld.tail ≠ 0 ∨ s.ld.tail = s.ld.head) :
    Holds ⟨s.ld.deleteLast, edit s.line c⟩ n := by
  obtain ⟨h, R, hR, hsuffix⟩ := hs
  refine ⟨h, _, hR.deleteLast htail, ?_⟩
  rw [edit_of_erases hc]
  exact suffix_dropLast hsuffix

theorem Holds.isSome_read {d : BitVec 8} (hd : Typed d) : (s.ld.read d).isSome := by
  obtain ⟨h, R, hR, -⟩ := hs
  exact hR.isSome_read hd

theorem Holds.erases_right_iff (hc : Erases c) :
    s.Right c ↔ (s.ld.tail ≠ 0 ∨ s.ld.tail = s.ld.head) := by
  have hmode : s.ld.mode = .canonical := hs.choose_spec.choose_spec.1.mode
  obtain ⟨events, hread, hflush⟩ := read_erases hmode hc
  have hreturn : c ≠ 13#8 := by
    rintro rfl
    exact absurd hc (by decide)
  rw [Right, if_neg hreturn]
  constructor
  · rintro ⟨ld', events', hread', -, hnext⟩
    cases hread.symm.trans hread'
    by_contra hbad
    obtain ⟨hzero, hne⟩ := not_or.1 hbad
    obtain ⟨h, R, hR, -⟩ := hs
    have htail := hR.tail_deleteLast (not_not.1 hzero) hne
    have hmode' : s.ld.deleteLast.mode = .canonical := by
      rw [deleteLast, if_neg hne]
      exact hmode
    have hnone := read_of_tail_neg (c := 0x61#8) hmode' (by omega) (by decide)
    exact absurd (hnext 0x61#8 (by decide)) (by simp [hnone])
  · intro htail
    exact ⟨_, events, hread, hflush, fun d hd => (hs.erases hc htail).isSome_read hd⟩

theorem Holds.return_right_iff : s.Right 13#8 ↔ s.Meets 13#8 := by
  obtain ⟨h, R, hR, hsuffix⟩ := hs
  have hsize := hR.size
  have hlt := hR.length_lt
  have hline : R = latest (s.ld.size - 1).toNat s.line ↔
      s.ld.held = min (s.line.length : ℤ) (s.ld.size - 1) := by
    rw [eq_latest_iff hsuffix, hR.held_eq]
    omega
  have hfit : h + R.length ≤ n ↔ s.ld.head ≤ s.ld.tail ∨ s.ld.tail = 0 := by
    rcases Nat.eq_zero_or_pos R.length with hzero | hpos
    · have hhead := hR.head_lt
      have heq := hR.tail_eq_head_iff.2 (length_eq_zero_iff.1 hzero)
      omega
    · exact hR.contiguous_iff hpos
  have hmeets : s.Meets 13#8 ↔ h + R.length ≤ n ∧ s.ld.tail - s.ld.head + s.ld.size < 2 ^ 31 ∧
      R = latest (s.ld.size - 1).toNat s.line := by
    rw [hfit, hline, Meets]
    exact (and_iff_right fun hc => absurd hc (by decide)).trans (forall_prop_of_true rfl)
  rw [hmeets, Right, read_return hR.mode, if_pos rfl]
  constructor
  · rintro ⟨ld', events, hread, hflush, -⟩
    obtain ⟨r, hr, heq⟩ := map_eq_some_iff.1 hread
    have hint : s.ld.tail - s.ld.head + s.ld.size < 2 ^ 31 := by
      by_contra hover
      rw [flushLine, if_pos (Int.not_lt.1 hover)] at hr
      exact absurd hr.symm (some_ne_none _)
    have hin : h + R.length ≤ n := by
      by_contra hout
      rw [hR.flushLine_of_lt (Nat.not_le.1 hout)] at hr
      exact absurd hr.symm (some_ne_none _)
    rw [hR.flushLine hint hin] at hr
    cases hr
    cases heq
    rw [flushes_echoed] at hflush
    exact ⟨hin, hint, head_eq_of_cons_eq hflush⟩
  · rintro ⟨hin, hint, heq⟩
    rw [hR.flushLine hint hin]
    refine ⟨_, _, rfl, ?_, fun d hd => hR.flushed.isSome_read hd⟩
    rw [flushes_echoed, ← heq]
    rfl

/-- While the ring holds the end of the line, a character is read right exactly when it meets the
condition. -/
theorem Holds.right_iff (hc : Input c) : s.Right c ↔ s.Meets c := by
  rcases hc with hc | hc | rfl
  · have hne : c ≠ 13#8 := hc.ne (by decide)
    obtain ⟨ld', events, hread, hflush, hnew⟩ := hs.typed hc
    refine iff_of_true ⟨ld', events, hread, ?_, fun d hd => hnew.isSome_read hd⟩
      ⟨fun herase => absurd hc (not_typed_of_erases herase), fun heq => absurd heq hne⟩
    rw [if_neg hne, hflush]
  · rw [hs.erases_right_iff hc, Meets, and_iff_left, forall_prop_of_true hc]
    rintro rfl
    exact absurd hc (by decide)
  · exact hs.return_right_iff

/-- What a character that meets the condition leaves in the ring. -/
theorem Holds.step (hstep : Step s t) : t.Holds n := by
  obtain ⟨c, events, hc, hmeets, hread, hline⟩ := hstep
  obtain ⟨ld, line⟩ := t
  cases hline
  rcases hc with hc | hc | rfl
  · obtain ⟨ld', events', hread', -, hnew⟩ := hs.typed hc
    cases hread.symm.trans hread'
    exact hnew
  · obtain ⟨events', hread', -⟩ := read_erases hs.choose_spec.choose_spec.1.mode hc
    cases hread.symm.trans hread'
    exact hs.erases hc (hmeets.1 hc)
  · obtain ⟨h, R, hR, -⟩ := hs
    rw [read_return hR.mode] at hread
    obtain ⟨r, hr, heq⟩ := map_eq_some_iff.1 hread
    rw [flushLine] at hr
    split_ifs at hr
    cases hr
    cases heq
    exact ⟨_, [], hR.flushed, nil_suffix⟩

end

/-- **Edited lines** in every run whose characters meet the condition: in a state of such a run a
carriage return delivers the most recent characters of the edited line exactly when it meets the
condition, and an erasure leaves the buffer fit for the next character exactly when it does. -/
theorem lines_run {size : ℤ} (hsize : 2 ≤ size) {echo : Bool} {buffer : ℕ → BitVec 8}
    (hrun : ReflTransGen Step ⟨create .canonical echo size buffer, []⟩ s) (hc : Input c) :
    s.Right c ↔ s.Meets c := by
  obtain ⟨n, rfl⟩ := Int.eq_ofNat_of_zero_le (show 0 ≤ size by omega)
  have hs : s.Holds n := by
    induction hrun with
    | refl =>
      refine ⟨0, [], ⟨rfl, rfl, rfl, by omega, ?_, ?_, rfl⟩, nil_suffix⟩
      · rw [length_nil]
        omega
      · rfl
    | tail _ hstep ih => exact ih.step hstep
  exact hs.right_iff hc

/-- A line discipline with a buffer of three characters. -/
def three : LineSession := ⟨create .canonical false 3 fun _ => 0#8, []⟩

/-- A character that meets the condition is read, in a run. -/
theorem reads {ld' : LineDiscipline} {events : List LdEvent}
    (hrun : ReflTransGen Step three s) (hc : Input c) (hmeets : s.Meets c)
    (hread : s.ld.read c = some (ld', events)) :
    ReflTransGen Step three ⟨ld', edit s.line c⟩ :=
  hrun.tail ⟨c, events, hc, hmeets, hread, rfl⟩

/-- Two characters fit, and are delivered. -/
theorem lines_three : ∃ s, ReflTransGen Step three s ∧ s.line = [0x61#8, 0x62#8] ∧
    s.Right 13#8 := by
  have ha := reads .refl (c := 0x61#8) (.inl (by decide)) ⟨by decide, by decide⟩ rfl
  have hb := reads ha (c := 0x62#8) (.inl (by decide)) ⟨by decide, by decide⟩ rfl
  exact ⟨_, hb, rfl, (lines_run (by decide) hb (.inr (.inr rfl))).2 ⟨by decide, by decide⟩⟩

/-- The second line of two characters starts in the last cell, and `flush_cb` is made to read behind
the buffer. -/
theorem lines_three_wrap : ∃ s, ReflTransGen Step three s ∧ s.line = [0x63#8, 0x64#8] ∧
    s.ld.read 13#8 = none ∧ ¬ s.Right 13#8 := by
  have ha := reads .refl (c := 0x61#8) (.inl (by decide)) ⟨by decide, by decide⟩ rfl
  have hb := reads ha (c := 0x62#8) (.inl (by decide)) ⟨by decide, by decide⟩ rfl
  have hreturn := reads hb (c := 13#8) (.inr (.inr rfl)) ⟨by decide, by decide⟩ rfl
  have hc := reads hreturn (c := 0x63#8) (.inl (by decide)) ⟨by decide, by decide⟩ rfl
  have hd := reads hc (c := 0x64#8) (.inl (by decide)) ⟨by decide, by decide⟩ rfl
  refine ⟨_, hd, rfl, rfl, ?_⟩
  rintro ⟨ld', events, hread, -⟩
  cases hread

end LineSession

end Bloodmoon
