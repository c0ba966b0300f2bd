import Mathlib

/-!
# Rings

An array of `n` cells that is used as a ring holds a list: `ringList b n h r` are the `r` entries
from the cell `h` on, where the cell after the last is the first. The lemmas say what happens to the
list when an entry is written behind it, when the first entry is given up and when the last one is;
and that a list that does not reach the end of the array is there in one piece.

`RingHolds` is a ring with the indices of its first entry and of the cell behind its last one. One
cell is always free, so that equal indices mean that the ring is empty.
-/

namespace Machine

open List

variable {α : Type*} {b : ℕ → α} {n h r : ℕ} {x : α}

/-- The `r` entries from the cell `h` on. -/
def ringList (b : ℕ → α) (n h r : ℕ) : List α := (List.range r).map fun i => b ((h + i) % n)

theorem ringList_succ : ringList b n h (r + 1) = ringList b n h r ++ [b ((h + r) % n)] := by
  simp [ringList, range_succ]

/-- The list without its last entry. -/
theorem dropLast_ringList : (ringList b n h (r + 1)).dropLast = ringList b n h r := by
  rw [ringList_succ, dropLast_concat]

/-- The entries behind the first one start one cell later. -/
theorem ringList_cons : ringList b n h (r + 1) = b (h % n) :: ringList b n ((h + 1) % n) r := by
  rw [ringList, range_succ_eq_map, map_cons, map_map, ringList]
  refine congrArg (b (h % n) :: ·) (map_congr_left fun i _ => ?_)
  rw [Function.comp_apply, Nat.mod_add_mod, Nat.add_right_comm, Nat.add_assoc]

/-- The cells of the list are different from the one behind it. -/
theorem add_mod_ne {i : ℕ} (hr : r < n) (hi : i < r) : (h + i) % n ≠ (h + r) % n := by
  intro heq
  have hmod : i ≡ r [MOD n] := Nat.ModEq.add_left_cancel' h heq
  rw [Nat.ModEq, Nat.mod_eq_of_lt (by omega), Nat.mod_eq_of_lt hr] at hmod
  omega

/-- An entry that is written behind the list becomes its last. -/
theorem ringList_update (hr : r < n) :
    ringList (Function.update b ((h + r) % n) x) n h (r + 1) = ringList b n h r ++ [x] := by
  rw [ringList_succ, Function.update_self]
  refine congrArg (· ++ [x]) (map_congr_left fun i hi => ?_)
  exact Function.update_of_ne (add_mod_ne hr (mem_range.1 hi)) _ _

/-- A list that does not reach the end of the array is there in one piece. -/
theorem ringList_eq (hr : h + r ≤ n) :
    ringList b n h r = (List.range r).map fun i => b (h + i) := by
  refine map_congr_left fun i hi => ?_
  have := mem_range.1 hi
  rw [Nat.mod_eq_of_lt (by omega)]

/-- The cells from `head` on, up to `tail`, hold the list. -/
structure RingHolds (b : ℕ → α) (n head tail : ℕ) (l : List α) : Prop where
  head_lt : head < n
  length_lt : l.length < n
  tail_eq : tail = (head + l.length) % n
  list_eq : ringList b n head l.length = l

theorem succ_mod {i : ℕ} (hi : i < n) : (i + 1) % n = if n ≤ i + 1 then 0 else i + 1 := by
  split_ifs with hle
  · rw [show i + 1 = n by omega, Nat.mod_self]
  · exact Nat.mod_eq_of_lt (by omega)

namespace RingHolds

variable {head tail : ℕ} {l : List α}

theorem nil (b : ℕ → α) (hn : head < n) : RingHolds b n head head [] :=
  ⟨hn, Nat.zero_lt_of_lt hn, (Nat.mod_eq_of_lt hn).symm, rfl⟩

/-- The first entry is given up. -/
theorem pop (hl : RingHolds b n head tail (x :: l)) :
    b head = x ∧ RingHolds b n ((head + 1) % n) tail l := by
  obtain ⟨hhead, hlen, htail, hlist⟩ := hl
  rw [length_cons, ringList_cons, Nat.mod_eq_of_lt hhead] at hlist
  obtain ⟨hx, hrest⟩ := List.cons.inj hlist
  refine ⟨hx, Nat.mod_lt _ (Nat.zero_lt_of_lt hhead), Nat.lt_of_succ_lt hlen, ?_, hrest⟩
  rw [htail, Nat.mod_add_mod, length_cons, Nat.add_assoc, Nat.add_comm 1]

variable (hl : RingHolds b n head tail l)

include hl

/-- The tail is behind the last entry, or the ring closes between the head and the tail. -/
theorem tail_cases : head + l.length < n ∧ tail = head + l.length ∨
    n ≤ head + l.length ∧ tail + n = head + l.length := by
  obtain ⟨hhead, hlen, htail, -⟩ := hl
  rcases Nat.lt_or_ge (head + l.length) n with hin | hout
  · exact .inl ⟨hin, htail.trans (Nat.mod_eq_of_lt hin)⟩
  · rw [Nat.mod_eq_sub_mod hout, Nat.mod_eq_of_lt (by omega)] at htail
    exact .inr ⟨hout, by omega⟩

theorem tail_lt : tail < n := by
  rw [hl.tail_eq]
  exact Nat.mod_lt _ (Nat.zero_lt_of_lt hl.head_lt)

/-- The indices are equal when the ring is empty. -/
theorem head_eq_tail_iff : head = tail ↔ l = [] := by
  have hlen := hl.length_lt
  have hhead := hl.head_lt
  rw [← length_eq_zero_iff]
  rcases hl.tail_cases with htail | htail
  · omega
  · omega

/-- The tail is one cell before the head when the ring is full. -/
theorem head_eq_succ_iff : head = (tail + 1) % n ↔ l.length + 1 = n := by
  have hlen := hl.length_lt
  have hhead := hl.head_lt
  rw [succ_mod hl.tail_lt]
  rcases hl.tail_cases with htail | htail
  · split_ifs <;> omega
  · split_ifs <;> omega

/-- An entry is written behind the last one. -/
theorem push (hroom : l.length + 1 < n) (x : α) :
    RingHolds (Function.update b tail x) n head ((tail + 1) % n) (l ++ [x]) := by
  have hlength : (l ++ [x]).length = l.length + 1 := by simp
  refine ⟨hl.head_lt, by rwa [hlength], ?_, ?_⟩
  · rw [hl.tail_eq, Nat.mod_add_mod, hlength, Nat.add_assoc]
  · rw [hlength, hl.tail_eq, ringList_update hl.length_lt, hl.list_eq]

end RingHolds

end Machine
