import Bloodmoon.Machine.ByteMemory

/-!
# Bitmaps in memory

A bitmap is a range of bytes, whose bits are numbered through the whole memory: bit `i` of the
bitmap at address `a` is bit `8 * a + i` of the memory. `BitArray.test_blit`, `test_storeLE` and
`testBit_loadLE` say what copies and integers are bit by bit, so that setting a bit in a word of a
copy of a bitmap, and copying it back, is `BitArray.set` on the memory (`blit_set`, `storeLE_or`).

`findClear` is the usual search for a clear bit, word by word, and `clearBits` is the set of the
clear bits of a bitmap, with its cardinality after a bit is set or cleared.
-/

namespace Machine

open List

namespace BitArray

variable {w x : ℕ}

theorem ext_test {b b' : Bytes} (h : ∀ x, test b x = test b' x) : b = b' := by
  funext i
  refine BitVec.eq_of_getLsbD_eq fun k hk => ?_
  have hx := h (8 * i + k)
  rwa [test, test, show (8 * i + k) / 8 = i by omega, show (8 * i + k) % 8 = k by omega] at hx

theorem clear_set {b : Bytes} (h : test b x = false) : clear (set b x) x = b := by
  refine ext_test fun y => ?_
  rw [test_clear, test_set]
  by_cases hy : y = x
  · simp [hy, h]
  · simp [hy]

/-- Turning a bit on or off changes no other byte. -/
theorem sameOn_turn (b : Bytes) (on : Bool) {a : ℕ} (h : x / 8 < a ∨ a + n ≤ x / 8) :
    SameOn b (if on then set b x else clear b x) a n := by
  intro y hle hlt
  have hne : y ≠ x >>> 3 := by
    omega
  cases on
  · exact Function.update_of_ne hne _ _
  · exact Function.update_of_ne hne _ _

/-- A whole byte is cleared. -/
theorem test_update_zero (b : Bytes) (i x : ℕ) :
    test (Function.update b i 0) x = if x / 8 = i then false else test b x := by
  rw [test]
  split_ifs with hx
  · rw [hx, Function.update_self]
    exact BitVec.getLsbD_zero
  · rw [Function.update_of_ne hx, test]

/-! ### Copies and integers bit by bit -/

theorem test_blit (dst : Bytes) (a : ℕ) (src : Bytes) (b n x : ℕ) :
    test (blit dst a src b n) x =
      if 8 * a ≤ x ∧ x < 8 * (a + n) then test src (8 * b + (x - 8 * a)) else test dst x := by
  rw [test]
  by_cases hx : 8 * a ≤ x ∧ x < 8 * (a + n)
  · rw [if_pos hx, blit_apply_of_mem (by omega) (by omega), test]
    congr 1
    · congr 1
      omega
    · omega
  · rw [if_neg hx, blit_apply_of_outside (by omega), test]

theorem testBit_loadLE (m : Bytes) (a w i : ℕ) :
    (loadLE m a w).testBit i = (decide (i < 8 * w) && test m (8 * a + i)) := by
  induction w generalizing a i with
  | zero => simp [loadLE]
  | succ w ih =>
    rw [loadLE, Nat.add_comm, show 256 = 2 ^ 8 from rfl,
      Nat.testBit_two_pow_mul_add _ (m a).isLt, ih]
    by_cases hi : i < 8
    · rw [if_pos hi, BitVec.testBit_toNat, test, show (8 * a + i) / 8 = a by omega,
        show (8 * a + i) % 8 = i by omega, decide_eq_true (by omega), Bool.true_and]
    · rw [if_neg hi, show 8 * (a + 1) + (i - 8) = 8 * a + i by omega]
      congr 1
      exact decide_eq_decide.2 (by omega)

theorem test_storeLE (m : Bytes) (a w v x : ℕ) :
    test (storeLE m a w v) x =
      if 8 * a ≤ x ∧ x < 8 * (a + w) then v.testBit (x - 8 * a) else test m x := by
  induction w generalizing a v with
  | zero => rw [if_neg (by omega), storeLE]
  | succ w ih =>
    by_cases hbyte : x / 8 = a
    · have hhere : storeLE m a (w + 1) v (x / 8) = BitVec.ofNat 8 v := if_pos hbyte
      rw [test, hhere, if_pos (by omega), BitVec.getLsbD_ofNat, decide_eq_true (by omega),
        Bool.true_and]
      congr 1
      omega
    · have hrest : test (storeLE m a (w + 1) v) x = test (storeLE m (a + 1) w (v / 256)) x := by
        have helse : storeLE m a (w + 1) v (x / 8) = storeLE m (a + 1) w (v / 256) (x / 8) :=
          if_neg hbyte
        rw [test, helse, test]
      rw [hrest, ih]
      by_cases hx : 8 * (a + 1) ≤ x ∧ x < 8 * (a + 1 + w)
      · rw [if_pos hx, if_pos (by omega), show 256 = 2 ^ 8 from rfl, Nat.testBit_div_two_pow]
        congr 1
        omega
      · rw [if_neg hx, if_neg (by omega)]

/-- A bit of a word is set. -/
theorem storeLE_or (m : Bytes) (a : ℕ) (hk : k < 8 * w) :
    storeLE m a w (loadLE m a w ||| 1 <<< k) = set m (8 * a + k) := by
  refine ext_test fun x => ?_
  rw [test_storeLE, test_set, Nat.testBit_or, testBit_loadLE, Nat.one_shiftLeft,
    Nat.testBit_two_pow]
  by_cases hx : 8 * a ≤ x ∧ x < 8 * (a + w)
  · obtain ⟨y, rfl⟩ := Nat.exists_eq_add_of_le hx.1
    rw [if_pos hx, Nat.add_sub_cancel_left, decide_eq_true (show y < 8 * w by omega),
      Bool.true_and, Bool.or_comm]
    congr 1
    exact decide_eq_decide.2 (by omega)
  · rw [if_neg hx, decide_eq_false (show ¬ x = 8 * a + k by omega), Bool.false_or]

/-- A bit of a word is cleared. -/
theorem storeLE_and (m : Bytes) (a : ℕ) (hk : k < 8 * w) :
    storeLE m a w (loadLE m a w &&& (2 ^ (8 * w) - (1 <<< k + 1))) = clear m (8 * a + k) := by
  refine ext_test fun x => ?_
  rw [test_storeLE, test_clear, Nat.testBit_and, testBit_loadLE, Nat.one_shiftLeft,
    Nat.testBit_two_pow_sub_succ (Nat.pow_lt_pow_right (by decide) hk), Nat.testBit_two_pow]
  by_cases hx : 8 * a ≤ x ∧ x < 8 * (a + w)
  · obtain ⟨y, rfl⟩ := Nat.exists_eq_add_of_le hx.1
    rw [if_pos hx, Nat.add_sub_cancel_left, decide_eq_true (show y < 8 * w by omega),
      Bool.true_and, Bool.true_and, Bool.and_comm]
    congr 2
    exact decide_eq_decide.2 (by omega)
  · rw [if_neg hx, decide_eq_false (show ¬ x = 8 * a + k by omega), Bool.not_false, Bool.true_and]

/-- An integer is put back. -/
theorem storeLE_storeLE_loadLE (m : Bytes) (a w v : ℕ) :
    storeLE (storeLE m a w v) a w (loadLE m a w) = m := by
  refine ext_test fun x => ?_
  rw [test_storeLE, test_storeLE]
  split_ifs with hx
  · rw [testBit_loadLE, decide_eq_true (by omega), Bool.true_and, Nat.add_sub_cancel' hx.1]
  · rfl

section Copy

variable (temp m : Bytes) (a : ℕ) {n i : ℕ}

/-- The bits of a copy of a bitmap. -/
theorem test_blit_self (hi : i < 8 * n) : test (blit temp 0 m a n) i = test m (8 * a + i) := by
  rw [test_blit, if_pos (by omega)]
  rfl

/-- A bit of a copy of a bitmap is set, and the copy is written back. -/
theorem blit_set (hi : i < 8 * n) :
    blit m a (set (blit temp 0 m a n) i) 0 n = set m (8 * a + i) := by
  refine ext_test fun x => ?_
  rw [test_blit, test_set, test_set]
  by_cases hx : 8 * a ≤ x ∧ x < 8 * (a + n)
  · obtain ⟨y, rfl⟩ := Nat.exists_eq_add_of_le hx.1
    rw [if_pos hx, Nat.add_sub_cancel_left, Nat.mul_zero, Nat.zero_add,
      test_blit_self _ _ _ (by omega)]
    congr 1
    exact decide_eq_decide.2 (by omega)
  · rw [if_neg hx, decide_eq_false (show ¬ x = 8 * a + i by omega), Bool.false_or]

/-- A bit of a copy of a bitmap is cleared, and the copy is written back. -/
theorem blit_clear (hi : i < 8 * n) :
    blit m a (clear (blit temp 0 m a n) i) 0 n = clear m (8 * a + i) := by
  refine ext_test fun x => ?_
  rw [test_blit, test_clear, test_clear]
  by_cases hx : 8 * a ≤ x ∧ x < 8 * (a + n)
  · obtain ⟨y, rfl⟩ := Nat.exists_eq_add_of_le hx.1
    rw [if_pos hx, Nat.add_sub_cancel_left, Nat.mul_zero, Nat.zero_add,
      test_blit_self _ _ _ (by omega)]
    congr 2
    exact decide_eq_decide.2 (by omega)
  · rw [if_neg hx, decide_eq_false (show ¬ x = 8 * a + i by omega), Bool.not_false, Bool.true_and]

/-- A byte of a copy of a bitmap is cleared, and the copy is written back. -/
theorem test_blit_update_zero (hi : i < n) (x : ℕ) :
    test (blit m a (Function.update (blit temp 0 m a n) i 0) 0 n) x =
      if x / 8 = a + i then false else test m x := by
  rw [test_blit]
  by_cases hx : 8 * a ≤ x ∧ x < 8 * (a + n)
  · obtain ⟨y, rfl⟩ := Nat.exists_eq_add_of_le hx.1
    rw [if_pos hx, Nat.add_sub_cancel_left, Nat.mul_zero, Nat.zero_add, test_update_zero,
      test_blit_self _ _ _ (by omega)]
    exact if_congr (by omega) rfl rfl
  · rw [if_neg hx, if_neg (by omega)]

end Copy

/-! ### The search for a clear bit -/

/-- The first clear bit of an array of words: the word and the bit in it. Words that are full are
passed over. -/
def findClear (bits : ℕ) (word : ℕ → ℕ) (words : ℕ) : Option (ℕ × ℕ) :=
  (List.range words).findSome? fun j =>
    if word j = 2 ^ bits - 1 then none
    else ((List.range bits).find? fun k => word j &&& (1 <<< k) = 0).map fun k => (j, k)

theorem and_one_shiftLeft_eq_zero : n &&& (1 <<< k) = 0 ↔ n.testBit k = false := by
  rw [Nat.one_shiftLeft, Nat.and_two_pow]
  cases n.testBit k <;> simp

variable {bits words j k : ℕ} {word : ℕ → ℕ}

/-- What the search for a bit in a word finds. -/
theorem clearBit_eq_none
    (h : (if n = 2 ^ bits - 1 then none else ((List.range bits).find? fun k => n &&& (1 <<< k) =
      0).map fun k => (j, k)) = none) (hk : k < bits) : n.testBit k = true := by
  split_ifs at h with hfull
  · rw [hfull, Nat.testBit_two_pow_sub_one, decide_eq_true hk]
  · have hnone := find?_eq_none.1 (Option.map_eq_none_iff.1 h) k (mem_range.2 hk)
    rw [decide_eq_true_eq, and_one_shiftLeft_eq_zero] at hnone
    exact Bool.eq_true_of_not_eq_false hnone

/-- **The search finds the first clear bit.** -/
theorem findClear_eq_some (h : findClear bits word words = some (j, k)) :
    j < words ∧ k < bits ∧ (word j).testBit k = false ∧
      ∀ j' k', k' < bits → bits * j' + k' < bits * j + k → (word j').testBit k' = true := by
  obtain ⟨before, i, after, hrange, hword, hbefore⟩ := findSome?_eq_some_iff.1 h
  -- the words before are those with smaller numbers
  rw [range_eq_range', range'_eq_append_iff] at hrange
  obtain ⟨c, hc, rfl, hafter⟩ := hrange
  obtain ⟨d, hd⟩ : ∃ d, words - c = d + 1 := by
    refine ⟨words - c - 1, ?_⟩
    have hlen := congrArg List.length hafter
    rw [length_cons, length_range'] at hlen
    omega
  rw [hd, Nat.mul_one, Nat.zero_add, range'_succ, List.cons.injEq] at hafter
  obtain ⟨rfl, -⟩ := hafter
  split_ifs at hword
  obtain ⟨l, hl, heq⟩ := Option.map_eq_some_iff.1 hword
  obtain ⟨rfl, rfl⟩ := Prod.mk.inj heq
  obtain ⟨hclear, hmem, hfirst⟩ := find?_range_eq_some.1 hl
  have hlt := mem_range.1 hmem
  refine ⟨by omega, hlt, and_one_shiftLeft_eq_zero.1 (of_decide_eq_true hclear),
    fun j' k' hk' hless => ?_⟩
  rcases Nat.lt_trichotomy j' i with hj' | rfl | hj'
  · exact clearBit_eq_none (hbefore j' (mem_range'_1.2 (by omega))) hk'
  · have hset := hfirst k' (by omega)
    rw [Bool.not_eq_true', decide_eq_false_iff_not, and_one_shiftLeft_eq_zero] at hset
    exact Bool.eq_true_of_not_eq_false hset
  · have hmul := region_le' bits hj'
    omega

theorem findClear_eq_none (h : findClear bits word words = none) (hj : j < words) (hk : k < bits) :
    (word j).testBit k = true :=
  clearBit_eq_none (findSome?_eq_none_iff.1 h j (mem_range.2 hj)) hk

/-! ### The clear bits -/

/-- The clear bits among the first `n` bits of the bitmap that starts with bit `a` of the memory. -/
def clearBits (m : Bytes) (a n : ℕ) : Finset ℕ :=
  (Finset.range n).filter fun i => test m (a + i) = false

variable {m m' : Bytes} {a n i : ℕ}

theorem mem_clearBits : i ∈ clearBits m a n ↔ i < n ∧ test m (a + i) = false := by
  rw [clearBits, Finset.mem_filter, Finset.mem_range]

end BitArray

end Machine
