import Mathlib

/-!
# Bits packed in bytes

A byte array `Bytes` is read as an array of bits, eight to a byte, least significant first.
`BitArray.get`, `set` and `clear` are the shift-and-mask expressions of C; `BitArray.test` is
the bit as a Boolean, and every proof goes through it: `test_set` and `test_clear` say that an
operation on one index changes that bit and no other.
-/

namespace Machine

/-- A byte array, as the function that reads it. -/
abbrev Bytes := ℕ → BitVec 8

/-- `memset` of the `n` bytes at the start of the array. -/
def Bytes.fill (b : Bytes) (v : BitVec 8) (n : ℕ) : Bytes := fun i => if i < n then v else b i

namespace BitArray

/-- The bit at index `x`, as a byte. -/
def get (b : Bytes) (x : ℕ) : BitVec 8 := (b (x >>> 3) &&& (1#8 <<< (x % 8))) >>> (x % 8)

/-- Turn the bit at index `x` on. -/
def set (b : Bytes) (x : ℕ) : Bytes :=
  Function.update b (x >>> 3) (b (x >>> 3) ||| (1#8 <<< (x % 8)))

/-- Turn the bit at index `x` off. -/
def clear (b : Bytes) (x : ℕ) : Bytes :=
  Function.update b (x >>> 3) (b (x >>> 3) &&& ~~~(1#8 <<< (x % 8)))

/-- The bit at index `x`, as a Boolean. -/
def test (b : Bytes) (x : ℕ) : Bool := (b (x / 8)).getLsbD (x % 8)

private theorem getLsbD_one_shiftLeft {i k : ℕ} (hi : i < 8) (hk : k < 8) :
    (1#8 <<< k).getLsbD i = decide (i = k) := by
  have h : ∀ i k : Fin 8, (1#8 <<< k.val).getLsbD i.val = decide (i.val = k.val) := by
    decide
  exact h ⟨i, hi⟩ ⟨k, hk⟩

theorem get_eq (b : Bytes) (x : ℕ) : get b x = if test b x then 1#8 else 0#8 := by
  have h : ∀ (v : BitVec 8) (k : Fin 8),
      (v &&& (1#8 <<< k.val)) >>> k.val = if v.getLsbD k.val then 1#8 else 0#8 := by
    decide
  rw [get, test, Nat.shiftRight_eq_div_pow]
  exact h (b (x / 8)) ⟨x % 8, Nat.mod_lt _ (by decide)⟩

@[simp]
theorem get_eq_one_iff {b : Bytes} {x : ℕ} : get b x = 1#8 ↔ test b x = true := by
  rw [get_eq]
  cases test b x <;> simp

@[simp]
theorem get_eq_zero_iff {b : Bytes} {x : ℕ} : get b x = 0#8 ↔ test b x = false := by
  rw [get_eq]
  cases test b x <;> simp

/-- Within one byte, two indices name the same bit only when they are equal. -/
private theorem mod_eq_iff_of_div_eq {x y : ℕ} (h : y / 8 = x / 8) : y % 8 = x % 8 ↔ y = x := by
  omega

theorem test_set (b : Bytes) (x y : ℕ) : test (set b x) y = (decide (y = x) || test b y) := by
  rw [test, set, Nat.shiftRight_eq_div_pow]
  by_cases hbyte : y / 8 = x / 8
  · have hone := getLsbD_one_shiftLeft (Nat.mod_lt y (by decide)) (Nat.mod_lt x (by decide))
    rw [show x / 2 ^ 3 = y / 8 from hbyte.symm, Function.update_self, BitVec.getLsbD_or, hone,
      Bool.or_comm, ← test]
    simp only [mod_eq_iff_of_div_eq hbyte]
  · rw [Function.update_of_ne hbyte, ← test]
    have hne : y ≠ x := fun h => hbyte (by rw [h])
    simp [hne]

theorem test_clear (b : Bytes) (x y : ℕ) : test (clear b x) y = (!decide (y = x) && test b y) := by
  rw [test, clear, Nat.shiftRight_eq_div_pow]
  by_cases hbyte : y / 8 = x / 8
  · have hone := getLsbD_one_shiftLeft (Nat.mod_lt y (by decide)) (Nat.mod_lt x (by decide))
    rw [show x / 2 ^ 3 = y / 8 from hbyte.symm, Function.update_self, BitVec.getLsbD_and,
      BitVec.getLsbD_not, hone, Bool.and_comm, ← test]
    simp [mod_eq_iff_of_div_eq hbyte, Nat.mod_lt]
  · rw [Function.update_of_ne hbyte, ← test]
    have hne : y ≠ x := fun h => hbyte (by rw [h])
    simp [hne]

end BitArray

end Machine
