import Mathlib

/-!
# Sixty-four bit arithmetic on naturals

Addresses, sizes and counters are natural numbers below `2 ^ 64`; an operation that can leave
that range is written with `wrap` (addition, multiplication, shifts) or `wsub` (subtraction).
The lemmas say when the machine operation is the mathematical one.
-/

namespace Machine

variable {a b : ℕ}

/-- The value an unsigned 64-bit register keeps of `n`. -/
def wrap (n : ℕ) : ℕ := n % 2 ^ 64

/-- Subtraction of unsigned 64-bit values. -/
def wsub (a b : ℕ) : ℕ := (a + (2 ^ 64 - b % 2 ^ 64)) % 2 ^ 64

theorem wrap_lt (n : ℕ) : wrap n < 2 ^ 64 := Nat.mod_lt _ (by decide)

theorem wrap_of_lt {n : ℕ} (h : n < 2 ^ 64) : wrap n = n := Nat.mod_eq_of_lt h

theorem wsub_lt (a b : ℕ) : wsub a b < 2 ^ 64 := Nat.mod_lt _ (by decide)

theorem wsub_of_le (h : b ≤ a) (ha : a < 2 ^ 64) : wsub a b = a - b := by
  unfold wsub
  omega

theorem wsub_of_lt (h : a < b) (hb : b < 2 ^ 64) : wsub a b = a + 2 ^ 64 - b := by
  unfold wsub
  omega

/-- Subtraction undoes an addition that may have wrapped. -/
theorem wsub_wrap_add (hb : b < 2 ^ 64) : wsub (wrap (a + b)) a = b := by
  unfold wsub wrap
  omega

theorem wsub_wsub (a b c : ℕ) : wsub (wsub a b) c = wsub a (b + c) := by
  unfold wsub
  omega

theorem wrap_wrap_add (a b : ℕ) : wrap (wrap a + b) = wrap (a + b) := by
  unfold wrap
  omega

end Machine
