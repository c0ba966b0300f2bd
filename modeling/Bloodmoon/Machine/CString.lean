import Bloodmoon.Machine.ByteMemory

/-!
# Strings in memory

A string is a list of bytes none of which is zero; in memory it is followed by a zero. `storeString`
writes a string with its terminator, and `loadString` reads one back: up to the first zero, and no
further than a given number of bytes.

`strncmp` compares strings as C does, and `numeral` writes a number as `printf` does.
-/

namespace Machine

open List

/-- The characters of a string. -/
abbrev Text := List (BitVec 8)

/-- The memory with a string and its terminator written at `a`. -/
def storeString (m : Bytes) (a : ℕ) (s : Text) : Bytes := fun x =>
  if x < a ∨ a + s.length < x then m x else s.getD (x - a) 0#8

/-- The string at `a`, of which at most the given number of bytes is read. -/
def loadString (m : Bytes) (a : ℕ) : ℕ → Text
  | 0 => []
  | n + 1 => if m a = 0#8 then [] else m a :: loadString m (a + 1) n

variable {m : Bytes} {a n : ℕ} {s : Text}

theorem storeString_apply_of_lt {i : ℕ} (hi : i < s.length) :
    storeString m a s (a + i) = s.get ⟨i, hi⟩ := by
  rw [storeString, if_neg (by omega), Nat.add_sub_cancel_left, getD_eq_getElem _ _ hi]
  rfl

theorem storeString_apply_length : storeString m a s (a + s.length) = 0#8 := by
  rw [storeString, if_neg (by omega), Nat.add_sub_cancel_left, getD_eq_default _ _ (Nat.le_refl _)]

theorem storeString_apply_of_outside {x : ℕ} (hx : x < a ∨ a + s.length < x) :
    storeString m a s x = m x := if_pos hx

/-- A string that begins with given characters goes on behind them. -/
theorem loadString_append (hs : 0#8 ∉ s) (h : ∀ i (hi : i < s.length), m (a + i) = s.get ⟨i, hi⟩) :
    loadString m a (s.length + n) = s ++ loadString m (a + s.length) n := by
  induction s generalizing a with
  | nil => simp
  | cons c s ih =>
    obtain ⟨hc, hs⟩ := not_or.1 (mt mem_cons.2 hs)
    have hhead : m a = c := h 0 (Nat.succ_pos _)
    have htail := ih (a := a + 1) hs fun i hi => by
      rw [Nat.add_assoc, Nat.add_comm 1 i]
      exact h (i + 1) (Nat.succ_lt_succ hi)
    rw [length_cons, show s.length + 1 + n = s.length + n + 1 by omega, loadString, hhead,
      if_neg fun hzero => hc hzero.symm, htail, cons_append,
      show a + 1 + s.length = a + (s.length + 1) by omega]

/-- A string whose terminator follows it is read back. -/
theorem loadString_eq (hs : 0#8 ∉ s) (h : ∀ i (hi : i < s.length), m (a + i) = s.get ⟨i, hi⟩)
    (hzero : m (a + s.length) = 0#8) (hn : s.length ≤ n) : loadString m a n = s := by
  obtain ⟨k, rfl⟩ := Nat.exists_eq_add_of_le hn
  rw [loadString_append hs h]
  cases k with
  | zero => exact append_nil s
  | succ k => rw [loadString, if_pos hzero, append_nil]

theorem loadString_storeString (hs : 0#8 ∉ s) (hn : s.length ≤ n) :
    loadString (storeString m a s) a n = s :=
  loadString_eq hs (fun _ hi => storeString_apply_of_lt hi) storeString_apply_length hn

/-! ### Comparing -/

/-- `strncmp`, where a string goes on with zeros. -/
def strncmp : Text → Text → ℕ → ℤ
  | _, _, 0 => 0
  | s, t, n + 1 =>
    if s.headD 0#8 ≠ t.headD 0#8 then ((s.headD 0#8).toNat : ℤ) - (t.headD 0#8).toNat
    else if s.headD 0#8 = 0#8 then 0
    else strncmp s.tail t.tail n

/-- A string is compared up to its own length with another that begins with it. -/
theorem strncmp_eq_zero_iff {s t : Text} (hs : 0#8 ∉ s) : strncmp s t s.length = 0 ↔ s <+: t := by
  induction s generalizing t with
  | nil => exact iff_of_true rfl nil_prefix
  | cons c s ih =>
    obtain ⟨hc, hs⟩ := not_or.1 (mt mem_cons.2 hs)
    rw [length_cons, strncmp, headD_cons]
    cases t with
    | nil =>
      have hne : c.toNat ≠ 0 := fun hzero => hc (BitVec.eq_of_toNat_eq hzero).symm
      rw [headD_nil, if_pos (Ne.symm hc)]
      refine iff_of_false ?_ (by simp)
      simpa using hne
    | cons d t =>
      rw [headD_cons, cons_prefix_cons]
      by_cases hcd : c = d
      · rw [if_neg (by simpa using hcd), if_neg (Ne.symm hc), tail_cons, tail_cons, ih hs]
        exact (and_iff_right hcd).symm
      · have hne : (c.toNat : ℤ) - d.toNat ≠ 0 := fun hzero =>
          hcd (BitVec.eq_of_toNat_eq (by omega))
        rw [if_pos hcd]
        exact iff_of_false hne fun hand => hcd hand.1

/-- An array of characters is compared up to its own length with a string that it is the beginning
of, or with one that ends with a zero in it. -/
theorem strncmp_eq_zero_iff_of_right {s t : Text} (ht : 0#8 ∉ t) :
    strncmp s t s.length = 0 ↔ s <+: t ∨ t ++ [0#8] <+: s := by
  have hsub : ∀ {c d : BitVec 8}, c ≠ d → (c.toNat : ℤ) - d.toNat ≠ 0 := fun hne hzero =>
    hne (BitVec.eq_of_toNat_eq (by omega))
  induction s generalizing t with
  | nil => exact iff_of_true rfl (.inl nil_prefix)
  | cons c s ih =>
    rw [length_cons, strncmp, headD_cons]
    cases t with
    | nil =>
      rw [headD_nil, nil_append, cons_prefix_cons]
      by_cases hc : c = 0#8
      · rw [if_neg (not_not.2 hc), if_pos hc]
        exact iff_of_true rfl (.inr ⟨hc.symm, nil_prefix⟩)
      · rw [if_pos hc]
        refine iff_of_false (hsub hc) ?_
        rintro (hpre | ⟨heq, -⟩)
        · exact absurd (prefix_nil.1 hpre) (cons_ne_nil _ _)
        · exact hc heq.symm
    | cons d t =>
      obtain ⟨hd, ht⟩ := not_or.1 (mt mem_cons.2 ht)
      rw [headD_cons, cons_append, cons_prefix_cons, cons_prefix_cons]
      by_cases hcd : c = d
      · rw [if_neg (not_not.2 hcd), if_neg (hcd ▸ Ne.symm hd), tail_cons, tail_cons]
        refine (ih ht).trans ?_
        simp [hcd]
      · rw [if_pos hcd]
        refine iff_of_false (hsub hcd) ?_
        rintro (⟨heq, -⟩ | ⟨heq, -⟩)
        · exact hcd heq
        · exact hcd heq.symm

/-! ### Numerals -/

/-- A digit. -/
def digit (d : ℕ) : BitVec 8 := BitVec.ofNat 8 (if d < 10 then 0x30 + d else 0x61 + (d - 10))

/-- The digits of a number in front of those that are there already, as many as there is room
for. -/
def digits (base : ℕ) : ℕ → ℕ → Text → Text
  | 0, _, text => text
  | room + 1, n, text =>
    if n / base = 0 then digit (n % base) :: text
    else digits base room (n / base) (digit (n % base) :: text)

/-- A number as `printf` writes it; `PRINTF_NTOA_BUFFER_SIZE` is 32. -/
def numeral (base n : ℕ) : Text := digits base 32 n []

theorem digit_ne {d : ℕ} (hd : d < 16) : digit d ≠ 0#8 ∧ digit d ≠ 0x2f#8 := by
  have hall : ∀ d < 16, digit d ≠ 0#8 ∧ digit d ≠ 0x2f#8 := by decide
  exact hall d hd

/-- What holds of all digits holds of all characters of a numeral. -/
theorem mem_digits {P : BitVec 8 → Prop} {base : ℕ} (hbase : 0 < base)
    (hP : ∀ d < base, P (digit d)) {room n : ℕ} {text : Text} (htext : ∀ c ∈ text, P c) :
    ∀ c ∈ digits base room n text, P c := by
  induction room generalizing n text with
  | zero => exact htext
  | succ room ih =>
    have hcons : ∀ c ∈ digit (n % base) :: text, P c := by
      intro c hc
      rcases mem_cons.1 hc with rfl | hc
      · exact hP _ (Nat.mod_lt _ hbase)
      · exact htext c hc
    rw [digits]
    split_ifs
    · exact hcons
    · exact ih hcons

theorem length_digits_le {base : ℕ} {room n k : ℕ} {text : Text} (hn : n < base ^ k) (hk : 0 < k) :
    (digits base room n text).length ≤ text.length + k := by
  induction room generalizing n k text with
  | zero => exact Nat.le_add_right _ _
  | succ room ih =>
    rw [digits]
    split_ifs with hlast
    · rw [length_cons]
      omega
    · obtain ⟨k, rfl⟩ := Nat.exists_eq_succ_of_ne_zero (Nat.pos_iff_ne_zero.1 hk)
      have hpow : n / base < base ^ k := Nat.div_lt_of_lt_mul (by rwa [Nat.pow_succ'] at hn)
      have hpos : 0 < k := by
        refine Nat.pos_of_ne_zero ?_
        rintro rfl
        exact hlast (Nat.lt_one_iff.1 hpow)
      have hrest := @ih _ _ (digit (n % base) :: text) hpow hpos
      rw [length_cons] at hrest
      omega

end Machine
