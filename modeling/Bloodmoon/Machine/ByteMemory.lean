import Bloodmoon.Machine.BitArray

/-!
# Memory as bytes, and structures in it

Memory is a function from addresses to bytes. Integers are stored little endian: `storeLE m a w v`
writes the low `w` bytes of `v` at `a`, and `loadLE m a w` reads them back.

A `Layout` is what a compiler makes of a C structure: for each field the offset and the width, with
the proof that the fields lie inside the structure and do not overlap. `Layout.get` and `Layout.set`
read and write one field of the structure at an address, and three lemmas say everything about
them: a field that is written is read back (`get_set_self`), the other fields of the same structure
stay (`get_set_of_ne`), and so do all fields of a structure that lies apart (`get_set_of_apart`).

`SameOn m m' a n` says that two memories agree on the `n` bytes from `a` on; it is how writes far
away are framed out.
-/

namespace Machine

variable {R a b base j k n o s w x : ℕ} {m m' : Bytes}

/-- The two memories agree on the `n` bytes from `a` on. -/
def SameOn (m m' : Bytes) (a n : ℕ) : Prop := ∀ x, a ≤ x → x < a + n → m' x = m x

theorem SameOn.refl (m : Bytes) (a n : ℕ) : SameOn m m a n := fun _ _ _ => rfl

theorem SameOn.symm (h : SameOn m m' a n) : SameOn m' m a n := fun x hx hxn => (h x hx hxn).symm

theorem SameOn.trans {m₁ m₂ m₃ : Bytes} (h₁ : SameOn m₁ m₂ a n) (h₂ : SameOn m₂ m₃ a n) :
    SameOn m₁ m₃ a n :=
  fun x hx hxn => (h₂ x hx hxn).trans (h₁ x hx hxn)

/-- Agreement on a range is agreement on every part of it. -/
theorem SameOn.mono (h : SameOn m m' a n) (hb : a ≤ b) (hk : b + k ≤ a + n) : SameOn m m' b k :=
  fun x hx hxk => h x (by omega) (by omega)

/-! ### Integers -/

/-- The `w` bytes from `a` on, as a little-endian number. -/
def loadLE (m : Bytes) (a : ℕ) : ℕ → ℕ
  | 0 => 0
  | w + 1 => (m a).toNat + 256 * loadLE m (a + 1) w

/-- The memory with the low `w` bytes of `v` written at `a`, little endian. -/
def storeLE (m : Bytes) (a : ℕ) : ℕ → ℕ → Bytes
  | 0, _ => m
  | w + 1, v => fun x => if x = a then BitVec.ofNat 8 v else storeLE m (a + 1) w (v / 256) x

theorem storeLE_apply_of_not_mem (m : Bytes) (v : ℕ) (h : x < a ∨ a + w ≤ x) :
    storeLE m a w v x = m x := by
  induction w generalizing a v with
  | zero => rfl
  | succ w ih =>
    have hne : x ≠ a := by omega
    simp only [storeLE, hne, if_false]
    exact ih (v / 256) (by omega)

theorem loadLE_lt (m : Bytes) (a w : ℕ) : loadLE m a w < 256 ^ w := by
  induction w generalizing a with
  | zero => exact Nat.one_pos
  | succ w ih =>
    have := ih (a + 1)
    rw [loadLE, Nat.pow_succ]
    omega

/-- A number is read from the same bytes at another place. -/
theorem loadLE_eq_of_shift (h : ∀ i < w, m' (b + i) = m (a + i)) :
    loadLE m' b w = loadLE m a w := by
  induction w generalizing a b with
  | zero => rfl
  | succ w ih =>
    have hfirst := h 0 (Nat.succ_pos w)
    rw [Nat.add_zero, Nat.add_zero] at hfirst
    rw [loadLE, loadLE, hfirst, ih fun i hi => ?_]
    have hnext := h (i + 1) (Nat.succ_lt_succ hi)
    rwa [show b + 1 + i = b + (i + 1) by omega, show a + 1 + i = a + (i + 1) by omega]

theorem loadLE_congr (h : SameOn m m' a w) : loadLE m' a w = loadLE m a w :=
  loadLE_eq_of_shift fun i hi => h (a + i) (Nat.le_add_right a i) (by omega)

theorem loadLE_storeLE (m : Bytes) (a w v : ℕ) : loadLE (storeLE m a w v) a w = v % 256 ^ w := by
  induction w generalizing a v with
  | zero => rw [loadLE, Nat.pow_zero, Nat.mod_one]
  | succ w ih =>
    have hrest : SameOn (storeLE m (a + 1) w (v / 256)) (storeLE m a (w + 1) v) (a + 1) w := by
      intro x hx _
      simp only [storeLE, show x ≠ a by omega, if_false]
    have hbyte : (storeLE m a (w + 1) v a).toNat = v % 256 := by
      simp only [storeLE, if_true, BitVec.toNat_ofNat]
    rw [loadLE, loadLE_congr hrest, ih, hbyte, Nat.pow_succ', Nat.mod_mul]

theorem sameOn_storeLE (m : Bytes) (v : ℕ) (h : b + n ≤ a ∨ a + w ≤ b) :
    SameOn m (storeLE m a w v) b n :=
  fun _ hx hxn => storeLE_apply_of_not_mem m v (by omega)

/-- Only the low bytes are stored. -/
theorem storeLE_mod (m : Bytes) (a w v : ℕ) : storeLE m a w (v % 256 ^ w) = storeLE m a w v := by
  induction w generalizing a v with
  | zero => rfl
  | succ w ih =>
    have hlow : BitVec.ofNat 8 (v % 256 ^ (w + 1)) = BitVec.ofNat 8 v := by
      refine BitVec.eq_of_toNat_eq ?_
      rw [BitVec.toNat_ofNat, BitVec.toNat_ofNat, Nat.pow_succ',
        Nat.mod_mod_of_dvd _ (Nat.dvd_mul_right 256 _)]
    have hhigh : v % 256 ^ (w + 1) / 256 = v / 256 % 256 ^ w := by
      rw [Nat.pow_succ', Nat.mod_mul_right_div_self]
    rw [storeLE, storeLE, hlow, hhigh, ih]

/-! ### Blocks of bytes -/

/-- `memset`: the memory with `n` bytes from `a` on set to `v`. -/
def memset (m : Bytes) (a : ℕ) (v : BitVec 8) (n : ℕ) : Bytes :=
  fun x => if a ≤ x ∧ x < a + n then v else m x

theorem memset_apply_of_outside (m : Bytes) (v : BitVec 8) (h : x < a ∨ a + n ≤ x) :
    memset m a v n x = m x :=
  if_neg (by omega)

theorem sameOn_memset (m : Bytes) (v : BitVec 8) (h : b + k ≤ a ∨ a + n ≤ b) :
    SameOn m (memset m a v n) b k :=
  fun _ hx hxk => memset_apply_of_outside m v (by omega)

theorem loadLE_memset_zero (m : Bytes) (hb : a ≤ b) (hw : b + w ≤ a + n) :
    loadLE (memset m a 0#8 n) b w = 0 := by
  induction w generalizing b with
  | zero => rfl
  | succ w ih =>
    have hbyte : memset m a 0#8 n b = 0#8 := if_pos (by omega)
    rw [loadLE, ih (by omega) (by omega), hbyte]
    rfl

/-- `memcpy`, a byte at a time from the first on. -/
def memcpy (m : Bytes) (dst src : ℕ) : ℕ → Bytes
  | 0 => m
  | n + 1 => fun x =>
    if x = dst + n then memcpy m dst src n (src + n) else memcpy m dst src n x

theorem sameOn_memcpy (m : Bytes) (dst src : ℕ) (h : b + k ≤ dst ∨ dst + n ≤ b) :
    SameOn m (memcpy m dst src n) b k := by
  induction n with
  | zero => exact .refl m b k
  | succ n ih =>
    intro x hx hxk
    have hne : x ≠ dst + n := by omega
    simp only [memcpy, hne, if_false]
    exact ih (by omega) x hx hxk

/-- Bytes are copied as they were when the two ranges do not overlap. -/
theorem memcpy_apply_of_disjoint (m : Bytes) {dst src i : ℕ} (h : src + n ≤ dst ∨ dst + n ≤ src)
    (hi : i < n) :
    memcpy m dst src n (dst + i) = m (src + i) := by
  induction n with
  | zero => exact absurd hi (Nat.not_lt_zero i)
  | succ n ih =>
    rcases Nat.lt_succ_iff_lt_or_eq.mp hi with hi | rfl
    · have hne : dst + i ≠ dst + n := by omega
      simp only [memcpy, hne, if_false]
      exact ih (by omega) hi
    · -- the bytes written so far are not those read
      simp only [memcpy, if_true]
      exact sameOn_memcpy m dst src (b := src + i) (k := 1) (by omega) _ (Nat.le_refl _)
        (Nat.lt_succ_self _)

/-- `memcpy` from one memory to another: `n` bytes of `src` from `b` on, to `a` in `dst`. -/
def blit (dst : Bytes) (a : ℕ) (src : Bytes) (b n : ℕ) : Bytes :=
  fun x => if a ≤ x ∧ x < a + n then src (b + (x - a)) else dst x

theorem blit_apply_of_mem {dst src : Bytes} {b : ℕ} (h : a ≤ x) (h' : x < a + n) :
    blit dst a src b n x = src (b + (x - a)) :=
  if_pos ⟨h, h'⟩

theorem blit_apply_of_outside {dst src : Bytes} {b : ℕ} (h : x < a ∨ a + n ≤ x) :
    blit dst a src b n x = dst x :=
  if_neg (by omega)

theorem sameOn_blit {dst src : Bytes} {b c : ℕ} (h : c + k ≤ a ∨ a + n ≤ c) :
    SameOn dst (blit dst a src b n) c k :=
  fun _ hx hxk => blit_apply_of_outside (by omega)

/-- What is copied to the start of a buffer. -/
theorem sameOn_blit_buffer (buffer F : Bytes) (size : ℕ) :
    SameOn F (blit buffer 0 F 0 size) 0 size := fun x hx hx' => by
  rw [blit_apply_of_mem hx (by omega)]
  exact congrArg F (by omega)

@[simp]
theorem blit_zero (dst : Bytes) (a : ℕ) (src : Bytes) (b : ℕ) : blit dst a src b 0 = dst :=
  funext fun _ => blit_apply_of_outside (by omega)

/-- The same bytes are copied from another place. -/
theorem blit_shift (dst : Bytes) (a : ℕ) {src src' : Bytes} {b' : ℕ}
    (h : ∀ i < n, src' (b' + i) = src (b + i)) : blit dst a src' b' n = blit dst a src b n := by
  funext x
  by_cases hx : a ≤ x ∧ x < a + n
  · rw [blit_apply_of_mem hx.1 hx.2, blit_apply_of_mem hx.1 hx.2, h _ (by omega)]
  · rw [blit_apply_of_outside (by omega), blit_apply_of_outside (by omega)]

theorem blit_congr (dst : Bytes) (a : ℕ) {src src' : Bytes} (h : SameOn src src' b n) :
    blit dst a src' b n = blit dst a src b n :=
  blit_shift dst a fun i hi => h (b + i) (Nat.le_add_right b i) (by omega)

/-- Memories that agree still do after the same copy into both. -/
theorem SameOn.blit_left (h : SameOn m m' a n) (c : ℕ) (src : Bytes) (b k : ℕ) :
    SameOn (blit m c src b k) (blit m' c src b k) a n := fun x hx hxn => by
  by_cases hin : c ≤ x ∧ x < c + k
  · rw [blit_apply_of_mem hin.1 hin.2, blit_apply_of_mem hin.1 hin.2]
  · rw [blit_apply_of_outside (by omega), blit_apply_of_outside (by omega), h x hx hxn]

/-- Two copies one after the other. -/
theorem blit_append (dst : Bytes) (a : ℕ) (src : Bytes) (b n k : ℕ) :
    blit (blit dst a src b n) (a + n) src (b + n) k = blit dst a src b (n + k) := by
  funext x
  by_cases hx : a + n ≤ x ∧ x < a + n + k
  · rw [blit_apply_of_mem hx.1 hx.2, blit_apply_of_mem (by omega) (by omega)]
    congr 1
    omega
  · rw [blit_apply_of_outside (by omega)]
    by_cases hn : a ≤ x ∧ x < a + n
    · rw [blit_apply_of_mem hn.1 hn.2, blit_apply_of_mem hn.1 (by omega)]
    · rw [blit_apply_of_outside (by omega), blit_apply_of_outside (by omega)]

/-- A copy of a part of a copy. -/
theorem blit_blit (dst : Bytes) (a : ℕ) (temp src : Bytes) (c : ℕ) (h : b + n ≤ k) :
    blit dst a (blit temp 0 src c k) b n = blit dst a src (c + b) n := by
  refine blit_shift dst a fun i hi => ?_
  rw [blit_apply_of_mem (Nat.zero_le _) (by omega), Nat.sub_zero, Nat.add_assoc]

/-! ### Regions of equal size -/

/-- A region ends before the later ones begin. -/
theorem region_le {i j : ℕ} (n : ℕ) (h : i < j) : i * n + n ≤ j * n := by
  rw [← Nat.succ_mul]
  exact Nat.mul_le_mul_right n h

theorem region_le' {i j : ℕ} (n : ℕ) (h : i < j) : n * i + n ≤ n * j := Nat.mul_le_mul_left n h

/-- A copy that stays in a region of size `R` is seen in this region only. -/
theorem blit_region_apply (m src : Bytes) (a : ℕ) {j' : ℕ} (hn : s + n ≤ R) (ho : o < R) :
    blit m (base + R * j + s) src a n (base + R * j' + o) =
      if j' = j ∧ s ≤ o ∧ o < s + n then src (a + (o - s)) else m (base + R * j' + o) := by
  rcases Nat.lt_trichotomy j' j with hlt | rfl | hlt
  · have hmul := region_le' R hlt
    rw [blit_apply_of_outside (by omega), if_neg (by omega)]
  · by_cases hin : s ≤ o ∧ o < s + n
    · rw [blit_apply_of_mem (by omega) (by omega), if_pos ⟨rfl, hin⟩]
      exact congrArg src (by omega)
    · rw [blit_apply_of_outside (by omega), if_neg fun hand => hin hand.2]
  · have hmul := region_le' R hlt
    rw [blit_apply_of_outside (by omega), if_neg (by omega)]

/-- The same part of several regions is overwritten, each from its own place. -/
def blitRegions (m : Bytes) (base R s : ℕ) (src : Bytes) (a : ℕ → ℕ) (n : ℕ) (L : List ℕ) : Bytes :=
  L.foldl (fun m j => blit m (base + R * j + s) src (a j) n) m

theorem blitRegions_apply (m src : Bytes) (a : ℕ → ℕ) (hn : s + n ≤ R) (ho : o < R) (L : List ℕ) :
    blitRegions m base R s src a n L (base + R * j + o) =
      if j ∈ L ∧ s ≤ o ∧ o < s + n then src (a j + (o - s)) else m (base + R * j + o) := by
  induction L generalizing m with
  | nil => simp [blitRegions]
  | cons i L ih =>
    change blitRegions (blit m (base + R * i + s) src (a i) n) base R s src a n L _ = _
    rw [ih, blit_region_apply _ _ _ hn ho]
    simp only [List.mem_cons, or_and_right]
    by_cases hlater : j ∈ L ∧ s ≤ o ∧ o < s + n
    · rw [if_pos hlater, if_pos (.inr hlater)]
    · rw [if_neg hlater]
      by_cases hfirst : j = i ∧ s ≤ o ∧ o < s + n
      · rw [if_pos hfirst, if_pos (.inl hfirst), hfirst.1]
      · rw [if_neg hfirst, if_neg (not_or.2 ⟨hfirst, hlater⟩)]

/-- Nothing changes outside the regions. -/
theorem blitRegions_of_outside (m src : Bytes) (a : ℕ → ℕ) (hn : s + n ≤ R) {L : List ℕ}
    (hL : ∀ j ∈ L, j < k) (hx : x < base ∨ base + R * k ≤ x) :
    blitRegions m base R s src a n L x = m x := by
  induction L generalizing m with
  | nil => rfl
  | cons i L ih =>
    have hmul := region_le' R (hL i List.mem_cons_self)
    change blitRegions (blit m (base + R * i + s) src (a i) n) base R s src a n L _ = _
    rw [ih _ (List.forall_mem_cons.1 hL).2, blit_apply_of_outside (by omega)]

/-! ### Structures -/

/-- The layout of a structure with fields `ι`. -/
structure Layout (ι : Type) where
  /-- The address of a field relative to the structure. -/
  offset : ι → ℕ
  /-- The number of bytes of a field. -/
  width : ι → ℕ
  /-- The number of bytes of the structure. -/
  size : ℕ
  within : ∀ f, offset f + width f ≤ size := by
    intro f
    cases f <;> decide
  disjoint : ∀ f g, f ≠ g → offset f + width f ≤ offset g ∨ offset g + width g ≤ offset f := by
    intro f g h
    cases f <;> cases g <;> first | exact absurd rfl h | decide

namespace Layout

variable {ι : Type} (L : Layout ι) {m m' : Bytes} {a b : ℕ} {f g : ι}

/-- The field `f` of the structure at `a`. -/
def get (m : Bytes) (a : ℕ) (f : ι) : ℕ := loadLE m (a + L.offset f) (L.width f)

/-- The memory with the field `f` of the structure at `a` set to `v`. -/
def set (m : Bytes) (a : ℕ) (f : ι) (v : ℕ) : Bytes := storeLE m (a + L.offset f) (L.width f) v

/-- The structures at the two addresses do not overlap. -/
def Apart (a b : ℕ) : Prop := a + L.size ≤ b ∨ b + L.size ≤ a

variable {L}

theorem Apart.symm (h : L.Apart a b) : L.Apart b a := Or.symm h

theorem get_set_self {v : ℕ} (hv : v < 256 ^ L.width f) : L.get (L.set m a f v) a f = v := by
  rw [get, set, loadLE_storeLE, Nat.mod_eq_of_lt hv]

theorem get_set_of_ne (v : ℕ) (h : f ≠ g) : L.get (L.set m a f v) a g = L.get m a g := by
  have hfg := L.disjoint f g h
  exact loadLE_congr (sameOn_storeLE m v (by omega))

theorem get_set_of_apart (v : ℕ) (h : L.Apart a b) : L.get (L.set m a f v) b g = L.get m b g := by
  have hf := L.within f
  have hg := L.within g
  exact loadLE_congr (sameOn_storeLE m v (by unfold Apart at h; omega))

/-- A field is read from the bytes of its structure. -/
theorem get_congr (h : SameOn m m' a L.size) (f : ι) : L.get m' a f = L.get m a f :=
  loadLE_congr (h.mono (Nat.le_add_right a _) (by have := L.within f; omega))

/-- A write to a field changes no byte outside the structure. -/
theorem set_apply_of_outside {x : ℕ} (v : ℕ) (h : x < a ∨ a + L.size ≤ x) : L.set m a f v x = m x :=
  storeLE_apply_of_not_mem m v (by have := L.within f; omega)

/-- Clearing a structure keeps every field of one that lies apart. -/
theorem get_memset_of_apart (v : BitVec 8) (h : L.Apart a b) :
    L.get (memset m a v L.size) b g = L.get m b g :=
  get_congr (sameOn_memset m v (Or.symm h)) g

/-- Every field of a structure that has been cleared is zero. -/
theorem get_memset_zero (f : ι) : L.get (memset m a 0#8 L.size) a f = 0 :=
  loadLE_memset_zero m (Nat.le_add_right a _) (by have := L.within f; omega)

end Layout

end Machine
