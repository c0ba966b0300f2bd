import Bloodmoon.Memory.Search

/-!
# The allocator after `init_memory`

Whatever the memory map and whatever the machine left behind, an `init_memory` that returns
leaves the pages of its own data taken and every other managed page free, with counters that
say so (`AfterInit`). The bit after the last managed page is not so well defined: it is clear
when it shares a byte with managed pages, and has the old contents of its byte otherwise.
-/

namespace Bloodmoon

open Machine SystemMemory BitArray List

variable {s : PageAllocator} {map : List MemmapEntry} {junk : Bytes}

/-- The state `init_memory` leaves. -/
structure AfterInit (s : PageAllocator) : Prop where
  small : s.memory.totalAvailablePages < 2 ^ 52
  used_le : usedSpace s.memory.totalAvailablePages ≤ s.memory.totalAvailablePages
  taken_iff : ∀ i < s.memory.totalAvailablePages,
    s.memory.taken i = decide (i < usedSpace s.memory.totalAvailablePages)
  taken_end : s.memory.taken s.memory.totalAvailablePages = true →
    s.memory.totalAvailablePages % 8 = 0
  free : s.memory.freeMemory =
    pageSize * (s.memory.totalAvailablePages - usedSpace s.memory.totalAvailablePages)
  locked : s.memory.lockedMemory = 0
  reserved : s.memory.reservedMemory = pageSize * usedSpace s.memory.totalAvailablePages
  cursor : s.lastRequested = 0
  contiguous : s.lastContiguous = 0

/-- Pages from the start of the range, reserved one after the other: each was free and in
range. -/
private theorem eachPage_reservePage {m m' : SystemMemory} {k : ℕ} (hk : k < 2 ^ 52)
    (h : eachPage reservePage m 0 k = .ok m')
    (hf : m.freeMemory < 2 ^ 64) (hr : m.reservedMemory < 2 ^ 64) :
    ∃ b, m' = { m with
        bitfield := b
        freeMemory := wsub m.freeMemory (k * pageSize)
        reservedMemory := wrap (m.reservedMemory + k * pageSize) } ∧
      (∀ i, test b i = (decide (i < k) || m.taken i)) ∧
      ∀ i < k, i ≤ m.totalAvailablePages ∧ m.taken i = false := by
  induction k generalizing m' with
  | zero =>
    simp only [eachPage, range_zero, foldlM_nil, pure, Except.pure, Except.ok.injEq] at h
    subst h
    refine ⟨m.bitfield, ?_, fun i => by simp [taken], fun i hi => by omega⟩
    rw [Nat.zero_mul, Nat.add_zero, wsub_of_le (Nat.zero_le _) hf, Nat.sub_zero, wrap_of_lt hr]
  | succ k ih =>
    rw [eachPage_succ, bind_eq_ok] at h
    obtain ⟨m₁, h₁, h⟩ := h
    obtain ⟨b, rfl, hb, hlow⟩ := ih (by omega) h₁
    have hpage : addrToPage (wrap (0 + wrap (k <<< 12))) = k := by
      rw [Nat.zero_add, wrap_of_lt (wrap_lt _), addrToPage_shiftLeft (by omega)]
    rw [reservePage_eq_ok_iff, hpage] at h
    obtain ⟨hle, hfree, rfl⟩ := h
    have hfree' : m.taken k = false := by
      simpa [taken, hb] using hfree
    refine ⟨BitArray.set b k, ?_, fun i => ?_, fun i hi => ?_⟩
    · simp only [withReserved, rawSetPageBit, wsub_wsub, wrap_wrap_add, Nat.add_assoc, Nat.succ_mul]
    · rw [test_set, hb]
      rcases Nat.lt_trichotomy i k with h | h | h
      · simp [h, Nat.lt_succ_of_lt h]
      · simp [h]
      · simp [Nat.ne_of_gt h, Nat.not_lt_of_gt h, show ¬ i < k + 1 by omega]
    · rcases Nat.lt_succ_iff_lt_or_eq.mp hi with h | rfl
      · exact hlow i h
      · exact ⟨hle, hfree'⟩

/-- `ALIGN_ADDR` rounds up to a page, modulo the address space. -/
theorem alignAddr_eq {x : ℕ} (hx : x < 2 ^ 64) :
    alignAddr x = (x + 4095) / 4096 * 4096 % 2 ^ 64 := by
  unfold alignAddr wrap pageSize
  split_ifs with h <;> omega

/-- `bitfield_entries` is the page count over eight, rounded up. -/
theorem bitfieldEntries_eq (n : ℕ) :
    (if n % 8 = 0 then n >>> 3 else (n >>> 3) + 1) = (n + 7) / 8 := by
  rw [Nat.shiftRight_eq_div_pow]
  split_ifs <;> omega

theorem usedSpace_eq (n : ℕ) : usedSpace n = ((n + 7) / 8 + 12360) / 4096 := by
  have h72 : sizeofSystemMemory = 72 := rfl
  simp only [usedSpace, bitfieldEntries_eq]
  calc ((n + 7) / 8 + sizeofSystemMemory + 3 <<< 12) >>> 12
      = ((n + 7) / 8 + sizeofSystemMemory + 3 <<< 12) / 2 ^ 12 := Nat.shiftRight_eq_div_pow _ _
    _ = ((n + 7) / 8 + 12360) / 4096 := by omega

/-- The managed range is long enough for what `init_memory` reserves in it: its pages are those
of a chunk that passed the size check, up to one page at each end. -/
private theorem usedSpace_le_of_size {addr size n : ℕ} (ha : addr < 2 ^ 64) (hz : size < 2 ^ 64)
    (hn : n = wsub (alignAddr (wrap (addr + size))) (alignAddr addr) >>> 12)
    (hsize : (n + 7) / 8 + 12360 ≤ size) (hn3 : usedSpace n ≤ n + 1) : usedSpace n ≤ n := by
  rw [alignAddr_eq (wrap_lt _), alignAddr_eq ha, Nat.shiftRight_eq_div_pow] at hn
  rw [usedSpace_eq] at hn3 ⊢
  unfold wsub wrap at hn
  omega

/-- **The callback keeps a longest usable entry**, or what it began with. -/
theorem iterateMemory_initMemoryCb (map : List MemmapEntry) (chunk : ChunkData) :
    (iterateMemory initMemoryCb map chunk = chunk ∨ ∃ e ∈ map, e.type = memmapUsable ∧
        iterateMemory initMemoryCb map chunk = ⟨e.base.toNat, e.length.toNat⟩) ∧
      chunk.size ≤ (iterateMemory initMemoryCb map chunk).size ∧
      ∀ e ∈ map, e.type = memmapUsable →
        e.length.toNat ≤ (iterateMemory initMemoryCb map chunk).size := by
  induction map generalizing chunk with
  | nil => exact ⟨.inl rfl, Nat.le_refl _, nofun⟩
  | cons e map ih =>
    have hcons : iterateMemory initMemoryCb (e :: map) chunk =
        iterateMemory initMemoryCb map (initMemoryCb chunk e) := rfl
    obtain ⟨horigin, hstart, hlongest⟩ := ih (initMemoryCb chunk e)
    have hstep : (initMemoryCb chunk e = chunk ∨
          e.type = memmapUsable ∧ initMemoryCb chunk e = ⟨e.base.toNat, e.length.toNat⟩) ∧
        chunk.size ≤ (initMemoryCb chunk e).size ∧
        (e.type = memmapUsable → e.length.toNat ≤ (initMemoryCb chunk e).size) := by
      unfold initMemoryCb
      split_ifs with husable hlonger
      · exact ⟨.inr ⟨husable, rfl⟩, Nat.le_of_lt hlonger, fun _ => Nat.le_refl _⟩
      · exact ⟨.inl rfl, Nat.le_refl _, fun _ => Nat.le_of_not_lt hlonger⟩
      · exact ⟨.inl rfl, Nat.le_refl _, (absurd · husable)⟩
    rw [hcons]
    refine ⟨?_, Nat.le_trans hstep.2.1 hstart, forall_mem_cons.mpr
      ⟨fun husable => Nat.le_trans (hstep.2.2 husable) hstart, hlongest⟩⟩
    rcases horigin with hsame | ⟨e', he', husable, heq⟩
    · rw [hsame]
      exact hstep.1.imp_right fun ⟨husable, heq⟩ => ⟨e, mem_cons_self, husable, heq⟩
    · exact .inr ⟨e', mem_cons_of_mem _ he', husable, heq⟩

/-- The chunk that `init_memory` manages. -/
def biggestAvailChunk (map : List MemmapEntry) : ChunkData :=
  iterateMemory initMemoryCb map { addr := 0, size := 0 }

/-- The chunk the memory map leaves is described by 64-bit values. -/
private theorem biggestAvailChunk_lt (map : List MemmapEntry) :
    (biggestAvailChunk map).addr < 2 ^ 64 ∧ (biggestAvailChunk map).size < 2 ^ 64 := by
  rw [biggestAvailChunk]
  rcases (iterateMemory_initMemoryCb map { addr := 0, size := 0 }).1 with h | ⟨e, -, -, h⟩
  · rw [h]
    decide
  · rw [h]
    exact ⟨e.base.toNat_lt, e.length.toNat_lt⟩

/-- Clearing the bytes of `n` bits clears each of them, and the rest of the last byte. -/
private theorem test_fill_zero {b : Bytes} {n i : ℕ} (hi : i / 8 < (n + 7) / 8) :
    test (b.fill 0#8 ((n + 7) / 8)) i = false := by
  simp [test, Bytes.fill, hi]

/-- **`init_memory` sets the allocator up**: its own pages taken, all others free, and the
counters to match. The managed range is that of the longest usable chunk, which has passed the size
check. -/
theorem initMemory_spec (h : initMemory map junk = .ok s) : AfterInit s ∧
    s.memory.firstAvailablePageAddr = alignAddr (biggestAvailChunk map).addr ∧
      s.memory.totalAvailablePages =
        wsub (alignAddr (wrap ((biggestAvailChunk map).addr + (biggestAvailChunk map).size)))
          (alignAddr (biggestAvailChunk map).addr) >>> 12 ∧
      (s.memory.totalAvailablePages + 7) / 8 + 12360 ≤ (biggestAvailChunk map).size := by
  obtain ⟨haddr, hsize⟩ := biggestAvailChunk_lt map
  unfold initMemory at h
  rw [← biggestAvailChunk] at h
  simp only [bitfieldEntries_eq, sizeofSystemMemory] at h
  generalize biggestAvailChunk map = chunk at h haddr hsize ⊢
  generalize hn : wsub (alignAddr (wrap (chunk.addr + chunk.size))) (alignAddr chunk.addr) >>> 12
    = n at h
  split_ifs at h with hfits htest halign
  · exact absurd h kpanic_ne_ok
  · exact absurd h kpanic_ne_ok
  · exact absurd h kpanic_ne_ok
  rw [bind_eq_ok] at h
  obtain ⟨m, hm, h⟩ := h
  obtain rfl := Except.ok.inj h
  have hbytes : wsub (alignAddr (wrap (chunk.addr + chunk.size))) (alignAddr chunk.addr)
      = 4096 * n := by
    rw [alignAddr_eq (wrap_lt _), alignAddr_eq haddr, Nat.shiftRight_eq_div_pow] at hn
    rw [alignAddr_eq (wrap_lt _), alignAddr_eq haddr]
    unfold wsub wrap at *
    omega
  have hsmall : n < 2 ^ 52 := by
    have := wsub_lt (alignAddr (wrap (chunk.addr + chunk.size))) (alignAddr chunk.addr)
    omega
  have hk : usedSpace n < 2 ^ 52 := by
    rw [usedSpace_eq]
    omega
  rw [reservePages, if_neg (by decide)] at hm
  obtain ⟨b, rfl, hb, hlow⟩ := eachPage_reservePage hk hm (wsub_lt _ _) (by simp)
  have hfits' : (n + 7) / 8 + 12360 ≤ chunk.size := by
    simp only [Nat.shiftLeft_eq] at hfits
    omega
  have hused : usedSpace n ≤ n := by
    refine usedSpace_le_of_size haddr hsize hn.symm hfits' ?_
    · rcases Nat.eq_zero_or_pos (usedSpace n) with h0 | hpos
      · omega
      · have := (hlow (usedSpace n - 1) (by omega)).1
        change usedSpace n - 1 ≤ n at this
        omega
  have htaken : ∀ i, test b i =
      (decide (i < usedSpace n) || test ((junk.fill 85#8 100).fill 0#8 ((n + 7) / 8)) i) :=
    hb
  refine ⟨⟨hsmall, hused, fun i hi => ?_, fun hend => ?_, ?_, rfl, ?_, rfl, rfl⟩, rfl, rfl, hfits'⟩
  · change i < n at hi
    change test b i = decide (i < usedSpace n)
    rw [htaken, test_fill_zero (by omega), Bool.or_false]
  · change test b n = true at hend
    change n % 8 = 0
    by_contra hne
    rw [htaken, test_fill_zero (by omega)] at hend
    simp only [Bool.or_false, decide_eq_true_eq] at hend
    omega
  · change wsub (wsub (alignAddr (wrap (chunk.addr + chunk.size))) (alignAddr chunk.addr))
      (usedSpace n * pageSize) = pageSize * (n - usedSpace n)
    rw [hbytes, wsub_of_le (by unfold pageSize; omega) (by omega)]
    unfold pageSize
    omega
  · change wrap (0 + usedSpace n * pageSize) = pageSize * usedSpace n
    rw [wrap_of_lt (by unfold pageSize; omega)]
    unfold pageSize
    omega

theorem afterInit_of_initMemory (h : initMemory map junk = .ok s) : AfterInit s :=
  (initMemory_spec h).1

/-- A memory map of a machine with physical addresses of 52 bits. -/
def PhysicalMap (map : List MemmapEntry) : Prop := ∀ e ∈ map, e.base.toNat + e.length.toNat ≤ 2 ^ 52

/-- Such a machine has at most `2 ^ 40` pages. -/
theorem totalAvailablePages_le_of_physicalMap (hmap : PhysicalMap map)
    (h : initMemory map junk = .ok s) :
    s.memory.totalAvailablePages ≤ 2 ^ 40 := by
  rw [(initMemory_spec h).2.2.1]
  have hle : (biggestAvailChunk map).addr + (biggestAvailChunk map).size ≤ 2 ^ 52 := by
    rw [biggestAvailChunk]
    rcases (iterateMemory_initMemoryCb map { addr := 0, size := 0 }).1 with h | ⟨e, he, -, h⟩
    · rw [h]
      decide
    · rw [h]
      exact hmap e he
  generalize biggestAvailChunk map = chunk at *
  rw [alignAddr_eq (wrap_lt _), alignAddr_eq (by omega), Nat.shiftRight_eq_div_pow]
  unfold wsub wrap
  omega

namespace AfterInit

variable {s : PageAllocator}

theorem three_le_usedSpace (n : ℕ) : 3 ≤ usedSpace n := by
  rw [usedSpace_eq]
  omega

theorem inBounds (h : AfterInit s) : s.InBounds := by
  have hused := h.used_le
  have h3 := three_le_usedSpace s.memory.totalAvailablePages
  exact ⟨by omega, h.small, by rw [h.cursor]; omega, by rw [h.contiguous]; omega⟩

/-- When the bit after the managed pages is set, some managed page other than page `0` is
free. -/
theorem exists_free_of_taken_end (h : AfterInit s)
    (hend : s.memory.taken s.memory.totalAvailablePages = true) :
    ∃ i, 1 ≤ i ∧ i < s.memory.totalAvailablePages ∧ s.memory.taken i = false := by
  have hmod := h.taken_end hend
  have hused := h.used_le
  have heq := usedSpace_eq s.memory.totalAvailablePages
  refine ⟨usedSpace s.memory.totalAvailablePages, by omega, by omega, ?_⟩
  rw [h.taken_iff _ (by omega)]
  simp

end AfterInit

/-- A memory map with one usable chunk of four pages. -/
def fourPageMap : List MemmapEntry := [⟨0x100000, 0x4000, memmapUsable⟩]

/-- `init_memory` does return on the four-page map, and leaves page `3` free. -/
theorem initMemory_fourPageMap :
    ∃ s, initMemory fourPageMap (fun _ => 0#8) = .ok s ∧ AfterInit s ∧
      (s.memory.totalAvailablePages = 4 ∧ s.memory.firstAvailablePageAddr = 0x100000) ∧
      s.memory.firstFree s.lastRequested = some 3 ∧
      s.memory.firstFree s.lastContiguous = some 3 ∧
      ∀ i ≤ 4, s.memory.taken i = decide (i < 3) := by
  obtain ⟨s, hs, hrest⟩ : ∃ s, initMemory fourPageMap (fun _ => 0#8) = .ok s ∧
      (s.memory.totalAvailablePages = 4 ∧ s.memory.firstAvailablePageAddr = 0x100000) ∧
      s.memory.firstFree s.lastRequested = some 3 ∧ s.memory.firstFree s.lastContiguous = some 3 ∧
      ∀ i ≤ 4, s.memory.taken i = decide (i < 3) := by
    decide +kernel
  exact ⟨s, hs, afterInit_of_initMemory hs, hrest⟩

end Bloodmoon
