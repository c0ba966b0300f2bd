import Bloodmoon.Memory.Init

/-!
# The byte counters against the bitmap

`free_memory` should be the bytes of the free pages, and `locked_memory + reserved_memory` those
of the taken ones (`Accounting`). `lock_page` keeps that true, and `unlock_page` breaks it: it
charges the page a second time where `unreserve_page` gives it back. The other way to lose the
balance is to lock the index after the last managed page, which the bounds checks let through.

`accounting_iff` says that these are the only two: along the runs whose steps avoid them the
counters are right, and a step that does not avoid them makes them wrong at once.
-/

namespace Bloodmoon

open Machine Relation SystemMemory

/-- The number of free pages among the managed ones. -/
def SystemMemory.freeCount (m : SystemMemory) : ℕ :=
  ((Finset.range m.totalAvailablePages).filter fun i => m.taken i = false).card

/-- The number of taken pages among the managed ones. -/
def SystemMemory.takenCount (m : SystemMemory) : ℕ :=
  ((Finset.range m.totalAvailablePages).filter fun i => m.taken i = true).card

/-- The counters are the page counts, in bytes. -/
def Accounting (m : SystemMemory) : Prop :=
  m.freeMemory = pageSize * m.freeCount ∧
    m.lockedMemory + m.reservedMemory = pageSize * m.takenCount

namespace SystemMemory

variable {m : SystemMemory}

theorem freeCount_add_takenCount (m : SystemMemory) :
    m.freeCount + m.takenCount = m.totalAvailablePages := by
  have h := Finset.card_filter_add_card_filter_not (s := Finset.range m.totalAvailablePages)
    (fun i => m.taken i = false)
  simpa [freeCount, takenCount] using h

/-- Taking a free managed page takes it out of the free ones. -/
theorem freeCount_withLocked {i : ℕ} (hi : i < m.totalAvailablePages) (hfree : m.taken i = false) :
    (m.withLocked i).freeCount + 1 = m.freeCount := by
  have hmem : i ∈ (Finset.range m.totalAvailablePages).filter fun i => m.taken i = false := by
    simp [hi, hfree]
  have hset : ((Finset.range (m.withLocked i).totalAvailablePages).filter
      fun j => (m.withLocked i).taken j = false) =
      ((Finset.range m.totalAvailablePages).filter fun j => m.taken j = false).erase i := by
    ext j
    simp only [taken_withLocked, Finset.mem_filter, Finset.mem_erase, Finset.mem_range,
      Bool.or_eq_false_iff, decide_eq_false_iff_not]
    exact ⟨fun ⟨h1, h2, h3⟩ => ⟨h2, h1, h3⟩, fun ⟨h2, h1, h3⟩ => ⟨h1, h2, h3⟩⟩
  rw [freeCount, hset, freeCount, Finset.card_erase_add_one hmem]

/-- The index after the last managed page counts for nothing. -/
theorem freeCount_congr {m' : SystemMemory} (hn : m'.totalAvailablePages = m.totalAvailablePages)
    (h : ∀ i < m.totalAvailablePages, m'.taken i = m.taken i) : m'.freeCount = m.freeCount := by
  unfold freeCount
  rw [hn]
  refine congrArg Finset.card (Finset.filter_congr fun i hi => ?_)
  rw [h i (Finset.mem_range.mp hi)]

/-- Giving a taken managed page back adds it to the free ones: taken again, it is as before. -/
theorem freeCount_withUnlocked {i : ℕ} (hi : i < m.totalAvailablePages)
    (htaken : m.taken i = true) : (m.withUnlocked i).freeCount = m.freeCount + 1 := by
  have hagain : ((m.withUnlocked i).withLocked i).freeCount = m.freeCount := by
    refine freeCount_congr rfl fun j _ => ?_
    by_cases hj : j = i
    · simp [hj, htaken]
    · simp [hj]
  rw [← hagain]
  exact (freeCount_withLocked (m := m.withUnlocked i) hi (by simp)).symm

end SystemMemory

/-! ### What each change of a bit does to the balance -/

namespace Accounting

variable {m : SystemMemory} {i : ℕ}

/-- Locking a free page keeps the balance exactly when the page is a managed one. -/
theorem withLocked_iff (h : Accounting m) (hsmall : m.totalAvailablePages < 2 ^ 52)
    (hfree : m.taken i = false) :
    Accounting (m.withLocked i) ↔ i < m.totalAvailablePages := by
  obtain ⟨hf, ht⟩ := h
  have hsum := m.freeCount_add_takenCount
  have hsum' := (m.withLocked i).freeCount_add_takenCount
  change _ = m.totalAvailablePages at hsum'
  change wsub m.freeMemory pageSize = _ ∧
    wrap (m.lockedMemory + pageSize) + m.reservedMemory = _ ↔ _
  unfold pageSize at *
  constructor
  · rintro ⟨hf', -⟩
    by_contra hge
    have hcount : (m.withLocked i).freeCount = m.freeCount := by
      refine freeCount_congr rfl fun j hj => ?_
      simp [show j ≠ i by omega]
    unfold wsub at hf'
    omega
  · intro hi
    have hcount := freeCount_withLocked hi hfree
    rw [wsub_of_le (by omega) (by omega), wrap_of_lt (by omega)]
    omega

/-- Unlocking a page always breaks the balance. -/
theorem not_withUnlocked (h : Accounting m) (htaken : m.taken i = true) :
    ¬ Accounting (m.withUnlocked i) := by
  obtain ⟨hf, -⟩ := h
  rintro ⟨hf', -⟩
  change wsub m.freeMemory pageSize = _ at hf'
  have hcount : (m.withUnlocked i).freeCount = m.freeCount + 1 ∨
      (m.withUnlocked i).freeCount = m.freeCount := by
    by_cases hi : i < m.totalAvailablePages
    · exact .inl (freeCount_withUnlocked hi htaken)
    · refine .inr (freeCount_congr rfl fun j hj => ?_)
      simp [show j ≠ i by omega]
  unfold pageSize wsub at *
  omega

/-- `init_memory` leaves the counters right. -/
theorem afterInit {s : PageAllocator} (h : AfterInit s) : Accounting s.memory := by
  have hused := h.used_le
  have hsum := s.memory.freeCount_add_takenCount
  have hcount : s.memory.takenCount = usedSpace s.memory.totalAvailablePages := by
    have hset : ((Finset.range s.memory.totalAvailablePages).filter
        fun i => s.memory.taken i = true) =
        Finset.range (usedSpace s.memory.totalAvailablePages) := by
      ext j
      simp only [Finset.mem_filter, Finset.mem_range]
      constructor
      · rintro ⟨hj, hjt⟩
        rw [h.taken_iff j hj] at hjt
        exact of_decide_eq_true hjt
      · intro hj
        refine ⟨by omega, ?_⟩
        rw [h.taken_iff j (by omega)]
        exact decide_eq_true hj
    rw [takenCount, hset, Finset.card_range]
  refine ⟨?_, ?_⟩
  · rw [h.free, show s.memory.freeCount = s.memory.totalAvailablePages -
      usedSpace s.memory.totalAvailablePages by omega]
  · rw [h.locked, h.reserved, hcount, Nat.zero_add]

end Accounting

/-! ### Runs -/

/-- The four calls on single pages. -/
inductive PageCall where
  | requestPage
  | freePage (addr : ℕ)
  | lockPage (addr : ℕ)
  | unlockPage (addr : ℕ)

namespace PageCall

/-- The call returns, and takes the allocator from `s` to `s'`. -/
def Step : PageCall → PageAllocator → PageAllocator → Prop
  | requestPage, s, s' => ∃ a, Returns s.requestPage (s', a)
  | freePage addr, s, s' => s.freePage addr = .ok s'
  | lockPage addr, s, s' => ∃ m, s.memory.lockPage addr = .ok m ∧ s' = { s with memory := m }
  | unlockPage addr, s, s' => ∃ m, s.memory.unlockPage addr = .ok m ∧ s' = { s with memory := m }

/-- The call gives no page back, and does not take the index after the last managed page. -/
def TakesManaged : PageCall → PageAllocator → Prop
  | requestPage, s =>
    (∃ i, s.lastRequested ≤ i ∧ i < s.memory.totalAvailablePages ∧ s.memory.taken i = false) ∨
      s.memory.taken s.memory.totalAvailablePages = true
  | lockPage addr, s => addrToPage addr ≠ s.memory.totalAvailablePages
  | freePage _, _ => False
  | unlockPage _, _ => False

variable {s s' : PageAllocator}

/-- A search from a cursor among the pages ends at a managed page exactly when one is free from
the cursor on or the bit after the last one is set. -/
private theorem firstFree_lt_iff (hs : s.InBounds) {d : ℕ}
    (hd : s.memory.firstFree s.lastRequested = some d) :
    d < s.memory.totalAvailablePages ↔ requestPage.TakesManaged s := by
  have hcur := hs.cursor
  obtain ⟨hfree, ⟨hcd, hdn, hall⟩ | ⟨h1, hdc, hdn, hall, -⟩⟩ := firstFree_eq_some_iff.mp hd
  · constructor
    · exact fun hlt => .inl ⟨d, hcd, hlt, hfree⟩
    · intro h
      by_contra hge
      obtain rfl : d = s.memory.totalAvailablePages := by omega
      rcases h with ⟨i, hi, hlt, hifree⟩ | hend
      · simp [hall i hi hlt] at hifree
      · simp [hend] at hfree
  · exact iff_of_true (by omega) (.inr (hall _ hcur (Nat.le_max_right _ _)))

/-- What one call does to the bounds and to the balance. -/
theorem step_inv {op : PageCall} (hs : s.InBounds) (ha : Accounting s.memory)
    (h : op.Step s s') : s'.InBounds ∧ (Accounting s'.memory ↔ op.TakesManaged s) := by
  cases op with
  | requestPage =>
    obtain ⟨a, h⟩ := h
    obtain ⟨d, hd, heq⟩ := (PageAllocator.requestPage_returns_iff hs).mp h
    obtain ⟨rfl, -⟩ := Prod.mk.inj heq
    obtain ⟨hfree, hpos⟩ := firstFree_eq_some_iff.mp hd
    have hcur := hs.cursor
    have hle : d ≤ s.memory.totalAvailablePages := by omega
    refine ⟨⟨hs.pos, hs.small, hle, hs.contiguous⟩, ?_⟩
    exact (ha.withLocked_iff hs.small hfree).trans (firstFree_lt_iff hs hd)
  | freePage addr =>
    obtain ⟨-, -, htaken, rfl⟩ := PageAllocator.freePage_eq_ok_iff.mp h
    exact ⟨⟨hs.pos, hs.small, hs.cursor, hs.contiguous⟩,
      iff_of_false (ha.not_withUnlocked htaken) id⟩
  | lockPage addr =>
    obtain ⟨m, hm, rfl⟩ := h
    obtain ⟨hle, hfree, rfl⟩ := lockPage_eq_ok_iff.mp hm
    refine ⟨⟨hs.pos, hs.small, hs.cursor, hs.contiguous⟩, ?_⟩
    exact (ha.withLocked_iff hs.small hfree).trans ⟨Nat.ne_of_lt, Nat.lt_of_le_of_ne hle⟩
  | unlockPage addr =>
    obtain ⟨m, hm, rfl⟩ := h
    obtain ⟨-, htaken, rfl⟩ := unlockPage_eq_ok_iff.mp hm
    exact ⟨⟨hs.pos, hs.small, hs.cursor, hs.contiguous⟩,
      iff_of_false (ha.not_withUnlocked htaken) id⟩

/-- Along a run of calls that only take managed pages the balance is kept. -/
theorem run_inv (hs : s.InBounds) (ha : Accounting s.memory)
    (h : ReflTransGen (fun s s' => ∃ op, TakesManaged op s ∧ op.Step s s') s s') :
    s'.InBounds ∧ Accounting s'.memory := by
  induction h with
  | refl => exact ⟨hs, ha⟩
  | tail _ hstep ih =>
    obtain ⟨op, hcond, hop⟩ := hstep
    obtain ⟨hb, hiff⟩ := step_inv ih.1 ih.2 hop
    exact ⟨hb, hiff.mpr hcond⟩

end PageCall

/-- **The counters are right** after `init_memory` and along every run whose calls only take
managed pages, and the first call that does something else makes them wrong. -/
theorem accounting_iff {map : List MemmapEntry} {junk : Bytes} {s₀ s : PageAllocator}
    (h₀ : initMemory map junk = .ok s₀)
    (hrun : ReflTransGen (fun s s' => ∃ op, PageCall.TakesManaged op s ∧ op.Step s s') s₀ s) :
    Accounting s.memory ∧
      ∀ op s', PageCall.Step op s s' → (Accounting s'.memory ↔ op.TakesManaged s) := by
  have hinit := afterInit_of_initMemory h₀
  obtain ⟨hs, ha⟩ := PageCall.run_inv hinit.inBounds (.afterInit hinit) hrun
  exact ⟨ha, fun op s' h => (PageCall.step_inv hs ha h).2⟩

/-- One request on the four-page map takes page `3`. -/
theorem accounting_fourPageMap :
    ∃ s₀ s₁, initMemory fourPageMap (fun _ => 0#8) = .ok s₀ ∧
      PageCall.requestPage.Step s₀ s₁ ∧ Accounting s₁.memory := by
  obtain ⟨s₀, h₀, hinit, ⟨h4, -⟩, hfirst, -⟩ := initMemory_fourPageMap
  have hstep : PageCall.requestPage.Step s₀ (s₀.granted 3) :=
    ⟨_, (PageAllocator.requestPage_returns_iff hinit.inBounds).mpr ⟨3, hfirst, rfl⟩⟩
  have hcond : PageCall.requestPage.TakesManaged s₀ :=
    (PageCall.firstFree_lt_iff hinit.inBounds hfirst).mp (by omega)
  exact ⟨s₀, _, h₀, hstep, (accounting_iff h₀ (.single ⟨_, hcond, hstep⟩)).1⟩

/-- Freeing the page again should leave `free_memory` as it was, at one page; the subtraction
takes it below zero. -/
theorem accounting_broken_fourPageMap :
    ∃ s₀ s₁ s₂, initMemory fourPageMap (fun _ => 0#8) = .ok s₀ ∧
      PageCall.requestPage.Step s₀ s₁ ∧
      (PageCall.freePage (s₁.memory.pageAddr 3)).Step s₁ s₂ ∧
      s₀.memory.freeMemory = 4096 ∧ s₁.memory.freeMemory = 0 ∧
      s₂.memory.freeMemory = 2 ^ 64 - 4096 ∧ ¬ Accounting s₂.memory := by
  obtain ⟨s₀, h₀, ⟨s₁, a⟩, hrequest, s₂, hfree, hfree₀, hfree₁, hfree₂, hwrong⟩ :
      ∃ s₀, initMemory fourPageMap (fun _ => 0#8) = .ok s₀ ∧ ∃ r, s₀.requestPage 8 = .ok r ∧
      ∃ s, r.1.freePage (r.1.memory.pageAddr 3) = .ok s ∧ s₀.memory.freeMemory = 4096 ∧
      r.1.memory.freeMemory = 0 ∧ s.memory.freeMemory = 2 ^ 64 - 4096 ∧
      s.memory.freeMemory ≠ pageSize * s.memory.freeCount := by
    decide +kernel
  exact ⟨s₀, s₁, s₂, h₀, ⟨a, 8, hrequest⟩, hfree, hfree₀, hfree₁, hfree₂, fun h => hwrong h.1⟩

end Bloodmoon
