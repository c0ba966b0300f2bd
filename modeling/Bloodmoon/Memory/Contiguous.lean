import Bloodmoon.Memory.Init

/-!
# Requests for several pages

`request_contiguous_pages` searches like `request_page` and then locks `num` pages from the
index `d` the search has found. The address it returns is not that of page `d`: it is computed
from the index before the cursor, which was saved before the search moved it.

`requestContiguousPages_spec_iff` says when the pages at the returned address are the locked
ones all the same, in every state that calls of the allocator lead to: when the search has gone
all the way round and found the page before the cursor, or when the call does not return.
-/

namespace Bloodmoon

open Machine Relation SystemMemory PageAllocator

/-! ### The loop that locks -/

namespace SystemMemory

/-- The memory after `num` pages from index `d` on are locked. -/
def withLockedRun (m : SystemMemory) (d : ℕ) : ℕ → SystemMemory
  | 0 => m
  | num + 1 => (m.withLocked d).withLockedRun (d + 1) num

@[simp]
theorem totalAvailablePages_withLockedRun (m : SystemMemory) (d num : ℕ) :
    (m.withLockedRun d num).totalAvailablePages = m.totalAvailablePages := by
  induction num generalizing m d with
  | zero => rfl
  | succ num ih => exact ih _ _

@[simp]
theorem firstAvailablePageAddr_withLockedRun (m : SystemMemory) (d num : ℕ) :
    (m.withLockedRun d num).firstAvailablePageAddr = m.firstAvailablePageAddr := by
  induction num generalizing m d with
  | zero => rfl
  | succ num ih => exact ih _ _

@[simp]
theorem taken_withLockedRun (m : SystemMemory) (d num i : ℕ) :
    (m.withLockedRun d num).taken i = (decide (d ≤ i ∧ i < d + num) || m.taken i) := by
  induction num generalizing m d with
  | zero => simp [withLockedRun, show ¬ (d ≤ i ∧ i < d) by omega]
  | succ num ih =>
    rw [withLockedRun, ih, taken_withLocked, ← Bool.or_assoc, ← Bool.decide_or]
    congr 2
    exact propext (by omega)

end SystemMemory

namespace PageAllocator

/-- **The locking loop gets through** exactly when all its pages are in range and free. -/
theorem lockRun_eq_ok_iff {m : SystemMemory} {d num : ℕ} {r : SystemMemory × ℕ}
    (hN : m.totalAvailablePages < 2 ^ 51) (hd : d ≤ m.totalAvailablePages + 1) :
    lockRun m d num = .ok r ↔
      (∀ i < num, d + i ≤ m.totalAvailablePages ∧ m.taken (d + i) = false) ∧
        r = (m.withLockedRun d num, d + num) := by
  induction num generalizing m d with
  | zero =>
    refine ⟨fun h => ⟨fun i hi => absurd hi (Nat.not_lt_zero i), (Except.ok.inj h).symm⟩, ?_⟩
    rintro ⟨-, rfl⟩
    rfl
  | succ num ih =>
    simp only [lockRun, rawGetPageBit_eq_one_iff]
    cases ht : m.taken d with
    | true =>
      refine iff_of_false kpanic_ne_ok fun h => ?_
      have := (h.1 0 (by omega)).2
      rw [Nat.add_zero, ht] at this
      exact absurd this (by simp)
    | false =>
      rw [if_neg (by simp)]
      simp only [bind_eq_ok, lockPage_eq_ok_iff,
        addrToPage_shiftLeft (show d < 2 ^ 52 by omega), ht, true_and]
      rw [wrap_of_lt (by omega)]
      constructor
      · rintro ⟨m₁, ⟨hle, rfl⟩, h⟩
        have hN' : (m.withLocked d).totalAvailablePages < 2 ^ 51 := hN
        have hd' : d + 1 ≤ (m.withLocked d).totalAvailablePages + 1 := Nat.succ_le_succ hle
        obtain ⟨hall, rfl⟩ := (ih hN' hd').mp h
        refine ⟨fun i hi => ?_, by rw [withLockedRun, Nat.add_right_comm]; rfl⟩
        rcases Nat.eq_zero_or_pos i with rfl | hpos
        · exact ⟨hle, ht⟩
        · obtain ⟨hlt, hfree⟩ := hall (i - 1) (by omega)
          rw [taken_withLocked, show d + 1 + (i - 1) = d + i by omega,
            Bool.or_eq_false_iff] at hfree
          exact ⟨by change d + 1 + (i - 1) ≤ m.totalAvailablePages at hlt; omega, hfree.2⟩
      · rintro ⟨hall, rfl⟩
        have hle : d ≤ m.totalAvailablePages := (hall 0 (by omega)).1
        refine ⟨_, ⟨hle, rfl⟩, ?_⟩
        have hN' : (m.withLocked d).totalAvailablePages < 2 ^ 51 := hN
        have hd' : d + 1 ≤ (m.withLocked d).totalAvailablePages + 1 := Nat.succ_le_succ hle
        refine (ih hN' hd').mpr ⟨fun i hi => ?_, by
          rw [withLockedRun, Nat.add_right_comm]; rfl⟩
        obtain ⟨hlt, hfree⟩ := hall (i + 1) (by omega)
        refine ⟨by change d + 1 + i ≤ m.totalAvailablePages; omega, ?_⟩
        rw [taken_withLocked, show d + 1 + i = d + (i + 1) by omega, hfree]
        simp

/-- **`request_contiguous_pages` returns** when the pages from the first free index on are in
range and free; it locks them, and hands out the address of the page before the cursor. -/
theorem requestContiguousPages_returns_iff {s : PageAllocator} (hs : s.InBounds)
    (hN : s.memory.totalAvailablePages < 2 ^ 51) {num : ℕ} {r : PageAllocator × ℕ} :
    Returns (s.requestContiguousPages num) r ↔
      ∃ d, s.memory.firstFree s.lastContiguous = some d ∧
        (∀ i < num, d + i ≤ s.memory.totalAvailablePages ∧ s.memory.taken (d + i) = false) ∧
        r = ({ s with memory := s.memory.withLockedRun d num, lastContiguous := d + num },
          s.memory.pageAddr (wsub s.lastContiguous 1)) := by
  have hcur := hs.contiguous
  refine returns_bind_iff.trans (exists_congr fun d => ?_)
  rw [search_returns_iff (by omega) (by omega) hs.pos]
  refine and_congr_right fun hd => ?_
  obtain ⟨-, hpos⟩ := firstFree_eq_some_iff.mp hd
  simp only [bind_eq_ok, lockRun_eq_ok_iff hN (show d ≤ _ by omega)]
  constructor
  · rintro ⟨_, ⟨hall, rfl⟩, h⟩
    refine ⟨hall, ?_⟩
    rw [← Except.ok.inj h, firstAvailablePageAddr_withLockedRun]
    rfl
  · rintro ⟨hall, rfl⟩
    refine ⟨_, ⟨hall, rfl⟩, ?_⟩
    rw [firstAvailablePageAddr_withLockedRun]
    rfl

end PageAllocator

/-! ### Runs of the whole allocator -/

/-- The calls that change the bitmap and no cursor. -/
inductive MemoryCall where
  | reservePage (address : ℕ)
  | unreservePage (address : ℕ)
  | lockPage (address : ℕ)
  | unlockPage (address : ℕ)
  | reservePages (address pages : ℕ)
  | unreservePages (address pages : ℕ)
  | lockPages (address pages : ℕ)
  | unlockPages (address pages : ℕ)

/-- The call, on the memory. -/
def MemoryCall.run (m : SystemMemory) : MemoryCall → Outcome SystemMemory
  | reservePage address => m.reservePage address
  | unreservePage address => m.unreservePage address
  | lockPage address => m.lockPage address
  | unlockPage address => m.unlockPage address
  | reservePages address pages => m.reservePages address pages
  | unreservePages address pages => m.unreservePages address pages
  | lockPages address pages => m.lockPages address pages
  | unlockPages address pages => m.unlockPages address pages

/-- One call of any function of the allocator. -/
inductive AllocatorStep : PageAllocator → PageAllocator → Prop
  | memory {s : PageAllocator} {m : SystemMemory} (call : MemoryCall)
      (h : call.run s.memory = .ok m) : AllocatorStep s { s with memory := m }
  | requestPage {s s' : PageAllocator} {a : ℕ} (h : Returns s.requestPage (s', a)) :
      AllocatorStep s s'
  | freePage {s s' : PageAllocator} {a : ℕ} (h : s.freePage a = .ok s') : AllocatorStep s s'
  | requestContiguousPages {s s' : PageAllocator} {num a : ℕ}
      (h : Returns (s.requestContiguousPages num) (s', a)) : AllocatorStep s s'
  | freeContiguousPages {s s' : PageAllocator} {num a : ℕ}
      (h : s.freeContiguousPages a num = .ok s') : AllocatorStep s s'

namespace SystemMemory

variable {m m' : SystemMemory} {address : ℕ}

private theorem count_of_reservePage (h : m.reservePage address = .ok m') :
    m'.totalAvailablePages = m.totalAvailablePages := by
  obtain ⟨-, -, rfl⟩ := reservePage_eq_ok_iff.mp h
  rfl

private theorem count_of_lockPage (h : m.lockPage address = .ok m') :
    m'.totalAvailablePages = m.totalAvailablePages := by
  obtain ⟨-, -, rfl⟩ := lockPage_eq_ok_iff.mp h
  rfl

private theorem count_of_unlockPage (h : m.unlockPage address = .ok m') :
    m'.totalAvailablePages = m.totalAvailablePages := by
  obtain ⟨-, -, rfl⟩ := unlockPage_eq_ok_iff.mp h
  rfl

private theorem count_of_unreservePage (h : m.unreservePage address = .ok m') :
    m'.totalAvailablePages = m.totalAvailablePages := by
  obtain ⟨-, -, rfl⟩ := unreservePage_eq_ok_iff.mp h
  rfl

/-- No call changes the number of managed pages. -/
theorem count_of_run {call : MemoryCall} (h : call.run m = .ok m') :
    m'.totalAvailablePages = m.totalAvailablePages := by
  cases call with
  | reservePage address => exact count_of_reservePage h
  | unreservePage address => exact count_of_unreservePage h
  | lockPage address => exact count_of_lockPage h
  | unlockPage address => exact count_of_unlockPage h
  | reservePages address pages =>
    change m.reservePages address pages = .ok m' at h
    unfold reservePages at h
    split_ifs at h with hneg
    · exact absurd h kpanic_ne_ok
    · exact eachPage_keeps count_of_reservePage h
  | unreservePages address pages =>
    change eachPage unreservePage m address pages = .ok m' at h
    exact eachPage_keeps count_of_unreservePage h
  | lockPages address pages =>
    change eachPage lockPage m address pages = .ok m' at h
    exact eachPage_keeps count_of_lockPage h
  | unlockPages address pages =>
    change eachPage unlockPage m address pages = .ok m' at h
    exact eachPage_keeps count_of_unlockPage h

private theorem count_of_unlockRun {i num : ℕ}
    (h : unlockRun m address i num = .ok m') :
    m'.totalAvailablePages = m.totalAvailablePages := by
  induction num generalizing m i with
  | zero => rw [show m = m' from Except.ok.inj h]
  | succ num ih =>
    rw [unlockRun] at h
    split_ifs at h with hclear
    · exact absurd h kpanic_ne_ok
    · obtain ⟨m₁, h₁, h⟩ := bind_eq_ok.mp h
      rw [ih h, count_of_unlockPage h₁]

end SystemMemory

namespace PageAllocator

variable {s s' : PageAllocator}

/-- A state with as many pages and cursors in range is in bounds. -/
private theorem InBounds.of_count (hs : s.InBounds)
    (hN : s'.memory.totalAvailablePages = s.memory.totalAvailablePages)
    (hcur : s'.lastRequested ≤ s.memory.totalAvailablePages)
    (hcont : s'.lastContiguous ≤ s.memory.totalAvailablePages + 1) : s'.InBounds :=
  ⟨hN ▸ hs.pos, hN ▸ hs.small, hN ▸ hcur, hN ▸ hcont⟩

/-- Every call keeps the number of pages, and the cursors in range. -/
theorem InBounds.step (hs : s.InBounds) (hN : s.memory.totalAvailablePages < 2 ^ 51)
    (h : AllocatorStep s s') :
    s'.InBounds ∧ s'.memory.totalAvailablePages = s.memory.totalAvailablePages := by
  have hcur := hs.cursor
  have hcont := hs.contiguous
  cases h with
  | memory call h =>
    have hcount := count_of_run h
    exact ⟨hs.of_count hcount hcur hcont, hcount⟩
  | requestPage h =>
    obtain ⟨d, hd, heq⟩ := (requestPage_returns_iff hs).mp h
    obtain ⟨rfl, -⟩ := Prod.mk.inj heq
    obtain ⟨-, hpos⟩ := firstFree_eq_some_iff.mp hd
    exact ⟨hs.of_count rfl (show d ≤ _ by omega) hcont, rfl⟩
  | freePage h =>
    obtain ⟨-, -, -, rfl⟩ := freePage_eq_ok_iff.mp h
    exact ⟨hs.of_count rfl hcur hcont, rfl⟩
  | requestContiguousPages h =>
    obtain ⟨d, hd, hall, heq⟩ := (requestContiguousPages_returns_iff hs hN).mp h
    obtain ⟨rfl, -⟩ := Prod.mk.inj heq
    obtain ⟨-, hpos⟩ := firstFree_eq_some_iff.mp hd
    rename_i num _
    have hnext : d + num ≤ s.memory.totalAvailablePages + 1 := by
      rcases Nat.eq_zero_or_pos num with rfl | hnum
      · omega
      · have := (hall (num - 1) (by omega)).1
        omega
    have hcount := s.memory.totalAvailablePages_withLockedRun d num
    exact ⟨hs.of_count hcount hcur hnext, hcount⟩
  | freeContiguousPages h =>
    rw [freeContiguousPages] at h
    split_ifs at h with hlow
    · exact absurd h kpanic_ne_ok
    · obtain ⟨m, hm, h⟩ := bind_eq_ok.mp h
      have hcount := count_of_unlockRun hm
      split_ifs at h with hset
      · exact absurd h kpanic_ne_ok
      · obtain rfl := Except.ok.inj h
        exact ⟨hs.of_count hcount hcur hcont, hcount⟩

theorem InBounds.run (hs : s.InBounds) (hN : s.memory.totalAvailablePages < 2 ^ 51)
    (h : ReflTransGen AllocatorStep s s') :
    s'.InBounds ∧ s'.memory.totalAvailablePages = s.memory.totalAvailablePages := by
  induction h with
  | refl => exact ⟨hs, rfl⟩
  | tail _ hstep ih =>
    obtain ⟨hb, hcount⟩ := ih
    obtain ⟨hb', hcount'⟩ := hb.step (hcount ▸ hN) hstep
    exact ⟨hb', hcount'.trans hcount⟩

end PageAllocator

/-! ### The pages at the returned address -/

/-- The index of the `i`-th page at and after the address `a`. -/
def SystemMemory.blockPage (m : SystemMemory) (a i : ℕ) : ℕ :=
  m.pageIndex (wrap (a + wrap (i <<< 12)))

theorem SystemMemory.blockPage_pageAddr (m : SystemMemory) (k i : ℕ) :
    m.blockPage (m.pageAddr k) i = (k + i) % 2 ^ 52 := by
  simp only [blockPage, pageIndex, pageAddr, addrToPage, Nat.shiftLeft_eq,
    Nat.shiftRight_eq_div_pow, wrap, wsub]
  omega

/-- When a request for `num` pages returns an address, the `num` pages from there on were free,
and they and no others become taken. -/
def ContiguousSpec (s : PageAllocator) (num : ℕ) : Prop :=
  ∀ s' a, Returns (s.requestContiguousPages num) (s', a) →
    (∀ i < num, s.memory.taken (s.memory.blockPage a i) = false) ∧
    ∀ j, s'.memory.taken j = true ↔ s.memory.taken j = true ∨ ∃ i < num, j = s.memory.blockPage a i

/-- The search ends at the page before the cursor, or at one where the locking loop panics. -/
def FoundBeforeCursor (s : PageAllocator) (num : ℕ) : Prop :=
  ∀ d, s.memory.firstFree s.lastContiguous = some d →
    d + 1 = s.lastContiguous ∨
      ∃ i < num, s.memory.totalAvailablePages < d + i ∨ s.memory.taken (d + i) = true

/-- The two ranges are the same exactly when they start at the same page. -/
private theorem blockPage_eq_range_iff {s : PageAllocator} {d num : ℕ} (hs : s.InBounds)
    (hN : s.memory.totalAvailablePages < 2 ^ 51) (hnum : 1 ≤ num)
    (hall : ∀ i < num, d + i ≤ s.memory.totalAvailablePages ∧ s.memory.taken (d + i) = false) :
    ((∀ i < num, s.memory.taken
        (s.memory.blockPage (s.memory.pageAddr (wsub s.lastContiguous 1)) i) = false) ∧
      ∀ j, (s.memory.withLockedRun d num).taken j = true ↔ s.memory.taken j = true ∨
        ∃ i < num, j = s.memory.blockPage (s.memory.pageAddr (wsub s.lastContiguous 1)) i) ↔
      d + 1 = s.lastContiguous := by
  have hcont := hs.contiguous
  have hlast := (hall (num - 1) (by omega)).1
  simp only [blockPage_pageAddr, taken_withLockedRun, Bool.or_eq_true, decide_eq_true_eq]
  constructor
  · rintro ⟨hfree, hiff⟩
    -- the first page of the block was free and is taken now, so the loop has locked it
    have hfst : d ≤ (wsub s.lastContiguous 1 + 0) % 2 ^ 52 ∧
        (wsub s.lastContiguous 1 + 0) % 2 ^ 52 < d + num := by
      rcases (hiff _).mpr (.inr ⟨0, hnum, rfl⟩) with h | h
      · exact h
      · rw [hfree 0 hnum] at h
        exact absurd h (by simp)
    -- page `d` was free and is taken now, so it is one of the block
    obtain ⟨i, hi, hd⟩ : ∃ i < num, d = (wsub s.lastContiguous 1 + i) % 2 ^ 52 := by
      rcases (hiff d).mp (.inl ⟨Nat.le_refl d, by omega⟩) with h | h
      · rw [show d = d + 0 from rfl, (hall 0 hnum).2] at h
        exact absurd h (by simp)
      · exact h
    unfold wsub at *
    omega
  · intro hd
    have hk : ∀ i < num, (wsub s.lastContiguous 1 + i) % 2 ^ 52 = d + i := by
      intro i hi
      rw [wsub_of_le (by omega) (by omega)]
      omega
    refine ⟨fun i hi => by rw [hk i hi]; exact (hall i hi).2, fun j => ?_⟩
    rw [or_comm]
    refine or_congr_right ⟨fun h => ⟨j - d, by omega, ?_⟩, ?_⟩
    · rw [hk _ (by omega)]
      omega
    · rintro ⟨i, hi, rfl⟩
      rw [hk i hi]
      omega

/-- **`request_contiguous_pages` hands out the pages it locks** exactly when its search ends at
the page before the cursor or its loop panics: in every state that calls of the allocator lead
to after `init_memory`. -/
theorem requestContiguousPages_spec_iff {map : List MemmapEntry} {junk : Bytes}
    {s₀ s : PageAllocator} {num : ℕ} (hmap : PhysicalMap map)
    (h₀ : initMemory map junk = .ok s₀) (hrun : ReflTransGen AllocatorStep s₀ s)
    (hnum : 1 ≤ num) : ContiguousSpec s num ↔ FoundBeforeCursor s num := by
  have hN₀ := totalAvailablePages_le_of_physicalMap hmap h₀
  obtain ⟨hs, hcount⟩ := (afterInit_of_initMemory h₀).inBounds.run (by omega) hrun
  have hN : s.memory.totalAvailablePages < 2 ^ 51 := by omega
  constructor
  · intro hspec d hd
    by_cases hall : ∀ i < num, d + i ≤ s.memory.totalAvailablePages ∧
        s.memory.taken (d + i) = false
    · have hret := (requestContiguousPages_returns_iff hs hN).mpr
        ⟨d, hd, hall, rfl⟩
      exact .inl ((blockPage_eq_range_iff hs hN hnum hall).mp (hspec _ _ hret))
    · push Not at hall
      obtain ⟨i, hi, h⟩ := hall
      refine .inr ⟨i, hi, ?_⟩
      by_cases hle : d + i ≤ s.memory.totalAvailablePages
      · exact .inr (by simpa using h hle)
      · exact .inl (by omega)
  · intro hfound s' a hret
    obtain ⟨d, hd, hall, heq⟩ := (requestContiguousPages_returns_iff hs hN).mp hret
    obtain ⟨hs', ha⟩ := Prod.mk.inj heq
    rw [hs', ha]
    refine (blockPage_eq_range_iff hs hN hnum hall).mpr ?_
    rcases hfound d hd with h | ⟨i, hi, hout⟩
    · exact h
    · obtain ⟨hle, hfree⟩ := hall i hi
      rw [hfree] at hout
      rcases hout with h | h
      · omega
      · exact absurd h (by simp)

private theorem physicalMap_fourPageMap : PhysicalMap fourPageMap := by
  intro e he
  rw [List.mem_singleton.mp he]
  decide

/-- The condition can hold with a call that returns: the request for one page, then the index
after the range locked and page `3` unlocked. Page `3` is then the last page the search looks
at, and the one before the cursor. -/
theorem requestContiguousPages_spec_fourPageMap :
    ∃ s₀ s, initMemory fourPageMap (fun _ => 0#8) = .ok s₀ ∧ ReflTransGen AllocatorStep s₀ s ∧
      (∃ r, Returns (s.requestContiguousPages 1) r) ∧ ContiguousSpec s 1 := by
  obtain ⟨s₀, h₀, ⟨s₁, a⟩, hret, m, hlock, m', hunlock, r, hret', hfound, hcursor⟩ :
      ∃ s₀, initMemory fourPageMap (fun _ => 0#8) = .ok s₀ ∧
      ∃ r, s₀.requestContiguousPages 1 8 = .ok r ∧ ∃ m, r.1.memory.lockPage 0x4000 = .ok m ∧
      ∃ m', m.unlockPage 0x3000 = .ok m' ∧
      ∃ r', PageAllocator.requestContiguousPages { r.1 with memory := m' } 1 8 = .ok r' ∧
      m'.firstFree r.1.lastContiguous = some 3 ∧ r.1.lastContiguous = 3 + 1 := by
    decide +kernel
  have hrun : ReflTransGen AllocatorStep s₀ { s₁ with memory := m' } :=
    .tail (.tail (.single (.requestContiguousPages ⟨8, hret⟩)) (.memory (.lockPage 0x4000) hlock))
      (.memory (.unlockPage 0x3000) hunlock)
  refine ⟨s₀, _, h₀, hrun, ⟨r, 8, hret'⟩, (requestContiguousPages_spec_iff
    physicalMap_fourPageMap h₀ hrun (by omega)).mpr fun d hd => .inl ?_⟩
  rw [← Option.some.inj (hfound.symm.trans hd)]
  exact hcursor.symm

/-- The very first request locks page `3` of the range at `0x100000` and returns `0xff000`, the
page below the range. -/
theorem requestContiguousPages_wrong_fourPageMap :
    ∃ s₀ s₁, initMemory fourPageMap (fun _ => 0#8) = .ok s₀ ∧
      Returns (s₀.requestContiguousPages 1) (s₁, 0xff000) ∧
      s₀.memory.firstAvailablePageAddr = 0x100000 ∧
      s₀.memory.taken 3 = false ∧ s₁.memory.taken 3 = true ∧ ¬ ContiguousSpec s₀ 1 := by
  obtain ⟨s₀, h₀, hinit, ⟨h4, hbase⟩, -, hfirst, hbits⟩ := initMemory_fourPageMap
  have hfree : s₀.memory.taken 3 = false := hbits 3 (by decide)
  have hall : ∀ i < 1, 3 + i ≤ s₀.memory.totalAvailablePages ∧
      s₀.memory.taken (3 + i) = false := by
    intro i hi
    obtain rfl : i = 0 := by omega
    exact ⟨by omega, hfree⟩
  have hret := (requestContiguousPages_returns_iff hinit.inBounds
    (by omega)).mpr ⟨3, hfirst, hall, rfl⟩
  have haddr : s₀.memory.pageAddr (wsub s₀.lastContiguous 1) = 0xff000 := by
    rw [pageAddr, hbase, hinit.contiguous]
    decide
  have hwrong : ¬ ContiguousSpec s₀ 1 := by
    intro hspec
    have h := (blockPage_eq_range_iff hinit.inBounds (by omega) (by omega) hall).mp
      (hspec _ _ hret)
    rw [hinit.contiguous] at h
    omega
  rw [haddr] at hret
  exact ⟨s₀, _, h₀, hret, hbase, hfree, by simp, hwrong⟩

end Bloodmoon
