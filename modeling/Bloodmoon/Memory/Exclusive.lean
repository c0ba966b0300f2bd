import Bloodmoon.Memory.Init

/-!
# Pages are handed out exclusively

The allocator together with the addresses its callers hold: a request adds the address it
returns, a free takes the address of a held page away. Along every such run the held pages are
taken pages other than the reserved ones, one page for each address (`HeldInv`). So a page that
is handed out is held by nobody and is not reserved, and freeing one clears its bit and no
other.
-/

namespace Bloodmoon

open Machine Relation SystemMemory PageAllocator

/-- One call of `request_page`, or of `free_page` on a held address. -/
inductive HeldStep : PageAllocator × Finset ℕ → PageAllocator × Finset ℕ → Prop
  | request {s s' : PageAllocator} {held : Finset ℕ} {a : ℕ}
      (h : Returns s.requestPage (s', a)) : HeldStep (s, held) (s', insert a held)
  | free {s s' : PageAllocator} {held : Finset ℕ} {a : ℕ} (ha : a ∈ held)
      (h : s.freePage a = .ok s') : HeldStep (s, held) (s', held.erase a)

/-- The invariant of the runs: `used` pages at the start stay taken, and every held address is
that of a taken page after them. -/
structure HeldInv (n first used : ℕ) (s : PageAllocator) (held : Finset ℕ) : Prop where
  inBounds : s.InBounds
  count : s.memory.totalAvailablePages = n
  addr : s.memory.firstAvailablePageAddr = first
  reserved : ∀ i < used, s.memory.taken i = true
  held : ∀ a ∈ held, ∃ i, used ≤ i ∧ i ≤ n ∧ s.memory.taken i = true ∧ a = s.memory.pageAddr i

namespace HeldInv

variable {n first used : ℕ} {s s' : PageAllocator} {held : Finset ℕ} {a : ℕ}

/-- An address depends on the allocator only through the start of the range. -/
private theorem pageAddr_congr {m m' : SystemMemory}
    (h : m.firstAvailablePageAddr = m'.firstAvailablePageAddr) (i : ℕ) :
    m.pageAddr i = m'.pageAddr i := by
  rw [pageAddr, pageAddr, h]

theorem afterInit (h : AfterInit s) :
    HeldInv s.memory.totalAvailablePages s.memory.firstAvailablePageAddr
      (usedSpace s.memory.totalAvailablePages) s ∅ where
  inBounds := h.inBounds
  count := rfl
  addr := rfl
  reserved i hi := by
    have hle := h.used_le
    rw [h.taken_iff i (by omega)]
    simpa using hi
  held a ha := absurd ha (Finset.notMem_empty a)

/-- What the search finds is a page that is neither reserved nor held. -/
theorem of_firstFree (hinv : HeldInv n first used s held) {d : ℕ}
    (hd : s.memory.firstFree s.lastRequested = some d) :
    s.memory.taken d = false ∧ used ≤ d ∧ d ≤ n ∧ s.memory.pageAddr d ∉ held := by
  obtain ⟨hfree, hpos⟩ := firstFree_eq_some_iff.mp hd
  have hcount := hinv.count
  have hcur := hinv.inBounds.cursor
  have hsmall := hinv.inBounds.small
  have hused : used ≤ d := by
    by_contra hlt
    rw [hinv.reserved d (by omega)] at hfree
    exact absurd hfree (by simp)
  refine ⟨hfree, hused, by omega, fun hmem => ?_⟩
  obtain ⟨i, -, hin, htaken, heq⟩ := hinv.held _ hmem
  rw [pageAddr_inj (by omega) (by omega) heq, htaken] at hfree
  exact absurd hfree (by simp)

theorem request (hinv : HeldInv n first used s held) (h : Returns s.requestPage (s', a)) :
    HeldInv n first used s' (insert a held) := by
  obtain ⟨d, hd, heq⟩ := (requestPage_returns_iff hinv.inBounds).mp h
  obtain ⟨rfl, rfl⟩ := Prod.mk.inj heq
  obtain ⟨hfree, hused, hdn, hnew⟩ := hinv.of_firstFree hd
  have hcount := hinv.count
  have hb := hinv.inBounds
  refine ⟨⟨hb.pos, hb.small, ?_, hb.contiguous⟩, hinv.count, hinv.addr, fun i hi => ?_,
    fun b hbmem => ?_⟩
  · change d ≤ s.memory.totalAvailablePages
    omega
  · rw [granted, taken_withLocked, hinv.reserved i hi, Bool.or_true]
  · rcases Finset.mem_insert.mp hbmem with rfl | hbmem
    · exact ⟨d, hused, hdn, by simp [granted], pageAddr_congr rfl d⟩
    · obtain ⟨i, hi, hin, htaken, rfl⟩ := hinv.held b hbmem
      exact ⟨i, hi, hin, by simp [granted, htaken], pageAddr_congr rfl i⟩

theorem free (hinv : HeldInv n first used s held) (ha : a ∈ held)
    (h : s.freePage a = .ok s') : HeldInv n first used s' (held.erase a) := by
  obtain ⟨i, hi, hin, htaken, rfl⟩ := hinv.held a ha
  have hcount := hinv.count
  have hb := hinv.inBounds
  have hsmall := hb.small
  have hidx : s.memory.pageIndex (s.memory.pageAddr i) = i := pageIndex_pageAddr (by omega)
  obtain ⟨-, -, -, rfl⟩ := freePage_eq_ok_iff.mp h
  rw [hidx]
  refine ⟨⟨hb.pos, hb.small, hb.cursor, hb.contiguous⟩, hinv.count, hinv.addr, fun j hj => ?_,
    fun b hbmem => ?_⟩
  · rw [taken_withUnlocked, hinv.reserved j hj]
    simp only [Bool.and_true, Bool.not_eq_true', decide_eq_false_iff_not]
    omega
  · obtain ⟨hne, hbmem⟩ := Finset.mem_erase.mp hbmem
    obtain ⟨j, hj, hjn, htaken', rfl⟩ := hinv.held b hbmem
    refine ⟨j, hj, hjn, ?_, pageAddr_congr rfl j⟩
    have hji : j ≠ i := fun h => hne (by rw [h])
    simp [htaken', hji]

theorem run {w w' : PageAllocator × Finset ℕ} (hinv : HeldInv n first used w.1 w.2)
    (h : ReflTransGen HeldStep w w') : HeldInv n first used w'.1 w'.2 := by
  induction h with
  | refl => exact hinv
  | tail _ hstep ih =>
    cases hstep with
    | request h => exact ih.request h
    | free ha h => exact ih.free ha h

end HeldInv

/-- **Exclusive pages.** In every state that requests and frees of held pages lead to after
`init_memory`: the page a request returns is not held and not reserved, and a free of a held
page clears the bit of that page and changes no other. The free does return, as long as the
page's address has not wrapped around the address space. -/
theorem requestPage_exclusive {map : List MemmapEntry} {junk : Bytes} {s₀ s : PageAllocator}
    {held : Finset ℕ} (h₀ : initMemory map junk = .ok s₀)
    (hrun : ReflTransGen HeldStep (s₀, ∅) (s, held)) :
    (∀ s' a, Returns s.requestPage (s', a) →
      a ∉ held ∧ ∀ i < usedSpace s₀.memory.totalAvailablePages, a ≠ s₀.memory.pageAddr i) ∧
    ∀ a ∈ held,
      (s.memory.firstAvailablePageAddr ≤ a → ∃ s', s.freePage a = .ok s') ∧
      ∀ s', s.freePage a = .ok s' →
        s.memory.taken (s.memory.pageIndex a) = true ∧
        s'.memory.taken (s.memory.pageIndex a) = false ∧
        ∀ i, i ≠ s.memory.pageIndex a → s'.memory.taken i = s.memory.taken i := by
  have hinit := afterInit_of_initMemory h₀
  have hinv := (HeldInv.afterInit hinit).run hrun
  dsimp only at hinv
  have hcount := hinv.count
  have hsmall := hinv.inBounds.small
  refine ⟨fun s' a hret => ?_, fun a ha => ?_⟩
  · obtain ⟨d, hd, heq⟩ := (requestPage_returns_iff hinv.inBounds).mp hret
    obtain ⟨-, rfl⟩ := Prod.mk.inj heq
    obtain ⟨-, hused, hdn, hnew⟩ := hinv.of_firstFree hd
    refine ⟨hnew, fun i hi hai => ?_⟩
    have hsame : s₀.memory.pageAddr i = s.memory.pageAddr i := by
      rw [pageAddr, pageAddr, hinv.addr]
    have := pageAddr_inj (by omega) (by omega) (hai.trans hsame)
    omega
  · obtain ⟨i, hi, hin, htaken, rfl⟩ := hinv.held a ha
    have hidx : s.memory.pageIndex (s.memory.pageAddr i) = i := pageIndex_pageAddr (by omega)
    refine ⟨fun hle => ⟨_, freePage_eq_ok_iff.mpr ⟨hle, ?_, ?_, rfl⟩⟩, fun s' hfree => ?_⟩
    · omega
    · rw [hidx]
      exact htaken
    · obtain ⟨-, -, -, rfl⟩ := freePage_eq_ok_iff.mp hfree
      rw [hidx]
      exact ⟨htaken, by simp, fun j hj => by simp [hj]⟩

/-- On the four-page map the one free page is handed out, and is not handed out again. -/
theorem requestPage_exclusive_fourPageMap :
    ∃ s₀, initMemory fourPageMap (fun _ => 0#8) = .ok s₀ ∧
      Returns s₀.requestPage (s₀.granted 3, s₀.memory.pageAddr 3) ∧
      ∀ s' a, Returns (s₀.granted 3).requestPage (s', a) → a ≠ s₀.memory.pageAddr 3 := by
  obtain ⟨s₀, h₀, hinit, -, hfirst, -, -⟩ := initMemory_fourPageMap
  have hret : Returns s₀.requestPage (s₀.granted 3, s₀.memory.pageAddr 3) :=
    (requestPage_returns_iff hinit.inBounds).mpr ⟨3, hfirst, rfl⟩
  refine ⟨s₀, h₀, hret, fun s' a h => ?_⟩
  have := ((requestPage_exclusive h₀ (.single (.request hret))).1 s' a h).1
  simpa using this

end Bloodmoon
