import Bloodmoon.Memory.Init

/-!
# When `request_page` finds a free page

`RequestPageSpec` is what a page allocator owes its callers: a request ends, it returns a free
managed page when there is one, and it panics exactly when there is none. The search of
`request_page` looks at the index `N` of the page after the last managed one before it wraps,
because the wrap comes after the bit test, and the bounds checks of `lock_page` accept that
index too. So when everything from the cursor to the end is taken and bit `N` is clear, the
request returns an address outside the managed range.

`requestPage_spec_iff` says that this is the only failure, in every state that requests and
frees lead to; the one page that the wrapped search leaves out, page `0`, is one `init_memory`
reserves.
-/

namespace Bloodmoon

open Machine Relation SystemMemory PageAllocator

/-- One call of `request_page`, or of `free_page` on any address it accepts. -/
inductive AllocStep : PageAllocator → PageAllocator → Prop
  | request {s s' : PageAllocator} {a : ℕ} (h : Returns s.requestPage (s', a)) : AllocStep s s'
  | free {s s' : PageAllocator} {a : ℕ} (h : s.freePage a = .ok s') : AllocStep s s'

/-- A request ends; if a managed page is free it returns the address of one; it panics exactly
when no managed page is free. -/
def RequestPageSpec (s : PageAllocator) : Prop :=
  Terminates s.requestPage ∧
  ((∃ i < s.memory.totalAvailablePages, s.memory.taken i = false) →
    ∃ s', ∃ d < s.memory.totalAvailablePages, s.memory.taken d = false ∧
      Returns s.requestPage (s', s.memory.pageAddr d)) ∧
  (Panics s.requestPage ↔ ¬ ∃ i < s.memory.totalAvailablePages, s.memory.taken i = false)

/-- The search does not run into the index after the last managed page: a page from the cursor
on is free, or the bit of that index is set and page `0` is not the only free page. -/
def SearchStaysInside (s : PageAllocator) : Prop :=
  (∃ i, s.lastRequested ≤ i ∧ i < s.memory.totalAvailablePages ∧ s.memory.taken i = false) ∨
  (s.memory.taken s.memory.totalAvailablePages = true ∧
    ((∃ i < s.memory.totalAvailablePages, s.memory.taken i = false) →
      ∃ i, 1 ≤ i ∧ i < s.memory.totalAvailablePages ∧ s.memory.taken i = false))

/-- The invariant of the runs. Cursor `0` is that of an allocator that has handed out no page
after page `0`, so it cannot be full. -/
structure SearchInv (s : PageAllocator) : Prop where
  inBounds : s.InBounds
  start : s.lastRequested = 0 → s.memory.taken s.memory.totalAvailablePages = true →
    ∃ i, 1 ≤ i ∧ i < s.memory.totalAvailablePages ∧ s.memory.taken i = false

namespace SearchInv

variable {s s' : PageAllocator}

theorem afterInit (h : AfterInit s) : SearchInv s :=
  ⟨h.inBounds, fun _ hend => h.exists_free_of_taken_end hend⟩

theorem step (hinv : SearchInv s) (h : AllocStep s s') : SearchInv s' := by
  obtain ⟨hb, hstart⟩ := hinv
  cases h with
  | request h =>
    obtain ⟨d, hd, heq⟩ := (requestPage_returns_iff hb).mp h
    obtain ⟨rfl, -⟩ := Prod.mk.inj heq
    obtain ⟨-, hpos⟩ := firstFree_eq_some_iff.mp hd
    have hcur := hb.cursor
    refine ⟨⟨hb.pos, hb.small, ?_, hb.contiguous⟩, fun h0 hend => ?_⟩
    · change d ≤ s.memory.totalAvailablePages
      omega
    · -- the cursor is still `0`: the page handed out is page `0`
      subst h0
      have hne : s.memory.totalAvailablePages ≠ 0 := by
        have := hb.pos
        omega
      change (s.memory.withLocked 0).taken s.memory.totalAvailablePages = true at hend
      simp only [taken_withLocked, hne, decide_false, Bool.false_or] at hend
      obtain ⟨i, h1, hi, hfree⟩ := hstart (by omega) hend
      refine ⟨i, h1, hi, ?_⟩
      change (s.memory.withLocked 0).taken i = false
      simp [hfree, show i ≠ 0 by omega]
  | free h =>
    obtain ⟨-, -, -, rfl⟩ := freePage_eq_ok_iff.mp h
    refine ⟨⟨hb.pos, hb.small, hb.cursor, hb.contiguous⟩, fun h0 hend => ?_⟩
    have hend' : s.memory.taken s.memory.totalAvailablePages = true := by
      rw [taken_withUnlocked, Bool.and_eq_true] at hend
      exact hend.2
    obtain ⟨i, h1, hi, hfree⟩ := hstart h0 hend'
    exact ⟨i, h1, hi, by simp [hfree]⟩

theorem run (hinv : SearchInv s) (h : ReflTransGen AllocStep s s') : SearchInv s' := by
  induction h with
  | refl => exact hinv
  | tail _ hstep ih => exact ih.step hstep

/-! ### The three ends of a search -/

/-- The search has found a managed page. -/
theorem spec_of_inside (hinv : SearchInv s) {d : ℕ}
    (hf : s.memory.firstFree s.lastRequested = some d)
    (hd : d < s.memory.totalAvailablePages) : RequestPageSpec s := by
  obtain ⟨hfree, -⟩ := firstFree_eq_some_iff.mp hf
  have hret := (requestPage_returns_iff hinv.inBounds).mpr ⟨d, hf, rfl⟩
  refine ⟨terminates_iff_or.mpr (.inl ⟨_, hret⟩), fun _ => ⟨_, d, hd, hfree, hret⟩, ?_⟩
  exact iff_of_false (s.requestPage_fuelStable.not_panics_of_returns hret)
    fun hnone => hnone ⟨d, hd, hfree⟩

/-- The search has found nothing, and there was nothing to find. -/
theorem spec_of_full (hinv : SearchInv s) (hf : s.memory.firstFree s.lastRequested = none)
    (hcur : 1 ≤ s.lastRequested)
    (hfull : ¬ ∃ i < s.memory.totalAvailablePages, s.memory.taken i = false) :
    RequestPageSpec s := by
  have hpanic := (requestPage_panics_iff hinv.inBounds).mpr ⟨hf, hcur⟩
  exact ⟨terminates_iff_or.mpr (.inr hpanic), fun h => absurd h hfull, iff_of_true hpanic hfull⟩

/-- The search has stopped at the index after the last managed page. -/
theorem not_spec_of_outside (hinv : SearchInv s)
    (hf : s.memory.firstFree s.lastRequested = some s.memory.totalAvailablePages) :
    ¬ RequestPageSpec s := by
  have hret := (requestPage_returns_iff hinv.inBounds).mpr ⟨_, hf, rfl⟩
  have hsmall := hinv.inBounds.small
  rintro ⟨-, hfound, hpanics⟩
  by_cases hex : ∃ i < s.memory.totalAvailablePages, s.memory.taken i = false
  · obtain ⟨s', d, hd, -, hret'⟩ := hfound hex
    have heq := (Prod.mk.inj (s.requestPage_fuelStable.returns_unique hret hret')).2
    have := pageAddr_inj (by omega) (by omega) heq
    omega
  · exact s.requestPage_fuelStable.not_panics_of_returns hret (hpanics.mpr hex)

/-! ### Which end a search comes to -/

private theorem not_taken_and_free {m : SystemMemory} {i : ℕ} (ht : m.taken i = true)
    (hf : m.taken i = false) : False := by
  rw [ht] at hf
  exact absurd hf (by simp)

/-- A free page from the cursor on keeps the search inside. -/
theorem firstFree_of_ahead {i : ℕ} (hi : s.lastRequested ≤ i)
    (hlt : i < s.memory.totalAvailablePages) (hfree : s.memory.taken i = false) :
    ∃ d < s.memory.totalAvailablePages, s.memory.firstFree s.lastRequested = some d := by
  cases hf : s.memory.firstFree s.lastRequested with
  | none =>
    have htaken := firstFree_eq_none_iff.mp hf i (mem_visits.mpr (by omega))
    exact (not_taken_and_free htaken hfree).elim
  | some d =>
    refine ⟨d, ?_, rfl⟩
    by_contra hge
    obtain ⟨-, ⟨-, -, hall⟩ | ⟨-, -, -, hall, -⟩⟩ := firstFree_eq_some_iff.mp hf
    · exact not_taken_and_free (hall i hi (by omega)) hfree
    · exact not_taken_and_free (hall i hi (by omega)) hfree

/-- With everything from the cursor on taken, bit `N` included, the search goes on to the pages
below the cursor. -/
theorem spec_of_wrap (hinv : SearchInv s)
    (hahead : ∀ i, s.lastRequested ≤ i → i < s.memory.totalAvailablePages → s.memory.taken i = true)
    (hend : s.memory.taken s.memory.totalAvailablePages = true)
    (hzero : (∃ i < s.memory.totalAvailablePages, s.memory.taken i = false) →
      ∃ i, 1 ≤ i ∧ i < s.memory.totalAvailablePages ∧ s.memory.taken i = false) :
    RequestPageSpec s := by
  have hcur := hinv.inBounds.cursor
  have hpos : 1 ≤ s.lastRequested := by
    by_contra h0
    obtain ⟨i, h1, hi, hfree⟩ := hinv.start (by omega) hend
    exact not_taken_and_free (hahead i (by omega) hi) hfree
  cases hf : s.memory.firstFree s.lastRequested with
  | some d =>
    refine hinv.spec_of_inside hf ?_
    obtain ⟨hdfree, ⟨hcd, hdn, -⟩ | ⟨-, hdc, -⟩⟩ := firstFree_eq_some_iff.mp hf
    · by_contra hge
      obtain rfl : d = s.memory.totalAvailablePages := by omega
      exact not_taken_and_free hend hdfree
    · omega
  | none =>
    refine hinv.spec_of_full hf hpos fun hex => ?_
    obtain ⟨i, h1, hi, hfree⟩ := hzero hex
    have htaken := firstFree_eq_none_iff.mp hf i (mem_visits.mpr (by omega))
    exact not_taken_and_free htaken hfree

/-- **The exact condition**, for any state that satisfies the invariant. -/
theorem spec_iff (hinv : SearchInv s) : RequestPageSpec s ↔ SearchStaysInside s := by
  have hcur := hinv.inBounds.cursor
  by_cases hahead : ∃ i, s.lastRequested ≤ i ∧ i < s.memory.totalAvailablePages ∧
      s.memory.taken i = false
  · obtain ⟨i, hi, hlt, hfree⟩ := hahead
    obtain ⟨d, hd, hf⟩ := firstFree_of_ahead hi hlt hfree
    exact iff_of_true (hinv.spec_of_inside hf hd) (.inl ⟨i, hi, hlt, hfree⟩)
  have hall : ∀ i, s.lastRequested ≤ i → i < s.memory.totalAvailablePages →
      s.memory.taken i = true := by
    intro i hi hlt
    by_contra hne
    exact hahead ⟨i, hi, hlt, by simpa using hne⟩
  constructor
  · intro hspec
    refine .inr ⟨?_, fun hex => ?_⟩
    · -- a clear bit `N` would end the search outside
      by_contra hclear
      refine hinv.not_spec_of_outside ?_ hspec
      exact firstFree_eq_some_iff.mpr
        ⟨by simpa using hclear, .inl ⟨hcur, Nat.le_max_right _ _, hall⟩⟩
    · -- the page the request returns was found by the search, so it is not page `0`
      obtain ⟨s', d, hd, hdfree, hret⟩ := hspec.2.1 hex
      obtain ⟨e, he, heq⟩ := (requestPage_returns_iff hinv.inBounds).mp hret
      have hsmall := hinv.inBounds.small
      obtain ⟨hefree, hpos⟩ := firstFree_eq_some_iff.mp he
      obtain rfl : d = e := pageAddr_inj (by omega) (by omega) (Prod.mk.inj heq).2
      rcases hpos with ⟨hcd, -, -⟩ | ⟨h1, -⟩
      · exact (not_taken_and_free (hall d hcd hd) hdfree).elim
      · exact ⟨d, h1, hd, hdfree⟩
  · rintro (h | ⟨hend, hzero⟩)
    · exact absurd h hahead
    · exact hinv.spec_of_wrap hall hend hzero

end SearchInv

/-- **`request_page` meets its specification** exactly when its search does not run into the
index after the last managed page: in every state that requests and frees lead to after
`init_memory`, whatever the memory map. -/
theorem requestPage_spec_iff {map : List MemmapEntry} {junk : Bytes} {s₀ s : PageAllocator}
    (h₀ : initMemory map junk = .ok s₀) (hrun : ReflTransGen AllocStep s₀ s) :
    RequestPageSpec s ↔ SearchStaysInside s :=
  ((SearchInv.afterInit (afterInit_of_initMemory h₀)).run hrun).spec_iff

/-- The condition holds, and with it the specification, on the four-page map before the first
request. -/
theorem requestPage_spec_fourPageMap :
    ∃ s₀, initMemory fourPageMap (fun _ => 0#8) = .ok s₀ ∧ RequestPageSpec s₀ := by
  obtain ⟨s₀, h₀, hinit, ⟨h4, -⟩, -, -, htaken⟩ := initMemory_fourPageMap
  have hcursor := hinit.cursor
  exact ⟨s₀, h₀, (requestPage_spec_iff h₀ .refl).mpr
    (.inl ⟨3, by omega, by omega, htaken 3 (by decide)⟩)⟩

/-- After that request no managed page is free, and the next one returns the address of page
`4`, the first after the range, where it should panic. -/
theorem requestPage_outside_fourPageMap :
    ∃ s₀ s₁ s₂ a, initMemory fourPageMap (fun _ => 0#8) = .ok s₀ ∧
      s₀.memory.totalAvailablePages = 4 ∧ Returns s₀.requestPage (s₁, a) ∧
      (∀ i < 4, s₁.memory.taken i = true) ∧
      Returns s₁.requestPage (s₂, s₁.memory.pageAddr 4) ∧ ¬ RequestPageSpec s₁ := by
  obtain ⟨s₀, h₀, ⟨s₁, a⟩, hret, h4, h4', htaken, hfound⟩ :
      ∃ s₀, initMemory fourPageMap (fun _ => 0#8) = .ok s₀ ∧ ∃ r, s₀.requestPage 8 = .ok r ∧
      s₀.memory.totalAvailablePages = 4 ∧ r.1.memory.totalAvailablePages = 4 ∧
      (∀ i < 4, r.1.memory.taken i = true) ∧ r.1.memory.firstFree r.1.lastRequested = some 4 := by
    decide +kernel
  have hinv : SearchInv s₁ :=
    (SearchInv.afterInit (afterInit_of_initMemory h₀)).step (.request ⟨8, hret⟩)
  have hret' := (requestPage_returns_iff hinv.inBounds).mpr ⟨4, hfound, rfl⟩
  exact ⟨s₀, s₁, _, a, h₀, h4, ⟨8, hret⟩, htaken, hret',
    hinv.not_spec_of_outside (hfound.trans (congrArg some h4'.symm))⟩

end Bloodmoon
