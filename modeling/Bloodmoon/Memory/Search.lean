import Bloodmoon.Memory.PageAllocator

/-!
# What the next-fit search finds

A search that begins at the cursor `c` looks at the indices from `c` up to the page count `N`,
then starts again at `1` and goes up to the index before `c`; `visits` is that list. Index `0`
is not in the second half, and index `N`, which is no managed page, is in the first.

`search_returns_iff` and `search_panics_iff` describe the loop completely: it returns the first
free index of the list, and with no free index in the list it panics when the cursor is one of
`1, …, N` and runs forever otherwise.
-/

namespace Bloodmoon

open Machine Relation SystemMemory List

variable {c i : ℕ} {m : SystemMemory}

/-- The indices a search from the cursor `c` looks at, in order. -/
def visits (n c : ℕ) : List ℕ := List.range' c (max c n + 1 - c) ++ List.range' 1 (min (c - 1) n)

/-- The first free index that a search from the cursor `c` looks at. -/
def SystemMemory.firstFree (m : SystemMemory) (c : ℕ) : Option ℕ :=
  (visits m.totalAvailablePages c).find? fun i => !m.taken i

theorem mem_visits {n : ℕ} : i ∈ visits n c ↔ (c ≤ i ∧ i ≤ max c n) ∨ (1 ≤ i ∧ i < c ∧ i ≤ n) := by
  simp only [visits, mem_append, mem_range'_1]
  omega

/-- The first free index lies before the wrap, with every index from the cursor on taken, or
after it, with every index of the first half taken as well. -/
theorem SystemMemory.firstFree_eq_some_iff {d : ℕ} :
    m.firstFree c = some d ↔ m.taken d = false ∧
      ((c ≤ d ∧ d ≤ max c m.totalAvailablePages ∧ ∀ i, c ≤ i → i < d → m.taken i = true) ∨
        (1 ≤ d ∧ d < c ∧ d ≤ m.totalAvailablePages ∧
          (∀ i, c ≤ i → i ≤ max c m.totalAvailablePages → m.taken i = true) ∧
          ∀ i, 1 ≤ i → i < d → m.taken i = true)) := by
  have hfst : c + (max c m.totalAvailablePages + 1 - c) = max c m.totalAvailablePages + 1 := by
    omega
  simp only [firstFree, visits, find?_append, Option.or_eq_some_iff,
    find?_range'_eq_some, find?_range'_eq_none, mem_range'_1, hfst,
    Nat.lt_succ_iff, Bool.not_not, Bool.not_eq_true']
  constructor
  · rintro (⟨hd, ⟨hcd, hdn⟩, hlt⟩ | ⟨hfull, hd, ⟨h1, hdc⟩, hlt⟩)
    · exact ⟨hd, .inl ⟨hcd, hdn, hlt⟩⟩
    · exact ⟨hd, .inr ⟨h1, by omega, by omega, hfull, hlt⟩⟩
  · rintro ⟨hd, ⟨hcd, hdn, hlt⟩ | ⟨h1, hdc, hdn, hfull, hlt⟩⟩
    · exact .inl ⟨hd, ⟨hcd, hdn⟩, hlt⟩
    · exact .inr ⟨hfull, hd, ⟨h1, by omega⟩, hlt⟩

theorem SystemMemory.firstFree_eq_none_iff :
    m.firstFree c = none ↔ ∀ i ∈ visits m.totalAvailablePages c, m.taken i = true := by
  simp [firstFree]

namespace PageAllocator

/-! ### One round of the loop -/

section Search

variable {m : SystemMemory} {c : ℕ}
variable {a b first last : ℕ}

theorem searchBody_of_free (h : m.taken last = false) :
    searchBody m first last = .ok (.inr last) := by
  simp [searchBody, h]

theorem searchBody_of_lt (h : m.taken last = true) (hlt : last < m.totalAvailablePages) :
    searchBody m first last =
      if last = first then kpanic "No free pages available!" else .ok (.inl (wrap (last + 1))) := by
  simp [searchBody, h, Nat.not_le.mpr hlt]

theorem searchBody_of_le (h : m.taken last = true) (hle : m.totalAvailablePages ≤ last) :
    searchBody m first last =
      if 0 = first then kpanic "No free pages available!" else .ok (.inl 1) := by
  simp [searchBody, h, hle, wrap]

/-- What a round can do, by its outcome. -/
theorem searchBody_cases (m : SystemMemory) (first last : ℕ) :
    (m.taken last = false ∧ searchBody m first last = .ok (.inr last)) ∨
      (m.taken last = true ∧
        ((last < m.totalAvailablePages ∧ last ≠ first ∧
            searchBody m first last = .ok (.inl (wrap (last + 1)))) ∨
          (m.totalAvailablePages ≤ last ∧ first ≠ 0 ∧ searchBody m first last = .ok (.inl 1)) ∨
          ((last < m.totalAvailablePages ∧ last = first ∨
              m.totalAvailablePages ≤ last ∧ first = 0) ∧
            searchBody m first last = kpanic "No free pages available!"))) := by
  cases ht : m.taken last with
  | false => exact .inl ⟨rfl, searchBody_of_free ht⟩
  | true =>
    refine .inr ⟨rfl, ?_⟩
    rcases Nat.lt_or_ge last m.totalAvailablePages with hlt | hge
    · by_cases hf : last = first
      · exact .inr (.inr ⟨.inl ⟨hlt, hf⟩, by rw [searchBody_of_lt ht hlt, if_pos hf]⟩)
      · exact .inl ⟨hlt, hf, by rw [searchBody_of_lt ht hlt, if_neg hf]⟩
    · by_cases hf : 0 = first
      · exact .inr (.inr ⟨.inr ⟨hge, hf.symm⟩, by rw [searchBody_of_le ht hge, if_pos hf]⟩)
      · exact .inr (.inl ⟨hge, Ne.symm hf, by rw [searchBody_of_le ht hge, if_neg hf]⟩)

/-- A round that leaves the loop stands on a free index. -/
theorem free_of_searchBody_leaves {r : ℕ} (h : searchBody m first last = .ok (.inr r)) :
    m.taken last = false := by
  rcases searchBody_cases m first last with ⟨hfree, -⟩ | ⟨-, ⟨-, -, hb⟩ | ⟨-, -, hb⟩ | ⟨-, hb⟩⟩
  · exact hfree
  · exact absurd (h.symm.trans hb) (by simp)
  · exact absurd (h.symm.trans hb) (by simp)
  · exact absurd (hb.symm.trans h) kpanic_ne_ok

/-- A round that goes on steps up, or back to `1` from an index that is no managed page. -/
theorem next_of_continues (h : Continues (searchBody m first) a b) :
    (a < m.totalAvailablePages ∧ a ≠ first ∧ b = wrap (a + 1)) ∨
      (m.totalAvailablePages ≤ a ∧ first ≠ 0 ∧ b = 1) := by
  have h : searchBody m first a = .ok (.inl b) := h
  rcases searchBody_cases m first a with
    ⟨-, hb⟩ | ⟨-, ⟨hlt, hne, hb⟩ | ⟨hge, hne, hb⟩ | ⟨-, hb⟩⟩
  · exact absurd (h.symm.trans hb) (by simp)
  · exact .inl ⟨hlt, hne, Sum.inl.inj (Except.ok.inj (h.symm.trans hb))⟩
  · exact .inr ⟨hge, hne, Sum.inl.inj (Except.ok.inj (h.symm.trans hb))⟩
  · exact absurd (hb.symm.trans h) kpanic_ne_ok

/-- A round that panics stands on the index before the cursor, up to the wrap. -/
theorem eq_first_of_searchBody_panics {msg : String} (h : searchBody m first a = kpanic msg) :
    (a < m.totalAvailablePages ∧ a = first) ∨ (m.totalAvailablePages ≤ a ∧ first = 0) := by
  rcases searchBody_cases m first a with ⟨-, hb⟩ | ⟨-, ⟨-, -, hb⟩ | ⟨-, -, hb⟩ | ⟨hend, -⟩⟩
  · exact absurd (h.symm.trans hb) kpanic_ne_ok
  · exact absurd (h.symm.trans hb) kpanic_ne_ok
  · exact absurd (h.symm.trans hb) kpanic_ne_ok
  · exact hend

/-! ### The path of the search -/

/-- The search walks up over taken indices below the page count. -/
theorem continues_up (hab : a ≤ b) (hb : b ≤ m.totalAvailablePages)
    (hN : m.totalAvailablePages < 2 ^ 64) (h : ∀ i, a ≤ i → i < b → m.taken i = true ∧ i ≠ first) :
    ReflTransGen (Continues (searchBody m first)) a b := by
  induction b, hab using Nat.le_induction with
  | base => exact .refl
  | succ b hab ih =>
    obtain ⟨ht, hne⟩ := h b hab (Nat.lt_succ_self b)
    refine (ih (by omega) fun i hi hib => h i hi (by omega)).tail ?_
    rw [Continues, searchBody_of_lt ht (by omega), if_neg hne, wrap_of_lt (by omega)]

/-- The search starts again at `1` from a taken index that is no managed page. -/
theorem continues_wrap (ht : m.taken a = true) (ha : m.totalAvailablePages ≤ a) (hf : first ≠ 0) :
    Continues (searchBody m first) a 1 := by
  rw [Continues, searchBody_of_le ht ha, if_neg hf.symm]

section

variable (hc : c < 2 ^ 64) (hN : m.totalAvailablePages < 2 ^ 64 - 1)

include hc hN

/-- From the cursor to the end of the first half, when all of it is taken. -/
theorem continues_first_half (hcb : c ≤ b) (hb : b ≤ max c m.totalAvailablePages)
    (h : ∀ i, c ≤ i → i < b → m.taken i = true) :
    ReflTransGen (Continues (searchBody m (wsub c 1))) c b := by
  rcases Nat.lt_or_ge m.totalAvailablePages c with hlt | hge
  · obtain rfl : b = c := by omega
    exact .refl
  · refine continues_up hcb (by omega) (by omega) fun i hi hib => ⟨h i hi hib, ?_⟩
    unfold wsub
    omega

/-- From the cursor through the wrap to an index of the second half. -/
theorem continues_second_half (h1 : 1 ≤ b) (hbc : b < c) (hb : b ≤ m.totalAvailablePages)
    (hfull : ∀ i, c ≤ i → i ≤ max c m.totalAvailablePages → m.taken i = true)
    (h : ∀ i, 1 ≤ i → i < b → m.taken i = true) :
    ReflTransGen (Continues (searchBody m (wsub c 1))) c b := by
  have hfirst : wsub c 1 = c - 1 := wsub_of_le (by omega) hc
  have hup : ReflTransGen (Continues (searchBody m (wsub c 1))) c
      (max c m.totalAvailablePages) :=
    continues_first_half hc hN (Nat.le_max_left _ _) (Nat.le_refl _)
      fun i hi hib => hfull i hi (Nat.le_of_lt hib)
  have hwrap : Continues (searchBody m (wsub c 1)) (max c m.totalAvailablePages) 1 :=
    continues_wrap (hfull _ (Nat.le_max_left _ _) (Nat.le_refl _)) (Nat.le_max_right _ _)
      (by omega)
  refine (hup.tail hwrap).trans (continues_up h1 hb (by omega) fun i hi hib => ?_)
  exact ⟨h i hi hib, by omega⟩

/-- The search stays on the indices it looks at. -/
theorem visits_of_continues (hpos : 1 ≤ m.totalAvailablePages) {t : ℕ}
    (ht : ReflTransGen (Continues (searchBody m (wsub c 1))) c t) :
    t ∈ visits m.totalAvailablePages c := by
  induction ht with
  | refl => exact mem_visits.mpr (.inl ⟨Nat.le_refl _, Nat.le_max_left _ _⟩)
  | @tail a b _ hab ih =>
    rw [mem_visits] at ih ⊢
    rcases next_of_continues hab with ⟨hlt, hne, rfl⟩ | ⟨hge, hne, rfl⟩
    · rw [wrap_of_lt (by omega)]
      omega
    · omega

end

/-! ### The outcome of the search -/

theorem search_fuelStable (first last : ℕ) :
    FuelStable fun fuel => search m first fuel last := loop_fuelStable last

/-- **The search returns** the first free index of its list. -/
theorem search_returns_iff (hc : c < 2 ^ 64) (hN : m.totalAvailablePages < 2 ^ 64 - 1)
    (hpos : 1 ≤ m.totalAvailablePages) {d : ℕ} :
    Returns (fun fuel => search m (wsub c 1) fuel c) d ↔ m.firstFree c = some d := by
  have hfound : ∀ e, m.firstFree c = some e →
      Returns (fun fuel => search m (wsub c 1) fuel c) e := by
    intro e he
    obtain ⟨hfree, ⟨hce, hen, hlt⟩ | ⟨h1, hec, hen, hfull, hlt⟩⟩ := firstFree_eq_some_iff.mp he
    · exact loop_returns_iff.mpr
        ⟨e, continues_first_half hc hN hce hen hlt, searchBody_of_free hfree⟩
    · exact loop_returns_iff.mpr
        ⟨e, continues_second_half hc hN h1 hec hen hfull hlt, searchBody_of_free hfree⟩
  refine ⟨fun h => ?_, hfound d⟩
  cases hf : m.firstFree c with
  | some e => rw [(search_fuelStable _ _).returns_unique h (hfound e hf)]
  | none =>
    obtain ⟨t, ht, hleave⟩ := loop_returns_iff.mp h
    have hfull := firstFree_eq_none_iff.mp hf
    have htaken := hfull t (visits_of_continues hc hN hpos ht)
    rw [free_of_searchBody_leaves hleave] at htaken
    exact absurd htaken Bool.false_ne_true

/-- **The search panics** exactly when it has looked everywhere and its cursor is one of the
indices it comes back to. -/
theorem search_panics_iff (hc : c < 2 ^ 64) (hN : m.totalAvailablePages < 2 ^ 64 - 1)
    (hpos : 1 ≤ m.totalAvailablePages) :
    Panics (fun fuel => search m (wsub c 1) fuel c) ↔
      m.firstFree c = none ∧ 1 ≤ c ∧ c ≤ m.totalAvailablePages := by
  constructor
  · intro h
    have hnone : m.firstFree c = none := by
      cases hf : m.firstFree c with
      | none => rfl
      | some e =>
        have hret := (search_returns_iff hc hN hpos).mpr hf
        exact absurd h ((search_fuelStable _ _).not_panics_of_returns hret)
    obtain ⟨t, msg, ht, hpanic⟩ := loop_panics_iff.mp h
    have hfirst := eq_first_of_searchBody_panics hpanic
    unfold wsub at hfirst
    exact ⟨hnone, by omega, by omega⟩
  · rintro ⟨hnone, h1, hcN⟩
    have hfull := firstFree_eq_none_iff.mp hnone
    have htaken : ∀ i, 1 ≤ i → i ≤ m.totalAvailablePages → m.taken i = true :=
      fun i hi hiN => hfull i (mem_visits.mpr (by omega))
    have hfirst : wsub c 1 = c - 1 := wsub_of_le h1 hc
    rcases Nat.lt_or_ge 1 c with h2 | h2
    · -- the search comes back to the index before the cursor
      refine loop_panics_iff.mpr ⟨c - 1, "No free pages available!", continues_second_half hc hN
        (by omega) (by omega) (by omega) (fun i hi hin => htaken i (by omega) (by omega))
        (fun i hi hin => htaken i hi (by omega)), ?_⟩
      rw [searchBody_of_lt (htaken _ (by omega) (by omega)) (by omega), if_pos hfirst.symm]
    · -- the cursor is `1`: the wrap itself is the end
      refine loop_panics_iff.mpr ⟨m.totalAvailablePages, "No free pages available!",
        continues_first_half hc hN hcN
        (Nat.le_max_right _ _) (fun i hi hin => htaken i (by omega) (by omega)), ?_⟩
      rw [searchBody_of_le (htaken _ hpos (Nat.le_refl _)) (Nat.le_refl _), if_pos (by omega)]

end Search

end PageAllocator

/-! ### The two single-page requests -/

/-- The address handed out for the page with index `i`. -/
def SystemMemory.pageAddr (m : SystemMemory) (i : ℕ) : ℕ :=
  wrap (m.firstAvailablePageAddr + wrap (i <<< 12))

/-- The index `free_page` computes from an address. -/
def SystemMemory.pageIndex (m : SystemMemory) (addr : ℕ) : ℕ :=
  addrToPage (wsub addr m.firstAvailablePageAddr)

theorem addrToPage_shiftLeft (hi : i < 2 ^ 52) : addrToPage (wrap (i <<< 12)) = i := by
  simp only [addrToPage, wrap, Nat.shiftLeft_eq, Nat.shiftRight_eq_div_pow]
  omega

theorem SystemMemory.pageIndex_pageAddr (hi : i < 2 ^ 52) : m.pageIndex (m.pageAddr i) = i := by
  rw [pageIndex, pageAddr, wsub_wrap_add (wrap_lt _), addrToPage_shiftLeft hi]

theorem SystemMemory.pageAddr_inj {j : ℕ} (hi : i < 2 ^ 52) (hj : j < 2 ^ 52)
    (h : m.pageAddr i = m.pageAddr j) : i = j := by
  rw [← m.pageIndex_pageAddr hi, h, m.pageIndex_pageAddr hj]

namespace PageAllocator

variable {s : PageAllocator} {r : PageAllocator × ℕ}

/-- What the searches rely on: the page count is that of a nonempty part of a 64-bit address
space, and each cursor stays by the pages it runs over. -/
structure InBounds (s : PageAllocator) : Prop where
  pos : 1 ≤ s.memory.totalAvailablePages
  small : s.memory.totalAvailablePages < 2 ^ 52
  cursor : s.lastRequested ≤ s.memory.totalAvailablePages
  contiguous : s.lastContiguous ≤ s.memory.totalAvailablePages + 1

/-- The allocator after `request_page` has handed out page `d`. -/
def granted (s : PageAllocator) (d : ℕ) : PageAllocator :=
  { s with memory := s.memory.withLocked d, lastRequested := d }

theorem requestPage_fuelStable (s : PageAllocator) : FuelStable s.requestPage :=
  (search_fuelStable _ _).bind _

/-- What `request_page` does with the index its search has found. -/
private theorem grant_eq_ok_iff {d : ℕ} (hd : d < 2 ^ 52) :
    (s.memory.lockPage (wrap (d <<< 12)) >>= fun m =>
      if m.rawGetPageBit d = 0#8 then kpanic "Page not reserved!"
      else .ok ({ s with memory := m, lastRequested := d },
        wrap (m.firstAvailablePageAddr + wrap (d <<< 12)))) = .ok r ↔
      d ≤ s.memory.totalAvailablePages ∧ s.memory.taken d = false ∧
        r = (s.granted d, s.memory.pageAddr d) := by
  simp only [bind_eq_ok, lockPage_eq_ok_iff, addrToPage_shiftLeft hd]
  constructor
  · rintro ⟨m, ⟨hle, hfree, rfl⟩, h⟩
    simp only [rawGetPageBit_eq_zero_iff, taken_withLocked, decide_true,
      Bool.true_or, Bool.true_eq_false, if_false, Except.ok.injEq] at h
    exact ⟨hle, hfree, h.symm⟩
  · rintro ⟨hle, hfree, rfl⟩
    refine ⟨_, ⟨hle, hfree, rfl⟩, ?_⟩
    simp only [rawGetPageBit_eq_zero_iff, taken_withLocked, decide_true,
      Bool.true_or, Bool.true_eq_false, if_false]
    rfl

/-- **`request_page` returns** the address of the first free index of its search. -/
theorem requestPage_returns_iff (hs : s.InBounds) :
    Returns s.requestPage r ↔
      ∃ d, s.memory.firstFree s.lastRequested = some d ∧
        r = (s.granted d, s.memory.pageAddr d) := by
  obtain ⟨hpos, hsmall, hcur, -⟩ := hs
  have hle : ∀ d, s.memory.firstFree s.lastRequested = some d →
      d ≤ s.memory.totalAvailablePages ∧ s.memory.taken d = false := by
    intro d hd
    obtain ⟨hfree, h⟩ := firstFree_eq_some_iff.mp hd
    exact ⟨by omega, hfree⟩
  refine returns_bind_iff.trans (exists_congr fun d => ?_)
  rw [search_returns_iff (by omega) (by omega) hpos]
  refine and_congr_right fun hd => ?_
  rw [grant_eq_ok_iff (by have := (hle d hd).1; omega)]
  exact ⟨fun h => h.2.2, fun h => ⟨(hle d hd).1, (hle d hd).2, h⟩⟩

/-- **`request_page` panics** when its search finds nothing, from any cursor but `0`. -/
theorem requestPage_panics_iff (hs : s.InBounds) :
    Panics s.requestPage ↔
      s.memory.firstFree s.lastRequested = none ∧ 1 ≤ s.lastRequested := by
  constructor
  · intro h
    cases hf : s.memory.firstFree s.lastRequested with
    | some d =>
      have hret := (requestPage_returns_iff hs).mpr ⟨d, hf, rfl⟩
      exact absurd h (s.requestPage_fuelStable.not_panics_of_returns hret)
    | none =>
      obtain ⟨hpos, hsmall, hcur, -⟩ := hs
      rcases panics_bind_iff.mp h with hp | ⟨d, msg, hd, -⟩
      · exact ⟨rfl, ((search_panics_iff (by omega) (by omega) hpos).mp hp).2.1⟩
      · rw [search_returns_iff (by omega) (by omega) hpos, hf] at hd
        exact absurd hd (by simp)
  · rintro ⟨hnone, h1⟩
    obtain ⟨hpos, hsmall, hcur, -⟩ := hs
    exact panics_bind_iff.mpr
      (.inl ((search_panics_iff (by omega) (by omega) hpos).mpr ⟨hnone, h1, hcur⟩))

/-- **`free_page` returns** exactly on the address of a taken page, and clears its bit. -/
theorem freePage_eq_ok_iff {s' : PageAllocator} {addr : ℕ} :
    s.freePage addr = .ok s' ↔
      s.memory.firstAvailablePageAddr ≤ addr ∧
        s.memory.pageIndex addr ≤ s.memory.totalAvailablePages ∧
        s.memory.taken (s.memory.pageIndex addr) = true ∧
        s' = { s with memory := s.memory.withUnlocked (s.memory.pageIndex addr) } := by
  have hshift : wsub addr s.memory.firstAvailablePageAddr >>> 12 = s.memory.pageIndex addr := rfl
  have hpage : addrToPage (wsub addr s.memory.firstAvailablePageAddr) =
    s.memory.pageIndex addr := rfl
  by_cases hlow : addr < s.memory.firstAvailablePageAddr
  · simp [freePage, hlow, Nat.not_le.mpr hlow]
  · simp only [freePage, if_neg hlow, hshift, Nat.not_lt.mp hlow, true_and]
    cases ht : s.memory.taken (s.memory.pageIndex addr) with
    | false => simp [ht]
    | true =>
      simp only [rawGetPageBit_eq_zero_iff, ht, Bool.true_eq_false, if_false,
        bind_eq_ok, unlockPage_eq_ok_iff, hpage, true_and]
      constructor
      · rintro ⟨m, ⟨hle, rfl⟩, h⟩
        simp only [rawGetPageBit_eq_one_iff, taken_withUnlocked,
          decide_true, Bool.not_true, Bool.false_and, Bool.false_eq_true, if_false,
          Except.ok.injEq] at h
        exact ⟨hle, h.symm⟩
      · rintro ⟨hle, rfl⟩
        refine ⟨_, ⟨hle, rfl⟩, ?_⟩
        simp only [rawGetPageBit_eq_one_iff, taken_withUnlocked,
          decide_true, Bool.not_true, Bool.false_and, Bool.false_eq_true, if_false]

end PageAllocator

end Bloodmoon
