import Bloodmoon.Paging.Isolation

/-!
# The pages of `mprotect`

`mprotect` and `mprotect_hh` round their range outwards to pages and set the permissions page by
page. In an address space whose tables are each at one place of the tree that is an operation on
the flat map: every page that meets the range gets the permissions, and nothing else changes.
-/

namespace Bloodmoon

open Machine List Option

variable {m : FlatMap}

/-- No table of the space is at two places of its tree. -/
def Unshared (s : PagingState) (r : ℕ) : Prop :=
  ∀ {p q : List (Fin 512)} {n : ℕ}, p.length ≤ 3 → q.length ≤ 3 → s.paths r p = some n →
    s.paths r q = some n → p = q

/-- The page of `w` meets the range. -/
def Meets (address size w : ℕ) : Prop :=
  ∃ x, address ≤ x ∧ x < address + size ∧ virtualPage x = virtualPage w

/-- The map after the permissions of all pages with `P` are set. -/
def FlatMap.protect (m : FlatMap) (permissions : ℕ) (P : ℕ → Prop) [DecidablePred P] : FlatMap :=
  fun p => if P p then (m p).map fun x => { x with permissions := permissions % 16 } else m p

theorem FlatMap.protect_congr {permissions : ℕ} {P Q : ℕ → Prop} [DecidablePred P]
    [DecidablePred Q] (h : ∀ p, P p ↔ Q p) : m.protect permissions P = m.protect permissions Q := by
  funext p
  simp only [FlatMap.protect, h p]

/-- A page that is met twice gets the same permissions again. -/
theorem FlatMap.protect_apply {permissions v : ℕ} {P : ℕ → Prop} [DecidablePred P] :
    (m.apply (.protect v permissions)).protect permissions P =
      m.protect permissions fun p => p = virtualPage v ∨ P p := by
  funext p
  by_cases hp : p = virtualPage v
  · rw [hp]
    simp only [FlatMap.protect, FlatMap.apply, PageOp.page, PageOp.effect, Function.update_self,
      Option.map_map, true_or, if_true]
    split_ifs <;> rfl
  · simp only [FlatMap.protect, FlatMap.apply, PageOp.page, Function.update_of_ne hp, hp, false_or]

section Protect

variable {s : PagingState} {r permissions address size : ℕ} {m : FlatMap}

/-- The flat map in the tables of a space. -/
def PagingState.flatMap (s : PagingState) (r : ℕ) : FlatMap :=
  fun p => (s.lookup r (p * 2 ^ 12)).map PageEntry.view

theorem flatMap_virtualPage (w : ℕ) :
    s.flatMap r (virtualPage w) = (s.lookup r w).map PageEntry.view := by
  have hpage : virtualPage (virtualPage w * 2 ^ 12) = virtualPage w := by
    simp only [virtualPage]
    omega
  obtain ⟨hpath, hslot⟩ := virtualPage_eq_iff.mp hpage
  rw [PagingState.flatMap, PagingState.lookup, PagingState.lookup, hpath, hslot]

/-- The state without pages in the allocator. -/
def PagingState.drained (s : PagingState) : PagingState := { s with pool := [] }

/-- The tables of a space without shared ones hold its flat map. -/
theorem Unshared.refines (h : Unshared s r) : Refines s.drained r (s.flatMap r) := by
  have hnone : ∀ {f}, f ∉ s.drained.pool := not_mem_nil
  refine ⟨⟨⟨?_, ?_⟩, fun f hf => absurd hf hnone, nodup_nil, fun f hf => absurd hf hnone⟩,
    fun hp hq => h (Nat.le_of_eq hp) (Nat.le_of_eq hq), fun w => (flatMap_virtualPage w).symm⟩
  · intro a b q q' n ha hb hq hq' hn hn'
    rw [mem_singleton] at ha hb
    rw [ha] at hn
    rw [hb] at hn'
    exact ⟨ha.trans hb.symm, h (Nat.le_of_lt hq) (Nat.le_of_lt hq') hn hn'⟩
  · intro a b q p n ha hb hq hp hn hn'
    rw [mem_singleton.mp ha] at hn
    rw [mem_singleton.mp hb] at hn'
    rw [h (Nat.le_of_lt hq) (Nat.le_of_eq hp) hn hn'] at hq
    exact Nat.ne_of_lt hq hp

/-- Tables that hold a flat map are not shared. -/
theorem Refines.unsharedTables (h : Refines s r m) : Unshared s r := by
  have hr : r ∈ [r] := mem_singleton_self r
  intro p q n hp hq hpn hqn
  rcases Nat.lt_or_eq_of_le hp with hp | hp <;> rcases Nat.lt_or_eq_of_le hq with hq | hq
  · exact (h.spaces.forest.inj hr hr hp hq hpn hqn).2
  · exact absurd hqn (h.spaces.forest.leveled hr hr hp hq hpn)
  · exact absurd hpn (h.spaces.forest.leveled hr hr hq hp hqn)
  · exact h.unshared hp hq hpn hqn

/-- **The loop of `mprotect`** sets the permissions of the pages it goes through. -/
theorem Refines.protectPages (permissions n : ℕ) : ∀ {i s m}, Refines s r m →
    (∀ k < n, m (virtualPage (i + k * pageSize)) ≠ none) →
    Refines (s.protectPages r permissions i n) r
      (m.protect permissions fun p => ∃ k < n, virtualPage (i + k * pageSize) = p) := by
  induction n with
  | zero =>
    intro i s m h _
    refine (congrArg (Refines s r) (funext fun p => if_neg ?_)).mpr h
    rintro ⟨k, hk, -⟩
    exact Nat.not_lt_zero k hk
  | succ n ih =>
    intro i s m h hmapped
    have hfirst := hmapped 0 (Nat.succ_pos n)
    have hnext : ∀ k, i + pageSize + k * pageSize = i + (k + 1) * pageSize := fun k => by
      rw [Nat.succ_mul, Nat.add_comm (k * pageSize), Nat.add_assoc]
    have hstep : Refines _ r (m.apply (.protect i permissions)) := h.step (.protect hfirst)
    have hrest := ih hstep (i := i + pageSize) fun k hk => ?_
    · rw [FlatMap.protect_apply] at hrest
      refine (congrArg (Refines _ r) (FlatMap.protect_congr fun p => ?_)).mp hrest
      · simp only [hnext]
        constructor
        · rintro (rfl | ⟨k, hk, rfl⟩)
          · exact ⟨0, Nat.succ_pos n, by rw [Nat.zero_mul, Nat.add_zero]⟩
          · exact ⟨k + 1, Nat.succ_lt_succ hk, rfl⟩
        · rintro ⟨_ | k, hk, rfl⟩
          · exact .inl (by rw [Nat.zero_mul, Nat.add_zero])
          · exact .inr ⟨k, Nat.lt_of_succ_lt_succ hk, rfl⟩
    · -- new permissions leave a page mapped
      rw [hnext]
      have hkept := hmapped (k + 1) (Nat.succ_lt_succ hk)
      simp only [FlatMap.apply, PageOp.page]
      by_cases hpage : virtualPage (i + (k + 1) * pageSize) = virtualPage i
      · rw [hpage] at hkept ⊢
        simpa [PageOp.effect] using hkept
      · rwa [Function.update_of_ne hpage]

/-- The rounds that the loop of `mprotect` makes for a range below the end of memory. -/
def mprotectRounds (address size : ℕ) : ℕ :=
  (address + size + 0xfff - (address + size + 0xfff) % pageSize -
    (address - address % pageSize)) / pageSize

theorem mprotect_eq (hrange : address + size ≤ 2 ^ 64 - 4096) :
    s.mprotect r address size permissions = s.protectPages r permissions
      (address - address % pageSize) (mprotectRounds address size) := by
  have hwrap : wrap (wrap (address + size) + 0xfff) = address + size + 0xfff := by
    simp only [wrap]
    omega
  simp only [PagingState.mprotect, hwrap, mprotectRounds]

/-- The pages that `mprotect` goes through are those that meet its range. -/
theorem mprotectRounds_iff {w : ℕ} (hsize : 0 < size) :
    (∃ k < mprotectRounds address size,
      virtualPage (address - address % pageSize + k * pageSize) = virtualPage w) ↔
      Meets address size w := by
  have h4096 : pageSize = 4096 := rfl
  simp only [mprotectRounds, h4096, Meets, virtualPage]
  constructor
  · rintro ⟨k, hk, hpage⟩
    refine ⟨max address (address - address % 4096 + k * 4096), by omega, by omega, ?_⟩
    rw [← hpage]
    congr 1
    omega
  · rintro ⟨x, hlow, hhigh, hpage⟩
    refine ⟨(x - (address - address % 4096)) / 4096, ?_, ?_⟩
    · omega
    · rw [← hpage]
      congr 1
      omega

/-- The pages of the allocator have no part in `mprotect`. -/
theorem protectPages_drained (n : ℕ) : ∀ (s : PagingState) (i : ℕ),
    s.drained.protectPages r permissions i n = (s.protectPages r permissions i n).drained := by
  induction n with
  | zero => exact fun _ _ => rfl
  | succ n ih => exact fun s i => ih (s.setPagePerms r i permissions) (i + pageSize)

/-- **`mprotect` is an operation on the flat map.** -/
theorem Unshared.mprotect (hs : Unshared s r) (permissions : ℕ) (hsize : 0 < size)
    (hrange : address + size ≤ 2 ^ 64 - 4096)
    (hmapped : ∀ x, address ≤ x → x < address + size → s.lookup r x ≠ none) :
    ∃ m', Refines (s.mprotect r address size permissions).drained r m' ∧ ∀ w,
      (Meets address size w → ∃ x, s.flatMap r (virtualPage w) = some x ∧
        m' (virtualPage w) = some ⟨x.physical, permissions % 16⟩) ∧
      (¬ Meets address size w → m' (virtualPage w) = s.flatMap r (virtualPage w)) := by
  -- every page that is met has a mapping
  have hpage : ∀ {w}, Meets address size w → s.flatMap r (virtualPage w) ≠ none := by
    rintro w ⟨x, hlow, hhigh, hx⟩
    rw [← hx, flatMap_virtualPage]
    simpa using hmapped x hlow hhigh
  have h := hs.refines
  have hloop := h.protectPages permissions (mprotectRounds address size)
    (i := address - address % pageSize) fun k hk =>
      hpage ((mprotectRounds_iff hsize).mp ⟨k, hk, rfl⟩)
  rw [protectPages_drained, ← mprotect_eq hrange] at hloop
  refine ⟨_, hloop, fun w => ⟨fun hw => ?_, fun hw => ?_⟩⟩
  · obtain ⟨x, hx⟩ := ne_none_iff_exists'.mp (hpage hw)
    refine ⟨x, hx, ?_⟩
    rw [FlatMap.protect, if_pos ((mprotectRounds_iff hsize).mpr hw), hx]
    rfl
  · rw [FlatMap.protect, if_neg fun h => hw ((mprotectRounds_iff hsize).mp h)]

/-- **`mprotect_hh` sets the permissions of exactly the pages that meet its range.** All of them
are mapped before; then every such page has the permissions, every other page its translation and
permissions from before, and no address is translated to another page. -/
theorem mprotect_exact (hs : Unshared s r) (hsize : 0 < size)
    (hrange : address + size ≤ 2 ^ 64 - 4096)
    (hmapped : ∀ x, address ≤ x → x < address + size → s.lookup r x ≠ none) (w : ℕ) :
    (s.mprotect r address size permissions).virtualToPhysical r w = s.virtualToPhysical r w ∧
      (Meets address size w →
        ((s.mprotect r address size permissions).lookup r w).isSome = true ∧
        (s.mprotect r address size permissions).getPagePerms r w = permissions % 16) ∧
      (¬ Meets address size w →
        SameTranslation s r (s.mprotect r address size permissions) r w) := by
  have h := hs.refines
  obtain ⟨m', h', hmap⟩ := hs.mprotect permissions hsize hrange hmapped
  obtain ⟨hmeets, hother⟩ := hmap w
  have hphysical := (h.virtualToPhysical_eq w).symm
  have hphysical' := h'.virtualToPhysical_eq w
  refine ⟨?_, fun hw => ?_, fun hw => ⟨?_, ?_, fun hlookup => ?_⟩⟩
  · by_cases hw : Meets address size w
    · obtain ⟨x, hx, hx'⟩ := hmeets hw
      rw [hx] at hphysical
      rw [hx'] at hphysical'
      exact hphysical'.trans hphysical
    · rw [hother hw] at hphysical'
      exact hphysical'.trans hphysical
  · obtain ⟨x, -, hx'⟩ := hmeets hw
    have hagrees := h'.agrees w
    rw [hx'] at hagrees
    obtain ⟨e, he, -⟩ := map_eq_some_iff.mp hagrees
    exact ⟨isSome_iff_exists.mpr ⟨e, he⟩, h'.getPagePerms_eq hx'⟩
  · rw [hother hw] at hphysical'
    exact hphysical'.trans hphysical
  · have hagrees := (h'.agrees w).trans ((hother hw).trans (flatMap_virtualPage w))
    have hisSome := congrArg Option.isSome hagrees
    rw [isSome_map, isSome_map] at hisSome
    exact hisSome
  · have hx : s.flatMap r (virtualPage w) ≠ none := by
      rw [flatMap_virtualPage]
      simpa using hlookup
    obtain ⟨x, hx⟩ := ne_none_iff_exists'.mp hx
    exact (h'.getPagePerms_eq ((hother hw).trans hx)).trans (h.getPagePerms_eq hx).symm

/-- Two pages are mapped, and the first one is protected from its middle on. -/
theorem mprotect_exact_emptyDirectory : ∃ s : PagingState,
    s.getPagePerms 0x1000 0x400000 = 3 ∧ s.getPagePerms 0x1000 0x401000 = 3 ∧
      (s.mprotect 0x1000 0x400800 0x800 5).getPagePerms 0x1000 0x400000 = 5 ∧
      (s.mprotect 0x1000 0x400800 0x800 5).getPagePerms 0x1000 0x401000 = 3 := by
  have hempty : EmptySpace emptyDirectory 0x1000 := ⟨fun _ => rfl, by decide, by decide, by decide⟩
  obtain ⟨s, hfirst, t, hsecond, -⟩ :
      ∃ s, emptyDirectory.mapMemory 0x1000 0x400000 0x5000 3 = .ok s ∧
      ∃ t, s.mapMemory 0x1000 0x401000 0x6000 3 = .ok t ∧ True := by
    decide +kernel
  have h := Refines.run hempty (.step (.step .nil (.map (by decide) hfirst))
    (.map (by decide) hsecond))
  have hpage : ∀ x, 0x400000 ≤ x → x < 0x401000 → virtualPage x = 0x400 := by
    intro x hlow hhigh
    simp only [virtualPage]
    omega
  have hflat : flat [.map 0x400000 0x5000 3, .map 0x401000 0x6000 3] 0x400 =
      some ⟨0x5000, 3⟩ := by decide
  have hmapped : ∀ x, 0x400800 ≤ x → x < 0x400800 + 0x800 → t.lookup 0x1000 x ≠ none := by
    intro x hlow hhigh hnone
    have hagrees := h.agrees x
    rw [hnone, hpage x (by omega) (by omega)] at hagrees
    exact absurd (hagrees.trans hflat) (by simp)
  have hprotect : ∀ w, (t.mprotect 0x1000 0x400800 0x800 5).virtualToPhysical 0x1000 w =
      t.virtualToPhysical 0x1000 w ∧ _ :=
    mprotect_exact h.unsharedTables (by decide) (by decide) hmapped
  have hother : t.getPagePerms 0x1000 0x401000 = 3 :=
    h.getPagePerms_eq (x := ⟨0x6000, 3⟩) (by decide)
  have hnot : ¬ Meets 0x400800 0x800 0x401000 := by
    rintro ⟨x, hlow, hhigh, hx⟩
    rw [hpage x (by omega) (by omega)] at hx
    exact absurd hx (by decide)
  obtain ⟨-, hmeets, -⟩ := hprotect 0x400000
  obtain ⟨-, -, hkept⟩ := hprotect 0x401000
  refine ⟨t, h.getPagePerms_eq (x := ⟨0x5000, 3⟩) (by decide), hother,
    (hmeets ⟨0x400800, by decide, by decide, by decide⟩).2, ((hkept hnot).2.2 ?_).trans hother⟩
  intro hnone
  have hagrees := h.agrees 0x401000
  rw [hnone] at hagrees
  exact absurd hagrees (by decide)

end Protect

end Bloodmoon
