import Bloodmoon.Memory.Init

/-!
# Where the allocator keeps its data

`init_memory` puts its own data into the memory that it is to manage: `struct system_memory` at the
first managed page, and the bitfield on the next page boundary. How many bytes the bitfield takes,
where it begins and how many pages are reserved are three computations of their own. On a memory
map whose usable entries are made of whole pages they fit: the managed pages are those of one of
the longest usable entries, and the reserved pages cover all the data.
-/

namespace Bloodmoon

open Machine

/-- A memory map whose usable entries are made of whole pages of the address space. -/
def PagedMap (map : List MemmapEntry) : Prop :=
  ∀ e ∈ map, e.type = memmapUsable → e.base.toNat % pageSize = 0 ∧ e.length.toNat % pageSize = 0 ∧
    e.base.toNat + e.length.toNat ≤ 2 ^ 64

/-- `memory->bitfield`, for the first managed address. -/
def bitfieldAddress (firstAvailableAddress : ℕ) : ℕ :=
  alignAddr (wrap (firstAvailableAddress + sizeofPointer))

/-- `bitfield_entries`, the bytes of the bitfield. -/
def bitfieldEntries (availablePages : ℕ) : ℕ :=
  if availablePages % 8 = 0 then availablePages >>> 3 else (availablePages >>> 3) + 1

/-- The memory at `x` holds data of the allocator. -/
def SystemMemory.Occupies (m : SystemMemory) (x : ℕ) : Prop :=
  (m.firstAvailablePageAddr ≤ x ∧ x < m.firstAvailablePageAddr + sizeofSystemMemory) ∨
    (bitfieldAddress m.firstAvailablePageAddr ≤ x ∧
      x < bitfieldAddress m.firstAvailablePageAddr + bitfieldEntries m.totalAvailablePages)

theorem alignAddr_of_aligned {x : ℕ} (h : x % pageSize = 0) : alignAddr x = x :=
  if_neg (by simp [h])

/-- **The managed range** is a longest usable entry. -/
theorem exists_entry_of_initMemory {map : List MemmapEntry} {junk : Bytes} {s : PageAllocator}
    (hmap : PagedMap map) (hok : initMemory map junk = .ok s) :
    ∃ e ∈ map, e.type = memmapUsable ∧
      (∀ e' ∈ map, e'.type = memmapUsable → e'.length.toNat ≤ e.length.toNat) ∧
      s.memory.firstAvailablePageAddr = e.base.toNat ∧
      pageSize * s.memory.totalAvailablePages = e.length.toNat := by
  obtain ⟨-, hfirst, htotal, hsize⟩ := initMemory_spec hok
  obtain ⟨horigin, -, hlongest⟩ := iterateMemory_initMemoryCb map { addr := 0, size := 0 }
  rw [← biggestAvailChunk] at horigin hlongest
  rcases horigin with hnone | ⟨e, he, husable, heq⟩
  · -- no usable memory does not pass the size check
    rw [hnone] at hsize
    exact absurd hsize (by simp)
  · rw [heq] at hfirst htotal hlongest
    refine ⟨e, he, husable, hlongest, ?_⟩
    obtain ⟨hbase, hlength, hend⟩ := hmap e he husable
    have hlt := e.length.toNat_lt
    have hstop : wrap (e.base.toNat + e.length.toNat) % pageSize = 0 := by
      unfold wrap pageSize at *
      omega
    rw [alignAddr_of_aligned hbase] at hfirst htotal
    refine ⟨hfirst, ?_⟩
    -- an entry that ends with the address space ends at zero here, and has the right length still
    rw [htotal, alignAddr_of_aligned hstop, Nat.shiftRight_eq_div_pow]
    unfold wsub wrap pageSize at *
    omega

/-- The bitfield begins on the second managed page, if there are that many. -/
theorem bitfieldAddress_eq {first : ℕ} (halign : first % pageSize = 0)
    (hlt : first + pageSize < 2 ^ 64) : bitfieldAddress first = first + pageSize := by
  unfold bitfieldAddress
  rw [alignAddr_eq (wrap_lt _)]
  unfold sizeofPointer wrap pageSize at *
  omega

/-- **Managed and reserved memory.** The managed pages lie in one of the longest usable entries,
and every byte of the allocator's own data lies in a managed page that `init_memory` has
reserved. -/
theorem initMemory_placement {map : List MemmapEntry} {junk : Bytes} {s : PageAllocator}
    (hmap : PagedMap map) (hok : initMemory map junk = .ok s) :
    (∃ e ∈ map, e.type = memmapUsable ∧
      (∀ e' ∈ map, e'.type = memmapUsable → e'.length.toNat ≤ e.length.toNat) ∧
      ∀ i < s.memory.totalAvailablePages,
        e.base.toNat ≤ s.memory.firstAvailablePageAddr + pageSize * i ∧
        s.memory.firstAvailablePageAddr + pageSize * i + pageSize ≤
          e.base.toNat + e.length.toNat) ∧
    ∀ x, s.memory.Occupies x → ∃ i < s.memory.totalAvailablePages, s.memory.taken i = true ∧
      s.memory.firstAvailablePageAddr + pageSize * i ≤ x ∧
      x < s.memory.firstAvailablePageAddr + pageSize * i + pageSize := by
  have hinit := afterInit_of_initMemory hok
  have hentries : bitfieldEntries s.memory.totalAvailablePages =
      (s.memory.totalAvailablePages + 7) / 8 := bitfieldEntries_eq _
  have hused := usedSpace_eq s.memory.totalAvailablePages
  have hle := hinit.used_le
  obtain ⟨e, he, husable, hlongest, hfirst, hlength⟩ := exists_entry_of_initMemory hmap hok
  obtain ⟨hbase, -, hend⟩ := hmap e he husable
  refine ⟨⟨e, he, husable, hlongest, fun i hi => ?_⟩, fun x hx => ?_⟩
  · unfold pageSize at *
    omega
  · -- the bitfield begins a page behind the structure, and the reserved pages reach behind both
    have hbitfield : bitfieldAddress s.memory.firstAvailablePageAddr =
        s.memory.firstAvailablePageAddr + pageSize := by
      refine bitfieldAddress_eq (hfirst ▸ hbase) ?_
      unfold pageSize at *
      omega
    have h72 : sizeofSystemMemory = 72 := rfl
    have hinside : s.memory.firstAvailablePageAddr ≤ x ∧ x < s.memory.firstAvailablePageAddr +
        pageSize * usedSpace s.memory.totalAvailablePages := by
      rw [SystemMemory.Occupies, hbitfield, hentries] at hx
      unfold pageSize at *
      omega
    have hpage : (x - s.memory.firstAvailablePageAddr) / pageSize <
        usedSpace s.memory.totalAvailablePages := by
      unfold pageSize at *
      omega
    refine ⟨(x - s.memory.firstAvailablePageAddr) / pageSize, by omega, ?_, ?_⟩
    · rw [hinit.taken_iff _ (by omega)]
      exact decide_eq_true hpage
    · unfold pageSize at *
      omega

theorem initMemory_placement_fourPageMap :
    ∃ s, initMemory fourPageMap (fun _ => 0#8) = .ok s ∧ ∀ x, s.memory.Occupies x →
      ∃ i < s.memory.totalAvailablePages, s.memory.taken i = true ∧
        s.memory.firstAvailablePageAddr + pageSize * i ≤ x ∧
        x < s.memory.firstAvailablePageAddr + pageSize * i + pageSize := by
  obtain ⟨s, hok, -⟩ := initMemory_fourPageMap
  have hmap : PagedMap fourPageMap := by
    intro e he _
    obtain rfl := List.mem_singleton.mp he
    decide
  exact ⟨s, hok, (initMemory_placement hmap hok).2⟩

end Bloodmoon
