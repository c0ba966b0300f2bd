import Bloodmoon.Ext2.Grow

/-!
# How many blocks a file needs to grow

`ext2_allocate_blocks` takes a block for each new block of the file and for each table above them
(`Volume.blocksNeeded`). With fewer free blocks than that, which the superblock counts, it takes all
of them and fails, and nothing is given back (`BlockSpace.allocateBlocks_ok_iff`).
-/

namespace Bloodmoon

open Machine List

namespace Volume

variable {v w : Volume} {b n : ℕ} {taken : List ℕ}

/-- The free blocks. -/
def freeBlocks (v : Volume) : Finset ℕ :=
  ((Finset.range v.groupNumber).sigma fun g => v.clearIn .blocks g).image fun x =>
    v.blockNumber x.1 x.2

theorem BlockCounts.mem_freeBlocks (h : v.BlockCounts) : b ∈ v.freeBlocks ↔ v.Free b := by
  simp only [freeBlocks, Finset.mem_image, Finset.mem_sigma, Finset.mem_range, mem_clearIn]
  constructor
  · rintro ⟨⟨g, i⟩, ⟨hg, hi, hclear⟩, rfl⟩
    exact ⟨g, hg, i, h.lt_of_clear hg hi hclear, hi, rfl, hclear⟩
  · rintro ⟨g, hg, i, -, hi, rfl, hclear⟩
    exact ⟨⟨g, i⟩, ⟨hg, hi, hclear⟩, rfl⟩

/-- The superblock counts the free blocks. -/
theorem BlockCounts.card_freeBlocks (h : v.BlockCounts) :
    v.freeBlocks.card = v.sbGet .freeBlocksCount := by
  rw [h.total, freeBlocks, Finset.card_image_of_injOn, Finset.card_sigma]
  rintro ⟨g, i⟩ hx ⟨g', i'⟩ hx' heq
  rw [Finset.mem_coe, Finset.mem_sigma, Finset.mem_range, mem_clearIn] at hx hx'
  obtain ⟨rfl, rfl⟩ := BlockCounts.blockNumber_inj (h.lt_of_clear hx.1 hx.2.1 hx.2.2)
    (h.lt_of_clear hx'.1 hx'.2.1 hx'.2.2) heq
  rfl

/-- **Blocks that are taken are counted.** -/
theorem Grown.freeBlocksCount (h : Grown v w taken) (hv : v.BlockSpace) :
    w.sbGet .freeBlocksCount + taken.length = v.sbGet .freeBlocksCount := by
  have hw := h.counts
  have hsub : taken.toFinset ⊆ v.freeBlocks := fun b hb =>
    hv.mem_freeBlocks.mpr (h.free b (mem_toFinset.mp hb))
  have hfree : w.freeBlocks = v.freeBlocks \ taken.toFinset := by
    ext b
    rw [hw.mem_freeBlocks, Finset.mem_sdiff, hv.mem_freeBlocks, mem_toFinset]
    refine ⟨h.free_of_free, fun ⟨hb, hnot⟩ => ?_⟩
    have hlayout := h.record.toSameLayout
    have hused : ¬ w.Allocated b := by
      rw [h.allocated, not_or]
      exact ⟨hb.not_allocated, hnot⟩
    exact (hlayout.free_or_allocated.mpr (.inl hb)).resolve_right hused
  rw [← hw.card_freeBlocks, ← hv.card_freeBlocks, hfree, Finset.card_sdiff_of_subset hsub,
    toFinset_card_of_nodup h.nodup]
  have := Finset.card_le_card hsub
  rw [toFinset_card_of_nodup h.nodup] at this
  omega

theorem BlockCounts.exhausted_iff (h : v.BlockCounts) :
    v.Exhausted ↔ v.sbGet .freeBlocksCount = 0 := by
  rw [← h.card_freeBlocks, Finset.card_eq_zero, Finset.eq_empty_iff_forall_notMem]
  constructor
  · intro hall b hb
    obtain ⟨g, hg, i, -, hi, -, hclear⟩ := h.mem_freeBlocks.mp hb
    rw [hall g hg i hi] at hclear
    exact Bool.noConfusion hclear
  · intro hnone g hg i hi
    by_contra hclear
    rw [Bool.not_eq_true] at hclear
    exact hnone _ (h.mem_freeBlocks.mpr ⟨g, hg, i, h.lt_of_clear hg hi hclear, hi, rfl, hclear⟩)

/-- **`ext2_allocate_blocks` succeeds** exactly with as many free blocks as it needs. -/
theorem BlockSpace.allocateBlocks_ok_iff (hv : v.BlockSpace) {inode : Bytes} {old : ℕ}
    (hold : ∀ k < 12, iBlock inode k ≠ 0 ↔ k < old) (hn : n ≤ (v.blockSize / 4) ^ 3) :
    (∃ taken, Grown v (v.allocateBlocks inode n).1 taken) ∧
      ((v.allocateBlocks inode n).2.2 = 0 ↔
        v.blocksNeeded inode n ≤ v.sbGet .freeBlocksCount) := by
  rcases hv.allocateBlocks hold n with ⟨hok, taken, -, -, hgrown, -, hlen⟩ |
    ⟨hfail, taken, hgrown, hless⟩
  · have hcount := hgrown.freeBlocksCount hv
    exact ⟨⟨taken, hgrown⟩, iff_of_true hok (by omega)⟩
  · have hcount := hgrown.freeBlocksCount hv
    obtain ⟨hall, hlen⟩ := hless hn
    have hzero := hgrown.counts.exhausted_iff.mp hall
    exact ⟨⟨taken, hgrown⟩, iff_of_false hfail (by omega)⟩

end Volume

end Bloodmoon
