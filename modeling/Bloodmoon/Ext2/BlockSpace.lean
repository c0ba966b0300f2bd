import Bloodmoon.Ext2.Resize
import Bloodmoon.Machine.FilledTree

/-!
# Taking blocks from a volume

A volume whose bitmaps lie in blocks that are in use (`Volume.BlockSpace`) can be given away block
by block. `Grown v w taken` says what a sequence of allocations does, together with writes to blocks
that have been allocated by it: the blocks `taken` were free and are in use, and every block that
was in use, other than a bitmap, holds what it held. Such sequences compose (`Grown.trans`), and at
any point of one a block that it has taken can be written (`Grown.writeBlock`).
-/

namespace Bloodmoon

open Machine BitArray List

namespace Volume

/-! ### Free blocks -/

/-- The block is free: its bit is clear. -/
def Free (v : Volume) (block : ℕ) : Prop :=
  ∃ g < v.groupNumber, ∃ i < v.sbGet .blocksPerGroup, i < 8 * v.blockSize ∧
    block = v.blockNumber g i ∧ v.mapBit .blocks g i = false

/-- The block holds a block bitmap. -/
def IsBitmap (v : Volume) (block : ℕ) : Prop := ∃ g < v.groupNumber, v.gdGet g .blockBitmap = block

/-- No block is free. -/
def Exhausted (v : Volume) : Prop :=
  ∀ g < v.groupNumber, ∀ i < 8 * v.blockSize, v.mapBit .blocks g i = true

/-- The bitmaps and counters agree, the bitmaps are in use, and the blocks can be addressed. -/
structure BlockSpace (v : Volume) : Prop extends BlockCounts v where
  bitmaps : ∀ b, v.IsBitmap b → v.Allocated b
  blocks : ∀ b, v.Free b ∨ v.Allocated b → v.InRange b

variable {v u w : Volume} {b t : ℕ} {taken taken' : List ℕ}
variable {g i : ℕ}

theorem Free.not_allocated (h : v.Free b) : ¬ v.Allocated b := by
  obtain ⟨g, -, i, hlow, -, rfl, hclear⟩ := h
  rintro ⟨g', -, i', hlow', -, heq, hset⟩
  obtain ⟨rfl, rfl⟩ := BlockCounts.blockNumber_inj hlow hlow' heq
  rw [hclear] at hset
  exact Bool.noConfusion hset

theorem Free.ne_zero (h : v.Free b) : b ≠ 0 := by
  obtain ⟨g, -, i, -, -, rfl, -⟩ := h
  exact Nat.succ_ne_zero _

theorem Allocated.ne_zero (h : v.Allocated b) : b ≠ 0 := by
  obtain ⟨g, -, i, -, -, rfl, -⟩ := h
  exact Nat.succ_ne_zero _

/-- The blocks of the volume are those with a bit. -/
theorem free_or_allocated_iff : v.Free b ∨ v.Allocated b ↔ ∃ g < v.groupNumber,
    ∃ i < v.sbGet .blocksPerGroup, i < 8 * v.blockSize ∧ b = v.blockNumber g i := by
  constructor
  · rintro (⟨g, hg, i, hlow, hi, rfl, -⟩ | ⟨g, hg, i, hlow, hi, rfl, -⟩)
    all_goals exact ⟨g, hg, i, hlow, hi, rfl⟩
  · rintro ⟨g, hg, i, hlow, hi, rfl⟩
    cases hbit : v.mapBit .blocks g i with
    | false => exact .inl ⟨g, hg, i, hlow, hi, rfl, hbit⟩
    | true => exact .inr ⟨g, hg, i, hlow, hi, rfl, hbit⟩

namespace SameLayout

theorem blockNumber (h : SameLayout v w) (g i : ℕ) : w.blockNumber g i = v.blockNumber g i := by
  rw [Volume.blockNumber, Volume.blockNumber, h.blocksPerGroup]

theorem free_or_allocated (h : SameLayout v w) :
    w.Free b ∨ w.Allocated b ↔ v.Free b ∨ v.Allocated b := by
  simp only [free_or_allocated_iff, h.groupNumber, h.blocksPerGroup, h.blockSize, h.blockNumber]

theorem isBitmap (h : SameLayout v w) : w.IsBitmap b ↔ v.IsBitmap b := by
  simp only [IsBitmap, h.groupNumber, h.gdGet _ .blockBitmap rfl]

end SameLayout

/-! ### What allocations do -/

/-- The rest of the record of a partition is the same too. -/
structure SameRecord (v w : Volume) : Prop extends SameLayout v w where
  bgdtBlock : w.bgdtBlock = v.bgdtBlock
  sbBlock : w.sbBlock = v.sbBlock
  backupBgs : w.backupBgs = v.backupBgs
  backupBgsCount : w.backupBgsCount = v.backupBgsCount
  fresh : w.fresh = v.fresh

theorem SameRecord.refl (v : Volume) : SameRecord v v := ⟨.refl v, rfl, rfl, rfl, rfl, rfl⟩

theorem SameRecord.withBytes (v : Volume) (d : Bytes) : SameRecord v (v.withBytes d) :=
  ⟨.withBytes v d, rfl, rfl, rfl, rfl, rfl⟩

theorem SameRecord.trans (h : SameRecord v u) (h' : SameRecord u w) : SameRecord v w :=
  ⟨h.toSameLayout.trans h'.toSameLayout, h'.bgdtBlock.trans h.bgdtBlock, h'.sbBlock.trans h.sbBlock,
    h'.backupBgs.trans h.backupBgs, h'.backupBgsCount.trans h.backupBgsCount,
    h'.fresh.trans h.fresh⟩

/-- Blocks that were free are in use. -/
structure Taken (v w : Volume) (taken : List ℕ) : Prop where
  allocated : ∀ b, w.Allocated b ↔ v.Allocated b ∨ b ∈ taken
  free : ∀ b ∈ taken, v.Free b
  nodup : taken.Nodup

/-- Blocks have been taken, and perhaps written. -/
structure Grown (v w : Volume) (taken : List ℕ) : Prop extends Taken v w taken where
  record : SameRecord v w
  counts : w.BlockCounts
  kept : ∀ b, v.Allocated b → ¬ v.IsBitmap b →
    SameOn v.disk.bytes w.disk.bytes (v.blockAddr b) v.blockSize

namespace Grown

theorem refl (h : v.BlockCounts) : Grown v v [] :=
  ⟨⟨by simp, by simp, nodup_nil⟩, .refl v, h, fun _ _ _ => .refl _ _ _⟩

/-- What is free after was free before, and has not been taken. -/
theorem free_of_free (h : Grown v w taken) (hb : w.Free b) : v.Free b ∧ b ∉ taken := by
  have hnot := hb.not_allocated
  rw [h.allocated, not_or] at hnot
  exact ⟨(h.record.free_or_allocated.mp (.inl hb)).resolve_right hnot.1, hnot.2⟩

theorem trans (h : Grown v u taken) (h' : Grown u w taken') : Grown v w (taken ++ taken') := by
  have hlayout := h.record.toSameLayout
  refine ⟨⟨fun b => ?_, fun b hb => ?_, ?_⟩, h.record.trans h'.record, h'.counts,
    fun b hb hmap => ?_⟩
  · rw [h'.allocated, h.allocated, mem_append, or_assoc]
  · rcases mem_append.mp hb with hb | hb
    · exact h.free b hb
    · exact (h.free_of_free (h'.free b hb)).1
  · refine nodup_append.mpr ⟨h.nodup, h'.nodup, fun b hb c hc heq => ?_⟩
    exact (h.free_of_free (h'.free c hc)).2 (heq ▸ hb)
  · have hkept := h'.kept b ((h.allocated b).mpr (.inl hb)) (by rwa [hlayout.isBitmap])
    rw [hlayout.blockAddr, hlayout.blockSize] at hkept
    exact (h.kept b hb hmap).trans hkept

theorem blockSpace (h : Grown v w taken) (hv : v.BlockSpace) : w.BlockSpace := by
  have hlayout := h.record.toSameLayout
  refine ⟨h.counts, fun b hb => ?_, fun b hb => hlayout.inRange (hv.blocks b ?_)⟩
  · exact (h.allocated b).mpr (.inl (hv.bitmaps b (hlayout.isBitmap.mp hb)))
  · rcases hb with hb | hb
    · exact .inl (h.free_of_free hb).1
    · rcases (h.allocated b).mp hb with hb | hb
      · exact .inr hb
      · exact .inl (h.free b hb)

/-- A block that has been taken is in use, and no bitmap. -/
theorem not_isBitmap (h : Grown v w taken) (hv : v.BlockSpace) (hb : b ∈ taken) : ¬ v.IsBitmap b :=
  fun hmap => (h.free b hb).not_allocated (hv.bitmaps b hmap)

/-- A table that was there holds the numbers it held. -/
theorem diskArray_eq (h : Grown v w taken) (hb : v.Allocated b) (hmap : ¬ v.IsBitmap b) {i : ℕ}
    (hi : i < v.blockSize / 4) : w.diskArray b i = v.diskArray b i := by
  rw [diskArray, h.record.toSameLayout.blockAddr]
  exact loadLE_congr ((h.kept b hb hmap).mono (by omega) (by omega))

end Grown

/-! ### Allocating -/

/-- Turning a bit of a bitmap over leaves every other block. -/
theorem sameOn_withBit (v : Volume) (k : MapKind) (g : ℕ) (hi : i < 8 * v.blockSize) (on : Bool)
    (count total : ℕ) (hb : v.gdGet g k.bitmap ≠ b) :
    SameOn v.disk.bytes (v.withBit k g i on count total).disk.bytes (v.blockAddr b)
      v.blockSize := by
  have happart := blockAddr_apart (v := v) hb
  have hbyte : (v.mapStart k g + i) / 8 = v.blockAddr (v.gdGet g k.bitmap) + i / 8 := by
    rw [mapStart]
    omega
  refine sameOn_turn v.disk.bytes on ?_
  omega

theorem sameRecord_withBit (v : Volume) (k : MapKind) (g i : ℕ) (on : Bool) (count total : ℕ) :
    SameRecord v (v.withBit k g i on count total) :=
  ⟨v.sameLayout_withBit k g i on count total, rfl, rfl, rfl, rfl, rfl⟩

/-- With one bit, one block changes. -/
theorem OnlyBit.allocated_iff {on : Bool} (h : OnlyBit v w .blocks g i on)
    (hlayout : SameLayout v w) (hg : g < v.groupNumber) (hi : i < 8 * v.blockSize)
    (hlow : i < v.sbGet .blocksPerGroup) :
    w.Allocated b ↔ if b = v.blockNumber g i then on = true else v.Allocated b := by
  simp only [Allocated, hlayout.groupNumber, hlayout.blockSize, hlayout.blockNumber,
    hlayout.blocksPerGroup]
  split_ifs with hb
  · subst hb
    constructor
    · rintro ⟨g', hg', i', hlow', hi', heq, hset⟩
      obtain ⟨rfl, rfl⟩ := BlockCounts.blockNumber_inj hlow hlow' heq
      rwa [h g hg i hi, if_pos ⟨rfl, rfl⟩] at hset
    · exact fun hon => ⟨g, hg, i, hlow, hi, rfl, by rw [h g hg i hi, if_pos ⟨rfl, rfl⟩, hon]⟩
  · refine exists_congr fun g' => and_congr_right fun hg' => exists_congr fun i' =>
      and_congr_right fun _ => and_congr_right fun hi' => and_congr_right fun heq => ?_
    rw [h g' hg' i' hi', if_neg]
    rintro ⟨rfl, rfl⟩
    exact hb heq

/-- The bit of a block is set. -/
theorem BlockSpace.grown_takeBlock (h : v.BlockSpace) (hg : g < v.groupNumber)
    (hi : i < 8 * v.blockSize) (hclear : v.mapBit .blocks g i = false) :
    Grown v (v.takeBlock g i) [v.blockNumber g i] := by
  have hlow := h.lt_of_clear hg hi hclear
  have hlayout : SameLayout v (v.takeBlock g i) := v.sameLayout_withBit .blocks g i true _ _
  have hbit : OnlyBit v (v.takeBlock g i) .blocks g i true := h.onlyBit_withBit hg hi true _ _
  refine ⟨⟨fun b => ?_, ?_, nodup_singleton _⟩, v.sameRecord_withBit .blocks g i true _ _,
    h.takeBlock hg hi hclear, fun b hb hmap => ?_⟩
  · rw [hbit.allocated_iff hlayout hg hi hlow]
    split_ifs with heq <;> simp [heq]
  · intro b hb
    rw [mem_singleton.mp hb]
    exact ⟨g, hg, i, hlow, hi, rfl, hclear⟩
  · exact v.sameOn_withBit .blocks g hi true _ _ fun heq => hmap ⟨g, hg, heq⟩

/-- **`ext2_allocate_block` takes a free block**, or there is none. -/
theorem BlockSpace.allocateBlock (h : v.BlockSpace) :
    (v.allocateBlock.2 ≠ 0 ∧ Grown v v.allocateBlock.1 [v.allocateBlock.2]) ∨
      v.allocateBlock = (v, 0) ∧ v.Exhausted := by
  rcases h.allocateBlockFrom_eq (Nat.zero_add _) with
    ⟨g, i, ⟨hg, hi, hclear, -, -⟩, heq⟩ | ⟨heq, hall⟩
  · refine .inl ?_
    rw [Volume.allocateBlock, heq]
    exact ⟨Nat.succ_ne_zero _, h.grown_takeBlock hg hi hclear⟩
  · exact .inr ⟨heq, fun g hg => hall g (Nat.zero_le g) hg⟩

theorem BlockSpace.allocateBlock_of_exhausted (h : v.BlockSpace) (hv : v.Exhausted) :
    v.allocateBlock = (v, 0) := by
  rcases h.allocateBlockFrom_eq (Nat.zero_add _) with
    ⟨g, i, ⟨hg, hi, hclear, -, -⟩, -⟩ | ⟨heq, -⟩
  · rw [hv g hg i hi] at hclear
    exact Bool.noConfusion hclear
  · exact heq

/-! ### Writing -/

/-- As long as the block of a bitmap is the same, so are its bits. -/
theorem SameLayout.mapBit_of_sameOn {k : MapKind} (h : SameLayout v w) (hi : i < 8 * v.blockSize)
    (hd : SameOn v.disk.bytes w.disk.bytes (v.blockAddr (v.gdGet g k.bitmap)) v.blockSize) :
    w.mapBit k g i = v.mapBit k g i := by
  have hstart : v.mapStart k g = 8 * v.blockAddr (v.gdGet g k.bitmap) := rfl
  have hbyte := hd ((v.mapStart k g + i) / 8) (by omega) (by omega)
  rw [mapBit, mapBit, h.mapStart, test, test, hbyte]

section SameBitmaps

variable (h : SameLayout v w)
  (hd : ∀ b, v.IsBitmap b → SameOn v.disk.bytes w.disk.bytes (v.blockAddr b) v.blockSize)

include h hd

theorem SameLayout.mapBit_eq (hg : g < v.groupNumber) (hi : i < 8 * v.blockSize) :
    w.mapBit .blocks g i = v.mapBit .blocks g i :=
  h.mapBit_of_sameOn hi (hd _ ⟨g, hg, rfl⟩)

theorem SameLayout.allocated_iff : w.Allocated b ↔ v.Allocated b := by
  simp only [Allocated, h.groupNumber, h.blockSize, h.blockNumber, h.blocksPerGroup]
  refine exists_congr fun g => and_congr_right fun hg => exists_congr fun i =>
    and_congr_right fun _ => and_congr_right fun hi => and_congr_right fun _ => ?_
  rw [h.mapBit_eq hd hg hi]

theorem SameLayout.free_iff : w.Free b ↔ v.Free b := by
  have hiff : ∀ u : Volume, u.Free b ↔ (u.Free b ∨ u.Allocated b) ∧ ¬ u.Allocated b := fun u =>
    ⟨fun hb => ⟨.inl hb, hb.not_allocated⟩, fun hb => hb.1.resolve_right hb.2⟩
  rw [hiff w, hiff v, h.free_or_allocated, h.allocated_iff hd]

section

variable (hcounts : SameCounts .blocks v w)

include hcounts

/-- With the same bitmaps and counters, the counters are right as before. -/
theorem BlockCounts.congr (hv : v.BlockCounts) : w.BlockCounts := by
  have hclear : ∀ g < v.groupNumber, w.clearIn .blocks g = v.clearIn .blocks g :=
    fun g hg => h.clearIn_eq fun i => h.mapBit_eq hd hg
  refine ⟨h.maps hv.toMaps (fun g hg i hi hle => ?_) fun g hg => ?_, ?_, ?_, ?_⟩
  · rw [h.mapBit_eq hd hg hi]
    exact hv.high g hg i hi hle
  · rw [hcounts.group, hclear g hg]
    exact hv.count g hg
  · refine (hcounts.total.trans hv.total).trans ?_
    rw [h.groupNumber]
    exact Finset.sum_congr rfl fun g hg => by rw [hclear g (Finset.mem_range.mp hg)]
  · rw [h.groupNumber, h.blocksPerGroup]
    exact hv.numbers
  · rw [h.blockSize, h.blocksPerGroup]
    exact hv.small

theorem BlockSpace.congr (hv : v.BlockSpace) : w.BlockSpace := by
  refine ⟨hv.toBlockCounts.congr h hd hcounts, fun b hmap => ?_, fun b hb => ?_⟩
  · exact (h.allocated_iff hd).mpr (hv.bitmaps b (h.isBitmap.mp hmap))
  · exact h.inRange (hv.blocks b (hb.imp (h.free_iff hd).mp (h.allocated_iff hd).mp))

end

end SameBitmaps

theorem Exhausted.withBytes {d : Bytes}
    (hd : ∀ b, v.IsBitmap b → SameOn v.disk.bytes d (v.blockAddr b) v.blockSize)
    (h : v.Exhausted) : (v.withBytes d).Exhausted := by
  intro g hg i hi
  rw [(SameLayout.withBytes v d).mapBit_eq hd hg hi]
  exact h g hg i hi

/-- The bytes of a block are written. -/
def withBlock (v : Volume) (t : ℕ) (buffer : Bytes) : Volume :=
  v.withBytes (blit v.disk.bytes (v.blockAddr t) buffer 0 v.blockSize)

/-- A block other than the bitmaps is written. -/
theorem sameOn_withBlock (ht : ¬ v.IsBitmap t) (buffer : Bytes) (b : ℕ) (hb : v.IsBitmap b) :
    SameOn v.disk.bytes (blit v.disk.bytes (v.blockAddr t) buffer 0 v.blockSize) (v.blockAddr b)
      v.blockSize :=
  sameOn_blit (blockAddr_apart fun heq => ht (heq ▸ hb))

/-- The numbers in a table that has been written. -/
theorem diskArray_withBlock (v : Volume) (t : ℕ) (buffer : Bytes) (hi : i < v.blockSize / 4) :
    (v.withBlock t buffer).diskArray t i = loadLE buffer (4 * i) 4 := by
  have haddr : (v.withBlock t buffer).blockAddr t = v.blockAddr t :=
    (SameLayout.withBytes v _).blockAddr t
  rw [diskArray, haddr, withBlock, bytes_withBytes]
  refine loadLE_eq_of_shift fun k hk => ?_
  rw [blit_apply_of_mem (by omega) (by omega), show 0 + (v.blockAddr t + 4 * i + k -
    v.blockAddr t) = 4 * i + k by omega]

theorem diskArray_withBlock_of_ne (v : Volume) (buffer : Bytes) (hb : b ≠ t)
    (hi : i < v.blockSize / 4) : (v.withBlock t buffer).diskArray b i = v.diskArray b i := by
  have haddr : (v.withBlock t buffer).blockAddr b = v.blockAddr b :=
    (SameLayout.withBytes v _).blockAddr b
  have hsame := @sameOn_blit _ _ _ v.disk.bytes buffer 0 _ (blockAddr_apart (v := v) hb)
  rw [diskArray, diskArray, haddr]
  exact loadLE_congr (hsame.mono (by omega) (by omega))

namespace Grown

variable (h : Grown v w taken) (hv : v.BlockSpace) (ht : t ∈ taken) (buffer : Bytes)

include h hv ht

theorem not_isBitmap' : ¬ w.IsBitmap t := by
  rw [h.record.isBitmap]
  exact h.not_isBitmap hv ht

theorem writeBlock_eq : w.writeBlock t buffer 0 = (w.withBlock t buffer, 1) :=
  let hw := h.blockSpace hv
  hw.sound.writeBlock_eq (hw.blocks t (.inr ((h.allocated t).mpr (.inr ht)))) buffer 0

/-- **A block that has been taken can be written.** -/
theorem withBlock : Grown v (w.withBlock t buffer) taken := by
  have hlayout := h.record.toSameLayout
  have hmap := sameOn_withBlock (h.not_isBitmap' hv ht) buffer
  refine ⟨⟨fun b => ?_, h.free, h.nodup⟩, h.record.trans (.withBytes w _),
    h.counts.congr (.withBytes w _) hmap (.withBytes .blocks w _), fun b hb hmap =>
      (h.kept b hb hmap).trans ?_⟩
  · exact ((SameLayout.withBytes w _).allocated_iff hmap).trans (h.allocated b)
  · have hne : b ≠ t := by
      rintro rfl
      exact (h.free b ht).not_allocated hb
    have hkept : SameOn w.disk.bytes (w.withBlock t buffer).disk.bytes (w.blockAddr b)
        w.blockSize := by
      exact sameOn_blit (blockAddr_apart hne)
    rwa [hlayout.blockAddr, hlayout.blockSize] at hkept

theorem exhausted_withBlock (hw : w.Exhausted) : (w.withBlock t buffer).Exhausted :=
  hw.withBytes (sameOn_withBlock (h.not_isBitmap' hv ht) buffer)

end Grown

end Volume

end Bloodmoon
