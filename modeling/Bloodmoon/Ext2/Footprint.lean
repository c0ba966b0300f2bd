import Bloodmoon.Ext2.StoredInode

/-!
# What a step changes

A volume with a consistent layout (`Volume.Formatted`) has three kinds of metadata, each in blocks
of its own: the bitmaps of the blocks, the bitmaps of the inodes and the inode tables. The inodes
share the blocks of their tables, so what a step changes is said by two sets (`Volume.Touches`): the
blocks other than those of the tables, and the inodes. A flush may write to any block that it does
not spare; nothing is said about those. Such steps compose, and steps that do not touch a bitmap
keep its bits.
-/

namespace Bloodmoon

open Machine BitArray

namespace Volume

variable {v u w : Volume} {n m b g i : ℕ} {k : MapKind} {inode : Bytes}
  {blocks blocks' inodes inodes' : Set ℕ}

/-! ### Metadata -/

/-- The block of the inode table that holds an inode. -/
def tableBlock (v : Volume) (n : ℕ) : ℕ := v.inodeStart n / v.blockSize

/-- The block is a part of an inode table. -/
def HoldsInodes (v : Volume) (b : ℕ) : Prop := ∃ n, v.IsInode n ∧ v.tableBlock n = b

/-- The block holds a bitmap of the kind. -/
def IsMap (v : Volume) (k : MapKind) (b : ℕ) : Prop := ∃ g < v.groupNumber, v.gdGet g k.bitmap = b

/-- The block holds a bitmap or a part of an inode table. -/
def IsMeta (v : Volume) (b : ℕ) : Prop := (∃ k, v.IsMap k b) ∨ v.HoldsInodes b

/-- The bitmaps of the blocks and their counters agree, the tables have whole inodes, and the
bitmaps and tables are in blocks of their own that are in use, by the numbers that the driver gives
to the bits. A flush spares them and the free blocks. The inode bitmaps and their counters need not
agree.
-/
structure Laid (v : Volume) : Prop where
  space : v.BlockSpace
  registered : v.Registered
  tables : v.InodeTables
  inodeSize : 128 ≤ v.inodeSize
  used : ∀ b, v.IsMeta b → v.Allocated b
  kinds : ∀ b, v.IsMap .blocks b → ¬ v.IsMap .inodes b
  apart : ∀ b, v.HoldsInodes b → ∀ k, ¬ v.IsMap k b
  spared : ∀ b, v.Free b ∨ v.IsMeta b → v.FlushSpares b

/-- The inode bitmaps and their counters agree too. -/
structure Formatted (v : Volume) : Prop extends Laid v where
  inodes : v.InodeMaps

section SameLayout

variable (h : SameLayout v w)

include h

theorem SameLayout.isMap_iff : w.IsMap k b ↔ v.IsMap k b := by
  simp only [IsMap, h.groupNumber, h.gdGet _ _ k.isPlace_bitmap]

theorem SameLayout.isInode_iff : w.IsInode n ↔ v.IsInode n := by
  have hper := h.inodesPerGroup
  constructor
  · exact fun hn => ⟨hn.pos, hn.lt, by rw [← hper, ← h.groupNumber]; exact hn.group⟩
  · exact fun hn => ⟨hn.pos, hn.lt, by rw [hper, h.groupNumber]; exact hn.group⟩

theorem SameLayout.tableOffset (g : ℕ) : w.tableOffset g = v.tableOffset g := by
  rw [Volume.tableOffset, Volume.tableOffset, h.gdGet g .inodeTable rfl, h.blockSize]

theorem SameLayout.tableBlock (n : ℕ) : w.tableBlock n = v.tableBlock n := by
  have hper := h.inodesPerGroup
  rw [Volume.tableBlock, Volume.tableBlock, inodeStart, inodeStart, h.tableOffset,
    hper, h.inodeSize, h.blockSize]

theorem SameLayout.holdsInodes_iff : w.HoldsInodes b ↔ v.HoldsInodes b := by
  simp only [HoldsInodes, h.isInode_iff, h.tableBlock]

theorem SameLayout.isMeta_iff : w.IsMeta b ↔ v.IsMeta b := by
  simp only [IsMeta, h.isMap_iff, h.holdsInodes_iff]

theorem SameLayout.inodeTables (hv : v.InodeTables) : w.InodeTables := by
  have hper := h.inodesPerGroup
  have hsize : w.tableSize = v.tableSize := by
    rw [Volume.tableSize, Volume.tableSize, hper, h.inodeSize]
  refine ⟨?_, ?_, fun g hg g' hg' hne => ?_, fun g hg => ?_⟩
  · rw [h.inodeSize, h.blockSize]
    exact hv.divides
  · rw [hper]
    exact hv.inodesPerGroup
  · rw [h.groupNumber] at hg hg'
    rw [h.tableOffset, h.tableOffset, hsize]
    exact hv.apart g hg g' hg' hne
  · rw [h.groupNumber] at hg
    rw [h.tableOffset, hsize]
    exact hv.below g hg

end SameLayout

theorem IsMap.isMeta (h : v.IsMap k b) : v.IsMeta b := .inl ⟨k, h⟩

theorem HoldsInodes.isMeta (h : v.HoldsInodes b) : v.IsMeta b := .inr h

namespace Laid

variable (h : v.Laid)

include h

theorem sound : v.Sound := h.registered.toSound

/-- Free blocks hold no metadata. -/
theorem not_isMeta_of_free (hb : v.Free b) : ¬ v.IsMeta b := fun hmeta =>
  hb.not_allocated (h.used b hmeta)

theorem inRange_of_isMeta (hb : v.IsMeta b) : v.InRange b := h.space.blocks b (.inr (h.used b hb))

/-- An inode lies in one block. -/
theorem inodeIn (hn : v.IsInode n) : v.InodeIn n (v.tableBlock n) := by
  have hrange := h.inRange_of_isMeta (HoldsInodes.isMeta ⟨n, hn, rfl⟩)
  obtain ⟨c, hc, hsize⟩ := h.sound.exists_blockSize
  obtain ⟨hsector, -⟩ := h.tables.inodeSector_eq h.sound hn
  refine ⟨?_, h.tables.inOneBlock h.sound hn, h.inodeSize⟩
  have hmul : v.inodeStart n / v.blockSize * (v.blockSize / 512) * 512 =
      v.tableBlock n * v.blockSize := by
    rw [Nat.mul_assoc, Nat.div_mul_cancel ⟨2 * c, by omega⟩]
    rfl
  have hlt := hrange.sector_lt
  rw [hsector, wrap32_of_lt (by omega), blockAddr, Nat.add_mul, hmul]

/-- Inodes are read from their bytes. -/
theorem readInode_congr (hrecord : SameRecord v w) (hn : v.IsInode n)
    (hd : SameOn v.disk.bytes w.disk.bytes (v.inodeAddr n) v.inodeSize) :
    w.readInode n = v.readInode n := by
  have hlayout := hrecord.toSameLayout
  have hone := h.tables.inOneBlock h.sound hn
  rw [(hlayout.sound h.sound).readInode_eq (hlayout.inOneBlock_iff.mpr hone),
    h.sound.readInode_eq hone, hlayout.inodeAddr, hlayout.inodeSize, hrecord.fresh,
    blit_congr _ _ hd]

theorem inodeAddr_mem (hn : v.IsInode n) : v.blockAddr (v.tableBlock n) ≤ v.inodeAddr n ∧
    v.inodeAddr n + v.inodeSize ≤ v.blockAddr (v.tableBlock n) + v.blockSize := by
  have hsector := (h.inodeIn hn).sector
  have hfits := (h.inodeIn hn).fits
  rw [inodeAddr]
  omega

/-- A volume with the same layout, whose bitmaps are right, and that has not given metadata away. -/
theorem of_sameRecord (hrecord : SameRecord v w) (hspace : w.BlockSpace)
    (hused : ∀ b, v.IsMeta b → w.Allocated b) (hfree : ∀ b, w.Free b → v.FlushSpares b) :
    w.Laid := by
  have hlayout := hrecord.toSameLayout
  refine ⟨hspace, hrecord.registered h.registered, hlayout.inodeTables h.tables, ?_,
    fun b hb => hused b (hlayout.isMeta_iff.mp hb), fun b hb => ?_, fun b hb k => ?_,
      fun b hb => ?_⟩
  · rw [hlayout.inodeSize]
    exact h.inodeSize
  · rw [hlayout.isMap_iff] at hb ⊢
    exact h.kinds b hb
  · rw [hlayout.isMap_iff]
    exact h.apart b (hlayout.holdsInodes_iff.mp hb) k
  · rw [hrecord.flushSpares_iff]
    rcases hb with hb | hb
    · exact hfree b hb
    · exact h.spared b (.inr (hlayout.isMeta_iff.mp hb))

end Laid

/-! ### Footprints -/

/-- Besides the given blocks and inodes, nothing has changed that a flush spares. -/
structure Touches (v w : Volume) (blocks inodes : Set ℕ) : Prop where
  record : SameRecord v w
  kept : ∀ b ∉ blocks, ¬ v.HoldsInodes b → v.FlushSpares b →
    SameOn v.disk.bytes w.disk.bytes (v.blockAddr b) v.blockSize
  readInode : ∀ n ∉ inodes, v.IsInode n → w.readInode n = v.readInode n

namespace Touches

theorem mono (h : Touches v w blocks inodes) (hb : blocks ⊆ blocks') (hn : inodes ⊆ inodes') :
    Touches v w blocks' inodes' :=
  ⟨h.record, fun b hb' => h.kept b fun hmem => hb' (hb hmem),
    fun n hn' => h.readInode n fun hmem => hn' (hn hmem)⟩

/-- **Footprints compose.** -/
theorem trans (h : Touches v u blocks inodes) (h' : Touches u w blocks' inodes') :
    Touches v w (blocks ∪ blocks') (inodes ∪ inodes') := by
  have hlayout := h.record.toSameLayout
  refine ⟨h.record.trans h'.record, fun b hb htable hspared => ?_, fun n hn hinode => ?_⟩
  · rw [Set.mem_union, not_or] at hb
    have hsame := h'.kept b hb.2 (by rwa [hlayout.holdsInodes_iff])
      (h.record.flushSpares_iff.mpr hspared)
    rw [hlayout.blockAddr, hlayout.blockSize] at hsame
    exact (h.kept b hb.1 htable hspared).trans hsame
  · rw [Set.mem_union, not_or] at hn
    rw [h'.readInode n hn.2 (hlayout.isInode_iff.mpr hinode), h.readInode n hn.1 hinode]

variable (h : Touches v w blocks inodes) (hv : v.Laid)

include h hv

section Blocks

variable (hb : ∀ b, v.IsMap .blocks b → b ∉ blocks)

include hb

theorem sameOn_bitmap (c : ℕ) (hc : v.IsBitmap c) :
    SameOn v.disk.bytes w.disk.bytes (v.blockAddr c) v.blockSize := by
  have hmap : v.IsMap .blocks c := hc
  exact h.kept c (hb c hmap) (fun htable => hv.apart c htable _ hmap)
    (hv.spared c (.inr hmap.isMeta))

/-- Blocks are in use as before when no bitmap of the blocks is touched. -/
theorem allocated_iff : w.Allocated b ↔ v.Allocated b :=
  h.record.allocated_iff (h.sameOn_bitmap hv hb)

theorem free_iff : w.Free b ↔ v.Free b := h.record.free_iff (h.sameOn_bitmap hv hb)

theorem blockSpace (hcounts : SameCounts .blocks v w) : w.BlockSpace :=
  hv.space.congr h.record.toSameLayout (h.sameOn_bitmap hv hb) hcounts

end Blocks

end Touches

/-- Inodes are kept when the blocks of their tables are. -/
theorem Laid.touches (h : v.Laid) (hrecord : SameRecord v w)
    (htable : ∀ b ∈ blocks, ¬ v.HoldsInodes b)
    (hkept : ∀ b ∉ blocks, v.FlushSpares b →
      SameOn v.disk.bytes w.disk.bytes (v.blockAddr b) v.blockSize) : Touches v w blocks ∅ := by
  refine ⟨hrecord, fun b hb _ => hkept b hb, fun n _ hn => ?_⟩
  have hholds : v.HoldsInodes (v.tableBlock n) := ⟨n, hn, rfl⟩
  have hsame := hkept _ (fun hmem => htable _ hmem hholds) (h.spared _ (.inr hholds.isMeta))
  obtain ⟨hle, hend⟩ := h.inodeAddr_mem hn
  exact h.readInode_congr hrecord hn (hsame.mono hle hend)

/-! ### The steps -/

/-- The next inode is that of the first clear bit, bit `i` of the bitmap of group `g`. -/
structure NextInode (v : Volume) (g i : ℕ) : Prop where
  group : g < v.groupNumber
  lt : i < 8 * v.blockSize
  clear : v.mapBit .inodes g i = false
  before : ∀ g' < g, v.gdGet g' .freeInodesCount = 0
  first : ∀ j < i, v.mapBit .inodes g j = true

/-- The bit `i` of the inode bitmap of group `g` has been taken. -/
structure InodeTaken (v w : Volume) (g i : ℕ) : Prop extends NextInode v g i where
  laid : w.Laid
  touches : Touches v w {v.gdGet g .inodeBitmap} ∅
  counted : 0 < v.gdGet g .freeInodesCount

/-- The block is the one that `ext2_allocate_block` hands out next, that of the first clear bit. The
driver counts the blocks from 1, whichever is the first block of the volume. -/
structure NextBlock (v : Volume) (b : ℕ) : Prop where
  free : v.Free b
  le : ∀ c, v.Free c → b ≤ c

theorem NextBlock.unique {c : ℕ} (h : v.NextBlock b) (h' : v.NextBlock c) : b = c :=
  Nat.le_antisymm (h.le c h'.free) (h'.le b h.free)

theorem FirstClear.nextBlock {j : ℕ} (h : v.FirstClear 0 g j) (hlow : j < v.sbGet .blocksPerGroup) :
    v.NextBlock (v.blockNumber g j) := by
  refine ⟨⟨g, h.group, j, hlow, h.lt, rfl, h.clear⟩, ?_⟩
  rintro c ⟨g', hg', i, hi, hlt, rfl, hclear⟩
  rw [blockNumber, blockNumber]
  rcases Nat.lt_trichotomy g' g with hless | rfl | hless
  · exact absurd (h.before g' (Nat.zero_le g') hless i hlt) (by rw [hclear]; decide)
  · have hle : j ≤ i := Nat.not_lt.mp fun hji => absurd (h.first i hji) (by rw [hclear]; decide)
    omega
  · have hmul := region_le (v.sbGet .blocksPerGroup) hless
    omega

/-- The block has been taken. -/
structure BlockTaken (v w : Volume) (b : ℕ) : Prop where
  first : v.NextBlock b
  grown : Grown v w [b]
  laid : w.Laid
  touches : Touches v w {c | v.IsMap .blocks c} ∅

namespace Laid

variable (h : v.Laid)

include h

theorem touches_withBit (hg : g < v.groupNumber) (hi : i < 8 * v.blockSize) (on : Bool)
    (count total : ℕ) : Touches v (v.withBit k g i on count total) {v.gdGet g k.bitmap} ∅ := by
  have hmap : v.IsMap k (v.gdGet g k.bitmap) := ⟨g, hg, rfl⟩
  refine h.touches (v.sameRecord_withBit k g i on count total) (fun b hb htable => ?_)
    fun b hb _ => v.sameOn_withBit k g hi on count total (Ne.symm hb)
  rw [Set.mem_singleton_iff.mp hb] at htable
  exact h.apart _ htable k hmap

/-- Steps that touch no bitmap of the blocks and none of their counters keep the layout. -/
theorem of_touches (ht : Touches v w blocks inodes) (hbits : ∀ b, v.IsMap .blocks b → b ∉ blocks)
    (hcounts : SameCounts .blocks v w) : w.Laid := by
  exact h.of_sameRecord ht.record (ht.blockSpace h hbits hcounts)
    (fun b hmeta => (ht.allocated_iff h hbits).mpr (h.used b hmeta))
    fun b hfree => h.spared b (.inl ((ht.free_iff h hbits).mp hfree))

/-- **Writing an inode** touches that inode only. -/
theorem writeInode (hn : v.IsInode n) (inode : Bytes) :
    ∃ w, v.writeInode n inode = some w ∧ w.Laid ∧ Touches v w ∅ {n} ∧
      ∃ inode', w.readInode n = some inode' ∧ ∀ x < v.inodeSize, inode' x = inode x := by
  have hwrite := h.sound.writeInode_eq (h.tables.inOneBlock h.sound hn) inode
  have hread := h.tables.readInode_written h.sound hn inode
  have htouches : Touches v (v.withBytes (blit v.disk.bytes (v.inodeAddr n) inode 0 v.inodeSize)) ∅
      {n} := by
    refine ⟨.withBytes v _, fun b _ htable _ => ?_, fun m hm hinode => ?_⟩
    · exact (h.inodeIn hn).sameOn inode fun heq => htable ⟨n, hn, heq.symm⟩
    · exact h.tables.readInode_other h.sound hn inode hinode hm
  have hcounts := SameCounts.withBytes .blocks v
    (blit v.disk.bytes (v.inodeAddr n) inode 0 v.inodeSize)
  generalize v.withBytes (blit v.disk.bytes (v.inodeAddr n) inode 0 v.inodeSize) = w at *
  exact ⟨w, hwrite, h.of_touches htouches (fun _ _ => Set.notMem_empty _) hcounts, htouches, hread⟩

/-- **A flush** touches nothing of what it spares. -/
theorem flushPartition : v.flushPartition.Laid ∧ Touches v v.flushPartition ∅ ∅ := by
  have htouches : Touches v v.flushPartition ∅ ∅ :=
    h.touches h.registered.sameRecord_flushPartition (fun b hb => absurd hb (Set.notMem_empty b))
      fun b _ hspared x hx hx' => h.registered.flushed_of_not_writes (hspared x hx hx')
  have hcounts : SameCounts .blocks v v.flushPartition := by
    rw [h.registered.flushPartition_bytes]
    exact ⟨fun _ => rfl, rfl⟩
  exact ⟨h.of_touches htouches (fun _ _ => Set.notMem_empty _) hcounts, htouches⟩

/-- A bit of an inode bitmap is set and the counters are changed. -/
theorem takeInode (hg : g < v.groupNumber) (hi : i < 8 * v.blockSize) :
    (v.takeInode g i).Laid ∧ Touches v (v.takeInode g i) {v.gdGet g .inodeBitmap} ∅ := by
  have htouches : Touches v (v.takeInode g i) {v.gdGet g .inodeBitmap} ∅ :=
    h.touches_withBit hg hi true _ _
  refine ⟨h.of_touches htouches (fun b hb hmem => ?_) (.withBit (by simp) v g i true _ _), htouches⟩
  rw [Set.mem_singleton_iff.mp hmem] at hb
  exact h.kinds _ hb ⟨g, hg, rfl⟩

/-- **Allocating an inode** takes a clear bit, whose number in its group is returned. -/
theorem allocateInode : v.allocateInode = (v, 0) ∨
    ∃ g i w, v.allocateInode = (w, i + 1) ∧ InodeTaken v w g i := by
  rcases v.allocateInode_cases h.sound fun g hg => h.inRange_of_isMeta (.inl ⟨.inodes, g, hg, rfl⟩)
    with ⟨hnone, -⟩ | ⟨g, hg, hpos, hbefore, hfull | ⟨i, hi, hclear, hfirst, heq⟩⟩
  · exact .inl hnone
  · exact .inl hfull.2
  obtain ⟨hlaid, htouches⟩ := h.takeInode hg hi
  exact .inr ⟨g, i, _, heq, ⟨hg, hi, hclear, hbefore, hfirst⟩, hlaid, htouches, hpos⟩

/-- **Allocating a block** takes a free one and touches the bitmap only. -/
theorem allocateBlock :
    (v.allocateBlock = (v, 0) ∧ v.Exhausted) ∨
    ∃ b w, v.allocateBlock = (w, b) ∧ BlockTaken v w b := by
  rcases h.space.allocateBlockFrom_eq (Nat.zero_add _) with
    ⟨g, i, hfound, heq⟩ | ⟨heq, hall⟩
  · have hg := hfound.group
    have hi := hfound.lt
    have hclear := hfound.clear
    have hgrown := h.space.grown_takeBlock hg hi hclear
    have htouches : Touches v (v.takeBlock g i) {v.gdGet g .blockBitmap} ∅ :=
      h.touches_withBit hg hi true _ _
    have hlaid : (v.takeBlock g i).Laid :=
      h.of_sameRecord htouches.record (hgrown.blockSpace h.space)
        (fun b hmeta => (hgrown.allocated b).mpr (.inl (h.used b hmeta)))
        fun b hfree => h.spared b (.inl (hgrown.free_of_free hfree).1)
    refine .inr ⟨_, _, heq, hfound.nextBlock (h.space.lt_of_clear hg hi hclear), hgrown, hlaid,
      htouches.mono ?_ (Set.Subset.refl _)⟩
    rintro b rfl
    exact ⟨g, hg, rfl⟩
  · exact .inl ⟨heq, fun g hg => hall g (Nat.zero_le g) hg⟩

end Laid

/-- The next inode of a formatted volume is one of its inodes. -/
theorem Formatted.isInode_next (h : v.Formatted) (hnext : v.NextInode g i) : v.IsInode (i + 1) := by
  have hlow : i < v.sbGet .inodesPerGroup := h.inodes.lt_of_clear hnext.group hnext.lt hnext.clear
  refine ⟨Nat.succ_pos i, ?_, ?_⟩
  · have := h.inodes.perGroup_lt
    omega
  · rw [Nat.add_sub_cancel, Nat.div_eq_of_lt hlow]
    exact h.registered.groups_pos

/-! ### The small volume -/

namespace smallVolume

variable {log usedBlocks usedInodes : ℕ} {content : Bytes} (hlog : log = 0 ∨ log = 1)

theorem isInode_iff :
    (smallVolume log usedBlocks usedInodes content).IsInode n ↔ 1 ≤ n ∧ n ≤ 8 := by
  constructor
  · rintro ⟨hpos, -, hgroup⟩
    change (n - 1) / 8 < 1 at hgroup
    omega
  · rintro ⟨hpos, hle⟩
    refine ⟨hpos, by omega, ?_⟩
    exact show (n - 1) / 8 < 1 by omega

include hlog

theorem inodeTables : (smallVolume log usedBlocks usedInodes content).InodeTables := by
  refine sameRecord.toSameLayout.inodeTables ?_
  rcases hlog with rfl | rfl
  all_goals exact ⟨by decide, by decide, by decide +kernel, by decide +kernel⟩

/-- The inodes are in block 5. -/
theorem tableBlock_eq (hn : 1 ≤ n ∧ n ≤ 8) :
    (smallVolume log usedBlocks usedInodes content).tableBlock n = 5 := by
  rw [sameRecord.toSameLayout.tableBlock]
  have htable : ∀ i : Fin 8, (smallVolume 0 0 0 fun _ => 0).tableBlock (i + 1) = 5 ∧
      (smallVolume 1 0 0 fun _ => 0).tableBlock (i + 1) = 5 := by
    decide +kernel
  obtain ⟨i, rfl⟩ : ∃ i : Fin 8, n = i + 1 := ⟨⟨n - 1, by omega⟩, (Nat.sub_add_cancel hn.1).symm⟩
  rcases hlog with rfl | rfl
  · exact (htable i).1
  · exact (htable i).2

/-- The metadata are in the blocks 3 to 5. -/
theorem isMeta (h : (smallVolume log usedBlocks usedInodes content).IsMeta b) : 3 ≤ b ∧ b ≤ 5 := by
  rcases h with ⟨k, g, hg, rfl⟩ | ⟨n, hn, rfl⟩
  · rw [Nat.lt_one_iff.mp hg, bitmap_eq hlog]
    cases k <;> decide
  · rw [tableBlock_eq hlog (isInode_iff.mp hn)]
    decide

theorem formatted (hmin : 5 ≤ usedBlocks) (hused : usedBlocks ≤ 16) :
    (smallVolume log usedBlocks usedInodes content).Formatted := by
  refine ⟨⟨blockSpace hlog (by omega) hused, registered hlog, inodeTables hlog, ?_,
    fun b hb => ?_, ?_, ?_, fun b hb => flushSpares hlog ?_⟩, inodeMaps hlog⟩
  · rw [sameRecord.toSameLayout.inodeSize]
    rcases hlog with rfl | rfl
    all_goals decide
  · have := isMeta hlog hb
    exact (allocated_iff hlog hused).mpr (by omega)
  · rintro b ⟨g, hg, rfl⟩ ⟨g', hg', heq⟩
    rw [Nat.lt_one_iff.mp hg, Nat.lt_one_iff.mp hg', bitmap_eq hlog, bitmap_eq hlog] at heq
    exact absurd heq (by decide)
  · rintro b ⟨n, hn, rfl⟩ k ⟨g, hg, heq⟩
    rw [Nat.lt_one_iff.mp hg, bitmap_eq hlog, tableBlock_eq hlog (isInode_iff.mp hn)] at heq
    cases k <;> exact absurd heq (by decide)
  · rcases hb with hb | hb
    · have hnot : ¬ _ := hb.not_allocated
      rw [allocated_iff hlog hused] at hnot
      have := number hlog (.inl hb)
      omega
    · have := isMeta hlog hb
      omega

end smallVolume

end Volume

end Bloodmoon
