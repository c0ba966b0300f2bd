import Bloodmoon.Ext2.BlockSpace
import Bloodmoon.Ext2.Flush
import Bloodmoon.Ext2.InodeTable

/-!
# Storing an inode

A file is resized by changing its block numbers, writing the inode back and flushing the partition.
The inode lies in a block of its group's table (`Volume.InodeIn`), so that writing it leaves every
other block. What the flush writes is not where the superblocks and descriptors are
(`flushFrame_iff`), so it has to be said of each block that must not change that the flush spares it
(`Volume.FlushSpares`).
-/

namespace Bloodmoon

open Machine List

namespace Volume

variable {v u w : Volume} {n b k : ℕ} {inode : Bytes}

/-! ### Inodes on the disk -/

/-- The inode is in the block `b`, as a whole, and has room for the block numbers. -/
structure InodeIn (v : Volume) (n b : ℕ) : Prop where
  sector : v.inodeSector n * 512 = v.blockAddr b
  fits : v.inodeOffset n + v.inodeSize ≤ v.blockSize
  size : 128 ≤ v.inodeSize

theorem SameLayout.inodeIn (h : SameLayout v w) (hin : v.InodeIn n b) : w.InodeIn n b where
  sector := by
    rw [h.inodeSector, h.blockAddr]
    exact hin.sector
  fits := by
    rw [h.inodeOffset, h.inodeSize, h.blockSize]
    exact hin.fits
  size := by
    rw [h.inodeSize]
    exact hin.size

namespace InodeIn

/-- An inode that is written leaves the other blocks. -/
theorem sameOn (h : v.InodeIn n b) (inode : Bytes) {c : ℕ} (hc : c ≠ b) :
    SameOn v.disk.bytes (blit v.disk.bytes (v.inodeAddr n) inode 0 v.inodeSize) (v.blockAddr c)
      v.blockSize := by
  have happart := blockAddr_apart (v := v) hc
  have hsector := h.sector
  have hfits := h.fits
  refine sameOn_blit ?_
  rw [inodeAddr]
  omega

/-- An inode is in one block. -/
theorem unique {c : ℕ} (h : v.InodeIn n b) (h' : v.InodeIn n c) (hv : v.Sound) : b = c := by
  have hbs := hv.blockSize_pos
  by_contra hne
  have hapart := blockAddr_apart (v := v) hne
  have hsector := h.sector
  have hsector' := h'.sector
  omega

/-- The bytes of an inode that has been written and is still on the disk. -/
theorem readInode_apply (h : v.InodeIn n b) (hv : v.Sound) (d inode : Bytes)
    (hd : SameOn (blit d (v.inodeAddr n) inode 0 v.inodeSize) v.disk.bytes (v.blockAddr b)
      v.blockSize) :
    ∃ inode', v.readInode n = some inode' ∧ ∀ x < v.inodeSize, inode' x = inode x := by
  have hsector := h.sector
  have hfits := h.fits
  refine ⟨_, hv.readInode_eq h.fits, fun x hx => ?_⟩
  rw [blit_apply_of_mem (Nat.zero_le x) (by omega),
    hd _ (by rw [inodeAddr]; omega) (by rw [inodeAddr]; omega),
    blit_apply_of_mem (by omega) (by omega)]
  exact congrArg inode (by omega)

end InodeIn

/-! ### What a flush writes -/

/-- A flush writes the byte at the address. -/
def FlushWrites (v : Volume) (x : ℕ) : Prop :=
  ∃ i < v.groupNumber, (v.groupAddr i + v.bgdtBlock * 512 ≤ x ∧
      x < v.groupAddr i + (v.bgdtBlock + v.tableSectors) * 512) ∨
    i < v.backupBgsCount ∧ v.groupAddr i + 1024 ≤ x ∧ x < v.groupAddr i + 2048

/-- A flush writes nothing to the block. -/
def FlushSpares (v : Volume) (b : ℕ) : Prop :=
  ∀ x, v.blockAddr b ≤ x → x < v.blockAddr b + v.blockSize → ¬ v.FlushWrites x

theorem Registered.flushed_of_not_writes (h : v.Registered) {x : ℕ} (hx : ¬ v.FlushWrites x) :
    v.flushPartition.disk.bytes x = v.disk.bytes x := by
  rcases h.exists_group x with hout | ⟨i, hi, o, ho, rfl⟩
  · exact h.flushed_of_outside hout
  · have hsb : ¬ (i < v.backupBgsCount ∧ 1024 ≤ o ∧ o < 2048) := fun hsb =>
      hx ⟨i, hi, .inr ⟨hsb.1, by omega, by omega⟩⟩
    have hbg : ¬ (v.bgdtBlock * 512 ≤ o ∧ o < (v.bgdtBlock + v.tableSectors) * 512) := fun hbg =>
      hx ⟨i, hi, .inl ⟨by omega, by omega⟩⟩
    rw [h.flushed_apply hi ho, if_neg hsb, if_neg hbg]

theorem Registered.sameRecord_flushPartition (h : v.Registered) :
    SameRecord v v.flushPartition := by
  rw [h.flushPartition_bytes]
  exact ⟨(SameLayout.withBytes v _).trans ⟨rfl, rfl, rfl, rfl, rfl, rfl, fun _ _ => rfl,
    fun _ _ _ => rfl⟩, rfl, rfl, rfl, rfl, rfl⟩

namespace SameRecord

variable (h : SameRecord v w)

include h

theorem blockSectors : w.blockSectors = v.blockSectors := by
  rw [Volume.blockSectors, Volume.blockSectors, h.blockSize, h.sectorSize]

theorem sectorsPerGroup : w.sectorsPerGroup = v.sectorsPerGroup := by
  rw [Volume.sectorsPerGroup, Volume.sectorsPerGroup, h.blockSize, h.sectorSize, h.blocksPerGroup]

theorem tableSectors : w.tableSectors = v.tableSectors := by
  rw [Volume.tableSectors, Volume.tableSectors, h.groupNumber, h.sectorSize]

theorem registered (hv : v.Registered) : w.Registered := by
  have hsb : ∀ f, (∀ k : MapKind, f ≠ k.total) → w.sbGet f = v.sbGet f := h.sbGet
  have hper := h.blocksPerGroup
  have hper' := h.inodesPerGroup
  refine ⟨h.sound hv.toSound, ?_, h.sbBlock.trans hv.sbBlock, ?_, ?_, ?_, ?_, ?_, ?_,
    ?_, ?_, ?_, ?_, ?_⟩
  · exact (hsb _ fun k => by cases k <;> decide).trans hv.magic
  · rw [h.bgdtBlock, h.blockSize]
    exact hv.bgdtBlock
  · exact hper ▸ hv.blocksPerGroup
  · exact hper' ▸ hv.inodesPerGroup
  · rw [h.groupNumber, hper, hsb _ fun k => by cases k <;> decide]
    exact hv.groups
  · rw [h.groupNumber, hper', hsb _ fun k => by cases k <;> decide]
    exact hv.groups'
  · exact h.groupNumber ▸ hv.groups_pos
  · exact h.backupBgsCount ▸ hv.backups_pos
  · rw [h.backupBgsCount, h.groupNumber]
    exact hv.backups_le
  · rw [h.backupBgsCount, h.backupBgs]
    exact hv.backups
  · rw [tableStart, tableBlocks, h.blockSectors, h.bgdtBlock, h.groupNumber, h.blockSize,
      h.sectorsPerGroup]
    exact hv.table_fits
  · rw [h.lba, h.sectorsPerGroup, h.groupNumber]
    exact hv.in_range

theorem flushWrites_iff {x : ℕ} : w.FlushWrites x ↔ v.FlushWrites x := by
  simp only [FlushWrites, groupAddr, h.groupNumber, h.lba, h.sectorsPerGroup, h.bgdtBlock,
    h.tableSectors, h.backupBgsCount]

end SameRecord

/-! ### Storing -/

/-- The inode `n`, in the block `b`, has been stored with the block numbers of `inode`, and the
partition has been flushed. -/
structure Stored (v w : Volume) (n b : ℕ) (inode : Bytes) : Prop where
  record : SameRecord v w
  read : ∃ inode', w.readInode n = some inode' ∧ ∀ k < 15, iBlock inode' k = iBlock inode k
  kept : ∀ c, c ≠ b → v.FlushSpares c → SameOn v.disk.bytes w.disk.bytes (v.blockAddr c) v.blockSize

/-- The size and the number of sectors are not among the block numbers. -/
theorem iBlock_resized (inode : Bytes) (size sectors k : ℕ) :
    iBlock (inodeDescriptor.set (inodeDescriptor.set inode 0 .size size) 0 .sectors sectors) k =
      iBlock inode k := by
  have hsize : SameOn inode (inodeDescriptor.set inode 0 .size size) (40 + 4 * k) 4 :=
    sameOn_storeLE _ _ (.inr (by change 0 + 4 + 4 ≤ _; omega))
  have hsectors : ∀ m : Bytes, SameOn m (inodeDescriptor.set m 0 .sectors sectors) (40 + 4 * k) 4 :=
    fun m => sameOn_storeLE _ _ (.inr (by change 0 + 28 + 4 ≤ _; omega))
  exact loadLE_congr (hsize.trans (hsectors _))

section Flush

variable (hv : v.Registered) (hin : v.InodeIn n b) (hb : v.FlushSpares b) (hrecord : SameRecord v u)
  (hbytes : u.disk.bytes = blit v.disk.bytes (v.inodeAddr n) inode 0 v.inodeSize)

include hv hrecord

theorem Registered.sameOn_flushPartition {c : ℕ} (hc : v.FlushSpares c) :
    SameOn u.disk.bytes u.flushPartition.disk.bytes (v.blockAddr c) v.blockSize := fun x hx hx' =>
  (hrecord.registered hv).flushed_of_not_writes fun hwrites =>
    hc x hx hx' (hrecord.flushWrites_iff.mp hwrites)

include hin hb hbytes

/-- An inode that has been written can be read after a flush that spares it. -/
theorem Registered.readInode_flushPartition :
    ∃ inode', u.flushPartition.readInode n = some inode' ∧
      ∀ x < v.inodeSize, inode' x = inode x := by
  have hlayout := (hrecord.trans (hrecord.registered hv).sameRecord_flushPartition).toSameLayout
  have hspared := hv.sameOn_flushPartition hrecord hb
  rw [hbytes] at hspared
  have hread := (hlayout.inodeIn hin).readInode_apply (hlayout.sound hv.toSound) v.disk.bytes inode
    (by
      rw [hlayout.inodeAddr, hlayout.inodeSize, hlayout.blockAddr, hlayout.blockSize]
      exact hspared)
  rwa [hlayout.inodeSize] at hread

/-- It is stored then. -/
theorem Registered.stored_flushPartition : Stored v u.flushPartition n b inode := by
  obtain ⟨inode', hread, hsame⟩ := hv.readInode_flushPartition hin hb hrecord hbytes
  refine ⟨hrecord.trans (hrecord.registered hv).sameRecord_flushPartition,
    ⟨inode', hread, fun k hk => ?_⟩, fun c hcb hc => ?_⟩
  · have hsize := hin.size
    exact loadLE_congr fun x _ hx => hsame x (by omega)
  · have hspared := hv.sameOn_flushPartition hrecord hc
    rw [hbytes] at hspared
    exact (hin.sameOn _ hcb).trans hspared

end Flush

/-- **The end of `ext2_resize_file`** stores the inode with its new size, and leaves the blocks that
the flush spares. -/
theorem Registered.storeResized (hv : v.Registered) (hin : v.InodeIn n b) (hb : v.FlushSpares b)
    (inode : Bytes) (newSize : ℕ) :
    ∃ w, v.storeResized n inode newSize = (w, ext2ResultOk) ∧ Stored v w n b inode ∧
      (newSize < 2 ^ 32 → ∃ inode', w.readInode n = some inode' ∧ iSize inode' = newSize) := by
  rw [Volume.storeResized, hv.toSound.writeInode_eq hin.fits]
  obtain ⟨new, hnew⟩ : ∃ new, inodeDescriptor.set (inodeDescriptor.set inode 0 .size newSize) 0
    .sectors (divideRoundedUp32 newSize v.sectorSize) = new := ⟨_, rfl⟩
  have hbytes := v.bytes_withBytes (blit v.disk.bytes (v.inodeAddr n) new 0 v.inodeSize)
  have hstored := hv.stored_flushPartition hin hb (.withBytes v _) hbytes
  obtain ⟨inode', hread, hblocks⟩ := hstored.read
  rw [hnew]
  refine ⟨_, rfl, ⟨hstored.record, ⟨inode', hread, fun k hk => ?_⟩, hstored.kept⟩, fun hlt => ?_⟩
  · rw [hblocks k hk, ← hnew, iBlock_resized]
  · obtain ⟨inode', hread, hsame⟩ := hv.readInode_flushPartition hin hb (.withBytes v _) hbytes
    have hsize := hin.size
    have hfields : SameOn new inode' 0 inodeDescriptor.size := fun x _ hx =>
      hsame x (Nat.lt_of_lt_of_le hx (by change 0 + 128 ≤ _; omega))
    refine ⟨inode', hread, ?_⟩
    rw [iSize, Layout.get_congr hfields, ← hnew, Layout.get_set_of_ne _ (by decide),
      Layout.get_set_self hlt]

namespace Stored

variable (h : Stored v w n b inode)

include h

/-- The blocks in use are the same, since no bitmap has been written. -/
theorem allocated_iff (hb : ¬ v.IsBitmap b) (hmaps : ∀ c, v.IsBitmap c → v.FlushSpares c) {c : ℕ} :
    w.Allocated c ↔ v.Allocated c :=
  h.record.allocated_iff fun c hc => h.kept c (fun heq => hb (heq ▸ hc)) (hmaps c hc)

/-- A table that has been spared holds the numbers it held. -/
theorem diskArray_eq {c i : ℕ} (hcb : c ≠ b) (hc : v.FlushSpares c) (hi : i < v.blockSize / 4) :
    w.diskArray c i = v.diskArray c i := by
  rw [diskArray, h.record.blockAddr]
  exact loadLE_congr ((h.kept c hcb hc).mono (by omega) (by omega))

end Stored

/-! ### Files -/

/-- The number of blocks of a file of the given size. -/
def blocksFor (v : Volume) (size : ℕ) : ℕ := (size + v.blockSize - 1) / v.blockSize

/-- The number of blocks as the code computes it. -/
theorem div_add_ite {bs : ℕ} (hbs : 0 < bs) (x : ℕ) :
    x / bs + (if x % bs ≠ 0 then 1 else 0) = (x + bs - 1) / bs := by
  have hsplit := Nat.div_add_mod' x bs
  have hmod := Nat.mod_lt x hbs
  split_ifs with hzero
  · refine (Nat.div_eq_of_lt_le ?_ ?_).symm
    · rw [Nat.succ_mul]
      omega
    · rw [Nat.succ_mul, Nat.succ_mul]
      omega
  · rw [Nat.add_zero]
    refine (Nat.div_eq_of_lt_le ?_ ?_).symm
    · omega
    · rw [Nat.succ_mul]
      omega

theorem blocksFor_self (hbs : 0 < v.blockSize) : v.blocksFor v.blockSize = 1 := by
  rw [blocksFor, Nat.div_eq_of_lt_le] <;> omega

theorem le_blocksFor_mul (hbs : 0 < v.blockSize) (size : ℕ) :
    size ≤ v.blocksFor size * v.blockSize := by
  have hdiv := Nat.div_add_mod' (size + v.blockSize - 1) v.blockSize
  have hmod := Nat.mod_lt (size + v.blockSize - 1) hbs
  rw [blocksFor]
  omega

/-- `ext2_resize_file` with a larger size allocates the blocks for the difference. -/
theorem resizeFile_of_lt (hbs : 0 < v.blockSize) (hread : v.readInode n = some inode) {newSize : ℕ}
    (hsize : iSize inode < newSize) :
    v.resizeFile n newSize =
      let r := v.allocateBlocks inode (v.blocksFor (newSize - iSize inode))
      if r.2.2 ≠ 0 then some (r.1, ext2ResultError)
      else some (r.1.storeResized n r.2.1 newSize) := by
  simp only [resizeFile, hread, if_neg (Nat.ne_of_lt hsize), if_neg (Nat.lt_asymm hsize),
    div_add_ite hbs]
  rfl

/-- The block map of an inode holds exactly `k` data blocks, which are distinct and allocated. -/
structure BlockMap (v : Volume) (inode : Bytes) (k : ℕ) : Prop where
  holds : StagesHold v.diskArray (v.blockSize / 4) (inodeStages inode) k
  inj : ∀ i < k, ∀ j < k, v.fileBlock inode i = v.fileBlock inode j → i = j
  allocated : ∀ j < k, v.Allocated (v.fileBlock inode j)

/-- The file with the inode `n` has the blocks that its size says, and the inode is in a block in
use. -/
structure FileOn (v : Volume) (n : ℕ) (inode : Bytes) : Prop where
  space : v.BlockSpace
  registered : v.Registered
  read : v.readInode n = some inode
  place : ∃ b, v.InodeIn n b ∧ v.Allocated b ∧ ¬ v.IsBitmap b
  map : v.BlockMap inode (v.blocksFor (iSize inode))

/-- A flush writes neither to the inode `n` nor to a bitmap. -/
structure FlushSparesInode (v : Volume) (n : ℕ) : Prop where
  place : ∀ b, v.InodeIn n b → v.FlushSpares b
  bitmaps : ∀ b, v.IsBitmap b → v.FlushSpares b

/-- The block can hold a table of a file with the inode `n`: it is in use, but not for a bitmap or
the inode. -/
def IsTable (v : Volume) (n b : ℕ) : Prop := v.Allocated b ∧ ¬ v.IsBitmap b ∧ ¬ v.InodeIn n b

/-- The tables on the way to the blocks of a file. -/
def TablesOn (v : Volume) (inode : Bytes) (tables : ℕ → Prop) : Prop :=
  ∀ j < v.blocksFor (iSize inode),
    StagesIn v.diskArray (v.blockSize / 4) tables v.Allocated (inodeStages inode) j

theorem SameRecord.flushSpares_iff (h : SameRecord v w) : w.FlushSpares b ↔ v.FlushSpares b := by
  simp only [FlushSpares, h.flushWrites_iff, h.blockAddr, h.blockSize]

theorem inodeStages_eq (inode : Bytes) : inodeStages inode =
    ⟨0, iBlock inode, 12⟩ :: levelStages (iBlock inode) 1 [12, 13, 14] := rfl

/-- There are twelve direct blocks. -/
theorem leaves_direct (entries : ℕ) (blocks : ℕ → ℕ) :
    Stage.leaves entries ⟨0, blocks, 12⟩ = 12 := by
  rw [Stage.leaves, Nat.pow_zero, Nat.mul_one]

theorem fileBlock_of_lt (v : Volume) (inode : Bytes) {j : ℕ} (hj : j < 12) :
    v.fileBlock inode j = iBlock inode j := by
  rw [fileBlock, inodeStages_eq, stagesBlock, leaves_direct, if_pos hj]
  rfl

/-- Inodes with the same block numbers have the same trees. -/
theorem forall₂_inodeStages {inode' : Bytes} (h : ∀ k < 15, iBlock inode' k = iBlock inode k) :
    List.Forall₂ Stage.Same (inodeStages inode) (inodeStages inode') := by
  have hlevel : ∀ i < 15, ∀ m < 1, iBlock inode' (i + m) = iBlock inode (i + m) := fun i hi m hm =>
    h _ (by omega)
  exact .cons ⟨rfl, rfl, fun i (hi : i < 12) => h i (by omega)⟩
    (.cons ⟨rfl, rfl, hlevel 12 (by decide)⟩ (.cons ⟨rfl, rfl, hlevel 13 (by decide)⟩
      (.cons ⟨rfl, rfl, hlevel 14 (by decide)⟩ .nil)))

/-- The block map of a file with direct blocks only. -/
theorem stagesHold_iff_of_le (array : ℕ → ℕ → ℕ) (entries : ℕ) (hk : k ≤ 12) :
    StagesHold array entries (inodeStages inode) k ↔
      (∀ i < 12, iBlock inode i ≠ 0 ↔ i < k) ∧ ∀ i ∈ [12, 13, 14], iBlock inode i = 0 := by
  have hlevel : ∀ d i, HoldsLeaves array entries (d + 1) (fun m => iBlock inode (i + m)) 1 0 ↔
      iBlock inode i = 0 := fun d i => by
    simp [HoldsLeaves]
  rw [inodeStages_eq, StagesHold, leaves_direct, Nat.sub_eq_zero_of_le hk]
  refine and_congr Iff.rfl ?_
  simp only [levelStages, StagesHold, Nat.zero_sub]
  rw [hlevel 0 12, hlevel 1 13, hlevel 2 14]
  simp

theorem BlockMap.iBlock_iff (h : v.BlockMap inode k) : ∀ i < 12, iBlock inode i ≠ 0 ↔ i < k :=
  h.holds.1

/-! ### A small volume -/

/-- A byte of a bitmap with `size` bits of which the first ones are set, as are those behind it. -/
def bitmapByte (used size j : ℕ) : BitVec 8 :=
  if 8 * j < size then BitVec.ofNat 8 (2 ^ (used - 8 * j) - 1) else 0xFF

/-- A volume with one group of sixteen blocks and eight inodes, of which the first ones are in use.
Its blocks have 1024 bytes, shifted by `log`. The bitmaps are the blocks 3 and 4, the inode table is
block 5. -/
def smallVolume (log usedBlocks usedInodes : ℕ) (content : Bytes) : Volume where
  backupBgs _ := 0
  backupBgsCount := 1
  lba := 0
  groupNumber := 1
  sectorSize := 512
  bgdtBlock := if log = 0 then 2 else 1
  sbBlock := 2
  flushRequired := false
  sb x :=
    if x = 12 then BitVec.ofNat 8 (16 - usedBlocks)
    else if x = 16 then BitVec.ofNat 8 (8 - usedInodes)
    else ([(0, 8#8), (4, 16#8), (20, BitVec.ofNat 8 (1 - log)), (24, BitVec.ofNat 8 log),
      (32, 16#8), (40, 8#8), (56, 0x53#8), (57, 0xEF#8)].lookup x).getD 0#8
  gd x :=
    if x = 12 then BitVec.ofNat 8 (16 - usedBlocks)
    else if x = 14 then BitVec.ofNat 8 (8 - usedInodes)
    else ([(0, 3#8), (4, 4#8), (8, 5#8)].lookup x).getD 0#8
  disk :=
    { sectorSize := 512
      bytes := fun x =>
        if x / (1024 <<< log) = 3 then bitmapByte usedBlocks 16 (x % (1024 <<< log))
        else if x / (1024 <<< log) = 4 then bitmapByte usedInodes 8 (x % (1024 <<< log))
        else content x
      readable := fun _ _ => true
      writable := fun _ _ => true }
  fresh _ := 0

theorem bitmapByte_getLsbD {used size j t : ℕ} (hsize : 8 ∣ size)
    (ht : t < 8) : (bitmapByte used size j).getLsbD t =
      decide (8 * j + t < used ∨ size ≤ 8 * j + t) := by
  have hones : ∀ t : Fin 8, (0xFF : BitVec 8).getLsbD t = true := by decide
  rw [bitmapByte]
  split_ifs with hlt
  · rw [BitVec.getLsbD_ofNat, Nat.testBit_two_pow_sub_one, decide_eq_true ht]
    exact decide_eq_decide.mpr (by omega)
  · rw [decide_eq_true (by omega)]
    exact hones ⟨t, ht⟩

namespace smallVolume

variable {log usedBlocks usedInodes : ℕ} {content : Bytes}

/-- The volume differs from the one with nothing in use by bytes and counters only. -/
theorem sameRecord :
    SameRecord (smallVolume log 0 0 fun _ => 0)
      (smallVolume log usedBlocks usedInodes content) := by
  refine ⟨⟨rfl, rfl, rfl, rfl, rfl, rfl, fun f hf => ?_, fun g f hf => ?_⟩, rfl, rfl, rfl, rfl, rfl⟩
  · refine loadLE_congr fun x hx hx' => ?_
    have hblocks : _ ∨ 12 + 4 ≤ superblock.offset f := superblock.disjoint f _ (hf .blocks)
    have hinodes : _ ∨ 16 + 4 ≤ superblock.offset f := superblock.disjoint f _ (hf .inodes)
    have hne : x ≠ 12 ∧ x ≠ 16 := by
      change superblock.offset f + superblock.width f ≤ 12 ∨ _ at hblocks
      change superblock.offset f + superblock.width f ≤ 16 ∨ _ at hinodes
      omega
    simp only [smallVolume, if_neg hne.1, if_neg hne.2]
  · refine loadLE_congr fun x hx hx' => ?_
    have hplace : groupDescriptor.offset f + groupDescriptor.width f ≤ 12 := by
      cases f <;> first | decide | exact absurd hf (by decide)
    have hne : x ≠ 12 ∧ x ≠ 14 := by omega
    simp only [smallVolume, if_neg hne.1, if_neg hne.2]

section Shape

variable (hlog : log = 0 ∨ log = 1)

include hlog

theorem registered : (smallVolume log usedBlocks usedInodes content).Registered := by
  refine sameRecord.registered ?_
  rcases hlog with rfl | rfl
  all_goals
    exact ⟨⟨⟨fun _ _ => rfl, fun _ _ => rfl⟩, rfl, rfl, by decide⟩, by decide, rfl, by decide,
      by decide, by decide, by decide, by decide, Nat.one_pos, Nat.one_pos, Nat.le_refl 1,
      fun _ _ => show (0 : ℤ) ≠ -1 by decide, by decide, by decide⟩

theorem blockSize_eq :
    (smallVolume log usedBlocks usedInodes content).blockSize = 1024 <<< log := by
  rw [sameRecord.blockSize]
  rcases hlog with rfl | rfl
  all_goals decide

theorem perGroup_eq (k : MapKind) :
    (smallVolume log usedBlocks usedInodes content).sbGet k.perGroup =
    match k with
    | .blocks => 16
    | .inodes => 8 := by
  rw [sameRecord.perGroup]
  rcases hlog with rfl | rfl
  all_goals cases k <;> decide

theorem blocksPerGroup_eq :
    (smallVolume log usedBlocks usedInodes content).sbGet .blocksPerGroup = 16 :=
  perGroup_eq hlog .blocks

theorem bitmap_eq (k : MapKind) : (smallVolume log usedBlocks usedInodes content).gdGet 0 k.bitmap =
    match k with
    | .blocks => 3
    | .inodes => 4 := by
  rw [sameRecord.gdGet 0 _ (by cases k <;> rfl)]
  rcases hlog with rfl | rfl
  all_goals cases k <;> decide

theorem mapBit_eq (k : MapKind) {i : ℕ} (hi : i < 8 * (1024 <<< log)) :
    (smallVolume log usedBlocks usedInodes content).mapBit k 0 i =
      match k with
      | .blocks => decide (i < usedBlocks ∨ 16 ≤ i)
      | .inodes => decide (i < usedInodes ∨ 8 ≤ i) := by
  have hbs : 0 < 1024 <<< log := by
    rcases hlog with rfl | rfl
    all_goals decide
  have hbyte : ∀ b, (8 * ((0 : ℕ) * 512 + b * (1024 <<< log)) + i) / 8 =
      i / 8 + b * (1024 <<< log) ∧
      (8 * ((0 : ℕ) * 512 + b * (1024 <<< log)) + i) % 8 = i % 8 := fun b => by omega
  have hlt : i / 8 < 1024 <<< log := by omega
  have hdiv : ∀ b, (i / 8 + b * (1024 <<< log)) / (1024 <<< log) = b ∧
      (i / 8 + b * (1024 <<< log)) % (1024 <<< log) = i / 8 := fun b => by
    rw [Nat.add_mul_div_right _ _ hbs, Nat.add_mul_mod_self_right, Nat.div_eq_of_lt hlt,
      Nat.mod_eq_of_lt hlt, Nat.zero_add]
    exact ⟨rfl, rfl⟩
  have hmod : i % 8 < 8 := Nat.mod_lt _ (by decide)
  rw [mapBit, mapStart, bitmap_eq hlog, blockAddr, blockSize_eq hlog, BitArray.test,
    show (smallVolume log usedBlocks usedInodes content).lba = 0 from rfl, (hbyte _).1, (hbyte _).2]
  cases k with
  | blocks =>
    simp only [smallVolume, (hdiv 3).1, (hdiv 3).2, if_true]
    rw [bitmapByte_getLsbD (by decide) hmod, Nat.div_add_mod]
  | inodes =>
    simp only [smallVolume, (hdiv 4).1, (hdiv 4).2, if_true]
    rw [if_neg (by decide), bitmapByte_getLsbD (by decide) hmod, Nat.div_add_mod]

theorem le_blockSize : 1024 ≤ 1024 <<< log := by
  rcases hlog with rfl | rfl
  all_goals decide

theorem clearIn_eq (k : MapKind) :
    (smallVolume log usedBlocks usedInodes content).clearIn k 0 =
      match k with
      | .blocks => Finset.Ico usedBlocks 16
      | .inodes => Finset.Ico usedInodes 8 := by
  have hbs := le_blockSize hlog
  ext i
  rw [mem_clearIn, blockSize_eq hlog]
  cases k
  all_goals
    rw [Finset.mem_Ico]
    constructor
    · rintro ⟨hi, hclear⟩
      rw [mapBit_eq hlog _ hi, decide_eq_false_iff_not] at hclear
      omega
    · intro hi
      refine ⟨by omega, ?_⟩
      rw [mapBit_eq hlog _ (by omega), decide_eq_false_iff_not]
      omega

theorem count_eq (k : MapKind) : (smallVolume log usedBlocks usedInodes content).gdGet 0 k.count =
    ((smallVolume log usedBlocks usedInodes content).clearIn k 0).card := by
  have hbyte : ∀ n ≤ 16, (BitVec.ofNat 8 n).toNat = n := fun n hn => by
    exact Nat.mod_eq_of_lt (by omega)
  rw [clearIn_eq hlog]
  cases k with
  | blocks =>
    rw [Nat.card_Ico, ← hbyte (16 - usedBlocks) (by omega)]
    rfl
  | inodes =>
    rw [Nat.card_Ico, ← hbyte (8 - usedInodes) (by omega)]
    rfl

theorem maps (k : MapKind) : (smallVolume log usedBlocks usedInodes content).Maps k := by
  have hlayout := (@sameRecord log usedBlocks usedInodes content).toSameLayout
  have hgroup : ∀ {g}, g < (smallVolume log usedBlocks usedInodes content).groupNumber → g = 0 :=
    fun hg => Nat.lt_one_iff.1 hg
  refine ⟨(registered hlog).toSound, fun g hg => ?_, fun g hg g' hg' _ => ?_,
    fun g hg i hi hle => ?_, fun g hg => ?_⟩
  · rw [hgroup hg, bitmap_eq hlog]
    refine hlayout.inRange ?_
    rcases hlog with rfl | rfl
    all_goals cases k <;> exact ⟨by decide, by decide, by decide⟩
  · rw [hgroup hg, hgroup hg']
  · rw [blockSize_eq hlog] at hi
    rw [hgroup hg, mapBit_eq hlog k hi]
    cases k <;> exact decide_eq_true (.inr hle)
  · rw [hgroup hg, count_eq hlog]

/-- The blocks are numbered from 1. -/
theorem number
    (h : (smallVolume log usedBlocks usedInodes content).Free b ∨ (smallVolume log usedBlocks
      usedInodes content).Allocated b) : 1 ≤ b ∧ b ≤ 16 := by
  obtain ⟨g, hg, i, hi, -, rfl⟩ := free_or_allocated_iff.mp h
  rw [blocksPerGroup_eq hlog] at hi
  rw [Volume.blockNumber, Nat.lt_one_iff.mp hg]
  omega

theorem allocated_iff (hused : usedBlocks ≤ 16) :
    (smallVolume log usedBlocks usedInodes content).Allocated b ↔ 1 ≤ b ∧ b ≤ usedBlocks := by
  have hbs := le_blockSize hlog
  constructor
  · rintro ⟨g, hg, i, hi, hlt, rfl, hset⟩
    rw [blocksPerGroup_eq hlog] at hi
    rw [blockSize_eq hlog] at hlt
    rw [Nat.lt_one_iff.mp hg, mapBit_eq hlog _ hlt, decide_eq_true_iff] at hset
    rw [Volume.blockNumber, Nat.lt_one_iff.mp hg]
    omega
  · rintro ⟨hpos, hle⟩
    refine ⟨0, Nat.one_pos, b - 1, ?_, ?_, ?_, ?_⟩
    · rw [blocksPerGroup_eq hlog]
      omega
    · rw [blockSize_eq hlog]
      omega
    · rw [Volume.blockNumber]
      omega
    · rw [mapBit_eq hlog _ (by omega), decide_eq_true_iff]
      omega

theorem blockSpace (hmin : 3 ≤ usedBlocks) (hused : usedBlocks ≤ 16) :
    (smallVolume log usedBlocks usedInodes content).BlockSpace := by
  have hbs : 1024 <<< log ≤ 2048 := by
    rcases hlog with rfl | rfl
    all_goals decide
  refine ⟨⟨maps hlog .blocks, ?_, ?_, ?_⟩, fun b hb => ?_, fun b hb => ?_⟩
  · change _ = ∑ g ∈ Finset.range 1, _
    rw [Finset.sum_range_one, ← count_eq hlog]
    rfl
  · exact show 1 * 16 < 2 ^ 32 by decide
  · rw [blocksPerGroup_eq hlog]
    exact Nat.lt_of_le_of_lt (Nat.min_le_left _ _) (by decide)
  · obtain ⟨g, hg, rfl⟩ := hb
    rw [Nat.lt_one_iff.mp hg, show GroupField.blockBitmap = MapKind.blocks.bitmap from rfl,
      bitmap_eq hlog, allocated_iff hlog hused]
    exact ⟨by decide, hmin⟩
  · obtain ⟨hpos, hle⟩ := number hlog hb
    have hmul := Nat.mul_le_mul hle hbs
    refine ⟨hpos, ?_, ?_⟩
    · rw [blockSize_eq hlog]
      omega
    · rw [blockSize_eq hlog, show (smallVolume log usedBlocks usedInodes content).lba = 0 from rfl]
      omega

/-- A flush writes to the first two blocks only. -/
theorem flushSpares (hb : 2 ≤ b) :
    (smallVolume log usedBlocks usedInodes content).FlushSpares b := by
  have hbs := le_blockSize hlog
  have hmul := Nat.mul_le_mul hb hbs
  rintro x hx - ⟨i, hi, hwrites⟩
  have haddr : (smallVolume log usedBlocks usedInodes content).groupAddr i = 0 := by
    rw [Nat.lt_one_iff.mp hi, groupAddr, Nat.mul_zero, Nat.add_zero]
    exact Nat.zero_mul 512
  have htable : (smallVolume log usedBlocks usedInodes content).tableSectors = 1 := by
    rw [sameRecord.tableSectors]
    rcases hlog with rfl | rfl
    all_goals decide +kernel
  have hbgdt : (smallVolume log usedBlocks usedInodes content).bgdtBlock ≤ 2 := by
    change (if log = 0 then 2 else 1) ≤ 2
    split_ifs <;> decide
  rw [blockAddr, blockSize_eq hlog] at hx
  omega

theorem inodeMaps : (smallVolume log usedBlocks usedInodes content).InodeMaps := by
  refine sameRecord.inodeMaps ?_ (maps hlog .inodes)
  refine ⟨maps hlog .inodes, ?_, ?_, ?_, ?_⟩
  all_goals
    rcases hlog with rfl | rfl
    all_goals decide +kernel

end Shape

end smallVolume

/-! ### A small file -/

/-- A volume with one group of sixteen blocks, whose bitmap is block 3. The first eight blocks are
in use; block 5 has the inode of a file of the given size, and block 7 is the file. -/
def oneBlockFile (size : ℕ) : Volume where
  backupBgs _ := 0
  backupBgsCount := 1
  lba := 0
  groupNumber := 1
  sectorSize := 512
  bgdtBlock := 2
  sbBlock := 2
  flushRequired := false
  sb x :=
    if x = 0 ∨ x = 12 ∨ x = 40 then 8 else if x = 4 ∨ x = 32 then 16 else if x = 20 then 1
    else if x = 56 then 0x53 else if x = 57 then 0xEF else 0
  gd x := if x = 0 then 3 else if x = 4 then 4 else if x = 8 then 5 else if x = 12 then 8 else 0
  disk :=
    { sectorSize := 512
      bytes := fun x =>
        if x = 3073 then 0 else if x < 4096 then 0xFF else if x = 5124 then BitVec.ofNat 8 size
        else if x = 5125 then BitVec.ofNat 8 (size / 256) else if x = 5160 then 7 else 0
      readable := fun _ _ => true
      writable := fun _ _ => true }
  fresh _ := 0

/-- The inode of the file. -/
def oneBlockInode (size : ℕ) : Bytes := blit (fun _ => 0) 0 (oneBlockFile size).disk.bytes 5120 128

namespace oneBlockFile

variable {size g i : ℕ}

/-- It is a small volume with other bytes. -/
theorem eq_withBytes (size : ℕ) : oneBlockFile size =
    (smallVolume 0 8 8 fun _ => 0).withBytes (oneBlockFile size).disk.bytes := by
  have hsb : (oneBlockFile size).sb = (smallVolume 0 8 8 fun _ => 0).sb := by
    funext x
    by_cases hx : x ∈ [0, 4, 12, 16, 20, 24, 32, 40, 56, 57]
    · simp only [mem_cons, not_mem_nil, or_false] at hx
      rcases hx with rfl | rfl | rfl | rfl | rfl | rfl | rfl | rfl | rfl | rfl <;> rfl
    · simp only [mem_cons, not_or] at hx
      simp [oneBlockFile, smallVolume, List.lookup, beq_false_of_ne, hx]
  have hgd : (oneBlockFile size).gd = (smallVolume 0 8 8 fun _ => 0).gd := by
    funext x
    by_cases hx : x ∈ [0, 4, 8, 12, 14]
    · simp only [mem_cons, not_mem_nil, or_false] at hx
      rcases hx with rfl | rfl | rfl | rfl | rfl <;> rfl
    · simp only [mem_cons, not_or] at hx
      simp [oneBlockFile, smallVolume, List.lookup, beq_false_of_ne, hx]
  exact congr (congrArg (fun sb gd => { oneBlockFile size with sb := sb, gd := gd }) hsb) hgd

theorem sameRecord (size : ℕ) : SameRecord (smallVolume 0 8 8 fun _ => 0) (oneBlockFile size) := by
  rw [eq_withBytes]
  exact .withBytes _ _

theorem registered (size : ℕ) : (oneBlockFile size).Registered :=
  (sameRecord size).registered (smallVolume.registered (.inl rfl))

theorem bitmap_eq (size : ℕ) : (oneBlockFile size).gdGet 0 .blockBitmap = 3 := by
  rw [(sameRecord size).gdGet 0 .blockBitmap rfl]
  decide

/-- The bitmap is the same. -/
theorem sameOn_bitmap (size : ℕ) (hb : (smallVolume 0 8 8 fun _ => 0).IsBitmap b) :
    SameOn (smallVolume 0 8 8 fun _ => 0).disk.bytes (oneBlockFile size).disk.bytes
      ((smallVolume 0 8 8 fun _ => 0).blockAddr b) (smallVolume 0 8 8 fun _ => 0).blockSize := by
  obtain ⟨g, hg, rfl⟩ := hb
  have haddr : (smallVolume 0 8 8 fun _ => 0).blockAddr
      ((smallVolume 0 8 8 fun _ => 0).gdGet 0 .blockBitmap) = 3072 := by decide
  have hbs : (smallVolume 0 8 8 fun _ => 0).blockSize = 1024 := by decide
  rw [Nat.lt_one_iff.mp hg, haddr, hbs]
  intro x hx hx'
  have hblock : x / 1024 = 3 := by omega
  change (if x = 3073 then 0 else if x < 4096 then 0xFF else _) =
    if x / 1024 = 3 then bitmapByte 8 16 (x % 1024) else _
  rw [bitmapByte]
  split_ifs with hone hlow hlow
  · rw [hone]
    rfl
  · omega
  · rw [show x = 3072 by omega]
    rfl
  · rfl

theorem blockSpace (size : ℕ) : (oneBlockFile size).BlockSpace :=
  (smallVolume.blockSpace (.inl rfl) (by decide) (by decide)).congr (sameRecord size).toSameLayout
    (fun _ => sameOn_bitmap size) (by rw [eq_withBytes]; exact .withBytes _ _ _)

theorem allocated_iff : (oneBlockFile size).Allocated b ↔ 1 ≤ b ∧ b ≤ 8 := by
  rw [(sameRecord size).allocated_iff fun _ => sameOn_bitmap size]
  exact smallVolume.allocated_iff (.inl rfl) (by decide)

theorem flushSpares (size : ℕ) (hb : 2 ≤ b) : (oneBlockFile size).FlushSpares b :=
  (sameRecord size).flushSpares_iff.mpr (smallVolume.flushSpares (.inl rfl) hb)

theorem inodeIn (size : ℕ) : (oneBlockFile size).InodeIn 1 5 :=
  (sameRecord size).inodeIn ⟨by decide, by decide, by decide⟩

theorem readInode_eq (size : ℕ) : (oneBlockFile size).readInode 1 = some (oneBlockInode size) := by
  rw [(registered size).toSound.readInode_eq (inodeIn size).fits, (sameRecord size).inodeAddr,
    (sameRecord size).inodeSize]
  rfl

theorem blockMap (h : size = 1 ∨ size = 1024) :
    (oneBlockFile size).BlockMap (oneBlockInode size) 1 := by
  refine ⟨(stagesHold_iff_of_le _ _ (by decide)).mpr ?_, fun i hi j hj _ => by omega,
    fun j hj => ?_⟩
  · rcases h with rfl | rfl <;> exact ⟨by decide +kernel, by decide +kernel⟩
  · have hblock : iBlock (oneBlockInode size) 0 = 7 := by
      rcases h with rfl | rfl <;> decide +kernel
    rw [Nat.lt_one_iff.mp hj, fileBlock_of_lt _ _ (by decide), hblock]
    exact allocated_iff.mpr (by decide)

theorem blocksFor_size (h : size = 1 ∨ size = 1024) : (oneBlockFile size).blocksFor
    (iSize (oneBlockInode size)) = 1 := by
  rcases h with rfl | rfl <;> decide +kernel

theorem fileOn (h : size = 1 ∨ size = 1024) :
    (oneBlockFile size).FileOn 1 (oneBlockInode size) := by
  refine ⟨blockSpace size, registered size, readInode_eq size, ⟨5, inodeIn size,
    allocated_iff.mpr (by decide), ?_⟩, (blocksFor_size h).symm ▸ blockMap h⟩
  rintro ⟨g, hg, heq⟩
  rw [Nat.lt_one_iff.mp hg, bitmap_eq] at heq
  exact absurd heq (by decide)

theorem flushSparesInode (size : ℕ) : (oneBlockFile size).FlushSparesInode 1 := by
  refine ⟨fun b hb => ?_, fun b hb => ?_⟩
  · rw [hb.unique (inodeIn size) (registered size).toSound]
    exact flushSpares size (by decide)
  · obtain ⟨g, hg, rfl⟩ := hb
    rw [Nat.lt_one_iff.mp hg, bitmap_eq]
    exact flushSpares size (by decide)

end oneBlockFile

end Volume

end Bloodmoon
