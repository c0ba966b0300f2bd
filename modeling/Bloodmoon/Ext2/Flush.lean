import Bloodmoon.Ext2.Partition
import Bloodmoon.Ext2.Write

/-!
# What a flush writes

`ext2_flush_partition` writes, in every group, as many sectors as the table of descriptors has, to
the sector with the number of the block where the table begins; only with sectors of the size of a
block would that be the table. Then it writes the superblock to the first groups, as many as have a
copy, whichever these are. The mount code reads the table where it is.
-/

namespace Bloodmoon

open Machine List Option

namespace Volume

/-- The first sector of the table of descriptors in a group. -/
def tableStart (v : Volume) : ℕ := v.blockSectors * v.bgdtBlock

/-- The number of sectors that the descriptors take. -/
def tableSectors (v : Volume) : ℕ := descriptorSectors v.groupNumber v.sectorSize

/-- The number of blocks that the descriptors take. -/
def tableBlocks (v : Volume) : ℕ := divideRoundedUp (32 * v.groupNumber) v.blockSize

/-- The address of a group on the disk. -/
def groupAddr (v : Volume) (i : ℕ) : ℕ := v.lba * 512 + v.sectorsPerGroup * 512 * i

/-- What holds of a partition that has been registered, with an ext2 file system in it: the table of
descriptors is in the first group, and sector numbers have 32 bits. -/
structure Registered (v : Volume) : Prop extends v.Sound where
  magic : v.sbGet .magic = ext2SuperMagic
  sbBlock : v.sbBlock = sbOffsetLba
  bgdtBlock : v.bgdtBlock = if v.blockSize = 1024 then 2 else 1
  blocksPerGroup : v.sbGet .blocksPerGroup ≠ 0
  inodesPerGroup : v.sbGet .inodesPerGroup ≠ 0
  groups : v.groupNumber = divideRoundedUp32 (v.sbGet .blocksCount) (v.sbGet .blocksPerGroup)
  groups' : v.groupNumber = divideRoundedUp32 (v.sbGet .inodesCount) (v.sbGet .inodesPerGroup)
  groups_pos : 0 < v.groupNumber
  backups_pos : 0 < v.backupBgsCount
  backups_le : v.backupBgsCount ≤ v.groupNumber
  backups : ∀ i < v.backupBgsCount, v.backupBgs i ≠ -1
  table_fits : v.tableStart + v.blockSectors * v.tableBlocks ≤ v.sectorsPerGroup
  in_range : v.lba + v.sectorsPerGroup * v.groupNumber ≤ 2 ^ 32

theorem groupAddr_add_le (v : Volume) {i j : ℕ} (hlt : i < j) :
    v.groupAddr i + v.sectorsPerGroup * 512 ≤ v.groupAddr j := by
  have := region_le' (v.sectorsPerGroup * 512) hlt
  unfold groupAddr
  omega

/-! ### The loops over the groups -/

section Loops

variable {v : Volume} {callback : Volume → ℕ → Volume × Bool} {write : Bytes → ℕ → Bytes}

/-- Groups for which the callback answers 0 are passed. -/
theorem operateFrom_add {k : ℕ}
    (hstep : ∀ m, ∀ i < k, callback (v.withBytes m) i = (v.withBytes (write m i), false))
    (n r i : ℕ) (hi : i + n ≤ k) (m : Bytes) :
    operateFrom callback (n + r) i (v.withBytes m) =
      operateFrom callback r (i + n) (v.withBytes ((List.range' i n).foldl write m)) := by
  induction n generalizing i m with
  | zero => rw [Nat.zero_add]; rfl
  | succ n ih =>
    rw [Nat.succ_add, operateFrom, hstep m i (by omega), if_neg Bool.false_ne_true,
      ih (i + 1) (by omega), range'_succ, foldl_cons, Nat.add_assoc, Nat.add_comm 1 n]

/-- The loop writes to the first `k` groups, when the callback answers 0 for exactly these. -/
theorem operateOnBg_fst {k : ℕ} (hk : k ≤ v.groupNumber)
    (hstep : ∀ m, ∀ i < k, callback (v.withBytes m) i = (v.withBytes (write m i), false))
    (hstop : ∀ m, k < v.groupNumber → callback (v.withBytes m) k = (v.withBytes m, true))
    (m : Bytes) : ((v.withBytes m).operateOnBg callback).1 =
      v.withBytes ((List.range k).foldl write m) := by
  obtain ⟨r, hr⟩ := Nat.exists_eq_add_of_le hk
  change (operateFrom callback v.groupNumber 0 (v.withBytes m)).1 = _
  rw [hr, operateFrom_add hstep k r 0 (by omega), Nat.zero_add, ← range_eq_range']
  cases r with
  | zero => rfl
  | succ r => rw [operateFrom, hstop _ (by omega), if_pos rfl]

end Loops

namespace Registered

variable {v : Volume} {i n : ℕ}

section

variable (h : v.Registered)

include h

theorem blockSectors_mul_eq : v.blockSectors * 512 = v.blockSize :=
  h.diskSectorSize ▸ h.blockSectors_mul

/-- Where the table begins, and where it is written. -/
theorem layout : 1 ≤ v.bgdtBlock ∧ v.bgdtBlock ≤ 2 ∧ 4 ≤ v.tableStart ∧
    v.bgdtBlock ≤ v.tableStart := by
  obtain ⟨m, hm, hbs⟩ := h.exists_blockSize
  have hsectors : v.blockSectors = 2 * m := by
    have := h.blockSectors_mul_eq
    omega
  have hb := h.bgdtBlock
  rw [tableStart, hb]
  split_ifs <;> omega

/-- The two ways in which the source computes the size of a group. -/
theorem sectorsPerGroup_eq :
    v.sectorsPerGroup = wrap32 (v.sbGet .blocksPerGroup * v.blockSectors) := by
  rw [sectorsPerGroup, h.sectorSize, ← h.blockSectors_mul_eq, Nat.mul_div_cancel _ (by decide)]

/-- The sectors of the table are enough for the descriptors, and no more than that. -/
theorem tableSectors_spec : 0 < v.tableSectors ∧
    32 * v.groupNumber ≤ v.tableSectors * 512 ∧
      v.tableSectors * 512 < 32 * v.groupNumber + 512 := by
  have hgroups : 4 * v.groupNumber ≤ 2 ^ 32 := by
    obtain ⟨-, -, hT, -⟩ := h.layout
    have hfits := h.table_fits
    have hmul := Nat.mul_le_mul_right v.groupNumber (show 4 ≤ v.sectorsPerGroup by omega)
    have hrange := h.in_range
    omega
  have hpos := h.groups_pos
  obtain ⟨q, c, hq, hc, hcs, hup⟩ :=
    @exists_divideRoundedUp (v.groupNumber * 32) 512 (by omega) (by decide)
  have hsectors : v.tableSectors = q + 1 := by
    rw [tableSectors, h.sectorSize]
    change wrap32 (divideRoundedUp (v.groupNumber * 32) 512) = _
    rw [hup, wrap32_of_lt (by omega)]
  omega

/-- The sectors of the table are in its blocks. -/
theorem tableSectors_le : v.tableSectors ≤ v.blockSectors * v.tableBlocks := by
  obtain ⟨m, hm, hbs⟩ := h.exists_blockSize
  have hpos := h.groups_pos
  obtain ⟨q, c, hq, hc, hcs, hup⟩ :=
    @exists_divideRoundedUp (32 * v.groupNumber) v.blockSize (by omega) (by omega)
  have hblocks : v.blockSectors * v.tableBlocks * 512 = q * v.blockSize + v.blockSize := by
    rw [tableBlocks, hup, Nat.mul_right_comm, h.blockSectors_mul_eq, Nat.mul_comm, Nat.succ_mul]
  have hsize := h.tableSectors_spec.2.2
  omega

/-- The sectors that are written are in the group. -/
theorem written_le : v.tableStart + v.tableSectors ≤ v.sectorsPerGroup ∧
    v.bgdtBlock + v.tableSectors ≤ v.sectorsPerGroup ∧ sbOffsetLba + 2 ≤ v.sectorsPerGroup := by
  obtain ⟨-, -, hT, hb⟩ := h.layout
  have hfits := h.table_fits
  have hle := h.tableSectors_le
  have hoff : sbOffsetLba = 2 := rfl
  omega

theorem written_bytes_le :
    v.bgdtBlock * 512 + v.tableSectors * 512 ≤ v.sectorsPerGroup * 512 ∧
      1024 + 1024 ≤ v.sectorsPerGroup * 512 := by
  obtain ⟨-, hbg, hsb⟩ := h.written_le
  have hoff : sbOffsetLba = 2 := rfl
  omega

theorem sector_lt (hi : i < v.groupNumber) {s : ℕ} (hs : s < v.sectorsPerGroup) :
    v.lba + v.sectorsPerGroup * i + s < 2 ^ 32 := by
  have hmul := region_le' v.sectorsPerGroup hi
  have := h.in_range
  omega

/-- The sector is in the group. -/
theorem sector_mul (hi : i < v.groupNumber) {s : ℕ} (hs : s < v.sectorsPerGroup) :
    wrap32 (v.lba + v.sectorsPerGroup * i + s) * v.disk.sectorSize = v.groupAddr i + s * 512 := by
  rw [wrap32_of_lt (h.sector_lt hi hs), h.diskSectorSize, groupAddr, Nat.add_mul, Nat.add_mul,
    Nat.mul_right_comm]

/-- The descriptors are written to the beginning of the group. -/
theorem flushBg_eq (hi : i < v.groupNumber) (m : Bytes) :
    (v.withBytes m).flushBg i = (v.withBytes (blit m (v.groupAddr i + v.bgdtBlock * 512) v.gd
      (32 * i) (v.tableSectors * 512)), false) := by
  have hreliable : (v.withBytes m).disk.Reliable := ⟨h.reliable.readable, h.reliable.writable⟩
  have hin : v.bgdtBlock < v.sectorsPerGroup := by
    have := h.written_le.2.1
    have := h.tableSectors_spec.1
    omega
  rw [← h.sector_mul hi hin]
  simp only [flushBg, hreliable.write_eq]
  rw [← h.diskSectorSize]
  rfl

/-- The superblock is written to the group. -/
theorem flushSb_eq (hi : i < v.backupBgsCount) (m : Bytes) :
    (v.withBytes m).flushSb i =
      (v.withBytes (blit m (v.groupAddr i + 1024) v.sb 0 1024), false) := by
  have hreliable : (v.withBytes m).disk.Reliable := ⟨h.reliable.readable, h.reliable.writable⟩
  have hin : v.sbBlock < v.sectorsPerGroup := by
    have := h.written_le.2.2
    rw [h.sbBlock]
    omega
  have haddr := h.sector_mul (Nat.lt_of_lt_of_le hi h.backups_le) hin
  rw [h.sbBlock] at haddr
  have hrun : ¬ ((v.withBytes m).backupBgsCount ≤ i ∨ (v.withBytes m).backupBgs i = -1) :=
    not_or.2 ⟨Nat.not_le.2 hi, h.backups i hi⟩
  simp only [flushSb, hreliable.write_eq, if_neg hrun]
  change (v.withBytes (blit m (wrap32 (v.lba + v.sectorsPerGroup * i + v.sbBlock) *
    v.disk.sectorSize) v.sb 0 (2 * v.disk.sectorSize)), false) = _
  rw [h.sbBlock, haddr, h.diskSectorSize]
  rfl

end

theorem flushSb_stop (m : Bytes) :
    (v.withBytes m).flushSb v.backupBgsCount = (v.withBytes m, true) :=
  if_pos (.inl (Nat.le_refl _))

/-- The disk after the flush. -/
theorem flushPartition_bytes (h : v.Registered) : v.flushPartition =
    { v.withBytes (blitRegions
      (blitRegions v.disk.bytes (v.lba * 512) (v.sectorsPerGroup * 512) (v.bgdtBlock * 512) v.gd
        (fun i => 32 * i) (v.tableSectors * 512) (List.range v.groupNumber))
      (v.lba * 512) (v.sectorsPerGroup * 512) 1024 v.sb (fun _ => 0) 1024
      (List.range v.backupBgsCount)) with flushRequired := false } := by
  have hbg := operateOnBg_fst (Nat.le_refl v.groupNumber)
    (fun m i hi => h.flushBg_eq hi m) (fun _ hlt => absurd hlt (Nat.lt_irrefl _)) v.disk.bytes
  have hsb := operateOnBg_fst h.backups_le (fun m i hi => h.flushSb_eq hi m)
    (fun m _ => flushSb_stop m)
  change { ((v.withBytes v.disk.bytes).operateOnBg flushBg).1.operateOnBg flushSb |>.1 with
    flushRequired := false } = _
  rw [hbg, hsb]
  rfl

/-- **What a flush leaves in a group.** -/
theorem flushed_apply (h : v.Registered) (hi : i < v.groupNumber) {o : ℕ}
    (ho : o < v.sectorsPerGroup * 512) :
    v.flushPartition.disk.bytes (v.groupAddr i + o) =
      if i < v.backupBgsCount ∧ 1024 ≤ o ∧ o < 2048 then v.sb (o - 1024)
      else if v.bgdtBlock * 512 ≤ o ∧ o < (v.bgdtBlock + v.tableSectors) * 512 then
        v.gd (32 * i + (o - v.bgdtBlock * 512))
      else v.disk.bytes (v.groupAddr i + o) := by
  obtain ⟨hbg, hsb⟩ := h.written_bytes_le
  rw [h.flushPartition_bytes]
  change blitRegions _ _ _ _ _ _ _ _ (v.lba * 512 + v.sectorsPerGroup * 512 * i + o) = _
  rw [blitRegions_apply _ _ _ hsb ho, blitRegions_apply _ _ _ hbg ho]
  simp only [mem_range, hi, true_and, Nat.zero_add, Nat.add_mul]
  rfl

/-- Nothing changes outside the groups. -/
theorem flushed_of_outside (h : v.Registered) {x : ℕ}
    (hx : x < v.groupAddr 0 ∨ v.groupAddr v.groupNumber ≤ x) :
    v.flushPartition.disk.bytes x = v.disk.bytes x := by
  obtain ⟨hbg, hsb⟩ := h.written_bytes_le
  rw [groupAddr, Nat.mul_zero, Nat.add_zero] at hx
  rw [h.flushPartition_bytes]
  refine (blitRegions_of_outside _ _ _ hsb (fun j hj => ?_) hx).trans
    (blitRegions_of_outside _ _ _ hbg (fun j hj => mem_range.1 hj) hx)
  exact Nat.lt_of_lt_of_le (mem_range.1 hj) h.backups_le

end Registered

/-! ### Registering what has been flushed -/

/-- The descriptors on the disk are read to where they were, and the superblock too. -/
def RoundTrip (v : Volume) : Prop :=
  ∃ w, registerPartition v.flushPartition.disk v.lba v.fresh = some w ∧
    SameOn v.sb w.sb 0 1024 ∧ SameOn v.gd w.gd 0 (32 * v.groupNumber)

/-- After a flush, the group has a superblock: it is one of those that are written, or the two bytes
of the magic number are there, among the descriptors that have been written over it if they reach
as far. -/
def KeepsCopy (v : Volume) (i : ℕ) : Prop :=
  i < v.backupBgsCount ∨
    (if 1082 ≤ (v.bgdtBlock + v.tableSectors) * 512 then
      loadLE v.gd (32 * i + (1080 - v.bgdtBlock * 512)) 2
    else loadLE v.disk.bytes (v.groupAddr i + 1080) 2) = ext2SuperMagic

instance (v : Volume) (i : ℕ) : Decidable (v.KeepsCopy i) := inferInstanceAs (Decidable (_ ∨ _))

/-- The byte `x` of the table on the disk after a flush: the descriptors that have been written
before the table can reach into it. -/
def tableByte (v : Volume) (x : ℕ) : BitVec 8 :=
  if x + (v.tableStart - v.bgdtBlock) * 512 < v.tableSectors * 512 then
    v.gd (x + (v.tableStart - v.bgdtBlock) * 512)
  else v.disk.bytes (v.groupAddr 0 + v.tableStart * 512 + x)

/-- On a disk without failures, the backups are the groups with the magic number. -/
theorem backupGroups_eq {d : Disk} (hd : d.Reliable) (lba spg groups : ℕ) (fresh : Bytes) :
    backupGroups d lba spg groups fresh = some ((List.range groups).filter fun i =>
      superblock.get (blit fresh 0 d.bytes (wrap32 (lba + i * spg + sbOffsetLba) * d.sectorSize)
        (2 * d.sectorSize)) 0 .magic = ext2SuperMagic) := by
  have hfold : ∀ (L acc : List ℕ), L.foldlM (backupStep (groupSuperblock d lba spg fresh)) acc =
      some (acc ++ L.filter fun i =>
        superblock.get (blit fresh 0 d.bytes (wrap32 (lba + i * spg + sbOffsetLba) * d.sectorSize)
          (2 * d.sectorSize)) 0 .magic = ext2SuperMagic) := by
    intro L
    induction L with
    | nil => exact fun acc => congrArg some (append_nil acc).symm
    | cons i L ih =>
      intro acc
      rw [foldlM_cons, backupStep, groupSuperblock, hd.read_eq, filter_cons]
      refine (ih _).trans (congrArg some ?_)
      simp only [decide_eq_true_eq]
      split_ifs with hmagic
      · rw [append_assoc, singleton_append]
      · rfl
  exact hfold (List.range groups) []

namespace Registered

variable {v : Volume} {i n : ℕ}

section

variable (h : v.Registered)

include h

/-- The superblock that is read from a group. -/
theorem get_flushed (hi : i < v.groupNumber) (f : SuperblockField) :
    superblock.get (blit v.fresh 0 v.flushPartition.disk.bytes
      (wrap32 (v.lba + i * v.sectorsPerGroup + sbOffsetLba) * v.disk.sectorSize)
        (2 * v.disk.sectorSize)) 0 f =
      superblock.get v.flushPartition.disk.bytes (v.groupAddr i + 1024) f := by
  have haddr := h.sector_mul hi (Nat.lt_of_succ_lt h.written_le.2.2)
  have hwithin := superblock.within f
  rw [Nat.mul_comm i, haddr, h.diskSectorSize]
  refine loadLE_eq_of_shift fun x hx => ?_
  have hoff : sbOffsetLba = 2 := rfl
  have hsize : superblock.size = 1024 := rfl
  rw [blit_apply_of_mem (Nat.zero_le _) (by omega)]
  exact congrArg v.flushPartition.disk.bytes (by omega)

/-- A group that is written with a superblock has the one in memory. -/
theorem get_copy (hi : i < v.backupBgsCount) (f : SuperblockField) :
    superblock.get v.flushPartition.disk.bytes (v.groupAddr i + 1024) f = v.sbGet f := by
  have hwithin := superblock.within f
  have hsize : superblock.size = 1024 := rfl
  have hin := h.written_bytes_le.2
  refine loadLE_eq_of_shift fun x hx => ?_
  rw [Nat.add_assoc, Nat.add_assoc, h.flushed_apply (Nat.lt_of_lt_of_le hi h.backups_le) (by omega),
    if_pos ⟨hi, by omega, by omega⟩]
  exact congrArg v.sb (by omega)

/-- The groups with the magic number after a flush. -/
theorem magic_flushed_iff (hi : i < v.groupNumber) :
    superblock.get v.flushPartition.disk.bytes (v.groupAddr i + 1024) .magic = ext2SuperMagic ↔
      v.KeepsCopy i := by
  by_cases hcopy : i < v.backupBgsCount
  · rw [h.get_copy hcopy, h.magic]
    exact iff_of_true rfl (.inl hcopy)
  -- the magic number is at offset 56 of the superblock
  have hin := h.written_bytes_le.2
  obtain ⟨hb, hb', -⟩ := h.layout
  have hbyte : ∀ x < 2, v.flushPartition.disk.bytes (v.groupAddr i + 1080 + x) =
      if 1082 ≤ (v.bgdtBlock + v.tableSectors) * 512 then
        v.gd (32 * i + (1080 - v.bgdtBlock * 512) + x)
      else v.disk.bytes (v.groupAddr i + 1080 + x) := by
    intro x hx
    rw [Nat.add_assoc, h.flushed_apply hi (by omega), if_neg fun hand => hcopy hand.1]
    by_cases hreach : 1082 ≤ (v.bgdtBlock + v.tableSectors) * 512
    · rw [if_pos (by omega), if_pos hreach]
      exact congrArg v.gd (by omega)
    · rw [if_neg (by omega), if_neg hreach]
  have hload : superblock.get v.flushPartition.disk.bytes (v.groupAddr i + 1024) .magic =
      if 1082 ≤ (v.bgdtBlock + v.tableSectors) * 512 then
        loadLE v.gd (32 * i + (1080 - v.bgdtBlock * 512)) 2
      else loadLE v.disk.bytes (v.groupAddr i + 1080) 2 := by
    change loadLE _ (v.groupAddr i + 1024 + 56) 2 = _
    split_ifs with hreach
    · refine loadLE_eq_of_shift fun x hx => ?_
      rw [hbyte x hx, if_pos hreach]
    · refine loadLE_eq_of_shift fun x hx => ?_
      rw [hbyte x hx, if_neg hreach]
  rw [hload, KeepsCopy, or_iff_right hcopy]

theorem flushed_disk : v.flushPartition.disk =
    { v.disk with bytes := v.flushPartition.disk.bytes } := by
  rw [h.flushPartition_bytes]
  rfl

theorem flushed_reliable : v.flushPartition.disk.Reliable := by
  rw [h.flushed_disk]
  exact ⟨h.reliable.readable, h.reliable.writable⟩

theorem flushed_sectorSize : v.flushPartition.disk.sectorSize = 512 := by
  rw [h.flushed_disk]
  exact h.diskSectorSize

/-- The groups that are found after a flush. -/
theorem backupGroups_flushed :
    backupGroups v.flushPartition.disk v.lba v.sectorsPerGroup v.groupNumber v.fresh =
      some ((List.range v.groupNumber).filter fun i => v.KeepsCopy i) := by
  rw [backupGroups_eq h.flushed_reliable]
  refine congrArg some (filter_congr fun i hi => ?_)
  have hi := mem_range.1 hi
  rw [h.flushed_sectorSize, ← h.diskSectorSize, h.get_flushed hi, decide_eq_decide]
  exact h.magic_flushed_iff hi

/-- What registration finds after a flush. -/
theorem registerPartition_flushed :
    (64 < ((List.range v.groupNumber).filter fun i => v.KeepsCopy i).length →
      registerPartition v.flushPartition.disk v.lba v.fresh = none) ∧
    (((List.range v.groupNumber).filter fun i => v.KeepsCopy i).length ≤ 64 →
      ∃ w, registerPartition v.flushPartition.disk v.lba v.fresh = some w ∧
        w.sb = blit v.fresh 0 v.flushPartition.disk.bytes (v.groupAddr 0 + 1024) 1024 ∧
        w.gd = blit v.fresh 0 v.flushPartition.disk.bytes
          (v.groupAddr 0 + v.tableStart * 512) (v.tableSectors * 512)) := by
  have hread := h.flushed_reliable.read_eq
  have hsb : wrap32 (v.lba + sbOffsetLba) * 512 = v.groupAddr 0 + 1024 := by
    have := h.sector_mul h.groups_pos (Nat.lt_of_succ_lt h.written_le.2.2)
    rwa [Nat.mul_zero, h.diskSectorSize] at this
  have hget : ∀ f, superblock.get (blit v.fresh 0 v.flushPartition.disk.bytes
      (v.groupAddr 0 + 1024) (2 * 512)) 0 f = v.sbGet f := by
    intro f
    have hzero := h.get_flushed h.groups_pos f
    rwa [h.get_copy h.backups_pos, Nat.zero_mul, Nat.add_zero, h.diskSectorSize, hsb] at hzero
  have htable : wrap32 (v.lba + v.blockSectors * v.bgdtBlock) * 512 =
      v.groupAddr 0 + v.tableStart * 512 := by
    have hlt : v.tableStart < v.sectorsPerGroup := by
      have := h.written_le.1
      have := h.tableSectors_spec.1
      omega
    have := h.sector_mul h.groups_pos hlt
    rwa [Nat.mul_zero, h.diskSectorSize] at this
  have hbs : wrap32 (1024 <<< v.sbGet .logBlockSize) = v.blockSize := rfl
  have hsectors : divideRoundedUp v.blockSize 512 = v.blockSectors := by
    rw [blockSectors, h.sectorSize]
  have hdesc : descriptorSectors v.groupNumber 512 = v.tableSectors := by
    rw [tableSectors, h.sectorSize]
  simp only [registerPartition, registered, h.flushed_sectorSize, hread, bind_eq_bind, bind_some,
    map_some, hget, h.magic, hbs, hsectors, ← h.groups, ← h.groups', ← h.sectorsPerGroup_eq,
      ← h.bgdtBlock,
    h.backupGroups_flushed, hdesc, htable, hsb, h.blocksPerGroup, h.inodesPerGroup, ne_eq]
  refine ⟨fun hmany => if_pos hmany, fun hfew => ?_⟩
  rw [if_neg (Nat.not_lt.2 hfew)]
  exact ⟨_, rfl, rfl, rfl⟩

/-- The table that is read after a flush. -/
theorem flushed_table {x : ℕ} (hx : x < v.tableSectors * 512) :
    v.flushPartition.disk.bytes (v.groupAddr 0 + v.tableStart * 512 + x) = v.tableByte x := by
  obtain ⟨-, -, hT, hb⟩ := h.layout
  have hfits := h.written_le.1
  rw [Nat.add_assoc, h.flushed_apply h.groups_pos (by omega), if_neg (by omega), tableByte,
    ← Nat.add_assoc]
  by_cases hover : x + (v.tableStart - v.bgdtBlock) * 512 < v.tableSectors * 512
  · rw [if_pos (by omega), if_pos hover]
    exact congrArg v.gd (by omega)
  · rw [if_neg (by omega), if_neg hover]

end

end Registered

/-- **A flush is undone by nothing, that is registration finds the superblock and the descriptors
that were in memory, exactly when the table on the disk already held the descriptors**, up to those
bytes that the descriptors in memory have over it, and no more than 64 groups seem to have a
superblock. -/
theorem roundTrip_iff {v : Volume} (h : v.Registered) :
    v.RoundTrip ↔ (∀ x < 32 * v.groupNumber, v.tableByte x = v.gd x) ∧
      ((List.range v.groupNumber).filter fun i => v.KeepsCopy i).length ≤ 64 := by
  obtain ⟨hmany, hfew⟩ := h.registerPartition_flushed
  have hsize := h.tableSectors_spec
  have hgd : ∀ x < 32 * v.groupNumber, blit v.fresh 0 v.flushPartition.disk.bytes
      (v.groupAddr 0 + v.tableStart * 512) (v.tableSectors * 512) x = v.tableByte x := by
    intro x hx
    rw [blit_apply_of_mem (Nat.zero_le x) (by omega), Nat.sub_zero, h.flushed_table (by omega)]
  constructor
  · rintro ⟨w, hw, -, hsame⟩
    rcases Nat.lt_or_ge 64 ((List.range v.groupNumber).filter fun i => v.KeepsCopy i).length
      with hlen | hlen
    · exact absurd ((hmany hlen).symm.trans hw) (some_ne_none w).symm
    · obtain ⟨w', hw', -, htable⟩ := hfew hlen
      obtain rfl : w' = w := mem_unique hw' hw
      refine ⟨fun x hx => ?_, hlen⟩
      rw [← hgd x hx, ← htable]
      exact hsame x (Nat.zero_le x) (by omega)
  · rintro ⟨htable, hlen⟩
    obtain ⟨w, hw, hsb, hgd'⟩ := hfew hlen
    refine ⟨w, hw, fun x _ hx => ?_, fun x _ hx => ?_⟩
    · have hin := h.written_bytes_le.2
      rw [hsb, blit_apply_of_mem (Nat.zero_le x) (by omega), Nat.sub_zero, Nat.add_assoc,
        h.flushed_apply h.groups_pos (by omega),
        if_pos ⟨h.backups_pos, by omega, by omega⟩, Nat.add_sub_cancel_left]
    · rw [hgd', hgd x (by omega), htable x (by omega)]

/-! ### A partition that is registered -/

/-- **What `ext2_partition_register_partition` returns is registered**, provided that the file
system has a group, with room for the descriptors, and ends where sector numbers do. -/
theorem registered_of_registerPartition {d : Disk} {lba : ℕ} {fresh : Bytes} {v : Volume}
    (hd : d.Reliable) (hs : d.sectorSize = 512) (hv : registerPartition d lba fresh = some v)
    (hlog : v.sbGet .logBlockSize < 22) (hpos : 0 < v.groupNumber)
    (hfits : v.tableStart + v.blockSectors * v.tableBlocks ≤ v.sectorsPerGroup)
    (hrange : v.lba + v.sectorsPerGroup * v.groupNumber ≤ 2 ^ 32) : v.Registered := by
  simp only [registerPartition, registered, hd.read_eq, hs, bind_eq_bind, bind_some, map_some,
    backupGroups_eq hd, ite_none_left_eq_some, Option.some.injEq, not_or, not_not] at hv
  obtain ⟨-, hmagic, hzero, hgroups, -, rfl⟩ := hv
  refine ⟨⟨hd, rfl, hs, hlog⟩, hmagic, rfl, rfl, hzero.1, hzero.2, rfl, hgroups, hpos, ?_, ?_, ?_,
    hfits, hrange⟩
  · -- the first group has the superblock that has been read
    refine length_pos_of_mem (a := 0) (mem_filter.2 ⟨mem_range.2 hpos, ?_⟩)
    rw [Nat.zero_mul, decide_eq_true_eq]
    exact hmagic
  · exact Nat.le_trans (length_filter_le _ _) (Nat.le_of_eq length_range)
  · intro i hi
    change (if _ then _ else _ : ℤ) ≠ -1
    rw [if_pos hi]
    omega

/-- The superblock of a partition of groups with eight blocks of 1024 bytes each. -/
def smallSb (groups : ℕ) : Bytes :=
  superblock.set (superblock.set (superblock.set (superblock.set (superblock.set (fun _ => 0#8)
    0 .magic ext2SuperMagic) 0 .blocksCount (8 * groups)) 0 .inodesCount (8 * groups))
    0 .blocksPerGroup 8) 0 .inodesPerGroup 8

/-- A disk with the superblock in the first group, where three blocks are free. -/
def smallDisk (groups : ℕ) : Disk where
  sectorSize := 512
  bytes := blit (groupDescriptor.set (fun _ => 0#8) 2048 .freeBlocksCount 3) 1024 (smallSb groups)
    0 1024
  readable _ _ := true
  writable _ _ := true

theorem registered_smallDisk :
    ∃ v, registerPartition (smallDisk 1) 0 (fun _ => 0) = some v ∧ v.Registered := by
  have h : registerPartition (smallDisk 1) 0 (fun _ => 0) = some _ := rfl
  refine ⟨_, h, registered_of_registerPartition ⟨fun _ _ => rfl, fun _ _ => rfl⟩ rfl h ?_ ?_ ?_ ?_⟩
  all_goals decide

/-- The partition on this disk. -/
def smallPartition (groups : ℕ) : Volume where
  backupBgs _ := 0
  backupBgsCount := 1
  lba := 0
  groupNumber := groups
  sectorSize := 512
  bgdtBlock := 2
  sbBlock := 2
  flushRequired := false
  sb := smallSb groups
  gd x := (smallDisk groups).bytes (2048 + x)
  disk := smallDisk groups
  fresh _ := 0#8

theorem smallPartition_registered {groups : ℕ} (h : groups = 1 ∨ groups = 2) :
    (smallPartition groups).Registered where
  reliable := ⟨fun _ _ => rfl, fun _ _ => rfl⟩
  sectorSize := rfl
  diskSectorSize := rfl
  logBlockSize := by rcases h with rfl | rfl <;> decide
  magic := by rcases h with rfl | rfl <;> decide
  sbBlock := rfl
  bgdtBlock := by rcases h with rfl | rfl <;> decide
  blocksPerGroup := by rcases h with rfl | rfl <;> decide
  inodesPerGroup := by rcases h with rfl | rfl <;> decide
  groups := by rcases h with rfl | rfl <;> decide
  groups' := by rcases h with rfl | rfl <;> decide
  groups_pos := by rcases h with rfl | rfl <;> decide
  backups_pos := Nat.one_pos
  backups_le := by rcases h with rfl | rfl <;> decide
  backups _ _ := show (0 : ℤ) ≠ -1 by decide
  table_fits := by rcases h with rfl | rfl <;> decide
  in_range := by rcases h with rfl | rfl <;> decide

/-- When the descriptors have not changed since, they are found again. -/
theorem roundTrip_unchanged : (smallPartition 1).RoundTrip :=
  (roundTrip_iff (smallPartition_registered (.inl rfl))).2 ⟨by decide, by decide⟩

/-- After a block has been allocated, the old descriptor is found. -/
theorem not_roundTrip_allocated : ¬ ((smallPartition 1).gdSet 0 .freeBlocksCount 2).RoundTrip := by
  rintro ⟨w, hw, -, hgd⟩
  have hold : (registerPartition ((smallPartition 1).gdSet 0 .freeBlocksCount 2).flushPartition.disk
      0 fun _ => 0#8).map (fun w => w.gd 12) = some 3#8 := by
    decide +kernel
  have hbyte : w.gd 12 = 2#8 := hgd 12 (by decide) (by decide)
  have hsome : (some w).map (fun w => w.gd 12) = some 3#8 := hw ▸ hold
  rw [map_some, hbyte] at hsome
  exact absurd hsome (by decide)

/-! ### What a flush leaves alone -/

/-- The group is one of those with a copy of the superblock, as found when the partition was
registered. -/
def Recorded (v : Volume) (i : ℕ) : Prop := ∃ j < v.backupBgsCount, v.backupBgs j = i

/-- The address is in a copy of the superblock, or in a table of descriptors next to one. -/
def MayFlush (v : Volume) (x : ℕ) : Prop :=
  ∃ i, v.Recorded i ∧ ((v.groupAddr i + 1024 ≤ x ∧ x < v.groupAddr i + 2048) ∨
    (v.groupAddr i + v.tableStart * 512 ≤ x ∧
      x < v.groupAddr i + (v.tableStart + v.blockSectors * v.tableBlocks) * 512))

/-- A flush changes nothing else. -/
def FlushFrame (v : Volume) : Prop :=
  ∀ x, ¬ v.MayFlush x → v.flushPartition.disk.bytes x = v.disk.bytes x

/-- The superblock has the fields of the partition, except for the numbers of free blocks and
inodes, which are the only ones that the file system changes. -/
def SameGeometry (v : Volume) (sb : Bytes) : Prop :=
  ∀ f, f ≠ .freeBlocksCount → f ≠ .freeInodesCount → superblock.get sb 0 f = v.sbGet f

/-- The partition with other structures in memory. -/
def withStructures (v : Volume) (sb gd : Bytes) : Volume := { v with sb := sb, gd := gd }

section Frame

variable {v : Volume} {sb : Bytes} {i j o x : ℕ}

namespace SameGeometry

theorem refl (v : Volume) : v.SameGeometry v.sb := fun _ _ _ => rfl

/-- Any byte can be the first one of the number of free blocks. -/
theorem exists_byte (v : Volume) (c : BitVec 8) : ∃ sb, v.SameGeometry sb ∧ sb 12 = c := by
  refine ⟨superblock.set v.sb 0 .freeBlocksCount c.toNat, fun f hf _ =>
    superblock.get_set_of_ne _ hf.symm, ?_⟩
  change BitVec.ofNat 8 c.toNat = c
  rw [BitVec.ofNat_toNat, BitVec.setWidth_eq]

section

variable (hsb : v.SameGeometry sb) (gd : Bytes)

include hsb gd

theorem blockSize_eq : (v.withStructures sb gd).blockSize = v.blockSize :=
  congrArg (fun n => wrap32 (1024 <<< n)) (hsb .logBlockSize nofun nofun)

theorem blockSectors_eq : (v.withStructures sb gd).blockSectors = v.blockSectors :=
  congrArg (divideRoundedUp · v.sectorSize) (hsb.blockSize_eq gd)

theorem sectorsPerGroup_eq : (v.withStructures sb gd).sectorsPerGroup = v.sectorsPerGroup := by
  change wrap32 (superblock.get sb 0 .blocksPerGroup *
    ((v.withStructures sb gd).blockSize / v.sectorSize)) = _
  rw [hsb.blockSize_eq, hsb .blocksPerGroup nofun nofun]
  rfl

theorem tableStart_eq : (v.withStructures sb gd).tableStart = v.tableStart :=
  congrArg (· * v.bgdtBlock) (hsb.blockSectors_eq gd)

theorem tableBlocks_eq : (v.withStructures sb gd).tableBlocks = v.tableBlocks :=
  congrArg (divideRoundedUp (32 * v.groupNumber)) (hsb.blockSize_eq gd)

theorem groupAddr_eq (i : ℕ) : (v.withStructures sb gd).groupAddr i = v.groupAddr i :=
  congrArg (fun n => v.lba * 512 + n * 512 * i) (hsb.sectorsPerGroup_eq gd)

theorem sbGet_eq (f : SuperblockField) (hf : f ≠ .freeBlocksCount) (hf' : f ≠ .freeInodesCount) :
    (v.withStructures sb gd).sbGet f = v.sbGet f :=
  hsb f hf hf'

end

/-- The partition stays registered. -/
theorem registered (hsb : v.SameGeometry sb) (h : v.Registered) (gd : Bytes) :
    (v.withStructures sb gd).Registered where
  reliable := h.reliable
  sectorSize := h.sectorSize
  diskSectorSize := h.diskSectorSize
  logBlockSize := by
    rw [hsb.sbGet_eq gd .logBlockSize nofun nofun]
    exact h.logBlockSize
  magic := (hsb.sbGet_eq gd .magic nofun nofun).trans h.magic
  sbBlock := h.sbBlock
  bgdtBlock := (hsb.blockSize_eq gd).symm ▸ h.bgdtBlock
  blocksPerGroup := by
    rw [hsb.sbGet_eq gd .blocksPerGroup nofun nofun]
    exact h.blocksPerGroup
  inodesPerGroup := by
    rw [hsb.sbGet_eq gd .inodesPerGroup nofun nofun]
    exact h.inodesPerGroup
  groups := by
    rw [hsb.sbGet_eq gd .blocksCount nofun nofun, hsb.sbGet_eq gd .blocksPerGroup nofun nofun]
    exact h.groups
  groups' := by
    rw [hsb.sbGet_eq gd .inodesCount nofun nofun, hsb.sbGet_eq gd .inodesPerGroup nofun nofun]
    exact h.groups'
  groups_pos := h.groups_pos
  backups_pos := h.backups_pos
  backups_le := h.backups_le
  backups := h.backups
  table_fits := by
    rw [hsb.tableStart_eq, hsb.blockSectors_eq, hsb.tableBlocks_eq, hsb.sectorsPerGroup_eq]
    exact h.table_fits
  in_range := by
    rw [hsb.sectorsPerGroup_eq]
    exact h.in_range

end SameGeometry

namespace Registered

section

variable (h : v.Registered)

include h

/-- An address in a group that is not recorded may not be written. -/
theorem not_mayFlush (hi : ¬ v.Recorded i) (ho : o < v.sectorsPerGroup * 512) :
    ¬ v.MayFlush (v.groupAddr i + o) := by
  rintro ⟨j, hj, hx⟩
  have hne : j ≠ i := fun heq => hi (heq ▸ hj)
  have hsb := h.written_bytes_le.2
  have hfits := Nat.mul_le_mul_right 512 h.table_fits
  rcases Nat.lt_or_gt_of_ne hne with hlt | hlt
  · have := v.groupAddr_add_le hlt
    omega
  · have := v.groupAddr_add_le hlt
    omega

/-- The sectors before the first superblock may not be written. -/
theorem not_mayFlush_boot (ho : o < 1024) : ¬ v.MayFlush (v.groupAddr 0 + o) := by
  rintro ⟨j, -, hx⟩
  obtain ⟨-, -, hT, -⟩ := h.layout
  unfold groupAddr at hx
  omega

/-- Every address is in a group or outside of them. -/
theorem exists_group (x : ℕ) :
    (x < v.groupAddr 0 ∨ v.groupAddr v.groupNumber ≤ x) ∨
      ∃ i < v.groupNumber, ∃ o < v.sectorsPerGroup * 512, x = v.groupAddr i + o := by
  by_cases hout : x < v.groupAddr 0 ∨ v.groupAddr v.groupNumber ≤ x
  · exact .inl hout
  have hpos : 0 < v.sectorsPerGroup * 512 := by
    have := h.written_bytes_le.2
    omega
  have hdiv := Nat.div_add_mod (x - v.lba * 512) (v.sectorsPerGroup * 512)
  have hmod := Nat.mod_lt (x - v.lba * 512) hpos
  unfold groupAddr at hout ⊢
  refine .inr ⟨(x - v.lba * 512) / (v.sectorsPerGroup * 512), ?_, _, hmod, by omega⟩
  rw [Nat.div_lt_iff_lt_mul hpos, Nat.mul_comm v.groupNumber]
  omega

/-- With blocks of 1024 bytes, a flush writes the superblock and the table of every group. -/
theorem flushFrame (hbs : v.blockSize = 1024) (hall : ∀ i < v.groupNumber, v.Recorded i) :
    v.FlushFrame := by
  intro x hx
  rcases h.exists_group x with hout | ⟨i, hi, o, ho, rfl⟩
  · exact h.flushed_of_outside hout
  have hb : v.bgdtBlock = 2 := by rw [h.bgdtBlock, if_pos hbs]
  have hT : v.tableStart * 512 = 2048 := by
    rw [tableStart, hb, Nat.mul_right_comm, h.blockSectors_mul_eq, hbs]
  have hle := h.tableSectors_le
  have houtside : ¬ (1024 ≤ o ∧ o < 2048) := fun hin => hx ⟨i, hall i hi, .inl (by omega)⟩
  have htable : ¬ (2048 ≤ o ∧ o < 2048 + v.tableSectors * 512) :=
    fun hin => hx ⟨i, hall i hi, .inr (by omega)⟩
  rw [h.flushed_apply hi ho, if_neg fun hand => houtside hand.2, if_neg (by omega)]

/-- With larger blocks, the descriptors are written before the superblock. -/
theorem not_flushFrame_boot (hbs : v.blockSize ≠ 1024)
    (hgd : v.gd 0 ≠ v.disk.bytes (v.groupAddr 0 + 512)) : ¬ v.FlushFrame := by
  intro hframe
  have hb : v.bgdtBlock = 1 := by rw [h.bgdtBlock, if_neg hbs]
  have hin := h.written_bytes_le.2
  have hsome := h.tableSectors_spec.1
  have hx := hframe _ (h.not_mayFlush_boot (show 512 < 1024 by decide))
  rw [h.flushed_apply h.groups_pos (by omega), if_neg (by omega), hb, if_pos (by omega)] at hx
  exact hgd hx

/-- A group among the first ones gets a superblock. -/
theorem not_flushFrame_copy (hi : ¬ v.Recorded i) (hlt : i < v.backupBgsCount)
    (hsb : v.sb 12 ≠ v.disk.bytes (v.groupAddr i + 1036)) : ¬ v.FlushFrame := by
  intro hframe
  have hin := h.written_bytes_le.2
  have hx := hframe _ (h.not_mayFlush hi (show 1036 < _ by omega))
  rw [h.flushed_apply (Nat.lt_of_lt_of_le hlt h.backups_le) (by omega),
    if_pos ⟨hlt, by omega, by omega⟩] at hx
  exact hsb hx

/-- Every group gets descriptors. -/
theorem not_flushFrame_table (hbs : v.blockSize = 1024) (hi : ¬ v.Recorded i)
    (hgroup : i < v.groupNumber) (hge : v.backupBgsCount ≤ i)
    (hgd : v.gd (32 * i) ≠ v.disk.bytes (v.groupAddr i + 1024)) : ¬ v.FlushFrame := by
  intro hframe
  have hb : v.bgdtBlock = 2 := by rw [h.bgdtBlock, if_pos hbs]
  have hin := h.written_bytes_le.2
  have hsome := h.tableSectors_spec.1
  have hx := hframe _ (h.not_mayFlush hi (show 1024 < _ by omega))
  rw [h.flushed_apply hgroup (by omega), if_neg fun hand => Nat.not_lt.2 hge hand.1, hb,
    if_pos (by omega)] at hx
  exact hgd hx

end

end Registered

end Frame

/-- **A flush stays in the superblocks and tables of the groups with a copy, whatever is in memory,
exactly when blocks have 1024 bytes and all groups have a copy.** -/
theorem flushFrame_iff {v : Volume} (h : v.Registered) :
    (∀ sb gd, v.SameGeometry sb → (v.withStructures sb gd).FlushFrame) ↔
      v.blockSize = 1024 ∧ ∀ i < v.groupNumber, v.Recorded i := by
  have hother : ∀ c : BitVec 8, c + 1#8 ≠ c := by decide
  constructor
  · intro hframe
    have hbs : v.blockSize = 1024 := by
      by_contra hbs
      have hsb := SameGeometry.refl v
      refine (hsb.registered h fun _ =>
        v.disk.bytes (v.groupAddr 0 + 512) + 1#8).not_flushFrame_boot
        (hsb.blockSize_eq _ ▸ hbs) ?_ (hframe _ _ hsb)
      exact hother _
    refine ⟨hbs, fun i hi => ?_⟩
    by_contra hrec
    rcases Nat.lt_or_ge i v.backupBgsCount with hlt | hge
    · obtain ⟨sb, hsb, hbyte⟩ :=
        SameGeometry.exists_byte v (v.disk.bytes (v.groupAddr i + 1036) + 1#8)
      refine (hsb.registered h v.gd).not_flushFrame_copy hrec hlt ?_ (hframe _ _ hsb)
      rw [hsb.groupAddr_eq]
      exact fun heq => hother _ (hbyte.symm.trans heq)
    · have hsb := SameGeometry.refl v
      refine (hsb.registered h fun _ =>
        v.disk.bytes (v.groupAddr i + 1024) + 1#8).not_flushFrame_table
        (hsb.blockSize_eq _ ▸ hbs) hrec hi hge ?_ (hframe _ _ hsb)
      exact hother _
  · rintro ⟨hbs, hall⟩ sb gd hsb
    exact (hsb.registered h gd).flushFrame ((hsb.blockSize_eq gd).trans hbs) hall

/-- A partition of one group, whatever its descriptor. -/
theorem flushFrame_oneGroup :
    ((smallPartition 1).withStructures (smallSb 1) fun _ => 0xff#8).FlushFrame := by
  refine (flushFrame_iff (smallPartition_registered (.inl rfl))).2 ⟨by decide, fun i hi => ?_⟩ _ _
    (SameGeometry.refl _)
  have hi : i < 1 := hi
  rw [Nat.lt_one_iff.1 hi]
  exact ⟨0, by decide, rfl⟩

/-- With a second group that has no superblock, a flush writes a descriptor over its second
block. -/
theorem not_flushFrame_secondGroup : ¬ ((smallPartition 2).gdSet 1 .blockBitmap 11).FlushFrame := by
  intro hframe
  have hout : ¬ ((smallPartition 2).gdSet 1 .blockBitmap 11).MayFlush (8192 + 1024) := by
    rintro ⟨i, ⟨j, hj, hi⟩, hx⟩
    obtain rfl : i = 0 := by
      have hi : (0 : ℤ) = i := hi
      omega
    revert hx
    decide
  exact absurd (hframe _ hout) (by decide +kernel)

end Volume

end Bloodmoon
