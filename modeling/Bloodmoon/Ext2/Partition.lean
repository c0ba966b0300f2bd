import Bloodmoon.Ext2.Structs

/-!
# Registering and flushing a partition

The model of `ext2_partition_register_partition`, which reads the superblock and the group
descriptors of a partition, and of `ext2_flush_partition`, which writes them back. A partition that
is refused is nothing, and so is one whose registration divides by zero or writes behind the array
`backup_bgs`. Names and the list of partitions are left out.
-/

namespace Bloodmoon

open Machine

/-- `SB_OFFSET_LBA`. -/
def sbOffsetLba : ℕ := 2

/-- `EXT2_SUPER_MAGIC`. -/
def ext2SuperMagic : ℕ := 0xEF53

/-- `DIVIDE_ROUNDED_UP` of 32-bit values. -/
def divideRoundedUp32 (x y : ℕ) : ℕ := if x % y ≠ 0 then wrap32 (x + y - 1) / y else x / y

namespace Volume

variable (v : Volume)

/-! ### Flushing -/

/-- `sectors_per_group` in `ext2_flush_bg` and `ext2_flush_sb`. -/
def sectorsPerGroup : ℕ :=
  wrap32 (v.sbGet .blocksPerGroup * (v.blockSize / v.sectorSize))

/-- `block_group_descriptors_size`, in sectors. -/
def descriptorSectors (groupNumber sectorSize : ℕ) : ℕ :=
  wrap32 (divideRoundedUp (groupNumber * groupDescriptor.size) sectorSize)

/-- `ext2_flush_bg`, from the descriptor of the group on. -/
def flushBg (bgid : ℕ) : Volume × Bool :=
  match v.disk.write (wrap32 (v.lba + v.sectorsPerGroup * bgid + v.bgdtBlock))
    (descriptorSectors v.groupNumber v.sectorSize) v.gd (groupDescriptor.size * bgid) with
  | none => (v, true)
  | some disk => ({ v with disk := disk }, false)

/-- `ext2_flush_sb`. -/
def flushSb (bgid : ℕ) : Volume × Bool :=
  if v.backupBgsCount ≤ bgid ∨ v.backupBgs bgid = -1 then (v, true)
  else match v.disk.write (wrap32 (v.lba + v.sectorsPerGroup * bgid + v.sbBlock)) 2 v.sb 0 with
    | none => (v, true)
    | some disk => ({ v with disk := disk }, false)

/-- `ext2_flush_partition`. -/
def flushPartition : Volume :=
  { (((v.operateOnBg flushBg).1).operateOnBg flushSb).1 with flushRequired := false }

/-! ### Registering -/

/-- What is read where the superblock of a group would be. -/
def groupSuperblock (disk : Disk) (lba sectorsPerGroup : ℕ) (fresh : Bytes) (i : ℕ) :
    Option Bytes :=
  disk.read (wrap32 (lba + i * sectorsPerGroup + sbOffsetLba)) 2 fresh 0

/-- A group is added to those that have a superblock. -/
def backupStep (groupSb : ℕ → Option Bytes) (found : List ℕ) (i : ℕ) : Option (List ℕ) :=
  (groupSb i).map fun dummySb =>
    if superblock.get dummySb 0 .magic = ext2SuperMagic then found ++ [i] else found

/-- The groups with a superblock, of which the first 64 have a place in `backup_bgs`. -/
def backupGroups (disk : Disk) (lba sectorsPerGroup groups : ℕ) (fresh : Bytes) : Option (List ℕ) :=
  (List.range groups).foldlM (backupStep (groupSuperblock disk lba sectorsPerGroup fresh)) []

/-- The partition that is registered at the end. -/
def registered (disk : Disk) (lba : ℕ) (fresh sb : Bytes) (sectorsPerBlock bgdtBlock groups : ℕ)
    (backups : List ℕ) : Option Volume :=
  (disk.read (wrap32 (lba + sectorsPerBlock * bgdtBlock))
    (descriptorSectors groups disk.sectorSize) fresh 0).map fun gd => {
      backupBgs := fun i => if i < backups.length then (backups.getD i 0 : ℤ)
        else if i = 0 then -1 else 0
      backupBgsCount := backups.length
      lba := lba
      groupNumber := groups
      sectorSize := disk.sectorSize
      bgdtBlock := bgdtBlock
      sbBlock := sbOffsetLba
      flushRequired := false
      sb := sb
      gd := gd
      disk := disk
      fresh := fresh }

/-- `ext2_partition_register_partition`. -/
def registerPartition (disk : Disk) (lba : ℕ) (fresh : Bytes) : Option Volume :=
  if disk.sectorSize = 0 ∨ 4096 < disk.sectorSize then none
  else do
    let sb ← disk.read (wrap32 (lba + sbOffsetLba)) 2 fresh 0
    if superblock.get sb 0 .magic ≠ ext2SuperMagic then none
    else if superblock.get sb 0 .blocksPerGroup = 0 ∨ superblock.get sb 0 .inodesPerGroup = 0 then
      none
    else
      let blockSize := wrap32 (1024 <<< superblock.get sb 0 .logBlockSize)
      let sectorsPerBlock := divideRoundedUp blockSize disk.sectorSize
      let bgdtBlock := if blockSize = 1024 then 2 else 1
      let groups := divideRoundedUp32 (superblock.get sb 0 .blocksCount)
        (superblock.get sb 0 .blocksPerGroup)
      if groups ≠ divideRoundedUp32 (superblock.get sb 0 .inodesCount)
          (superblock.get sb 0 .inodesPerGroup) then none
      else do
        let backups ← backupGroups disk lba
          (wrap32 (superblock.get sb 0 .blocksPerGroup * sectorsPerBlock)) groups fresh
        if 64 < backups.length then none
        else registered disk lba fresh sb sectorsPerBlock bgdtBlock groups backups

end Volume

end Bloodmoon
