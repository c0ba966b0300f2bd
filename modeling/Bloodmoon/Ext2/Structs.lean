import Bloodmoon.Machine.Outcome
import Bloodmoon.Machine.SectorDisk

/-!
# The structures of an ext2 partition

The model of `ext2_structs.h`: the superblock, the block group descriptors, the inodes and the
directory entries are bytes, with a `Layout` for each, as in the memory and on the disk of the
machine. A `Volume` is a partition that has been registered, with the disk it is on.

Numbers are naturals, and the 32-bit arithmetic of the source is written with `wrap32`. A buffer
from `kmalloc` holds whatever the heap held before: `fresh` is that content. Messages for the
error log are left out.
-/

namespace Bloodmoon

open Machine

/-- The value an unsigned 32-bit variable keeps of `n`. -/
def wrap32 (n : ℕ) : ℕ := n % 2 ^ 32

theorem wrap32_of_lt {n : ℕ} (h : n < 2 ^ 32) : wrap32 n = n := Nat.mod_eq_of_lt h

/-- Subtraction of unsigned 32-bit values. -/
def wsub32 (a b : ℕ) : ℕ := (a + (2 ^ 32 - b % 2 ^ 32)) % 2 ^ 32

theorem wsub32_of_le {a b : ℕ} (h : b ≤ a) (ha : a < 2 ^ 32) : wsub32 a b = a - b := by
  unfold wsub32
  omega

/-- Subtraction of unsigned 16-bit values. -/
def wsub16 (a b : ℕ) : ℕ := (a + (2 ^ 16 - b % 2 ^ 16)) % 2 ^ 16

theorem wsub16_of_le {a b : ℕ} (h : b ≤ a) (ha : a < 2 ^ 16) : wsub16 a b = a - b := by
  unfold wsub16
  omega

/-- `DIVIDE_ROUNDED_UP`. -/
def divideRoundedUp (x y : ℕ) : ℕ := if x % y ≠ 0 then (x + y - 1) / y else x / y

/-! ### The layouts -/

/-- The fields of `struct ext2_superblock` and `struct ext2_superblock_extended` that are used. -/
inductive SuperblockField where
  | inodesCount
  | blocksCount
  | freeBlocksCount
  | freeInodesCount
  | firstSbBlock
  | logBlockSize
  | blocksPerGroup
  | inodesPerGroup
  | magic
  | revLevel
  | inodeSize
  deriving DecidableEq

/-- `struct ext2_superblock_extended`. -/
def superblock : Layout SuperblockField where
  offset
    | .inodesCount => 0
    | .blocksCount => 4
    | .freeBlocksCount => 12
    | .freeInodesCount => 16
    | .firstSbBlock => 20
    | .logBlockSize => 24
    | .blocksPerGroup => 32
    | .inodesPerGroup => 40
    | .magic => 56
    | .revLevel => 76
    | .inodeSize => 88
  width
    | .magic => 2
    | .inodeSize => 2
    | _ => 4
  size := 1024

/-- The fields of `struct ext2_block_group_descriptor`. -/
inductive GroupField where
  | blockBitmap
  | inodeBitmap
  | inodeTable
  | freeBlocksCount
  | freeInodesCount
  | usedDirsCount
  deriving DecidableEq

/-- `struct ext2_block_group_descriptor`. -/
def groupDescriptor : Layout GroupField where
  offset
    | .blockBitmap => 0
    | .inodeBitmap => 4
    | .inodeTable => 8
    | .freeBlocksCount => 12
    | .freeInodesCount => 14
    | .usedDirsCount => 16
  width
    | .blockBitmap => 4
    | .inodeBitmap => 4
    | .inodeTable => 4
    | _ => 2
  size := 32

/-- The fields of `struct ext2_inode_descriptor_generic`, without the block numbers. -/
inductive InodeField where
  | mode
  | uid
  | size
  | atime
  | ctime
  | mtime
  | dtime
  | gid
  | linksCount
  | sectors
  | flags
  | osd1
  | generation
  | fileAcl
  | dirAcl
  | faddr
  deriving DecidableEq

/-- `struct ext2_inode_descriptor`. -/
def inodeDescriptor : Layout InodeField where
  offset
    | .mode => 0
    | .uid => 2
    | .size => 4
    | .atime => 8
    | .ctime => 12
    | .mtime => 16
    | .dtime => 20
    | .gid => 24
    | .linksCount => 26
    | .sectors => 28
    | .flags => 32
    | .osd1 => 36
    | .generation => 100
    | .fileAcl => 104
    | .dirAcl => 108
    | .faddr => 112
  width
    | .mode => 2
    | .uid => 2
    | .gid => 2
    | .linksCount => 2
    | _ => 4
  size := 128

/-- `i_size`. -/
abbrev iSize (inode : Bytes) : ℕ := inodeDescriptor.get inode 0 .size

theorem inodeSize_lt (inode : Bytes) : iSize inode < 2 ^ 32 :=
  loadLE_lt inode _ 4

/-- `i_block[i]`: the fifteen block numbers are at offset 40. -/
def iBlock (inode : Bytes) (i : ℕ) : ℕ := loadLE inode (40 + 4 * i) 4

/-- The fields of `struct ext2_directory_entry` before the name. -/
inductive EntryField where
  | inode
  | recLen
  | nameLen
  | fileType
  deriving DecidableEq

/-- `struct ext2_directory_entry`, up to the name. -/
def directoryEntry : Layout EntryField where
  offset
    | .inode => 0
    | .recLen => 4
    | .nameLen => 6
    | .fileType => 7
  width
    | .inode => 4
    | .recLen => 2
    | _ => 1
  size := 8

/-- The inode of the entry at a position of a directory. -/
abbrev entryInode (bytes : Bytes) (p : ℕ) : ℕ := directoryEntry.get bytes p .inode

/-- The length of the record at a position. -/
abbrev recLen (bytes : Bytes) (p : ℕ) : ℕ := directoryEntry.get bytes p .recLen

/-- The length of the name in the record at a position. -/
abbrev nameLen (bytes : Bytes) (p : ℕ) : ℕ := directoryEntry.get bytes p .nameLen

/-! ### The partition -/

/-- `struct ext2_partition`: `sb` and `gd` are the memory that these pointers lead to. -/
structure Ext2Partition where
  backupBgs : ℕ → ℤ
  backupBgsCount : ℕ
  lba : ℕ
  groupNumber : ℕ
  sectorSize : ℕ
  bgdtBlock : ℕ
  sbBlock : ℕ
  flushRequired : Bool
  sb : Bytes
  gd : Bytes

/-- A partition with its disk. -/
structure Volume extends Ext2Partition where
  disk : Disk
  fresh : Bytes

namespace Volume

variable (v : Volume)

/-- A field of the superblock. -/
def sbGet (f : SuperblockField) : ℕ := superblock.get v.sb 0 f

/-- The state after a field of the superblock is written. -/
def sbSet (f : SuperblockField) (n : ℕ) : Volume :=
  { v with sb := superblock.set v.sb 0 f n }

/-- A field of the descriptor of group `g`. -/
def gdGet (g : ℕ) (f : GroupField) : ℕ := groupDescriptor.get v.gd (32 * g) f

/-- The state after a field of the descriptor of group `g` is written. -/
def gdSet (g : ℕ) (f : GroupField) (n : ℕ) : Volume :=
  { v with gd := groupDescriptor.set v.gd (32 * g) f n }

/-- Writing a field leaves every other field of the descriptors. -/
theorem gdGet_gdSet_of_ne (x : ℕ) {g g' : ℕ} {f f' : GroupField}
    (h : f' ≠ f ∨ g' ≠ g) : (v.gdSet g f x).gdGet g' f' = v.gdGet g' f' := by
  by_cases hg : g' = g
  · subst hg
    exact groupDescriptor.get_set_of_ne x (h.resolve_right (· rfl)).symm
  · refine groupDescriptor.get_set_of_apart x ?_
    change 32 * g + 32 ≤ 32 * g' ∨ 32 * g' + 32 ≤ 32 * g
    omega

/-- `ext2_flush_required`. -/
def requireFlush : Volume := { v with flushRequired := true }

/-- `1024 << s_log_block_size`. -/
def blockSize : ℕ := wrap32 (1024 <<< v.sbGet .logBlockSize)

theorem blockSize_lt : v.blockSize < 2 ^ 32 := Nat.mod_lt _ (by decide)

/-- The loop of `ext2_operate_on_bg` over the groups from `i` on, of which `n` are left: the first
group for which the callback answers other than 0. -/
def operateFrom (callback : Volume → ℕ → Volume × Bool) : ℕ → ℕ → Volume → Volume × Option ℕ
  | 0, _, v => (v, none)
  | n + 1, i, v =>
    if (callback v i).2 then ((callback v i).1, some i)
    else operateFrom callback n (i + 1) (callback v i).1

/-- `ext2_operate_on_bg`. -/
def operateOnBg (callback : Volume → ℕ → Volume × Bool) : Volume × Option ℕ :=
  operateFrom callback v.groupNumber 0 v

end Volume

end Bloodmoon
