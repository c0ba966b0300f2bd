import Bloodmoon.Ext2.Structs
import Bloodmoon.Machine.BlockTree
import Bloodmoon.Machine.Word

/-!
# Reading and writing the blocks of a file

The model of the transfers of `ext2_block.c`, with `ext2_read_inode`. The functions for direct,
indirect, double and triple indirect blocks are the walk of `Machine.treeBlocks` at four depths,
once for a device that reads into a buffer (`reader`) and once for one that writes to the disk
(`writer`).

The codes are those of the source. `EXT2_READ_FAILED` and `EXT2_WRITE_FAILED` are positive as
64-bit numbers, so that a test `<= 0` holds for the code 0 only.
-/

namespace Bloodmoon

open Machine

/-- `EXT2_READ_FAILED`. -/
def readFailed : ℕ := 0xFFFFFFFE

/-- `EXT2_WRITE_FAILED`. -/
def writeFailed : ℕ := 0xFFFFFFFD

namespace Volume

variable (v : Volume)

/-! ### Blocks -/

/-- The first sector of a block. -/
def blockSector (block : ℕ) : ℕ :=
  wrap32 (v.lba + wrap32 (block * v.blockSize) / v.sectorSize)

/-- The number of sectors of a block. -/
def blockSectors : ℕ := divideRoundedUp v.blockSize v.sectorSize

/-- `ext2_read_block`, to the position `a` of a buffer. -/
def readBlock (block : ℕ) (buffer : Bytes) (a : ℕ) : Bytes × ℕ :=
  if block > 0 then
    match v.disk.read (v.blockSector block) v.blockSectors buffer a with
    | none => (buffer, readFailed)
    | some buffer => (buffer, 1)
  else (buffer, 0)

/-- `ext2_write_block`, from the position `a` of a buffer. -/
def writeBlock (block : ℕ) (buffer : Bytes) (a : ℕ) : Volume × ℕ :=
  if block ≠ 0 then
    match v.disk.write (v.blockSector block) v.blockSectors buffer a with
    | none => (v, writeFailed)
    | some disk => ({ v with disk := disk }, 1)
  else (v, 0)

/-- The block numbers in an indirect block, read to a new buffer. -/
def readArray (block : ℕ) : Option (ℕ → ℕ) :=
  let r := v.readBlock block v.fresh 0
  if r.2 ≤ 0 then none else some fun i => loadLE r.1 (4 * i) 4

/-- The device that reads blocks to a buffer. -/
def reader : BlockIO Bytes where
  failed := readFailed
  entries := v.blockSize / 4
  size := v.blockSize
  table _ block := v.readArray block
  leaf buffer block pos := v.readBlock block buffer pos

/-- The device that writes blocks from a buffer. -/
def writer (source : Bytes) : BlockIO Volume where
  failed := writeFailed
  entries := v.blockSize / 4
  size := v.blockSize
  table v block := v.readArray block
  leaf v block pos := v.writeBlock block source pos

section Read

variable (blocks : ℕ → ℕ) (max : ℕ)

/-- `ext2_read_direct_blocks`. -/
def readDirectBlocks : ℕ → Bytes → ℕ → ℕ → Walk Bytes := treeBlocks v.reader 0 blocks max

/-- `ext2_read_indirect_blocks`. -/
def readIndirectBlocks : ℕ → Bytes → ℕ → ℕ → Walk Bytes := treeBlocks v.reader 1 blocks max

/-- `ext2_read_double_indirect_blocks`. -/
def readDoubleIndirectBlocks : ℕ → Bytes → ℕ → ℕ → Walk Bytes := treeBlocks v.reader 2 blocks max

/-- `ext2_read_triple_indirect_blocks`. -/
def readTripleIndirectBlocks : ℕ → Bytes → ℕ → ℕ → Walk Bytes := treeBlocks v.reader 3 blocks max

end Read

section Write

variable (source : Bytes) (blocks : ℕ → ℕ) (max : ℕ)

/-- `ext2_write_direct_blocks`. -/
def writeDirectBlocks : ℕ → Volume → ℕ → ℕ → Walk Volume :=
  treeBlocks (v.writer source) 0 blocks max

/-- `ext2_write_indirect_blocks`. -/
def writeIndirectBlocks : ℕ → Volume → ℕ → ℕ → Walk Volume :=
  treeBlocks (v.writer source) 1 blocks max

/-- `ext2_write_double_indirect_blocks`. -/
def writeDoubleIndirectBlocks : ℕ → Volume → ℕ → ℕ → Walk Volume :=
  treeBlocks (v.writer source) 2 blocks max

/-- `ext2_write_triple_indirect_blocks`. -/
def writeTripleIndirectBlocks : ℕ → Volume → ℕ → ℕ → Walk Volume :=
  treeBlocks (v.writer source) 3 blocks max

end Write

/-! ### Inodes -/

/-- The size of an inode on the disk. -/
def inodeSize : ℕ := if v.sbGet .revLevel < 1 then 128 else v.sbGet .inodeSize

variable (inodeNumber : ℕ)

/-- The group of an inode. -/
def inodeGroup : ℕ := wsub32 inodeNumber 1 / v.sbGet .inodesPerGroup

/-- The index of an inode in its group. -/
def inodeIndex : ℕ := wsub32 inodeNumber 1 % v.sbGet .inodesPerGroup

/-- The first sector of the block that holds an inode. -/
def inodeSector : ℕ :=
  let inodeBlock := wrap32 (v.inodeIndex inodeNumber * v.inodeSize) / v.blockSize
  let inodeTableBlock := v.gdGet (v.inodeGroup inodeNumber) .inodeTable
  let inodeTableLba := wrap32 (inodeTableBlock * v.blockSize) / v.sectorSize
  wrap32 (v.lba + inodeTableLba + inodeBlock * v.blockSectors)

/-- The offset of an inode in its block. -/
def inodeOffset : ℕ :=
  wrap32 (v.inodeIndex inodeNumber * v.inodeSize) % v.blockSize

/-- `ext2_read_inode`: the inode in a buffer of its own, nothing when the disk fails. -/
def readInode : Option Bytes := do
  let buffer ← v.disk.read (v.inodeSector inodeNumber) v.blockSectors v.fresh 0
  some (blit v.fresh 0 buffer (v.inodeOffset inodeNumber) v.inodeSize)

/-- `ext2_read_inode_blocks`. -/
def readInodeBlocks (buffer : Bytes) (pos count blocksSkip : ℕ) : Bytes × ℕ :=
  if count = 0 then (buffer, 0)
  else
    match v.readInode inodeNumber with
    | none => (buffer, readFailed)
    | some inode =>
      stageBlocks v.reader count
        [v.readDirectBlocks (iBlock inode) 12,
          v.readIndirectBlocks (fun i => iBlock inode (12 + i)) 1,
          v.readDoubleIndirectBlocks (fun i => iBlock inode (13 + i)) 1,
          v.readTripleIndirectBlocks (fun i => iBlock inode (14 + i)) 1]
        buffer pos blocksSkip 0

/-- `ext2_write_inode_blocks`. -/
def writeInodeBlocks (source : Bytes) (pos count blocksSkip : ℕ) : Volume × ℕ :=
  if count = 0 then (v, 0)
  else
    match v.readInode inodeNumber with
    | none => (v, writeFailed)
    | some inode =>
      stageBlocks (v.writer source) count
        [v.writeDirectBlocks source (iBlock inode) 12,
          v.writeIndirectBlocks source (fun i => iBlock inode (12 + i)) 1,
          v.writeDoubleIndirectBlocks source (fun i => iBlock inode (13 + i)) 1,
          v.writeTripleIndirectBlocks source (fun i => iBlock inode (14 + i)) 1]
        v pos blocksSkip 0

/-! ### Bytes -/

/-- The test `remaining_bytes > 0`, where the difference of the unsigned numbers is signed. -/
def Remains (count done : ℕ) : Prop := 0 < wsub count done ∧ wsub count done < 2 ^ 63

instance (count done : ℕ) : Decidable (Remains count done) := inferInstanceAs (Decidable (_ ∧ _))

theorem remains_iff {count done : ℕ} (hcount : count < 2 ^ 63) (hdone : done < 2 ^ 63) :
    Remains count done ↔ done < count := by
  rw [Remains]
  rcases Nat.lt_or_ge count done with hlt | hle
  · rw [wsub_of_lt hlt (by omega)]
    omega
  · rw [wsub_of_le hle (by omega)]
    omega

/-- The variables of `ext2_read_inode_bytes` between its stages: the buffer, how far the pointer to
it has been moved, `read_bytes` and `skip_blocks`. -/
structure ReadProgress where
  buffer : Bytes
  pos : ℕ
  bytes : ℕ
  block : ℕ

/-- The first stage: the rest of a block that is not read from its beginning. A failure leaves the
buffer. -/
def readHead (buffer : Bytes) (skip : ℕ) : Except Bytes ReadProgress :=
  let skipBytes := skip % v.blockSize
  if skipBytes = 0 then .ok ⟨buffer, 0, 0, skip / v.blockSize⟩
  else
    let temp := v.readInodeBlocks inodeNumber v.fresh 0 1 (skip / v.blockSize)
    if temp.2 ≠ 1 then .error buffer
    else .ok ⟨blit buffer 0 temp.1 skipBytes (v.blockSize - skipBytes), v.blockSize - skipBytes,
      v.blockSize - skipBytes, skip / v.blockSize + 1⟩

/-- The second stage: whole blocks. -/
def readMiddle (count : ℕ) (t : ReadProgress) : Except Bytes ReadProgress :=
  if Remains count t.bytes then
    let r := v.readInodeBlocks inodeNumber t.buffer t.pos
      (divideRoundedUp count v.blockSize - 1) t.block
    if r.2 = readFailed then .error r.1
    else .ok ⟨r.1, t.pos + r.2 * v.blockSize, t.bytes + r.2 * v.blockSize, t.block + r.2⟩
  else .ok t

/-- The third stage: the beginning of a block. -/
def readTail (count : ℕ) (t : ReadProgress) : Except Bytes ReadProgress :=
  if Remains count t.bytes then
    let temp := v.readInodeBlocks inodeNumber v.fresh 0 1 t.block
    if temp.2 ≠ 1 then .error t.buffer
    else .ok ⟨blit t.buffer t.pos temp.1 0 (count - t.bytes), t.pos, count, t.block⟩
  else .ok t

/-- `ext2_read_inode_bytes`. -/
def readInodeBytes (buffer : Bytes) (count skip : ℕ) : Bytes × ℕ :=
  match v.readHead inodeNumber buffer skip >>= v.readMiddle inodeNumber count >>=
    v.readTail inodeNumber count with
  | .error buffer => (buffer, readFailed)
  | .ok t => (t.buffer, t.bytes)

/-- The variables of `ext2_write_inode_bytes` between its stages: the partition, how far the
pointer to the source has been moved, `written_bytes` and `skip_blocks`. -/
structure WriteProgress where
  volume : Volume
  pos : ℕ
  bytes : ℕ
  block : ℕ

/-- A write that does not go on: the code is `EXT2_WRITE_FAILED`, or a copy has left its buffer
and the rest is undefined. -/
inductive WriteStop where
  | failed (v : Volume)
  | undefined

/-- The first stage: the rest of a block that is not written from its beginning. The block is read,
and as many bytes as are skipped in it are copied from the source. -/
def writeHead (source : Bytes) (skip : ℕ) : Except WriteStop WriteProgress :=
  let skipBytes := skip % v.blockSize
  if skipBytes = 0 then .ok ⟨v, 0, 0, skip / v.blockSize⟩
  else
    let temp := v.readInodeBlocks inodeNumber v.fresh 0 1 (skip / v.blockSize)
    if temp.2 ≠ 1 then .error (.failed v)
    else if v.blockSize < skipBytes + skipBytes then .error .undefined
    else
      let w := v.writeInodeBlocks inodeNumber (blit temp.1 skipBytes source 0 skipBytes) 0 1
        (skip / v.blockSize)
      if w.2 ≠ 1 then .error (.failed w.1)
      else .ok ⟨w.1, v.blockSize - skipBytes, v.blockSize - skipBytes, skip / v.blockSize + 1⟩

/-- The second stage: whole blocks. The pointer to the source stays where it is. -/
def writeMiddle (source : Bytes) (count : ℕ) (t : WriteProgress) : Except WriteStop WriteProgress :=
  if Remains count t.bytes then
    let w := t.volume.writeInodeBlocks inodeNumber source t.pos
      (divideRoundedUp count t.volume.blockSize - 1) t.block
    if w.2 = writeFailed then .error (.failed w.1)
    else .ok ⟨w.1, t.pos, t.bytes + w.2 * t.volume.blockSize, t.block + w.2⟩
  else .ok t

/-- The third stage: the beginning of a block. The source is read `written_bytes` after the pointer
to it. -/
def writeTail (source : Bytes) (count : ℕ) (t : WriteProgress) : Except WriteStop WriteProgress :=
  if Remains count t.bytes then
    let temp := t.volume.readInodeBlocks inodeNumber t.volume.fresh 0 1 t.block
    if temp.2 ≠ 1 then .error (.failed t.volume)
    else if t.volume.blockSize < count - t.bytes then .error .undefined
    else
      let w := t.volume.writeInodeBlocks inodeNumber
        (blit temp.1 0 source (t.pos + t.bytes) (count - t.bytes)) 0 1 t.block
      if w.2 ≠ 1 then .error (.failed w.1)
      else .ok ⟨w.1, t.pos, count, t.block⟩
  else .ok t

/-- `ext2_write_inode_bytes`; nothing when its behaviour is undefined. -/
def writeInodeBytes (source : Bytes) (count skip : ℕ) : Option (Volume × ℕ) :=
  match v.readInode inodeNumber with
  | none => some (v, writeFailed)
  | some _ =>
    match v.writeHead inodeNumber source skip >>= writeMiddle inodeNumber source count >>=
      writeTail inodeNumber source count with
    | .error (.failed v) => some (v, writeFailed)
    | .error .undefined => none
    | .ok t => some (t.volume, t.bytes)

end Volume

end Bloodmoon
