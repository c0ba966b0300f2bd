import Bloodmoon.Machine.ByteMemory

/-!
# Disks of sectors

A disk is an array of bytes that is read and written in whole sectors. An operation can fail, and
then has no effect; which ones fail is a property of the disk. A disk is reliable when none does.
-/

namespace Machine

/-- A disk, with the operations that succeed on it. -/
structure Disk where
  sectorSize : ℕ
  bytes : Bytes
  readable : ℕ → ℕ → Bool
  writable : ℕ → ℕ → Bool

namespace Disk

/-- Read `count` sectors from `lba` on to the position `a` of a buffer. -/
def read (d : Disk) (lba count : ℕ) (buffer : Bytes) (a : ℕ) : Option Bytes :=
  if d.readable lba count then
    some (blit buffer a d.bytes (lba * d.sectorSize) (count * d.sectorSize))
  else none

/-- Write `count` sectors from `lba` on, from the position `a` of a buffer. -/
def write (d : Disk) (lba count : ℕ) (buffer : Bytes) (a : ℕ) : Option Disk :=
  if d.writable lba count then
    some { d with bytes := blit d.bytes (lba * d.sectorSize) buffer a (count * d.sectorSize) }
  else none

/-- Every operation succeeds. -/
structure Reliable (d : Disk) : Prop where
  readable : ∀ lba count, d.readable lba count = true
  writable : ∀ lba count, d.writable lba count = true

theorem Reliable.read_eq {d : Disk} (h : d.Reliable) (lba count : ℕ) (buffer : Bytes) (a : ℕ) :
    d.read lba count buffer a =
      some (blit buffer a d.bytes (lba * d.sectorSize) (count * d.sectorSize)) :=
  if_pos (h.readable lba count)

theorem Reliable.write_eq {d : Disk} (h : d.Reliable) (lba count : ℕ) (buffer : Bytes) (a : ℕ) :
    d.write lba count buffer a = some { d with
      bytes := blit d.bytes (lba * d.sectorSize) buffer a (count * d.sectorSize) } :=
  if_pos (h.writable lba count)

end Disk

end Machine
