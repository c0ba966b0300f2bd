import Bloodmoon.Ext2.Write
import Bloodmoon.Machine.CString

/-!
# The disk driver below ext2

`ext2_read_block` and `ext2_write_block` with the layers below them: `read_disk` and `write_disk`
convert the sector and the count to `int`, `device_read` and `device_write` look for the device, and
`dd_disk_read` and `dd_disk_write` transfer one sector at a time through the port of the drive and
return how many they have transferred. A `Port` says which transfers of single sectors succeed, and
keeps the sectors it has been asked for.

The code takes every count other than zero for success, so a block of which only the first sector
has been transferred counts as read (`blockTransfer_iff`). The first sector is computed from a
product of 32 bits, which is the block's place only below 4 GiB (`blockSectors_iff`).
-/

namespace Bloodmoon

open Machine List Option

/-! ### One sector after the other -/

/-- The loop of `dd_disk_read` and `dd_disk_write` from `i` on, with `left` sectors to go: it ends
with the first transfer that fails, and returns the number of those before. -/
def transferFrom {σ : Type} (step : σ → ℕ → σ × Bool) : ℕ → ℕ → σ → σ × ℕ
  | 0, i, s => (s, i)
  | left + 1, i, s =>
    if (step s i).2 then transferFrom step left (i + 1) (step s i).1 else ((step s i).1, i)

/-- The sectors that are asked for when they are transferred in order: those up to the first one
that fails. -/
def attempted (ok : ℕ → Bool) : List ℕ → List ℕ
  | [] => []
  | x :: xs => x :: if ok x then attempted ok xs else []

theorem attempted_of_forall {ok : ℕ → Bool} {xs : List ℕ} (h : ∀ x ∈ xs, ok x = true) :
    attempted ok xs = xs := by
  induction xs with
  | nil => rfl
  | cons x xs ih =>
    rw [attempted, if_pos (h x mem_cons_self), ih (forall_mem_cons.1 h).2]

section Transfer

variable {σ : Type} (step : σ → ℕ → σ × Bool) (log : σ → List ℕ) (ok : ℕ → Bool) (sector : ℕ → ℕ)
  (P : σ → Prop)

/-- **What the loop does**, when each step asks for its sector and answers whether that one is
transferred. -/
theorem transferFrom_spec
    (hstep : ∀ s i, P s →
      P (step s i).1 ∧ log (step s i).1 = log s ++ [sector i] ∧ (step s i).2 = ok (sector i))
    (left i : ℕ) {s : σ} (hs : P s) :
    log (transferFrom step left i s).1 = log s ++ attempted ok ((List.range' i left).map sector) ∧
      (transferFrom step left i s).2 =
        i + (((List.range' i left).map sector).takeWhile ok).length := by
  induction left generalizing i s with
  | zero => exact ⟨(append_nil _).symm, rfl⟩
  | succ left ih =>
    obtain ⟨hP, hlog, hok⟩ := hstep s i hs
    rw [transferFrom, range'_succ, map_cons, attempted, takeWhile_cons, hok]
    by_cases htrue : ok (sector i) = true
    · obtain ⟨hlog', hcount⟩ := ih (i + 1) hP
      rw [if_pos htrue, if_pos htrue, if_pos htrue, hlog', hlog, append_assoc, length_cons]
      exact ⟨rfl, by omega⟩
    · rw [if_neg htrue, if_neg htrue, if_neg htrue, hlog]
      exact ⟨rfl, rfl⟩

/-- The loop goes through the states `after` when no transfer fails. -/
theorem transferFrom_of_ok {σ : Type} {step : σ → ℕ → σ × Bool} {left : ℕ} {s : σ} (after : ℕ → σ)
    (hstart : after 0 = s) (hstep : ∀ k < left, step (after k) k = (after (k + 1), true)) :
    transferFrom step left 0 s = (after left, left) := by
  have hgo : ∀ n k, k + n ≤ left → transferFrom step n k (after k) = (after (k + n), k + n) := by
    intro n
    induction n with
    | zero => exact fun _ _ => rfl
    | succ n ih =>
      intro k hk
      rw [transferFrom, hstep k (by omega), if_pos rfl, ih (k + 1) (by omega),
        Nat.succ_add_eq_add_succ]
  have hall := hgo left 0 (Nat.le_of_eq (Nat.zero_add _))
  rwa [hstart, Nat.zero_add] at hall

end Transfer

/-! ### The code -/

/-- A drive: the bytes of its sectors, the single-sector transfers that succeed, and the sectors it
has been asked for. -/
structure Port where
  bytes : Bytes
  readOk : ℕ → Bool
  writeOk : ℕ → Bool
  accessed : List ℕ

/-- `read_port` of one sector, with the copy of the port's buffer. -/
def Port.readPort (p : Port) (sector : ℕ) (buffer : Bytes) (a : ℕ) : (Port × Bytes) × Bool :=
  (({ p with accessed := p.accessed ++ [sector] },
    if p.readOk sector then blit buffer a p.bytes (512 * sector) 512 else buffer), p.readOk sector)

/-- `write_port` of one sector, with the copy to the port's buffer. -/
def Port.writePort (p : Port) (sector : ℕ) (buffer : Bytes) (a : ℕ) : Port × Bool :=
  ({ p with
    accessed := p.accessed ++ [sector]
    bytes := if p.writeOk sector then blit p.bytes (512 * sector) buffer a 512 else p.bytes },
    p.writeOk sector)

/-- `dd_disk_read`, to the position `a` of a buffer. -/
def ddDiskRead (p : Port) (size offset : ℕ) (buffer : Bytes) (a : ℕ) : (Port × Bytes) × ℕ :=
  transferFrom (fun s i => s.1.readPort (wrap (offset + i)) s.2 (a + 512 * i)) size 0 (p, buffer)

/-- `dd_disk_write`, from the position `a` of a buffer. -/
def ddDiskWrite (p : Port) (size offset : ℕ) (buffer : Bytes) (a : ℕ) : Port × ℕ :=
  transferFrom (fun p i => p.writePort (wrap (offset + i)) buffer (a + 512 * i)) size 0 p

/-- What the tables of drivers hold for a device: no driver, one without the operation, the driver
for disks, or a driver for something else. -/
inductive Driver where
  | unregistered
  | noOperation
  | ata (internalId : ℕ)
  | other

/-- `struct device`. -/
structure Device where
  name : Text
  driver : Driver

/-- The loop of `device_read` and `device_write`: the drive whose driver is called, if any. There is
no value when the loop does not end, as a device without a registered driver is looked at again and
again, or when the driver is not that for disks. -/
def findDrive (name : Text) : List Device → Option (Option ℕ)
  | [] => some none
  | d :: rest =>
    if name.isPrefixOf d.name then
      match d.driver with
      | .unregistered => none
      | .noOperation => findDrive name rest
      | .ata internalId => some (some (internalId % 256))
      | .other => none
    else findDrive name rest

/-- The devices, and the drives by their ports. -/
structure Drives where
  devices : List Device
  ports : ℕ → Port

/-- The drives after one of them has been used. -/
def Drives.set (s : Drives) (i : ℕ) (p : Port) : Drives :=
  { s with ports := Function.update s.ports i p }

@[simp]
theorem Drives.ports_set (s : Drives) (i : ℕ) (p : Port) : (s.set i p).ports i = p :=
  Function.update_self _ _ _

/-- `device_read`. -/
def deviceRead (s : Drives) (name : Text) (size offset : ℕ) (buffer : Bytes) (a : ℕ) :
    Option ((Drives × Bytes) × ℕ) :=
  (findDrive name s.devices).map fun
    | none => ((s, buffer), 0)
    | some i =>
      let r := ddDiskRead (s.ports i) size offset buffer a
      ((s.set i r.1.1, r.1.2), r.2)

/-- `device_write`. -/
def deviceWrite (s : Drives) (name : Text) (size offset : ℕ) (buffer : Bytes) (a : ℕ) :
    Option (Drives × ℕ) :=
  (findDrive name s.devices).map fun
    | none => (s, 0)
    | some i =>
      let r := ddDiskWrite (s.ports i) size offset buffer a
      (s.set i r.1, r.2)

/-- An `int` with the given bits, converted to `uint64_t`. -/
def signExtend (n : ℕ) : ℕ := if n < 2 ^ 31 then n else n + (2 ^ 64 - 2 ^ 32)

/-- `read_disk`; the result is an `int`. -/
def readDisk (s : Drives) (drive : Text) (buffer : Bytes) (a sector count : ℕ) :
    Option ((Drives × Bytes) × ℕ) :=
  (deviceRead s drive (signExtend count) (signExtend sector) buffer a).map fun r =>
    (r.1, wrap32 r.2)

/-- `write_disk`. -/
def writeDisk (s : Drives) (drive : Text) (buffer : Bytes) (a sector count : ℕ) :
    Option (Drives × ℕ) :=
  (deviceWrite s drive (signExtend count) (signExtend sector) buffer a).map fun r =>
    (r.1, wrap32 r.2)

namespace Volume

/-- `ext2_read_block` of a partition on the given drive. -/
def readBlockOn (v : Volume) (s : Drives) (drive : Text) (block : ℕ) (buffer : Bytes) (a : ℕ) :
    Option ((Drives × Bytes) × ℕ) :=
  if block > 0 then
    (readDisk s drive buffer a (v.blockSector block) v.blockSectors).map fun r =>
      (r.1, if r.2 = 0 then readFailed else 1)
  else some ((s, buffer), 0)

/-- `ext2_write_block` of a partition on the given drive. -/
def writeBlockOn (v : Volume) (s : Drives) (drive : Text) (block : ℕ) (buffer : Bytes) (a : ℕ) :
    Option (Drives × ℕ) :=
  if block ≠ 0 then
    (writeDisk s drive buffer a (v.blockSector block) v.blockSectors).map fun r =>
      (r.1, if r.2 = 0 then writeFailed else 1)
  else some (s, 0)

/-- The sectors of a block as the driver counts them. -/
def driverSectors (v : Volume) (block : ℕ) : List ℕ :=
  (List.range' 0 v.blockSectors).map fun i => wrap (signExtend (v.blockSector block) + i)

end Volume

/-! ### What a call asks the drive for -/

variable {v : Volume} {s : Drives} {drive : Text} {i block a : ℕ} {buffer : Bytes}

theorem ddDiskRead_spec (p : Port) (size offset : ℕ) (buffer : Bytes) (a : ℕ) :
    (ddDiskRead p size offset buffer a).1.1.accessed =
        p.accessed ++ attempted p.readOk ((List.range' 0 size).map fun i => wrap (offset + i)) ∧
      (ddDiskRead p size offset buffer a).2 =
        (((List.range' 0 size).map fun i => wrap (offset + i)).takeWhile p.readOk).length := by
  have hspec := transferFrom_spec
    (fun (s : Port × Bytes) i => s.1.readPort (wrap (offset + i)) s.2 (a + 512 * i))
    (fun s => s.1.accessed) p.readOk (fun i => wrap (offset + i)) (fun s => s.1.readOk = p.readOk)
    (fun s i hs => ⟨hs, rfl, congrFun hs _⟩) size 0 (s := (p, buffer)) rfl
  rwa [Nat.zero_add] at hspec

theorem ddDiskWrite_spec (p : Port) (size offset : ℕ) (buffer : Bytes) (a : ℕ) :
    (ddDiskWrite p size offset buffer a).1.accessed =
        p.accessed ++ attempted p.writeOk ((List.range' 0 size).map fun i => wrap (offset + i)) ∧
      (ddDiskWrite p size offset buffer a).2 =
        (((List.range' 0 size).map fun i => wrap (offset + i)).takeWhile p.writeOk).length := by
  have hspec := transferFrom_spec
    (fun (q : Port) i => q.writePort (wrap (offset + i)) buffer (a + 512 * i))
    Port.accessed p.writeOk (fun i => wrap (offset + i)) (fun q => q.writeOk = p.writeOk)
    (fun q i hq => ⟨hq, rfl, congrFun hq _⟩) size 0 (s := p) rfl
  rwa [Nat.zero_add] at hspec

namespace Volume

/-- What a transfer of a block asks the drive `i` for, and the code it ends with. -/
structure BlockAccess (v : Volume) (block i : ℕ) (ok : ℕ → Bool) (s s' : Drives) (code : ℕ) :
    Prop where
  accessed : (s'.ports i).accessed = (s.ports i).accessed ++ attempted ok (v.driverSectors block)
  code_eq_one : code = 1 ↔ ∃ x ∈ (v.driverSectors block).head?, ok x = true

/-- The number of sectors of a block is a positive `int`, or zero. -/
theorem blockSectors_lt (hsector : v.sectorSize = 512) : v.blockSectors < 2 ^ 31 := by
  have hlt := v.blockSize_lt
  rw [blockSectors, divideRoundedUp, hsector]
  split_ifs <;> omega

/-- A count that is truncated to an `int` tells whether the first sector has been transferred. -/
theorem wrap32_length_takeWhile (ok : ℕ → Bool) {xs : List ℕ} (hlt : xs.length < 2 ^ 31) :
    wrap32 (xs.takeWhile ok).length ≠ 0 ↔ ∃ x ∈ xs.head?, ok x = true := by
  have hle := (List.takeWhile_prefix ok (l := xs)).length_le
  rw [wrap32_of_lt (by omega), ne_eq]
  cases xs with
  | nil => simp
  | cons x xs => simp [takeWhile_cons]

/-- A code that is 1 unless the count is zero. -/
theorem ite_eq_right_iff_ne {n failed : ℕ} (h : failed ≠ 1) :
    (if n = 0 then failed else 1) = 1 ↔ n ≠ 0 := by
  split_ifs with hzero
  · exact iff_of_false h fun hne => hne hzero
  · exact iff_of_true rfl hzero

theorem length_driverSectors (v : Volume) (block : ℕ) :
    (v.driverSectors block).length = v.blockSectors := by
  rw [driverSectors, length_map, length_range']

/-- A call that asks for the sectors in order and returns whether one was transferred. -/
theorem BlockAccess.of_spec (hsector : v.sectorSize = 512) {ok : ℕ → Bool} {s' : Drives}
    {count failed : ℕ} (hfailed : failed ≠ 1)
    (hspec : (s'.ports i).accessed = (s.ports i).accessed ++ attempted ok (v.driverSectors block) ∧
      count = ((v.driverSectors block).takeWhile ok).length) :
    v.BlockAccess block i ok s s' (if wrap32 count = 0 then failed else 1) where
  accessed := hspec.1
  code_eq_one := by
    rw [← wrap32_length_takeWhile _ (by rw [length_driverSectors]; exact blockSectors_lt hsector),
      ← hspec.2]
    exact ite_eq_right_iff_ne hfailed

section Access

variable (hsector : v.sectorSize = 512) (hdrive : findDrive drive s.devices = some (some i))
  (hblock : 0 < block)

include hsector hdrive hblock

theorem readBlockOn_access (buffer : Bytes) (a : ℕ) :
    ∃ s' buffer' code, v.readBlockOn s drive block buffer a = some ((s', buffer'), code) ∧
      v.BlockAccess block i (s.ports i).readOk s s' code := by
  have hspec := ddDiskRead_spec (s.ports i) v.blockSectors
    (signExtend (v.blockSector block)) buffer a
  rw [readBlockOn, if_pos hblock, readDisk, deviceRead, hdrive, signExtend,
    if_pos (blockSectors_lt hsector)]
  exact ⟨_, _, _, rfl, .of_spec hsector (by decide) (by rwa [Drives.ports_set])⟩

theorem writeBlockOn_access (buffer : Bytes) (a : ℕ) :
    ∃ s' code, v.writeBlockOn s drive block buffer a = some (s', code) ∧
      v.BlockAccess block i (s.ports i).writeOk s s' code := by
  have hspec := ddDiskWrite_spec (s.ports i) v.blockSectors
    (signExtend (v.blockSector block)) buffer a
  rw [writeBlockOn, if_pos (Nat.ne_of_gt hblock), writeDisk, deviceWrite, hdrive, signExtend,
    if_pos (blockSectors_lt hsector)]
  exact ⟨_, _, rfl, .of_spec hsector (by decide) (by rwa [Drives.ports_set])⟩

end Access

/-! ### A drive without failures is a disk -/

/-- Sectors that are all read are copied as one range. -/
theorem ddDiskRead_eq (p : Port) {size offset : ℕ} (hlt : offset + size ≤ 2 ^ 64)
    (hok : ∀ k < size, p.readOk (offset + k) = true) (buffer : Bytes) (a : ℕ) :
    ddDiskRead p size offset buffer a =
      (({ p with accessed := p.accessed ++ List.range' offset size },
        blit buffer a p.bytes (512 * offset) (512 * size)), size) := by
  rw [ddDiskRead]
  refine transferFrom_of_ok (fun k => ({ p with accessed := p.accessed ++ List.range' offset k },
    blit buffer a p.bytes (512 * offset) (512 * k))) ?_ fun k hk => ?_
  · simp
  rw [wrap_of_lt (by omega), Port.readPort]
  simp only [hok k hk, if_true]
  rw [append_assoc, ← range'_1_concat, Nat.mul_add 512 offset, blit_append, Nat.mul_succ]

/-- Sectors that are all written are copied as one range. -/
theorem ddDiskWrite_eq (p : Port) {size offset : ℕ} (hlt : offset + size ≤ 2 ^ 64)
    (hok : ∀ k < size, p.writeOk (offset + k) = true) (buffer : Bytes) (a : ℕ) :
    ddDiskWrite p size offset buffer a =
      ({ p with
        accessed := p.accessed ++ List.range' offset size
        bytes := blit p.bytes (512 * offset) buffer a (512 * size) }, size) := by
  rw [ddDiskWrite]
  refine transferFrom_of_ok (fun k => { p with
    accessed := p.accessed ++ List.range' offset k
    bytes := blit p.bytes (512 * offset) buffer a (512 * k) }) ?_ fun k hk => ?_
  · simp
  rw [wrap_of_lt (by omega), Port.writePort]
  simp only [hok k hk, if_true]
  rw [append_assoc, ← range'_1_concat, Nat.mul_add 512 offset, blit_append, Nat.mul_succ]

section Refines

variable (h : v.Sound) (hblock : v.InRange block)
  (hend : v.blockSector block + v.blockSectors ≤ 2 ^ 31)
  (hdrive : findDrive drive s.devices = some (some i)) (hbytes : v.disk.bytes = (s.ports i).bytes)

include h hblock hend

/-- The first sector and the number of sectors, as the driver is given them. -/
theorem signExtend_sectors :
    signExtend (v.blockSector block) = v.blockSector block ∧
      signExtend v.blockSectors = v.blockSectors ∧
      512 * v.blockSector block = v.blockAddr block ∧ 512 * v.blockSectors = v.blockSize ∧
      wrap32 v.blockSectors ≠ 0 := by
  obtain ⟨k, hk, hsize⟩ := h.exists_blockSize
  have hmul := h.blockSectors_mul
  have haddr := h.blockSector_mul hblock
  rw [h.diskSectorSize] at hmul haddr
  have hlt := blockSectors_lt h.sectorSize
  refine ⟨if_pos (by omega), if_pos hlt, by omega, by omega, ?_⟩
  rw [wrap32_of_lt (by omega)]
  omega

include hdrive hbytes

/-- **The abstract disk is the drive as long as no transfer fails**: reading a block. -/
theorem readBlockOn_eq_readBlock
    (hok : ∀ k < v.blockSectors, (s.ports i).readOk (v.blockSector block + k) = true) :
    (v.readBlockOn s drive block buffer a).map (fun r => (r.1.2, r.2)) =
      some (v.readBlock block buffer a) := by
  obtain ⟨hsector, hcount, haddr, hmul, hne⟩ := signExtend_sectors h hblock hend
  have hrun := ddDiskRead_eq (s.ports i) (by omega) hok buffer a
  rw [readBlockOn, if_pos hblock.pos, readDisk, deviceRead, hdrive, hsector, hcount]
  simp only [map_some, hrun, h.readBlock_eq hblock, hbytes, haddr, hmul, if_neg hne]

/-- Writing a block. -/
theorem writeBlockOn_eq_writeBlock
    (hok : ∀ k < v.blockSectors, (s.ports i).writeOk (v.blockSector block + k) = true) :
    (v.writeBlockOn s drive block buffer a).map (fun r => ((r.1.ports i).bytes, r.2)) =
      some ((v.writeBlock block buffer a).1.disk.bytes, (v.writeBlock block buffer a).2) := by
  obtain ⟨hsector, hcount, haddr, hmul, hne⟩ := signExtend_sectors h hblock hend
  have hrun := ddDiskWrite_eq (s.ports i) (by omega) hok buffer a
  rw [writeBlockOn, if_pos (Nat.ne_of_gt hblock.pos), writeDisk, deviceWrite, hdrive, hsector,
    hcount]
  simp only [map_some, hrun, h.writeBlock_eq hblock, withBytes, hbytes, Drives.ports_set,
    haddr, hmul, if_neg hne]

end Refines

/-- A drive that holds `oneFile`. -/
def oneFileDrive : Drives where
  devices := [⟨[0x68], .ata 0⟩]
  ports _ := ⟨oneFile.disk.bytes, fun _ => true, fun _ => true, []⟩

theorem readBlockOn_oneFile :
    (oneFile.readBlockOn oneFileDrive [0x68] 6 (fun _ => 0) 0).map (fun r => (r.1.2, r.2)) =
      some (oneFile.readBlock 6 (fun _ => 0) 0) :=
  readBlockOn_eq_readBlock oneFile_sound ⟨by decide, by decide, by decide⟩ (by decide) rfl rfl
    fun _ _ => rfl

theorem writeBlockOn_oneFile :
    (oneFile.writeBlockOn oneFileDrive [0x68] 6 (fun _ => 0) 0).map
        (fun r => ((r.1.ports 0).bytes, r.2)) =
      some ((oneFile.writeBlock 6 (fun _ => 0) 0).1.disk.bytes,
        (oneFile.writeBlock 6 (fun _ => 0) 0).2) :=
  writeBlockOn_eq_writeBlock oneFile_sound ⟨by decide, by decide, by decide⟩ (by decide) rfl rfl
    fun _ _ => rfl

/-! ### Failing transfers -/

/-- Every sector of the block has been asked for between the two states, and transferred. -/
def AllTransferred (v : Volume) (block i : ℕ) (ok : ℕ → Bool) (s s' : Drives) : Prop :=
  ∀ x ∈ v.driverSectors block, ok x = true ∧
    x ∈ (s'.ports i).accessed.drop (s.ports i).accessed.length

/-- The first transfer fails, or none does. -/
def FirstFailsOrNone (ok : ℕ → Bool) (xs : List ℕ) : Prop :=
  (∃ x ∈ xs.head?, ok x = false) ∨ ∀ x ∈ xs, ok x = true

theorem BlockAccess.allTransferred_iff {ok : ℕ → Bool} {s' : Drives} {code : ℕ}
    (h : v.BlockAccess block i ok s s' code) :
    (code = 1 → v.AllTransferred block i ok s s') ↔
      FirstFailsOrNone ok (v.driverSectors block) := by
  rw [h.code_eq_one]
  constructor
  · intro hall
    rcases hfirst : (v.driverSectors block).head? with _ | x
    · rw [head?_eq_none_iff.mp hfirst]
      exact .inr fun x hx => absurd hx not_mem_nil
    · cases hok : ok x with
      | false => exact .inl ⟨x, hfirst, hok⟩
      | true => exact .inr fun y hy => (hall ⟨x, hfirst, hok⟩ y hy).1
  · rintro (⟨x, hx, hfails⟩ | hall) ⟨y, hy, hok⟩
    · rw [mem_unique hx hy, hok] at hfails
      exact absurd hfails (by decide)
    · intro z hz
      rw [h.accessed, drop_left, attempted_of_forall hall]
      exact ⟨hall z hz, hz⟩

/-- **When success means that the whole block was transferred**: a call for a block returns 1 only
after all its sectors exactly if the first transfer fails or none does. -/
theorem blockTransfer_iff (hsector : v.sectorSize = 512)
    (hdrive : findDrive drive s.devices = some (some i)) (hblock : 0 < block) (buffer : Bytes)
    (a : ℕ) :
    ((∃ s' buffer' code, v.readBlockOn s drive block buffer a = some ((s', buffer'), code) ∧
        (code = 1 → v.AllTransferred block i (s.ports i).readOk s s')) ↔
      FirstFailsOrNone (s.ports i).readOk (v.driverSectors block)) ∧
    ((∃ s' code, v.writeBlockOn s drive block buffer a = some (s', code) ∧
        (code = 1 → v.AllTransferred block i (s.ports i).writeOk s s')) ↔
      FirstFailsOrNone (s.ports i).writeOk (v.driverSectors block)) := by
  constructor
  · obtain ⟨s', buffer', code, hread, haccess⟩ := readBlockOn_access hsector hdrive hblock buffer a
    rw [← haccess.allTransferred_iff, hread]
    constructor
    · rintro ⟨_, _, _, heq, hall⟩
      cases heq
      exact hall
    · exact fun hall => ⟨_, _, _, rfl, hall⟩
  · obtain ⟨s', code, hwrite, haccess⟩ := writeBlockOn_access hsector hdrive hblock buffer a
    rw [← haccess.allTransferred_iff, hwrite]
    constructor
    · rintro ⟨_, _, heq, hall⟩
      cases heq
      exact hall
    · exact fun hall => ⟨_, _, rfl, hall⟩

/-- The name of the first disk. -/
def hda : Text := [0x68#8, 0x64#8, 0x61#8]

/-- One disk, on which the given transfers succeed. -/
def oneDrive (readOk writeOk : ℕ → Bool) : Drives where
  devices := [⟨hda, .ata 0⟩]
  ports _ := ⟨fun _ => 0, readOk, writeOk, []⟩

/-- On a disk without failures success means that both sectors of block 1 were transferred. -/
theorem blockTransfer_oneDrive :
    (∃ s' buffer' code, oneFile.readBlockOn (oneDrive (fun _ => true) fun _ => true) hda 1
        (fun _ => 0) 0 = some ((s', buffer'), code) ∧
      (code = 1 → oneFile.AllTransferred 1 0 (fun _ => true)
        (oneDrive (fun _ => true) fun _ => true) s')) ∧
    ∃ s' code, oneFile.writeBlockOn (oneDrive (fun _ => true) fun _ => true) hda 1 (fun _ => 0) 0 =
        some (s', code) ∧
      (code = 1 → oneFile.AllTransferred 1 0 (fun _ => true)
        (oneDrive (fun _ => true) fun _ => true) s') := by
  have hboth := @blockTransfer_iff oneFile (oneDrive (fun _ => true) fun _ => true) hda 0 1 rfl rfl
    Nat.one_pos (fun _ => 0) 0
  exact ⟨hboth.1.mpr (.inr fun _ _ => rfl), hboth.2.mpr (.inr fun _ _ => rfl)⟩

/-- A drive that fails on sector 3 only: `ext2_read_block` of block 1, the sectors 2 and 3, returns
1, and so does `ext2_write_block`. -/
theorem blockTransfer_secondSector :
    3 ∈ oneFile.driverSectors 1 ∧
    (∃ s' buffer', oneFile.readBlockOn (oneDrive (· != 3) (· != 3)) hda 1 (fun _ => 0) 0 =
        some ((s', buffer'), 1) ∧
      ¬ oneFile.AllTransferred 1 0 (· != 3) (oneDrive (· != 3) (· != 3)) s') ∧
    ∃ s', oneFile.writeBlockOn (oneDrive (· != 3) (· != 3)) hda 1 (fun _ => 0) 0 = some (s', 1) ∧
      ¬ oneFile.AllTransferred 1 0 (· != 3) (oneDrive (· != 3) (· != 3)) s' := by
  have hmem : 3 ∈ oneFile.driverSectors 1 := by decide +kernel
  have hnot : ∀ s', ¬ oneFile.AllTransferred 1 0 (· != 3) (oneDrive (· != 3) (· != 3)) s' :=
    fun s' hall => absurd (hall 3 hmem).1 (by decide)
  have hread : (oneFile.readBlockOn (oneDrive (· != 3) (· != 3)) hda 1 (fun _ => 0) 0).map
      Prod.snd = some 1 := by
    decide +kernel
  have hwrite : (oneFile.writeBlockOn (oneDrive (· != 3) (· != 3)) hda 1 (fun _ => 0) 0).map
      Prod.snd = some 1 := by
    decide +kernel
  obtain ⟨⟨⟨s', buffer'⟩, code⟩, hread, rfl⟩ := map_eq_some_iff.mp hread
  obtain ⟨⟨s'', code'⟩, hwrite, rfl⟩ := map_eq_some_iff.mp hwrite
  exact ⟨hmem, ⟨s', buffer', hread, hnot s'⟩, s'', hwrite, hnot s''⟩

/-! ### The sectors of a block -/

/-- The sectors of a block, in unbounded integers. -/
def sectorsOf (v : Volume) (block : ℕ) : List ℕ :=
  List.range' (v.lba + block * (v.blockSize / 512)) (v.blockSize / 512)

/-- Reading and writing the block ask the drive for its sectors, in order up to the first that
fails, and for no others. -/
def AccessesExactly (v : Volume) (s : Drives) (drive : Text) (i block : ℕ) (buffer : Bytes)
    (a : ℕ) : Prop :=
  (∃ s' buffer' code, v.readBlockOn s drive block buffer a = some ((s', buffer'), code) ∧
    (s'.ports i).accessed =
      (s.ports i).accessed ++ attempted (s.ports i).readOk (v.sectorsOf block)) ∧
  ∃ s' code, v.writeBlockOn s drive block buffer a = some (s', code) ∧
    (s'.ports i).accessed =
      (s.ports i).accessed ++ attempted (s.ports i).writeOk (v.sectorsOf block)

/-- A block size up to 4096 is a power of two times 1024. -/
theorem exists_blockSize_of_le (hlog : v.sbGet .logBlockSize ≤ 2) :
    ∃ k, 0 < k ∧ k ≤ 4 ∧ v.blockSize = 512 * (2 * k) := by
  rw [blockSize]
  generalize v.sbGet .logBlockSize = n at hlog ⊢
  obtain rfl | rfl | rfl : n = 0 ∨ n = 1 ∨ n = 2 := by omega
  · exact ⟨1, by decide⟩
  · exact ⟨2, by decide⟩
  · exact ⟨4, by decide⟩

theorem mul_blockSize_div (hlog : v.sbGet .logBlockSize ≤ 2) (block : ℕ) :
    block * v.blockSize / 512 = block * (v.blockSize / 512) := by
  obtain ⟨k, -, -, hsize⟩ := exists_blockSize_of_le hlog
  rw [hsize, Nat.mul_div_cancel_left _ (by decide), Nat.mul_left_comm,
    Nat.mul_div_cancel_left _ (by decide)]

section Place

variable (hsector : v.sectorSize = 512) (hlog : v.sbGet .logBlockSize ≤ 2)
  (hend : v.lba + v.sbGet .blocksCount * (v.blockSize / 512) ≤ 2 ^ 31)
  (hlt : block < v.sbGet .blocksCount)

include hsector hlog hend hlt

/-- The first sector that the code computes. -/
theorem signExtend_blockSector :
    signExtend (v.blockSector block) = v.lba + block * v.blockSize % 2 ^ 32 / 512 := by
  obtain ⟨k, hk, hk4, hsize⟩ := exists_blockSize_of_le hlog
  have hblock := region_le (v.blockSize / 512) hlt
  have hdiv := mul_blockSize_div hlog block
  rw [blockSector, hsector, wrap32, wrap32, Nat.mod_eq_of_lt (by omega), signExtend,
    if_pos (by omega)]

theorem driverSectors_eq : v.driverSectors block =
    List.range' (v.lba + block * v.blockSize % 2 ^ 32 / 512) (v.blockSize / 512) := by
  obtain ⟨k, hk, hk4, hsize⟩ := exists_blockSize_of_le hlog
  have hsectors : v.blockSectors = v.blockSize / 512 := by
    rw [blockSectors, divideRoundedUp, hsector, if_neg (by omega)]
  have hstart := signExtend_blockSector hsector hlog hend hlt
  rw [driverSectors, hsectors, ← hstart]
  refine Eq.trans (map_congr_left fun j hj => ?_) (map_add_range' ..)
  obtain ⟨m, hm, rfl⟩ := mem_range'.mp hj
  exact wrap_of_lt (by omega)

theorem driverSectors_eq_iff :
    (v.driverSectors block).head? = (v.sectorsOf block).head? ↔ block * v.blockSize < 2 ^ 32 := by
  obtain ⟨k, hk, hk4, hsize⟩ := exists_blockSize_of_le hlog
  have hdiv := mul_blockSize_div hlog block
  obtain ⟨n, hn⟩ : ∃ n, v.blockSize / 512 = n + 1 := ⟨v.blockSize / 512 - 1, by omega⟩
  rw [driverSectors_eq hsector hlog hend hlt, sectorsOf, ← hdiv, hn, range'_succ,
    range'_succ, head?_cons, head?_cons, Option.some_inj]
  constructor
  · intro heq
    omega
  · intro hsmall
    rw [Nat.mod_eq_of_lt hsmall]

theorem driverSectors_eq_sectorsOf (hsmall : block * v.blockSize < 2 ^ 32) :
    v.driverSectors block = v.sectorsOf block := by
  rw [driverSectors_eq hsector hlog hend hlt, sectorsOf, Nat.mod_eq_of_lt hsmall,
    mul_blockSize_div hlog]

/-- What is accessed begins with the first sector that the code computes. -/
theorem attempted_eq_iff (ok : ℕ → Bool) :
    attempted ok (v.driverSectors block) = attempted ok (v.sectorsOf block) ↔
      block * v.blockSize < 2 ^ 32 := by
  have hhead : ∀ xs : List ℕ, (attempted ok xs).head? = xs.head? := by
    rintro (_ | ⟨x, xs⟩) <;> rfl
  constructor
  · intro heq
    rw [← driverSectors_eq_iff hsector hlog hend hlt, ← hhead, heq, hhead]
  · intro hsmall
    rw [driverSectors_eq_sectorsOf hsector hlog hend hlt hsmall]

end Place

/-- The sectors of different blocks are different. -/
theorem sectorsOf_disjoint {block' : ℕ} (hne : block ≠ block') :
    List.Disjoint (v.sectorsOf block) (v.sectorsOf block') := by
  intro x hx hx'
  obtain ⟨j, hj, rfl⟩ := mem_range'.mp hx
  obtain ⟨j', hj', heq⟩ := mem_range'.mp hx'
  rcases Nat.lt_or_gt_of_ne hne with hlt | hlt
  · have := region_le (v.blockSize / 512) hlt
    omega
  · have := region_le (v.blockSize / 512) hlt
    omega

/-- **When a block is where it should be**: the sectors that are accessed for a block are those of
the block exactly if the block begins below 4 GiB, and for two such blocks they are different. -/
theorem blockSectors_iff (hsector : v.sectorSize = 512) (hlog : v.sbGet .logBlockSize ≤ 2)
    (hend : v.lba + v.sbGet .blocksCount * (v.blockSize / 512) ≤ 2 ^ 31)
    (hdrive : findDrive drive s.devices = some (some i)) :
    (∀ block, 0 < block → block < v.sbGet .blocksCount → ∀ buffer a,
      (v.AccessesExactly s drive i block buffer a ↔ block * v.blockSize < 2 ^ 32)) ∧
    ∀ block block', block < v.sbGet .blocksCount → block' < v.sbGet .blocksCount →
      block * v.blockSize < 2 ^ 32 → block' * v.blockSize < 2 ^ 32 → block ≠ block' →
        List.Disjoint (v.driverSectors block) (v.driverSectors block') := by
  constructor
  · intro block hpos hlt buffer a
    obtain ⟨s', buffer', code, hread, haccess⟩ := readBlockOn_access hsector hdrive hpos buffer a
    obtain ⟨s'', code', hwrite, haccess'⟩ := writeBlockOn_access hsector hdrive hpos buffer a
    have hiff := attempted_eq_iff hsector hlog hend hlt
    constructor
    · rintro ⟨⟨_, _, _, heq, hexact⟩, -⟩
      rw [hread] at heq
      cases heq
      rw [haccess.accessed] at hexact
      exact (hiff _).mp (append_cancel_left hexact)
    · intro hsmall
      refine ⟨⟨_, _, _, hread, ?_⟩, _, _, hwrite, ?_⟩
      · rw [haccess.accessed, (hiff _).mpr hsmall]
      · rw [haccess'.accessed, (hiff _).mpr hsmall]
  · intro block block' hlt hlt' hsmall hsmall' hne
    rw [driverSectors_eq_sectorsOf hsector hlog hend hlt hsmall,
      driverSectors_eq_sectorsOf hsector hlog hend hlt' hsmall']
    exact sectorsOf_disjoint hne

/-- A partition at sector 2048, with blocks of 4096 bytes. -/
def bigPartition (blocksCount : ℕ) : Volume :=
  { oneFile with
    lba := 2048
    sb := superblock.set (superblock.set (fun _ => 0) 0 .logBlockSize 2) 0
      .blocksCount blocksCount }

/-- Block 1 of a partition of two blocks is where it should be. -/
theorem blockSectors_firstBlock :
    (bigPartition 2).AccessesExactly (oneDrive (fun _ => true) fun _ => true) hda 0 1 (fun _ => 0)
      0 := by
  have hboth := @blockSectors_iff (bigPartition 2) (oneDrive (fun _ => true) fun _ => true) hda 0
    rfl (by decide) (by decide) rfl
  exact (hboth.1 1 Nat.one_pos (by decide) (fun _ => 0) 0).mpr (by decide)

/-- In a partition of a little more than 4 GiB, block `2 ^ 20 + 1` is read from the sectors of
block 1. -/
theorem blockSectors_overlap :
    2048 + (bigPartition (2 ^ 20 + 2)).sbGet .blocksCount * 8 ≤ 2 ^ 31 ∧
      2 ^ 20 + 1 < (bigPartition (2 ^ 20 + 2)).sbGet .blocksCount ∧
      (bigPartition (2 ^ 20 + 2)).driverSectors 1 =
        (bigPartition (2 ^ 20 + 2)).driverSectors (2 ^ 20 + 1) ∧
      ∃ s' buffer' code, (bigPartition (2 ^ 20 + 2)).readBlockOn
          (oneDrive (fun _ => true) fun _ => true) hda (2 ^ 20 + 1) (fun _ => 0) 0 =
            some ((s', buffer'), code) ∧
        (s'.ports 0).accessed = (bigPartition (2 ^ 20 + 2)).sectorsOf 1 := by
  have hrun : ((bigPartition (2 ^ 20 + 2)).readBlockOn (oneDrive (fun _ => true) fun _ => true) hda
      (2 ^ 20 + 1) (fun _ => 0) 0).map (fun r => (r.1.1.ports 0).accessed) =
        some ((bigPartition (2 ^ 20 + 2)).sectorsOf 1) := by
    decide +kernel
  obtain ⟨⟨⟨s', buffer'⟩, code⟩, hread, haccessed⟩ := map_eq_some_iff.mp hrun
  exact ⟨by decide, by decide, by decide +kernel, s', buffer', code, hread, haccessed⟩

end Volume

end Bloodmoon
