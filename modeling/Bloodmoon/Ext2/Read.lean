import Bloodmoon.Ext2.Blocks

/-!
# Reading the bytes of a file

A file is the bytes of its blocks, in order (`Volume.fileBytes`). `ext2_read_inode_blocks` copies
whole blocks of it to the buffer, as long as the first one is among the twelve direct blocks; a
walk that has to skip all twelve ends there with nothing read. `ext2_read_inode_bytes` puts three
such copies together, and the number of whole blocks in the middle is computed from the count
alone, without the bytes that the first copy has already brought.
-/

namespace Bloodmoon

open Machine

namespace Volume

/-! ### Volumes whose blocks can be addressed -/

/-- The disk is reliable, its sectors have 512 bytes, as the driver reports, and the size of a block
is a 32-bit number. -/
structure Sound (v : Volume) : Prop where
  reliable : v.disk.Reliable
  sectorSize : v.sectorSize = 512
  diskSectorSize : v.disk.sectorSize = 512
  logBlockSize : v.sbGet .logBlockSize < 22

/-- The address of a block on the disk. -/
def blockAddr (v : Volume) (block : ℕ) : ℕ := v.lba * 512 + block * v.blockSize

/-- The block is not the first one, its offset in the partition has 32 bits, and its sector is an
`int`, as `read_disk` and `write_disk` take it. -/
structure InRange (v : Volume) (block : ℕ) : Prop where
  pos : 0 < block
  offset_lt : block * v.blockSize < 2 ^ 32
  sector_lt : v.lba + block * v.blockSize / 512 < 2 ^ 31

namespace Sound

variable {v : Volume} {b : ℕ}

/-- The block size is a multiple of 1024. -/
theorem exists_blockSize (h : v.Sound) : ∃ k, 0 < k ∧ v.blockSize = 1024 * k := by
  have hpow : 2 ^ v.sbGet .logBlockSize ≤ 2 ^ 21 :=
    Nat.pow_le_pow_right (by decide) (Nat.le_of_lt_succ h.logBlockSize)
  refine ⟨2 ^ v.sbGet .logBlockSize, Nat.pow_pos (by decide), ?_⟩
  rw [blockSize, Nat.shiftLeft_eq, wrap32_of_lt (by omega)]

theorem le_blockSize (h : v.Sound) : 1024 ≤ v.blockSize := by
  obtain ⟨k, hpos, hk⟩ := h.exists_blockSize
  omega

/-- A table has at least one entry. -/
theorem entries_pos (h : v.Sound) : 0 < v.blockSize / 4 := by
  have := h.le_blockSize
  omega

theorem blockSize_pos (h : v.Sound) : 0 < v.blockSize :=
  Nat.lt_of_lt_of_le (by decide) h.le_blockSize

theorem blockSectors_mul (h : v.Sound) : v.blockSectors * v.disk.sectorSize = v.blockSize := by
  obtain ⟨k, -, hk⟩ := h.exists_blockSize
  rw [blockSectors, divideRoundedUp, h.sectorSize, h.diskSectorSize, if_neg (by omega)]
  omega

theorem blockSector_mul (h : v.Sound) (hb : v.InRange b) :
    v.blockSector b * v.disk.sectorSize = v.blockAddr b := by
  obtain ⟨k, -, hk⟩ := h.exists_blockSize
  have hdvd : b * v.blockSize / 512 * 512 = b * v.blockSize :=
    Nat.div_mul_cancel (Nat.dvd_mul_left_of_dvd ⟨2 * k, by omega⟩ b)
  rw [blockSector, h.sectorSize, h.diskSectorSize, wrap32_of_lt hb.offset_lt,
    wrap32_of_lt (hb.sector_lt.trans (by decide)), blockAddr, Nat.add_mul, hdvd]

/-- `ext2_read_block` copies the block. -/
theorem readBlock_eq (h : v.Sound) (hb : v.InRange b) (buffer : Bytes) (a : ℕ) :
    v.readBlock b buffer a = (blit buffer a v.disk.bytes (v.blockAddr b) v.blockSize, 1) := by
  rw [readBlock, if_pos hb.pos, h.reliable.read_eq, h.blockSector_mul hb, h.blockSectors_mul]

end Sound

/-! ### The bytes of a file -/

/-- The block numbers that a block of the disk holds. -/
def diskArray (v : Volume) (block i : ℕ) : ℕ := loadLE v.disk.bytes (v.blockAddr block + 4 * i) 4

/-- The trees of the block numbers of an inode. -/
def inodeStages (inode : Bytes) : List Stage :=
  [⟨0, iBlock inode, 12⟩, ⟨1, fun i => iBlock inode (12 + i), 1⟩,
    ⟨2, fun i => iBlock inode (13 + i), 1⟩, ⟨3, fun i => iBlock inode (14 + i), 1⟩]

/-- The block with index `j` of a file. -/
def fileBlock (v : Volume) (inode : Bytes) (j : ℕ) : ℕ :=
  stagesBlock v.diskArray (v.blockSize / 4) (inodeStages inode) j

/-- The bytes of a file. -/
def fileBytes (v : Volume) (inode : Bytes) : Bytes :=
  fun x => v.disk.bytes (v.blockAddr (v.fileBlock inode (x / v.blockSize)) + x % v.blockSize)

/-- The file has no hole: the blocks of its first `i_size` bytes, and the indirect blocks on the
way to them, are in range. -/
def NoHole (v : Volume) (inode : Bytes) : Prop :=
  ∀ j, j * v.blockSize < iSize inode →
    StagesIn v.diskArray (v.blockSize / 4) v.InRange v.InRange (inodeStages inode) j

/-! ### Blocks -/

section Blocks

variable {v : Volume} {inode : Bytes} {n pos count skip : ℕ} {buffer : Bytes}

/-- The array that the code reads from a block, which is the one on the disk as far as the block
goes. -/
def bufferArray (v : Volume) (block i : ℕ) : ℕ :=
  loadLE (blit v.fresh 0 v.disk.bytes (v.blockAddr block) v.blockSize) (4 * i) 4

theorem bufferArray_eq (v : Volume) (block : ℕ) {i : ℕ} (hi : i < v.blockSize / 4) :
    v.bufferArray block i = v.diskArray block i := by
  refine loadLE_eq_of_shift fun k hk => ?_
  rw [blit_apply_of_mem (Nat.zero_le _) (by omega), Nat.sub_zero, Nat.add_assoc]

/-- The reader copies the blocks that are in range. -/
theorem Sound.reader_serves (h : v.Sound) :
    v.reader.Serves v.bufferArray
      (fun buffer b pos => blit buffer pos v.disk.bytes (v.blockAddr b) v.blockSize)
      (fun _ => True) v.InRange v.InRange where
  entries_pos := h.entries_pos
  one_lt_failed := show 1 < readFailed by decide
  table _ b _ hb := by
    change v.readArray b = _
    rw [readArray, h.readBlock_eq hb]
    rfl
  leaf buffer b pos _ hb := h.readBlock_eq hb buffer pos
  keep _ _ _ _ _ := trivial

/-- Copies of blocks one after the other. -/
theorem transfer_blit (src : Bytes) (addr : ℕ → ℕ) {size : ℕ} (hsize : 0 < size) (f : ℕ → ℕ)
    (n : ℕ) (buffer : Bytes) (pos : ℕ) :
    transfer (fun buffer b pos => blit buffer pos src (addr b) size) size f n buffer pos =
      blit buffer pos (fun x => src (addr (f (x / size)) + x % size)) 0 (n * size) := by
  induction n generalizing f buffer pos with
  | zero => rw [transfer, Nat.zero_mul, blit_zero]
  | succ n ih =>
    have hfirst : blit buffer pos src (addr (f 0)) size =
        blit buffer pos (fun x => src (addr (f (x / size)) + x % size)) 0 size :=
      blit_shift _ _ fun x hx => by
        rw [Nat.zero_add, Nat.div_eq_of_lt hx, Nat.mod_eq_of_lt hx]
    rw [transfer, ih, hfirst, Nat.succ_mul, Nat.add_comm (n * size), ← blit_append]
    refine blit_shift _ _ fun x _ => ?_
    rw [Nat.zero_add, Nat.zero_add, Nat.add_div_left _ hsize, Nat.add_mod_left]

/-- **`ext2_read_inode_blocks` copies blocks of the file**, when the first one is direct. -/
theorem Sound.readInodeBlocks_eq (h : v.Sound) (hinode : v.readInode n = some inode)
    (hskip : skip < 12) (hpos : 0 < count) (hlt : count < readFailed)
    (hfile : ∀ j < count,
      StagesIn v.diskArray (v.blockSize / 4) v.InRange v.InRange (inodeStages inode) (skip + j)) :
    v.readInodeBlocks n buffer pos count skip =
      (blit buffer pos (v.fileBytes inode) (skip * v.blockSize) (count * v.blockSize),
        count) := by
  have hsize := h.blockSize_pos
  have hcongr : ∀ j < count,
      StagesIn v.bufferArray (v.blockSize / 4) v.InRange v.InRange (inodeStages inode) (skip + j) ∧
        stagesBlock v.bufferArray (v.blockSize / 4) (inodeStages inode) (skip + j) =
          v.fileBlock inode (skip + j) :=
    fun j hj => (hfile j hj).congr fun b _ i hi => v.bufferArray_eq b hi
  have hwalk : stageBlocks v.reader count ((inodeStages inode).map (Stage.walk v.reader)) buffer
      pos skip 0 = _ :=
    h.reader_serves.stageBlocks_eq_of_lt pos (by simp) trivial hpos hlt hskip
      fun j hj => (hcongr j hj).1
  simp only [readInodeBlocks, hinode, Nat.ne_of_gt hpos]
  refine hwalk.trans (congrArg (·, count) ?_)
  change transfer _ v.blockSize (fun j =>
    stagesBlock v.bufferArray (v.blockSize / 4) (inodeStages inode) (skip + j)) _ _ _ = _
  rw [transfer_congr fun j hj => (hcongr j hj).2, transfer_blit _ _ hsize]
  refine blit_shift _ _ fun x _ => ?_
  rw [Nat.zero_add, fileBytes, Nat.add_comm (skip * v.blockSize), Nat.add_mul_div_right _ _ hsize,
    Nat.add_mul_mod_self_right, Nat.add_comm _ skip]

/-- Nothing is read when all direct blocks are to be skipped. -/
theorem readInodeBlocks_of_le (hinode : v.readInode n = some inode) (hskip : 12 ≤ skip) :
    v.readInodeBlocks n buffer pos count skip = (buffer, 0) := by
  simp only [readInodeBlocks, hinode]
  split_ifs with hzero
  · rfl
  · exact BlockIO.Serves.stageBlocks_of_le (inodeStages inode).tail hskip

end Blocks

/-! ### Bytes -/

/-- A number as whole parts and a last one that is not empty, as `DIVIDE_ROUNDED_UP` counts them. -/
theorem exists_divideRoundedUp {x y : ℕ} (hx : 0 < x) (hy : 0 < y) :
    ∃ q c, x = q * y + c ∧ 0 < c ∧ c ≤ y ∧ divideRoundedUp x y = q + 1 := by
  have hdiv := Nat.div_add_mod' (x - 1) y
  have hmod := Nat.mod_lt (x - 1) hy
  refine ⟨(x - 1) / y, (x - 1) % y + 1, by omega, by omega, by omega, ?_⟩
  have hup : (x + y - 1) / y = (x - 1) / y + 1 := by
    rw [← Nat.add_div_right _ hy]
    congr 1
    omega
  unfold divideRoundedUp
  split_ifs with hrest
  · exact hup
  · obtain ⟨k, rfl⟩ := Nat.dvd_of_mod_eq_zero (not_not.1 hrest)
    rw [← hup, show y * k + y - 1 = y - 1 + y * k by omega, Nat.add_mul_div_left _ _ hy,
      (Nat.div_eq_of_lt (by omega) : (y - 1) / y = 0), Nat.zero_add, Nat.mul_div_cancel_left _ hy]

/-- Where parts end that begin inside of one. -/
theorem add_mod_eq_zero_iff {size s c : ℕ} (b q : ℕ) (hs : s < size) (hc : 0 < c)
    (hcs : c ≤ size) : (b * size + s + (q * size + c)) % size = 0 ↔ s + c = size := by
  rw [show b * size + s + (q * size + c) = s + c + (b + q) * size by rw [Nat.add_mul]; omega,
    Nat.add_mul_mod_self_right]
  rcases Nat.lt_or_ge (s + c) size with hlt | hge
  · rw [Nat.mod_eq_of_lt hlt]
    omega
  · rw [Nat.mod_eq_sub_mod hge, Nat.mod_eq_of_lt (by omega)]
    omega

/-- The number of bytes that `ext2_read_inode_bytes` stores for a file without holes, and whether
it returns their number. -/
def readExtent (size count skip : ℕ) : ℕ × Bool :=
  if skip % size ≠ 0 ∧ 12 ≤ skip / size then (0, false)
  else
    let head := if skip % size = 0 then 0 else size - skip % size
    let block := if skip % size = 0 then skip / size else skip / size + 1
    if count ≤ head then (head, true)
    else
      let whole := if 12 ≤ block then 0 else divideRoundedUp count size - 1
      if count ≤ head + whole * size then (head + whole * size, true)
      else if block + whole < 12 then (count, true)
      else (head + whole * size, false)

/-- The ranges that are read as they should be. -/
def ReadRange (size count skip : ℕ) : Prop :=
  (skip + count ≤ 12 * size ∧
    (skip % size = 0 ∨ divideRoundedUp count size * size ≤ count + skip % size)) ∨
  (skip % size ≠ 0 ∧ (skip + count) % size = 0 ∧ skip < 11 * size)

theorem readExtent_eq_iff {size count skip : ℕ} (hcount : 0 < count) (hsize : 0 < size) :
    readExtent size count skip = (count, true) ↔ ReadRange size count skip := by
  -- `skip` is `b` blocks and `s` bytes, and `count` is `q` blocks and a last one of `c` bytes
  obtain ⟨b, s, rfl, hs, hdiv, hmod⟩ : ∃ b s, skip = b * size + s ∧ s < size ∧
      skip / size = b ∧ skip % size = s :=
    ⟨_, _, (Nat.div_add_mod' skip size).symm, Nat.mod_lt _ hsize, rfl, rfl⟩
  obtain ⟨q, c, rfl, hc, hcs, hup⟩ := exists_divideRoundedUp hcount hsize
  have hend := add_mod_eq_zero_iff b q hs hc hcs
  have hmul : ∀ {x y}, x ≤ y → x * size ≤ y * size := fun h => Nat.mul_le_mul_right size h
  have hsum : (b + q) * size = b * size + q * size := Nat.add_mul b q size
  have hwhole : q * size < size → q * size = 0 := by
    intro hlt
    have hq : q = 0 := by
      by_contra hq
      have := hmul (Nat.one_le_iff_ne_zero.2 hq)
      omega
    rw [hq, Nat.zero_mul]
  unfold readExtent ReadRange
  simp only [hdiv, hmod, hup, Nat.add_sub_cancel, Nat.add_mul q 1]
  by_cases hs0 : s = 0
  · -- no head: the whole blocks start at `b`, and the last one is block `b + q`
    subst hs0
    rcases Nat.lt_or_ge (b + q) 12 with hq | hq
    · have := hmul (show b + q ≤ 11 by omega)
      simp [show ¬ 12 ≤ b by omega, show ¬ c = 0 by omega]
      omega
    · have := hmul hq
      rcases Nat.lt_or_ge b 12 with hb | hb
      · simp [show ¬ 12 ≤ b by omega, show ¬ c = 0 by omega]
        omega
      · simp only [hb, ne_eq, not_true_eq_false, false_and, or_false, if_false, if_true]
        rw [if_neg (by omega), if_neg (by omega), if_neg (by omega)]
        simp only [Prod.mk.injEq]
        omega
  · simp only [hs0, if_false, false_or]
    rcases Nat.lt_trichotomy b 11 with hb | rfl | hb
    · have := hmul (show b ≤ 10 by omega)
      rw [if_neg (by omega), if_neg (by omega : ¬ 12 ≤ b + 1)]
      by_cases hhead : q * size + c ≤ size - s
      · rw [if_pos hhead]
        simp only [Prod.mk.injEq, and_true]
        omega
      rw [if_neg hhead]
      by_cases hlast : c ≤ size - s
      · rw [if_pos (by omega)]
        simp only [Prod.mk.injEq, and_true]
        omega
      rw [if_neg (by omega)]
      rcases Nat.lt_or_ge (b + 1 + q) 12 with hq | hq
      · have := hmul (show b + q ≤ 10 by omega)
        rw [if_pos hq]
        simp only [true_iff]
        omega
      · have := hmul (show 11 ≤ b + q by omega)
        rw [if_neg (by omega)]
        simp only [Prod.mk.injEq]
        omega
    · rw [if_neg (by omega), if_pos (by omega : 12 ≤ 11 + 1)]
      by_cases hhead : q * size + c ≤ size - s
      · rw [if_pos hhead]
        simp only [Prod.mk.injEq, and_true]
        omega
      · rw [if_neg hhead, if_neg (by omega), if_neg (by omega)]
        simp only [Prod.mk.injEq]
        omega
    · have := hmul (show 12 ≤ b by omega)
      rw [if_pos (by omega)]
      simp only [Prod.mk.injEq]
      omega

section Bytes

variable {v : Volume} {inode buffer : Bytes} {n count skip : ℕ}

/-- Blocks whose last one begins below the size of the file begin below it. -/
theorem block_lt_of_end_lt {size b k j bs : ℕ} (hend : (b + k) * bs < size + bs) (hj : j < k) :
    (b + j) * bs < size := by
  have := region_le bs (Nat.add_lt_add_left hj b)
  omega

/-- A file has fewer blocks than the codes of failure. -/
theorem Sound.blocks_lt (h : v.Sound) {b k : ℕ}
    (hend : (b + k) * v.blockSize < iSize inode + v.blockSize) :
    k < 2 ^ 24 := by
  have hsize := h.le_blockSize
  have hlt := inodeSize_lt inode
  have hbs := v.blockSize_lt
  have hkm : k * 1024 ≤ k * v.blockSize := Nat.mul_le_mul_left k (by omega)
  rw [Nat.add_mul] at hend
  omega

/-- Blocks of the file that begin below its size are read. -/
theorem Sound.readBlocks_eq (h : v.Sound) (hinode : v.readInode n = some inode)
    (hfile : v.NoHole inode) (buffer : Bytes) (pos : ℕ) {b k : ℕ} (hb : b < 12) (hk : 0 < k)
    (hend : (b + k) * v.blockSize < iSize inode + v.blockSize) :
    v.readInodeBlocks n buffer pos k b =
      (blit buffer pos (v.fileBytes inode) (b * v.blockSize) (k * v.blockSize), k) :=
  h.readInodeBlocks_eq hinode hb hk (Nat.lt_trans (h.blocks_lt hend) (by decide))
    fun _ hj => hfile _ (block_lt_of_end_lt hend hj)

/-- What has been copied when the next block is `t.block`: the bytes from `skip` up to it. -/
structure Copied (v : Volume) (inode buffer : Bytes) (skip : ℕ) (t : ReadProgress) : Prop where
  buffer_eq : t.buffer = blit buffer 0 (v.fileBytes inode) skip t.bytes
  pos_eq : t.pos = t.bytes
  block_eq : skip + t.bytes = t.block * v.blockSize

section

variable (h : v.Sound) (hinode : v.readInode n = some inode) (hfile : v.NoHole inode)

include h hinode hfile

/-- The first stage copies the rest of the block that `skip` is in. -/
theorem Sound.readHead_eq (buffer : Bytes) (hskip : skip < iSize inode) :
    if skip % v.blockSize ≠ 0 ∧ 12 ≤ skip / v.blockSize then
      v.readHead n buffer skip = .error buffer
    else
      ∃ t, v.readHead n buffer skip = .ok t ∧ v.Copied inode buffer skip t ∧
        t.bytes = (if skip % v.blockSize = 0 then 0 else v.blockSize - skip % v.blockSize) ∧
        t.block =
          if skip % v.blockSize = 0 then skip / v.blockSize else skip / v.blockSize + 1 := by
  have hmod := Nat.mod_lt skip h.blockSize_pos
  have hskip_eq := Nat.div_add_mod' skip v.blockSize
  by_cases hs : skip % v.blockSize = 0
  · simp only [readHead, hs]
    refine ⟨_, rfl, ⟨(blit_zero _ _ _ _).symm, rfl, ?_⟩, rfl, rfl⟩
    change skip + 0 = skip / v.blockSize * v.blockSize
    omega
  by_cases hb : 12 ≤ skip / v.blockSize
  · rw [if_pos ⟨hs, hb⟩, readHead]
    simp only [hs, if_false, readInodeBlocks_of_le hinode hb, ne_eq, Nat.zero_ne_one,
      not_false_eq_true, if_true]
  · have hread := h.readBlocks_eq hinode hfile v.fresh 0 (Nat.not_le.1 hb) Nat.one_pos
      (by rw [Nat.add_mul]; omega)
    simp only [readHead, hs, hb, hread, and_false]
    refine ⟨_, rfl, ⟨?_, rfl, ?_⟩, rfl, rfl⟩
    · rw [blit_blit _ _ _ _ _ (by omega), hskip_eq]
    · change skip + (v.blockSize - skip % v.blockSize) = (skip / v.blockSize + 1) * v.blockSize
      rw [Nat.add_mul]
      omega

/-- The second stage copies as many blocks as the count has whole ones, unless it starts after the
direct blocks. -/
theorem Sound.readMiddle_eq (hend : skip + count ≤ iSize inode)
    {t : ReadProgress} (ht : v.Copied inode buffer skip t) (hlt : t.bytes < count)
    (hhead : t.bytes < v.blockSize) :
    ∃ t', v.readMiddle n count t = .ok t' ∧ v.Copied inode buffer skip t' ∧
      t'.bytes = t.bytes + (if 12 ≤ t.block then 0 else divideRoundedUp count v.blockSize - 1) *
        v.blockSize ∧
      t'.block =
        t.block + if 12 ≤ t.block then 0 else divideRoundedUp count v.blockSize - 1 := by
  have hsize := h.le_blockSize
  have hlt32 := inodeSize_lt inode
  obtain ⟨q, c, hq, hc, hcs, hup⟩ :=
    exists_divideRoundedUp (show 0 < count by omega) h.blockSize_pos
  have hstep : v.readInodeBlocks n t.buffer t.pos q t.block =
      (blit t.buffer t.pos (v.fileBytes inode) (t.block * v.blockSize)
        ((if 12 ≤ t.block then 0 else q) * v.blockSize), if 12 ≤ t.block then 0 else q) := by
    split_ifs with hb
    · rw [readInodeBlocks_of_le hinode hb, Nat.zero_mul, blit_zero]
    · rcases Nat.eq_zero_or_pos q with rfl | hqpos
      · rw [Nat.zero_mul, blit_zero, readInodeBlocks, if_pos rfl]
      · refine h.readBlocks_eq hinode hfile _ _ (Nat.not_le.1 hb) hqpos ?_
        rw [Nat.add_mul, ← ht.block_eq]
        omega
  have hremains : Remains count t.bytes := (remains_iff (by omega) (by omega)).2 hlt
  rw [readMiddle, if_pos hremains, hup, Nat.add_sub_cancel, hstep]
  have hle : (if 12 ≤ t.block then 0 else q) ≤ q := by split_ifs <;> omega
  generalize (if 12 ≤ t.block then 0 else q) = whole at hle ⊢
  have hfailed : whole ≠ readFailed := by
    have := Nat.mul_le_mul_left q (show 2 ≤ v.blockSize by omega)
    unfold readFailed
    omega
  refine ⟨_, if_neg hfailed, ⟨?_, ?_, ?_⟩, rfl, rfl⟩
  · rw [ht.buffer_eq, ht.pos_eq, ← ht.block_eq]
    convert blit_append buffer 0 (v.fileBytes inode) skip t.bytes (whole * v.blockSize) using 2
    omega
  · rw [ht.pos_eq]
  · rw [Nat.add_mul, ← ht.block_eq, Nat.add_assoc]

/-- The third stage copies what is left from the next block, if that is a direct one. -/
theorem Sound.readTail_eq (hend : skip + count ≤ iSize inode)
    {t : ReadProgress} (ht : v.Copied inode buffer skip t) (hlt : t.bytes < count)
    (hrest : t.block < 12 → count ≤ t.bytes + v.blockSize) :
    v.readTail n count t =
      if t.block < 12 then
        .ok ⟨blit buffer 0 (v.fileBytes inode) skip count, t.pos, count, t.block⟩
      else .error (blit buffer 0 (v.fileBytes inode) skip t.bytes) := by
  have hlt32 := inodeSize_lt inode
  have hremains : Remains count t.bytes := (remains_iff (by omega) (by omega)).2 hlt
  rw [readTail, if_pos hremains]
  by_cases hb : t.block < 12
  · have hread := h.readBlocks_eq hinode hfile v.fresh 0 hb Nat.one_pos
      (by rw [Nat.add_mul, ← ht.block_eq]; omega)
    simp only [hb, if_true, hread, ne_eq, not_true_eq_false, if_false]
    have hjoin := blit_append buffer 0 (v.fileBytes inode) skip t.bytes (count - t.bytes)
    rw [Nat.zero_add, Nat.add_sub_cancel' (Nat.le_of_lt hlt)] at hjoin
    rw [blit_blit _ _ _ _ _ (by omega), ht.buffer_eq, ht.pos_eq, Nat.add_zero, ← ht.block_eq, hjoin]
  · rw [readInodeBlocks_of_le hinode (by omega), if_neg hb, ht.buffer_eq]
    rfl

/-- **What `ext2_read_inode_bytes` does**, whatever the range: it copies the bytes of `readExtent`
and no others. -/
theorem Sound.readInodeBytes_eq (hcount : 0 < count) (hend : skip + count ≤ iSize inode) :
    v.readInodeBytes n buffer count skip =
      (blit buffer 0 (v.fileBytes inode) skip (readExtent v.blockSize count skip).1,
        if (readExtent v.blockSize count skip).2 then (readExtent v.blockSize count skip).1
        else readFailed) := by
  have hlt32 := inodeSize_lt inode
  have hbs := v.blockSize_lt
  have hhead := h.readHead_eq hinode hfile buffer (show skip < _ by omega)
  obtain ⟨r, hr⟩ : ∃ r, readExtent v.blockSize count skip = r := ⟨_, rfl⟩
  rw [hr, readInodeBytes]
  rw [readExtent] at hr
  by_cases hfail : skip % v.blockSize ≠ 0 ∧ 12 ≤ skip / v.blockSize
  · rw [if_pos hfail] at hhead hr
    rw [hhead, ← hr]
    rfl
  rw [if_neg hfail] at hhead hr
  obtain ⟨t, hhead, ht, hbytes, hblock⟩ := hhead
  have hmod := Nat.mod_lt skip h.blockSize_pos
  have hlt : t.bytes < v.blockSize := by
    rw [hbytes]
    split_ifs <;> omega
  simp only [← hbytes, ← hblock] at hr
  rw [hhead, ok_bind]
  by_cases hdone : count ≤ t.bytes
  · -- the head is all that was asked for
    rw [if_pos hdone] at hr
    have hdone : ¬ Remains count t.bytes := by
      rw [remains_iff (by omega) (by omega)]
      omega
    rw [readMiddle, if_neg hdone, ok_bind, readTail, if_neg hdone, ← hr]
    simp only [ht.buffer_eq, if_true]
  rw [if_neg hdone] at hr
  obtain ⟨t', hmiddle, ht', hbytes', hblock'⟩ := h.readMiddle_eq hinode hfile hend ht (by omega) hlt
  have hlt' : t'.bytes < v.blockSize + count := by
    obtain ⟨q, c, hq, hc, hcs, hup⟩ := exists_divideRoundedUp hcount h.blockSize_pos
    rw [hbytes', hup, Nat.add_sub_cancel]
    split_ifs <;> omega
  rw [← hbytes', ← hblock'] at hr
  rw [hmiddle, ok_bind]
  by_cases hdone' : count ≤ t'.bytes
  · rw [if_pos hdone'] at hr
    have hdone : ¬ Remains count t'.bytes := by
      rw [remains_iff (by omega) (by omega)]
      omega
    rw [readTail, if_neg hdone, ← hr]
    simp only [ht'.buffer_eq, if_true]
  rw [if_neg hdone'] at hr
  rw [h.readTail_eq hinode hfile hend ht' (by omega) ?_]
  · by_cases hb : t'.block < 12
    · rw [if_pos hb] at hr ⊢
      rw [← hr]
      rfl
    · rw [if_neg hb] at hr ⊢
      rw [← hr]
      rfl
  · intro hb
    obtain ⟨q, c, hq, hc, hcs, hup⟩ := exists_divideRoundedUp hcount h.blockSize_pos
    rw [hup, Nat.add_sub_cancel] at hbytes' hblock'
    rw [if_neg (by intro h12; omega)] at hbytes'
    omega

end

/-- When `ext2_read_inode_bytes` fails, the last byte that was asked for has not been read. -/
theorem readExtent_lt (hcount : 0 < count) {size : ℕ} (h : (readExtent size count skip).2 = false) :
    (readExtent size count skip).1 < count := by
  revert h
  simp only [readExtent]
  generalize (if skip % size = 0 then 0 else size - skip % size) = head
  generalize (if skip % size = 0 then skip / size else skip / size + 1) = block
  generalize (if 12 ≤ block then 0 else divideRoundedUp count size - 1) = whole
  split_ifs with hfail hhead hmiddle htail
  · exact fun _ => hcount
  · exact False.elim
  · exact False.elim
  · exact False.elim
  · exact fun _ => Nat.not_le.1 hmiddle

/-- The call reads as it should: it returns the count, the buffer holds the bytes of the file from
`skip` on, and nothing else in it has changed. -/
def ReadsBytes (v : Volume) (n : ℕ) (inode buffer : Bytes) (count skip : ℕ) : Prop :=
  (v.readInodeBytes n buffer count skip).2 = count ∧
    (∀ x < count, (v.readInodeBytes n buffer count skip).1 x = v.fileBytes inode (skip + x)) ∧
    ∀ x, count ≤ x → (v.readInodeBytes n buffer count skip).1 x = buffer x

/-- **`ext2_read_inode_bytes` reads what was asked for exactly on the ranges of `ReadRange`**: those
that end among the direct blocks and whose whole blocks are not counted once more after a head, and
those that begin inside of a block before the last direct one and end with a block. -/
theorem readInodeBytes_iff (h : v.Sound) (hinode : v.readInode n = some inode)
    (hfile : v.NoHole inode) (hcount : 1 ≤ count)
    (hend : skip + count ≤ iSize inode) :
    (∀ buffer, v.ReadsBytes n inode buffer count skip) ↔ ReadRange v.blockSize count skip := by
  rw [← readExtent_eq_iff hcount h.blockSize_pos]
  unfold ReadsBytes
  simp only [h.readInodeBytes_eq hinode hfile hcount hend]
  obtain ⟨r, hr⟩ : ∃ r, readExtent v.blockSize count skip = r := ⟨_, rfl⟩
  have hlt := @readExtent_lt count skip hcount v.blockSize
  simp only [hr] at hlt ⊢
  constructor
  · intro hall
    cases hok : r.2 with
    | true =>
      have hcode := (hall (fun _ => 0)).1
      rw [hok] at hcode
      exact Prod.ext hcode hok
    | false =>
      -- a buffer whose last byte is not the one of the file
      have hbytes := (hall fun _ => v.fileBytes inode (skip + (count - 1)) + 1).2.1 (count - 1)
        (by omega)
      rw [blit_apply_of_outside (.inr (by have := hlt hok; omega))] at hbytes
      exact absurd hbytes (by simp)
  · rintro rfl buffer
    refine ⟨rfl, fun x hx => ?_, fun x hx => ?_⟩
    · rw [blit_apply_of_mem (Nat.zero_le x) (by omega), Nat.sub_zero]
    · rw [blit_apply_of_outside (.inr (by omega))]

end Bytes

/-- A volume with blocks of 1024 bytes: the inode table is block 5, and inode 1 is a file of 1024
bytes in block 6. -/
def oneFile : Volume where
  backupBgs _ := 0
  backupBgsCount := 1
  lba := 0
  groupNumber := 1
  sectorSize := 512
  bgdtBlock := 2
  sbBlock := 1
  flushRequired := false
  sb x := if x = 40 then 8 else 0
  gd x := if x = 8 then 5 else 0
  disk :=
    { sectorSize := 512
      bytes := fun x =>
        if x = 5125 then 4 else if x = 5160 then 6 else if x < 6144 then 0 else BitVec.ofNat 8 x
      readable := fun _ _ => true
      writable := fun _ _ => true }
  fresh _ := 0

/-- Inode 1 of `oneFile`. -/
def oneFileInode : Bytes :=
  blit oneFile.fresh 0 (blit oneFile.fresh 0 oneFile.disk.bytes 5120 1024) 0 128

theorem oneFile_blockSize : oneFile.blockSize = 1024 := by decide

theorem oneFile_sound : oneFile.Sound := ⟨⟨fun _ _ => rfl, fun _ _ => rfl⟩, rfl, rfl, by decide⟩

theorem oneFile_readInode : oneFile.readInode 1 = some oneFileInode := rfl

theorem oneFileInode_size : iSize oneFileInode = 1024 := by decide +kernel

theorem oneFile_noHole : oneFile.NoHole oneFileInode := by
  intro j hj
  rw [oneFileInode_size, oneFile_blockSize] at hj
  obtain rfl : j = 0 := by omega
  change oneFile.InRange (iBlock oneFileInode 0)
  exact ⟨by decide, by decide, by decide⟩

/-- The whole file is read. -/
theorem readInodeBytes_oneFile :
    oneFile.Sound ∧ oneFile.readInode 1 = some oneFileInode ∧ oneFile.NoHole oneFileInode ∧
      0 + 1024 ≤ iSize oneFileInode ∧
      ∀ buffer, oneFile.ReadsBytes 1 oneFileInode buffer 1024 0 := by
  have hsize : 0 + 1024 ≤ iSize oneFileInode := Nat.le_of_eq oneFileInode_size.symm
  refine ⟨oneFile_sound, oneFile_readInode, oneFile_noHole, hsize, ?_⟩
  refine (readInodeBytes_iff oneFile_sound oneFile_readInode oneFile_noHole (by decide) hsize).2 ?_
  exact .inl ⟨by decide, .inl rfl⟩

/-- The second byte of the file is asked for, and 1023 bytes are stored. -/
theorem readInodeBytes_oneFile_skip :
    oneFile.Sound ∧ oneFile.readInode 1 = some oneFileInode ∧ oneFile.NoHole oneFileInode ∧
      1 + 1 ≤ iSize oneFileInode ∧
      (oneFile.readInodeBytes 1 (fun _ => 0) 1 1).2 = 1023 ∧
      (oneFile.readInodeBytes 1 (fun _ => 0) 1 1).1 1 = 2 ∧
      ¬ oneFile.ReadsBytes 1 oneFileInode (fun _ => 0) 1 1 := by
  have hcode : (oneFile.readInodeBytes 1 (fun _ => 0) 1 1).2 = 1023 := by decide +kernel
  have hbyte : (oneFile.readInodeBytes 1 (fun _ => 0) 1 1).1 1 = 2 := by decide +kernel
  exact ⟨oneFile_sound, oneFile_readInode, oneFile_noHole, by decide,
    hcode, hbyte, fun h => absurd (hcode.symm.trans h.1) (by decide)⟩

end Volume

end Bloodmoon
