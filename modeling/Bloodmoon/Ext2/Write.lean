import Bloodmoon.Ext2.Read

/-!
# Writing the bytes of a file

When the blocks of a file are its own (`Volume.Exclusive`), the disk is a function of the content
of the file: `Volume.Holds v inode d F` says that the bytes `d` of the disk hold the content `F` in
the blocks of the file and are those of `v` everywhere else. `ext2_write_inode_blocks` then copies
whole blocks of the source to the content, and `ext2_write_inode_bytes` is at most three such
copies (`writeCopies`). The first one takes its length from the bytes that are skipped in the block
instead of those that are left in it, and the last one starts too late in the source.
-/

namespace Bloodmoon

open Machine List

namespace Volume

/-! ### The content of a file -/

/-- The volume with other bytes on its disk. -/
def withBytes (v : Volume) (d : Bytes) : Volume := { v with disk := { v.disk with bytes := d } }

/-- Block `j` of the file begins below its size. -/
def HasBlock (v : Volume) (inode : Bytes) (j : ℕ) : Prop :=
  j * v.blockSize < iSize inode

/-- The block holds bytes of the file. -/
def IsData (v : Volume) (inode : Bytes) (block : ℕ) : Prop :=
  ∃ j, v.HasBlock inode j ∧ v.fileBlock inode j = block

/-- The blocks of the file are its own: they are in range and distinct, and neither an indirect
block of the file nor the block that holds its inode is one of them. -/
structure Exclusive (v : Volume) (n : ℕ) (inode : Bytes) : Prop where
  sound : v.Sound
  readInode : v.readInode n = some inode
  path : ∀ j, v.HasBlock inode j → StagesIn v.diskArray (v.blockSize / 4)
    (fun b => v.InRange b ∧ ¬ v.IsData inode b) v.InRange (inodeStages inode) j
  inj : ∀ i j, v.HasBlock inode i → v.HasBlock inode j →
    v.fileBlock inode i = v.fileBlock inode j → i = j
  apart : ∀ b, v.IsData inode b → v.blockAddr b + v.blockSize ≤ v.inodeSector n * 512 ∨
    v.inodeSector n * 512 + v.blockSize ≤ v.blockAddr b

/-- The bytes `d` hold the content `F` in the blocks of the file, and what `v` holds elsewhere. -/
structure Holds (v : Volume) (inode d F : Bytes) : Prop where
  data : ∀ j, v.HasBlock inode j → ∀ o < v.blockSize,
    d (v.blockAddr (v.fileBlock inode j) + o) = F (j * v.blockSize + o)
  other : ∀ a, (∀ b, v.IsData inode b → a < v.blockAddr b ∨ v.blockAddr b + v.blockSize ≤ a) →
    d a = v.disk.bytes a

variable {v : Volume} {n : ℕ} {inode d F : Bytes}
variable {b c : ℕ}

/-- Multiples of a number are that far apart. -/
theorem mul_apart (k : ℕ) (h : b ≠ c) : b * k + k ≤ c * k ∨ c * k + k ≤ b * k := by
  rw [← Nat.succ_mul, ← Nat.succ_mul]
  exact (Nat.lt_or_gt_of_ne h).imp (Nat.mul_le_mul_right k) (Nat.mul_le_mul_right k)

theorem blockAddr_apart (h : b ≠ c) :
    v.blockAddr b + v.blockSize ≤ v.blockAddr c ∨ v.blockAddr c + v.blockSize ≤ v.blockAddr b := by
  have := mul_apart v.blockSize h
  unfold blockAddr
  omega

theorem bytes_withBytes (v : Volume) (d : Bytes) : (v.withBytes d).disk.bytes = d := rfl

theorem Sound.withBytes (h : v.Sound) (d : Bytes) : (v.withBytes d).Sound :=
  ⟨⟨h.reliable.readable, h.reliable.writable⟩, h.sectorSize, h.diskSectorSize, h.logBlockSize⟩

theorem InRange.withBytes (h : v.InRange b) (d : Bytes) : (v.withBytes d).InRange b :=
  ⟨h.pos, h.offset_lt, h.sector_lt⟩

namespace Exclusive

theorem blockSize_pos (h : v.Exclusive n inode) : 1024 ≤ v.blockSize := h.sound.le_blockSize

theorem noHole (h : v.Exclusive n inode) : v.NoHole inode :=
  fun j hj => (h.path j hj).mono (fun _ hb => hb.1) fun _ hb => hb

theorem inRange (h : v.Exclusive n inode) {b : ℕ} (hb : v.IsData inode b) : v.InRange b := by
  obtain ⟨j, hj, rfl⟩ := hb
  exact (h.path j hj).leaves_stagesBlock

end Exclusive

namespace Holds

variable {b j : ℕ}

theorem refl (v : Volume) (inode : Bytes) : v.Holds inode v.disk.bytes (v.fileBytes inode) where
  data j _ o ho := by
    rw [fileBytes, mul_add_div_of_lt ho, Nat.mul_add_mod_of_lt ho]
  other _ _ := rfl

section

variable (hd : v.Holds inode d F)

include hd

theorem sameOn {a : ℕ} {k : ℕ}
    (ha : ∀ b, v.IsData inode b → v.blockAddr b + v.blockSize ≤ a ∨ a + k ≤ v.blockAddr b) :
    SameOn v.disk.bytes d a k := by
  intro x hx hxk
  refine hd.other x fun b hb => ?_
  have := ha b hb
  omega

/-- The indirect blocks are the same. -/
theorem sameOn_block (hb : ¬ v.IsData inode b) :
    SameOn v.disk.bytes d (v.blockAddr b) v.blockSize := by
  refine hd.sameOn fun c hc => blockAddr_apart ?_
  rintro rfl
  exact hb hc

theorem readInode (h : v.Exclusive n inode) : (v.withBytes d).readInode n = some inode := by
  have hread := h.readInode
  rw [Volume.readInode, h.sound.reliable.read_eq, h.sound.blockSectors_mul,
    h.sound.diskSectorSize] at hread
  have hsame : SameOn v.disk.bytes d (v.inodeSector n * 512) v.blockSize := hd.sameOn h.apart
  rw [Volume.readInode, (h.sound.withBytes d).reliable.read_eq,
    (h.sound.withBytes d).blockSectors_mul, (h.sound.withBytes d).diskSectorSize]
  change some (blit v.fresh 0 (blit v.fresh 0 d (v.inodeSector n * 512) v.blockSize) _ _) = _
  rw [blit_congr _ _ hsame]
  exact hread

theorem diskArray_eq (hb : ¬ v.IsData inode b) {i : ℕ} (hi : i < v.blockSize / 4) :
    (v.withBytes d).diskArray b i = v.diskArray b i :=
  loadLE_congr ((hd.sameOn_block hb).mono (Nat.le_add_right _ _)
    (show v.blockAddr b + 4 * i + 4 ≤ _ by omega))

/-- The file is in the same blocks, and its content is `F`. -/
theorem noHole (h : v.Exclusive n inode) : (v.withBytes d).NoHole inode := by
  intro j hj
  have hpath := ((h.path j hj).congr fun _ hb _ hi => hd.diskArray_eq hb.2 hi).1
  exact hpath.mono (fun _ hb => hb.1.withBytes d) fun _ hb => hb.withBytes d

/-- Only the content below the end of the last block matters. -/
theorem congr {G : Bytes} (hFG : ∀ x, v.HasBlock inode (x / v.blockSize) → F x = G x) :
    v.Holds inode d G where
  data j hj o ho := by
    rw [hd.data j hj o ho]
    refine hFG _ ?_
    rwa [mul_add_div_of_lt ho]
  other := hd.other

end

section

variable (hd : v.Holds inode d F) (h : v.Exclusive n inode)

include hd h

theorem fileBlock_eq (hj : v.HasBlock inode j) :
    (v.withBytes d).fileBlock inode j = v.fileBlock inode j :=
  ((h.path j hj).congr fun _ hb _ hi => hd.diskArray_eq hb.2 hi).2

theorem fileBytes_eq {x : ℕ} (hx : v.HasBlock inode (x / v.blockSize)) :
    (v.withBytes d).fileBytes inode x = F x := by
  have hsize := h.blockSize_pos
  have hdata := hd.data _ hx _ (Nat.mod_lt x (by omega))
  rw [Nat.div_add_mod'] at hdata
  rw [← hdata]
  change d (v.blockAddr ((v.withBytes d).fileBlock inode (x / v.blockSize)) + x % v.blockSize) = _
  rw [hd.fileBlock_eq h hx]

/-- A block of the source is written to a block of the file. -/
theorem blit_block (hj : v.HasBlock inode j) (source : Bytes) (pos : ℕ) :
    v.Holds inode (blit d (v.blockAddr (v.fileBlock inode j)) source pos v.blockSize)
      (blit F (j * v.blockSize) source pos v.blockSize) where
  data i hi o ho := by
    by_cases hij : i = j
    · subst hij
      rw [blit_apply_of_mem (by omega) (by omega),
        blit_apply_of_mem (by omega) (by omega), Nat.add_sub_cancel_left,
        Nat.add_sub_cancel_left]
    · have hblock : v.fileBlock inode i ≠ v.fileBlock inode j :=
        fun heq => hij (h.inj i j hi hj heq)
      have haddr := blockAddr_apart (v := v) hblock
      have hcontent := mul_apart v.blockSize hij
      rw [blit_apply_of_outside (by omega), blit_apply_of_outside (by omega)]
      exact hd.data i hi o ho
  other a ha := by
    rw [blit_apply_of_outside (ha _ ⟨j, hj, rfl⟩)]
    exact hd.other a ha

end

end Holds

/-! ### Blocks -/

/-- `ext2_write_block` copies the block. -/
theorem Sound.writeBlock_eq (h : v.Sound) (hb : v.InRange b) (buffer : Bytes) (a : ℕ) :
    v.writeBlock b buffer a =
      (v.withBytes (blit v.disk.bytes (v.blockAddr b) buffer a v.blockSize), 1) := by
  rw [writeBlock, if_pos (Nat.ne_of_gt hb.pos), h.reliable.write_eq, h.blockSector_mul hb,
    h.blockSectors_mul]
  rfl

/-- A table that has not changed is read as before. -/
theorem Sound.readArray_withBytes (h : v.Sound) (hb : v.InRange b)
    (hd : SameOn v.disk.bytes d (v.blockAddr b) v.blockSize) :
    (v.withBytes d).readArray b = some (v.bufferArray b) := by
  have hread := (h.withBytes d).readBlock_eq (hb.withBytes d) v.fresh 0
  change (v.withBytes d).readBlock b v.fresh 0 =
    (blit v.fresh 0 d (v.blockAddr b) v.blockSize, 1) at hread
  rw [readArray, show (v.withBytes d).fresh = v.fresh from rfl, hread, blit_congr _ _ hd]
  rfl

section Blocks

variable {b k : ℕ}

/-- The writer writes to the blocks of the file, which leaves the indirect blocks as they are. -/
theorem Exclusive.writer_serves (h : v.Exclusive n inode) (source : Bytes) :
    (v.writer source).Serves v.bufferArray
      (fun w b pos => w.withBytes (blit w.disk.bytes (v.blockAddr b) source pos v.blockSize))
      (fun w => ∃ d F, w = v.withBytes d ∧ v.Holds inode d F)
      (fun b => v.InRange b ∧ ¬ v.IsData inode b) (v.IsData inode) where
  entries_pos := h.sound.reader_serves.entries_pos
  one_lt_failed := show 1 < writeFailed by decide
  table w b hw hb := by
    obtain ⟨d, F, rfl, hd⟩ := hw
    exact h.sound.readArray_withBytes hb.1 (hd.sameOn_block hb.2)
  leaf w b pos hw hb := by
    obtain ⟨d, F, rfl, hd⟩ := hw
    exact (h.sound.withBytes d).writeBlock_eq ((h.inRange hb).withBytes d) source pos
  keep w b pos hw hb := by
    obtain ⟨d, F, rfl, hd⟩ := hw
    obtain ⟨j, hj, rfl⟩ := hb
    exact ⟨_, _, rfl, hd.blit_block h hj source pos⟩

section

variable (hd : v.Holds inode d F) (h : v.Exclusive n inode) (source : Bytes)

include hd h source

/-- Blocks of the source are written to the file one after the other. -/
theorem Holds.transfer_blocks (pos : ℕ) (hk : ∀ j < k, v.HasBlock inode (b + j)) :
    ∃ d', transfer
        (fun w b pos => w.withBytes (blit w.disk.bytes (v.blockAddr b) source pos v.blockSize))
        v.blockSize (fun j => v.fileBlock inode (b + j)) k (v.withBytes d) pos = v.withBytes d' ∧
      v.Holds inode d' (blit F (b * v.blockSize) source pos (k * v.blockSize)) := by
  induction k generalizing b d F pos with
  | zero => exact ⟨d, rfl, by rwa [Nat.zero_mul, blit_zero]⟩
  | succ k ih =>
    have hnext := hd.blit_block h (hk 0 (Nat.succ_pos k)) source pos
    obtain ⟨d', hd', hF⟩ := ih (b := b + 1) hnext (pos + v.blockSize) fun j hj => by
      rw [Nat.add_assoc, Nat.add_comm 1]
      exact hk (j + 1) (Nat.succ_lt_succ hj)
    refine ⟨d', ?_, ?_⟩
    · rw [← hd']
      simp only [Nat.add_assoc, Nat.add_comm 1]
      rfl
    · rw [Nat.add_zero, Nat.succ_mul, blit_append, Nat.add_comm] at hF
      rwa [Nat.succ_mul]

/-- **`ext2_write_inode_blocks` copies blocks of the source to the file**, when the first one is
direct. -/
theorem Holds.writeBlocks (pos : ℕ) (hb : b < 12) (hk : 0 < k)
    (hend : (b + k) * v.blockSize < iSize inode + v.blockSize) :
    ∃ d', (v.withBytes d).writeInodeBlocks n source pos k b = (v.withBytes d', k) ∧
      v.Holds inode d' (blit F (b * v.blockSize) source pos (k * v.blockSize)) := by
  have hblocks : ∀ j < k, v.HasBlock inode (b + j) := fun _ hj => block_lt_of_end_lt hend hj
  have hlt : k < writeFailed := Nat.lt_trans (h.sound.blocks_lt hend) (by decide)
  have hpath : ∀ j < k, StagesIn v.bufferArray (v.blockSize / 4)
      (fun b => v.InRange b ∧ ¬ v.IsData inode b) (v.IsData inode) (inodeStages inode) (b + j) ∧
      stagesBlock v.bufferArray (v.blockSize / 4) (inodeStages inode) (b + j) =
        v.fileBlock inode (b + j) := by
    intro j hj
    have hdata : v.IsData inode (v.fileBlock inode (b + j)) := ⟨b + j, hblocks j hj, rfl⟩
    exact ((h.path _ (hblocks j hj)).of_stagesBlock hdata).congr
      fun b _ i hi => v.bufferArray_eq b hi
  obtain ⟨d', hd', hF⟩ := hd.transfer_blocks h source pos hblocks
  refine ⟨d', ?_, hF⟩
  have hwalk : stageBlocks (v.writer source) k ((inodeStages inode).map (Stage.walk
      (v.writer source))) (v.withBytes d) pos b 0 = _ :=
    (h.writer_serves source).stageBlocks_eq_of_lt pos (by simp) ⟨d, F, rfl, hd⟩ hk hlt hb
      fun j hj => (hpath j hj).1
  rw [writeInodeBlocks, if_neg (Nat.ne_of_gt hk), hd.readInode h]
  refine hwalk.trans (congrArg (·, k) ?_)
  rw [← hd']
  exact transfer_congr (fun j hj => (hpath j hj).2) _ _

/-- A direct block is read, changed at one place and written back. -/
theorem Holds.patch (p : ℕ) (hb : b < 12)
    (hend : (b + 1) * v.blockSize < iSize inode + v.blockSize) {o l : ℕ}
    (ho : o + l ≤ v.blockSize) :
    ∃ temp d', (v.withBytes d).readInodeBlocks n v.fresh 0 1 b = (temp, 1) ∧
      (v.withBytes d).writeInodeBlocks n (blit temp o source p l) 0 1 b = (v.withBytes d', 1) ∧
      v.Holds inode d' (blit F (b * v.blockSize + o) source p l) := by
  have hread := (h.sound.withBytes d).readBlocks_eq (hd.readInode h) (hd.noHole h) v.fresh 0 hb
    Nat.one_pos hend
  obtain ⟨d', hwrite, hF⟩ := hd.writeBlocks h (blit (blit v.fresh 0
    ((v.withBytes d).fileBytes inode) (b * v.blockSize) (1 * v.blockSize)) o source p l) 0 hb
    Nat.one_pos hend
  refine ⟨_, d', hread, hwrite, hF.congr fun x hx => ?_⟩
  by_cases hin : b * v.blockSize ≤ x ∧ x < b * v.blockSize + 1 * v.blockSize
  · rw [blit_apply_of_mem hin.1 hin.2, Nat.zero_add]
    obtain ⟨y, rfl⟩ := Nat.exists_eq_add_of_le hin.1
    rw [Nat.add_sub_cancel_left]
    by_cases hpatch : o ≤ y ∧ y < o + l
    · rw [blit_apply_of_mem hpatch.1 hpatch.2,
        blit_apply_of_mem (by omega) (by omega), Nat.add_sub_add_left]
    · rw [@blit_apply_of_outside _ _ _ _ source _ (show y < o ∨ o + l ≤ y by omega),
        blit_apply_of_mem (Nat.zero_le y) (by omega), Nat.sub_zero, hd.fileBytes_eq h hx,
        @blit_apply_of_outside _ _ _ F source _ (by omega)]
  · rw [blit_apply_of_outside (by omega), blit_apply_of_outside (by omega)]

end

/-- Nothing is written when all direct blocks are to be skipped. -/
theorem writeInodeBlocks_of_le (hinode : v.readInode n = some inode) (source : Bytes) (pos : ℕ)
    (hb : 12 ≤ b) :
    v.writeInodeBlocks n source pos k b = (v, 0) := by
  simp only [writeInodeBlocks, hinode]
  split_ifs with hzero
  · rfl
  · exact BlockIO.Serves.stageBlocks_of_le (inodeStages inode).tail hb

end Blocks

/-! ### Bytes -/

/-- A copy of bytes of the source to the file. -/
structure Copy where
  dst : ℕ
  src : ℕ
  len : ℕ

/-- The content after a list of copies from the source. -/
def applyCopies (source F : Bytes) (copies : List Copy) : Bytes :=
  copies.foldl (fun F c => blit F c.dst source c.src c.len) F

/-- What a call of `ext2_write_inode_bytes` does. -/
inductive WriteEffect where
  | undefined
  | failed
  | written (copies : List Copy) (code : ℕ)

/-- What `ext2_write_inode_bytes` does to a file whose blocks are its own. -/
def writeEffect (size count skip : ℕ) : WriteEffect :=
  if skip % size ≠ 0 ∧ 12 ≤ skip / size then .failed
  else if size < skip % size + skip % size then .undefined
  else
    let head := if skip % size = 0 then 0 else size - skip % size
    let block := if skip % size = 0 then skip / size else skip / size + 1
    if count ≤ head then .written [⟨skip, 0, skip % size⟩] head
    else
      let whole := if 12 ≤ block then 0 else divideRoundedUp count size - 1
      let bytes := head + whole * size
      let copies := [⟨skip, 0, skip % size⟩, ⟨block * size, head, whole * size⟩]
      if count ≤ bytes then .written copies bytes
      else if block + whole < 12 then
        .written (copies ++ [⟨(block + whole) * size, head + bytes, count - bytes⟩]) count
      else .failed

section Bytes

variable {source : Bytes} {count skip : ℕ}
variable {code size total : ℕ} {t : WriteProgress} {copies : List Copy}

theorem Exclusive.writeHead_eq (h : v.Exclusive n inode) (source : Bytes)
    (hskip : skip % v.blockSize ≠ 0 → v.HasBlock inode (skip / v.blockSize)) :
    if skip % v.blockSize ≠ 0 ∧ 12 ≤ skip / v.blockSize then
      v.writeHead n source skip = .error (.failed v)
    else if v.blockSize < skip % v.blockSize + skip % v.blockSize then
      v.writeHead n source skip = .error .undefined
    else
      ∃ t d, v.writeHead n source skip = .ok t ∧ t.volume = v.withBytes d ∧
        v.Holds inode d (blit (v.fileBytes inode) skip source 0 (skip % v.blockSize)) ∧
        t.pos = (if skip % v.blockSize = 0 then 0 else v.blockSize - skip % v.blockSize) ∧
        t.bytes = (if skip % v.blockSize = 0 then 0 else v.blockSize - skip % v.blockSize) ∧
        t.block =
          if skip % v.blockSize = 0 then skip / v.blockSize else skip / v.blockSize + 1 := by
  have hskip_eq := Nat.div_add_mod' skip v.blockSize
  by_cases hs : skip % v.blockSize = 0
  · simp only [writeHead, hs, blit_zero]
    exact ⟨_, v.disk.bytes, rfl, rfl, .refl v inode, rfl, rfl, rfl⟩
  by_cases hb : 12 ≤ skip / v.blockSize
  · rw [if_pos ⟨hs, hb⟩, writeHead]
    simp only [hs, if_false, readInodeBlocks_of_le h.readInode hb, ne_eq, Nat.zero_ne_one,
      not_false_eq_true, if_true]
  have hend : (skip / v.blockSize + 1) * v.blockSize < iSize inode + v.blockSize := by
    rw [Nat.add_mul, Nat.one_mul]
    exact Nat.add_lt_add_right (hskip hs) _
  rw [if_neg fun hfail => hb hfail.2, writeHead]
  simp only [hs]
  by_cases htwice : v.blockSize < skip % v.blockSize + skip % v.blockSize
  · have hread := h.sound.readBlocks_eq h.readInode h.noHole v.fresh 0 (Nat.not_le.1 hb)
      Nat.one_pos hend
    simp only [htwice, if_true, hread, ne_eq, not_true_eq_false, if_false]
  · obtain ⟨temp, d, hread, hwrite, hd⟩ := (Holds.refl v inode).patch h source 0
      (Nat.not_le.1 hb) hend
      (Nat.not_lt.1 htwice)
    change v.readInodeBlocks n v.fresh 0 1 _ = _ at hread
    change v.writeInodeBlocks n _ 0 1 _ = _ at hwrite
    rw [hskip_eq] at hd
    simp only [htwice, hread, hwrite]
    exact ⟨_, d, rfl, rfl, hd, rfl, rfl, rfl⟩

/-- The second stage. -/
theorem Holds.writeMiddle_eq (hd : v.Holds inode d F) (h : v.Exclusive n inode) (source : Bytes)
    (hend : skip + count ≤ iSize inode) (hvolume : t.volume = v.withBytes d)
    (hblock : skip + t.bytes = t.block * v.blockSize) (hlt : t.bytes < count)
    (hhead : t.bytes < v.blockSize) {whole : ℕ}
    (hwhole : whole = if 12 ≤ t.block then 0 else divideRoundedUp count v.blockSize - 1) :
    ∃ d', writeMiddle n source count t =
        .ok ⟨v.withBytes d', t.pos, t.bytes + whole * v.blockSize, t.block + whole⟩ ∧
      v.Holds inode d' (blit F (t.block * v.blockSize) source t.pos (whole * v.blockSize)) := by
  have hsize := h.blockSize_pos
  have hlt32 := inodeSize_lt inode
  obtain ⟨q, c, hq, hc, hcs, hup⟩ :=
    exists_divideRoundedUp (show 0 < count by omega) h.sound.blockSize_pos
  have hstep : ∃ d', (v.withBytes d).writeInodeBlocks n source t.pos q t.block =
      (v.withBytes d', whole) ∧
      v.Holds inode d' (blit F (t.block * v.blockSize) source t.pos (whole * v.blockSize)) := by
    rw [hwhole, hup]
    split_ifs with hb
    · refine ⟨d, writeInodeBlocks_of_le (hd.readInode h) _ _ hb, ?_⟩
      rwa [Nat.zero_mul, blit_zero]
    · rcases Nat.eq_zero_or_pos q with rfl | hqpos
      · refine ⟨d, by rw [writeInodeBlocks, if_pos rfl], ?_⟩
        rwa [Nat.zero_mul, blit_zero]
      · refine hd.writeBlocks h source t.pos (Nat.not_le.1 hb) hqpos ?_
        rw [Nat.add_mul]
        omega
  obtain ⟨d', hwrite, hd'⟩ := hstep
  refine ⟨d', ?_, hd'⟩
  have hfailed : whole ≠ writeFailed := by
    have := Nat.mul_le_mul_left q (show 2 ≤ v.blockSize by omega)
    unfold writeFailed
    split_ifs at hwhole <;> omega
  have hremains : Remains count t.bytes := (remains_iff (by omega) (by omega)).2 hlt
  rw [writeMiddle, if_pos hremains, hvolume,
    show (v.withBytes d).blockSize = v.blockSize from rfl, hup, Nat.add_sub_cancel, hwrite]
  exact if_neg hfailed

/-- The third stage. -/
theorem Holds.writeTail_eq (hd : v.Holds inode d F) (h : v.Exclusive n inode) (source : Bytes)
    (hend : skip + count ≤ iSize inode) (hvolume : t.volume = v.withBytes d)
    (hblock : skip + t.bytes = t.block * v.blockSize) (hlt : t.bytes < count)
    (hrest : t.block < 12 → count ≤ t.bytes + v.blockSize) :
    if t.block < 12 then
      ∃ d', writeTail n source count t = .ok ⟨v.withBytes d', t.pos, count, t.block⟩ ∧
        v.Holds inode d' (blit F (t.block * v.blockSize) source (t.pos + t.bytes)
          (count - t.bytes))
    else writeTail n source count t = .error (.failed (v.withBytes d)) := by
  have hlt32 := inodeSize_lt inode
  have hremains : Remains count t.bytes := (remains_iff (by omega) (by omega)).2 hlt
  rw [writeTail, if_pos hremains, hvolume]
  by_cases hb : t.block < 12
  · rw [if_pos hb]
    obtain ⟨temp, d', hread, hwrite, hd'⟩ := hd.patch h source (t.pos + t.bytes) hb
      (by rw [Nat.add_mul]; omega)
      (show 0 + (count - t.bytes) ≤ v.blockSize by omega)
    refine ⟨d', ?_, hd'⟩
    have hfit : ¬ (v.withBytes d).blockSize < count - t.bytes := show ¬ v.blockSize < _ by omega
    change (v.withBytes d).readInodeBlocks n (v.withBytes d).fresh 0 1 t.block = _ at hread
    simp only [hread, hwrite, hfit, ne_eq, not_true_eq_false, if_false]
  · rw [if_neg hb, readInodeBlocks_of_le (hd.readInode h) (Nat.not_lt.1 hb)]
    rfl

/-- The effect is that of the call. -/
def HasEffect (v : Volume) (n : ℕ) (inode source : Bytes) (count skip : ℕ) : WriteEffect → Prop
  | .undefined => v.writeInodeBytes n source count skip = none
  | .failed => ∃ d F, v.writeInodeBytes n source count skip = some (v.withBytes d, writeFailed) ∧
      v.Holds inode d F
  | .written copies code => ∃ d, v.writeInodeBytes n source count skip =
      some (v.withBytes d, code) ∧
      v.Holds inode d (applyCopies source (v.fileBytes inode) copies)

/-- **What `ext2_write_inode_bytes` does**, whatever the range. -/
theorem Exclusive.hasEffect (h : v.Exclusive n inode) (source : Bytes) (hcount : 0 < count)
    (hend : skip + count ≤ iSize inode) :
    v.HasEffect n inode source count skip (writeEffect v.blockSize count skip) := by
  have hlt32 := inodeSize_lt inode
  have hbs := v.blockSize_lt
  have hmod := Nat.mod_lt skip h.sound.blockSize_pos
  have hskip_eq := Nat.div_add_mod' skip v.blockSize
  have hhead := h.writeHead_eq source (fun _ => show skip / v.blockSize * v.blockSize < _ by omega)
  unfold writeEffect
  by_cases hfail : skip % v.blockSize ≠ 0 ∧ 12 ≤ skip / v.blockSize
  · rw [if_pos hfail] at hhead ⊢
    refine ⟨v.disk.bytes, v.fileBytes inode, ?_, .refl v inode⟩
    rw [writeInodeBytes, h.readInode, hhead]
    rfl
  rw [if_neg hfail] at hhead ⊢
  by_cases hundef : v.blockSize < skip % v.blockSize + skip % v.blockSize
  · rw [if_pos hundef] at hhead ⊢
    change v.writeInodeBytes n source count skip = none
    rw [writeInodeBytes, h.readInode, hhead]
    rfl
  rw [if_neg hundef] at hhead ⊢
  obtain ⟨t, d, hhead, hvolume, hd, hpos, hbytes, hblock⟩ := hhead
  have hstart : skip + t.bytes = t.block * v.blockSize := by
    rw [hbytes, hblock]
    split_ifs
    · omega
    · rw [Nat.add_mul]
      omega
  have hlt : t.bytes < v.blockSize := by
    rw [hbytes]
    split_ifs <;> omega
  simp only [← hbytes, ← hblock]
  rw [← hbytes] at hpos
  by_cases hdone : count ≤ t.bytes
  · rw [if_pos hdone]
    refine ⟨d, ?_, hd⟩
    rw [writeInodeBytes, h.readInode]
    have hremains : ¬ Remains count t.bytes := by
      rw [remains_iff (by omega) (by omega)]
      exact Nat.not_lt.2 hdone
    simp only [hhead, ok_bind, writeMiddle, writeTail, hremains, if_false, hvolume]
  rw [if_neg hdone]
  generalize hwhole : (if 12 ≤ t.block then 0 else divideRoundedUp count v.blockSize - 1) = whole
  have hwhole' : whole * v.blockSize < count := by
    obtain ⟨q, c, hq, hc, hcs, hup⟩ := exists_divideRoundedUp hcount h.sound.blockSize_pos
    rw [← hwhole, hup, Nat.add_sub_cancel]
    split_ifs <;> omega
  obtain ⟨d', hmiddle, hd'⟩ := hd.writeMiddle_eq h source hend hvolume hstart (Nat.not_le.1 hdone)
    hlt hwhole.symm
  by_cases hdone' : count ≤ t.bytes + whole * v.blockSize
  · rw [if_pos hdone']
    refine ⟨d', ?_, ?_⟩
    · rw [writeInodeBytes, h.readInode]
      have hremains : ¬ Remains count (t.bytes + whole * v.blockSize) := by
        rw [remains_iff (by omega) (by omega)]
        exact Nat.not_lt.2 hdone'
      simp only [hhead, ok_bind, hmiddle, writeTail, hremains, if_false]
    · rwa [hpos] at hd'
  rw [if_neg hdone']
  have htail := hd'.writeTail_eq h source hend
    (t := ⟨v.withBytes d', t.pos, t.bytes + whole * v.blockSize, t.block + whole⟩) rfl
    (show skip + (t.bytes + _) = _ by rw [← Nat.add_assoc, hstart, Nat.add_mul])
    (Nat.not_le.1 hdone') (by
      intro hb
      obtain ⟨q, c, hq, hc, hcs, hup⟩ := exists_divideRoundedUp hcount h.sound.blockSize_pos
      change t.block + whole < 12 at hb
      rw [if_neg (by omega), hup] at hwhole
      rw [← hwhole]
      change count ≤ t.bytes + q * v.blockSize + v.blockSize
      omega)
  by_cases hb : t.block + whole < 12
  · rw [if_pos hb] at htail ⊢
    obtain ⟨d'', htail, hd''⟩ := htail
    refine ⟨d'', ?_, ?_⟩
    · rw [writeInodeBytes, h.readInode]
      simp only [hhead, ok_bind, hmiddle, htail]
    · rwa [hpos] at hd''
  · rw [if_neg hb] at htail ⊢
    refine ⟨d', _, ?_, hd'⟩
    rw [writeInodeBytes, h.readInode]
    simp only [hhead, ok_bind, hmiddle, htail]

/-! ### The ranges that are written as they should be -/

/-- The effect changes the content below `total` as it should, whatever the source is, or is a
failure that is reported. -/
def WriteEffect.Right (F : Bytes) (total count skip : ℕ) : WriteEffect → Prop
  | .undefined => False
  | .failed => True
  | .written copies _ => ∀ source, ∀ x < total,
      applyCopies source F copies x = blit F skip source 0 count x

/-- The ranges that are written as they should be in a file of `total` bytes, those included for
which the call reports a failure. -/
def WriteRange (size count skip total : ℕ) : Prop :=
  skip % size = 0 ∨ 12 * size ≤ skip ∨
  2 * (skip % size) ≤ size ∧
    (count ≤ size - skip % size ∧ count ≤ skip % size ∧
        (skip % size = count ∨ skip + count = total) ∨
      size - skip % size < count ∧ 11 * size ≤ skip ∨
      size - skip % size < count ∧ divideRoundedUp count size * size < count + skip % size ∧
        12 * size < skip + count ∨
      size - skip % size < count ∧ count + skip % size ≤ divideRoundedUp count size * size ∧
        2 * (skip % size) = size ∧ ((skip + count) % size = 0 ∨ skip + count = total))

/-- A copy of another length than the one that was asked for. -/
theorem blit_right_iff {l : ℕ} (hend : skip + count ≤ total) :
    (∀ source, ∀ x < total, blit F skip source 0 l x = blit F skip source 0 count x) ↔
      count ≤ l ∧ (l = count ∨ skip + count = total) := by
  constructor
  · intro hall
    have hle : count ≤ l := by
      by_contra hlt
      have hx := hall (fun _ => F (skip + l) + 1) (skip + l) (by omega)
      rw [blit_apply_of_outside (by omega), blit_apply_of_mem (by omega) (by omega)]
        at hx
      exact absurd hx (by simp)
    refine ⟨hle, ?_⟩
    by_contra hne
    have hx := hall (fun _ => F (skip + count) + 1) (skip + count) (by omega)
    rw [blit_apply_of_mem (by omega) (by omega), blit_apply_of_outside (by omega)] at hx
    exact absurd hx (by simp)
  · rintro ⟨hle, rfl | rfl⟩ source x hx
    · rfl
    · by_cases hskip : skip ≤ x
      · rw [blit_apply_of_mem hskip (by omega), blit_apply_of_mem hskip hx]
      · rw [blit_apply_of_outside (by omega), blit_apply_of_outside (by omega)]

/-- After a head that leaves a gap, or before a tail, the content is wrong. -/
theorem not_right_of_gap (gap : ℕ) (hend : skip + count ≤ total) (hlt : gap < count)
    (hgap : ∀ source, applyCopies source F copies (skip + gap) = F (skip + gap)) :
    ¬ (WriteEffect.written copies code).Right F total count skip := by
  intro hall
  have hx := hall (fun _ => F (skip + gap) + 1) (skip + gap) (by omega)
  rw [hgap, blit_apply_of_mem (by omega) (by omega)] at hx
  exact absurd hx (by simp)

theorem not_right_of_late (late pos : ℕ) (hend : skip + count ≤ total) (hlt : late < count)
    (hne : pos ≠ late) (hlate : ∀ source, applyCopies source F copies (skip + late) = source pos) :
    ¬ (WriteEffect.written copies code).Right F total count skip := by
  intro hall
  have hx := hall (fun y => if y = late then 1 else 0) (skip + late) (by omega)
  rw [hlate, blit_apply_of_mem (by omega) (by omega), Nat.add_sub_cancel_left, Nat.zero_add,
    if_neg hne, if_pos rfl] at hx
  exact absurd hx (by decide)

theorem writeEffect_right_iff (hcount : 0 < count) (hsize : 0 < size)
    (hend : skip + count ≤ total) :
    (writeEffect size count skip).Right F total count skip ↔ WriteRange size count skip total := by
  -- `skip` is `b` blocks and `s` bytes, and `count` is `q` blocks and a last one of `c` bytes
  obtain ⟨b, s, hskip, hs, hdiv, hmod⟩ : ∃ b s, skip = b * size + s ∧ s < size ∧
      skip / size = b ∧ skip % size = s :=
    ⟨_, _, (Nat.div_add_mod' skip size).symm, Nat.mod_lt _ hsize, rfl, rfl⟩
  obtain ⟨q, c, hq, hc, hcs, hup⟩ := exists_divideRoundedUp hcount hsize
  have hmul : ∀ {x y}, x ≤ y → x * size ≤ y * size := fun h => Nat.mul_le_mul_right size h
  have hsum : (b + q) * size = b * size + q * size := Nat.add_mul b q size
  have hnext : (b + 1) * size = b * size + size := Nat.succ_mul b size
  unfold writeEffect WriteRange
  simp only [hdiv, hmod, hup, Nat.add_sub_cancel, Nat.add_mul q 1]
  by_cases hs0 : s = 0
  · -- all bytes are copied from where they should be
    subst hs0
    simp only [true_or, iff_true, ne_eq, not_true_eq_false, false_and, if_false, if_true,
      Nat.not_lt_zero, Nat.zero_add, show ¬ count ≤ 0 by omega]
    by_cases hb : 12 ≤ b
    · rw [if_pos hb, if_neg (by omega), if_neg (by omega)]
      trivial
    · rw [if_neg hb, if_neg (by omega)]
      split_ifs
      · intro source x _
        have hjoin := blit_append F skip source 0 (q * size) c
        rw [show skip + q * size = (b + q) * size by omega, Nat.zero_add, ← hq] at hjoin
        rw [← hjoin, show c = count - q * size by omega, show skip = b * size by omega]
        simp only [applyCopies, List.foldl, cons_append, nil_append, blit_zero]
      · trivial
  simp only [ne_eq, hs0, not_false_eq_true, true_and, if_false, false_or]
  rcases Nat.lt_or_ge b 12 with hb | hb
  · have := hmul (show b ≤ 11 by omega)
    rw [if_neg (by omega)]
    by_cases htwice : size < s + s
    · rw [if_pos htwice]
      simp only [WriteEffect.Right, false_iff]
      omega
    rw [if_neg htwice]
    by_cases hhead : count ≤ size - s
    · have hiff := blit_right_iff (F := F) (l := s) hend
      rw [if_pos hhead]
      change (∀ source, ∀ x < total, blit F skip source 0 s x = _) ↔ _
      rw [hiff]
      omega
    rw [if_neg hhead]
    rcases Nat.lt_or_ge b 11 with hb' | hb'
    · have := hmul (show b ≤ 10 by omega)
      rw [if_neg (show ¬ 12 ≤ b + 1 by omega)]
      by_cases hlast : c ≤ size - s
      · rw [if_pos (by omega)]
        have hmod := add_mod_eq_zero_iff b q hs hc hcs
        rw [← hskip, ← hq] at hmod
        by_cases hhalf : 2 * s = size
        · -- the head ends where the whole blocks begin
          have hiff := blit_right_iff (F := F) (l := s + q * size) hend
          have hjoin := fun source => blit_append F skip source 0 s (q * size)
          simp only [WriteEffect.Right, applyCopies, List.foldl]
          simp only [show (b + 1) * size = skip + s by omega, show size - s = 0 + s by omega, hjoin,
            hiff]
          omega
        · refine iff_of_false (not_right_of_gap s hend (by omega) fun source => ?_) (by omega)
          simp only [applyCopies, List.foldl]
          rw [blit_apply_of_outside (by omega), blit_apply_of_outside (by omega)]
      · rw [if_neg (by omega)]
        by_cases hdirect : b + 1 + q < 12
        · have := hmul (show b + q ≤ 10 by omega)
          rw [if_pos hdirect]
          refine iff_of_false (not_right_of_late (size - s + q * size)
            (size - s + (size - s + q * size)) hend (by omega) (by omega) fun source => ?_)
            (by omega)
          simp only [applyCopies, List.foldl, cons_append, nil_append]
          rw [show (b + 1 + q) * size = skip + (size - s + q * size) by
              rw [Nat.add_mul]; omega,
            blit_apply_of_mem (Nat.le_refl _) (by omega), Nat.sub_self, Nat.add_zero]
        · have := hmul (show 11 ≤ b + q by omega)
          rw [if_neg hdirect]
          simp only [WriteEffect.Right, true_iff]
          omega
    · obtain rfl : b = 11 := by omega
      rw [if_pos (show 12 ≤ 11 + 1 by omega), if_neg (by omega), if_neg (by omega)]
      simp only [WriteEffect.Right, true_iff]
      omega
  · have := hmul hb
    rw [if_pos hb]
    simp only [WriteEffect.Right, true_iff]
    omega

/-- The code is not above the count, rounded up to blocks. -/
theorem code_le_of_writeEffect (hcount : 0 < count) (hsize : 0 < size)
    (heq : writeEffect size count skip = .written copies code) :
    ∃ q, q * size < count ∧ code ≤ (q + 1) * size := by
  obtain ⟨q, c, hq, hc, hcs, hup⟩ := exists_divideRoundedUp hcount hsize
  refine ⟨q, by omega, ?_⟩
  rw [Nat.succ_mul]
  simp only [writeEffect, hup, Nat.add_sub_cancel] at heq
  have hhead : (if skip % size = 0 then 0 else size - skip % size) ≤ size := by
    split_ifs <;> omega
  generalize (if skip % size = 0 then 0 else size - skip % size) = head at heq hhead
  generalize (if skip % size = 0 then skip / size else skip / size + 1) = block at heq
  have hwhole : (if 12 ≤ block then 0 else q) * size ≤ q * size :=
    Nat.mul_le_mul_right size (by split_ifs <;> omega)
  generalize (if 12 ≤ block then 0 else q) = whole at heq hwhole
  split_ifs at heq
  all_goals
    obtain ⟨-, rfl⟩ := WriteEffect.written.inj heq
    omega

/-- The blocks of the file are distinct blocks below 4 GiB, so that there are fewer bytes in it than
the codes of failure. -/
theorem Exclusive.end_le (h : v.Exclusive n inode) {j : ℕ} (hj : v.HasBlock inode j) :
    (j + 1) * v.blockSize < writeFailed := by
  obtain ⟨m, hm, hsize⟩ := h.sound.exists_blockSize
  have hblocks : ∀ i ∈ Finset.range (j + 1), v.HasBlock inode i := by
    intro i hi
    have := Nat.mul_le_mul_right v.blockSize (Nat.le_of_lt_succ (Finset.mem_range.1 hi))
    unfold HasBlock at hj ⊢
    omega
  have hcard : (Finset.range (j + 1)).card ≤ (Finset.Icc 1 ((2 ^ 32 - 1) / v.blockSize)).card := by
    refine Finset.card_le_card_of_injOn (v.fileBlock inode) (fun i hi => ?_) fun i hi k hk heq => ?_
    · have hin := h.inRange ⟨i, hblocks i hi, rfl⟩
      have := hin.offset_lt
      exact Finset.mem_coe.2 (Finset.mem_Icc.2
        ⟨hin.pos, (Nat.le_div_iff_mul_le (by omega)).2 (by omega)⟩)
    · exact h.inj i k (hblocks i hi) (hblocks k hk) heq
  rw [Finset.card_range, Nat.card_Icc, Nat.add_sub_cancel,
    Nat.le_div_iff_mul_le (by omega)] at hcard
  have hdvd : (j + 1) * v.blockSize = 1024 * ((j + 1) * m) := by
    rw [hsize, Nat.mul_left_comm]
  unfold writeFailed
  omega

/-- **A whole file with direct blocks only** is written from its beginning to its end. -/
theorem Exclusive.writeWhole (h : v.Exclusive n inode) (source : Bytes) (hpos : 0 < iSize inode)
    (hle : iSize inode ≤ 12 * v.blockSize) :
    iSize inode < writeFailed ∧
    ∃ d, v.writeInodeBytes n source (iSize inode) 0 = some (v.withBytes d, iSize inode) ∧
      v.Holds inode d (blit (v.fileBytes inode) 0 source 0 (iSize inode)) := by
  have heffect := h.hasEffect source hpos (Nat.le_of_eq (Nat.zero_add _))
  obtain ⟨q, c, hq, hc, hcs, hup⟩ := exists_divideRoundedUp hpos h.sound.blockSize_pos
  have hend := h.end_le (show v.HasBlock inode q by unfold HasBlock; omega)
  rw [Nat.succ_mul] at hend
  generalize iSize inode = count at *
  refine ⟨by omega, ?_⟩
  have hdirect : q < 12 := by
    refine Nat.lt_of_mul_lt_mul_right (a := v.blockSize) ?_
    omega
  simp only [writeEffect, Nat.zero_mod, Nat.zero_div, hup, Nat.add_sub_cancel,
    if_false, if_true, Nat.zero_add,
    Nat.not_le.mpr hpos, show ¬ 12 ≤ 0 by omega, show ¬ count ≤ q * v.blockSize by omega,
    hdirect] at heffect
  obtain ⟨d, hwrite, hd⟩ := heffect
  have hjoin := blit_append (v.fileBytes inode) 0 source 0 (q * v.blockSize) c
  rw [Nat.zero_add, ← hq] at hjoin
  refine ⟨d, hwrite, ?_⟩
  rw [← hjoin, show c = count - q * v.blockSize by omega]
  simpa only [applyCopies, List.foldl, cons_append, nil_append, blit_zero, Nat.zero_mul]
    using hd

/-- The call writes as it should: if it is successful, the bytes of the file from `skip` on are
those of the source, and no other byte of the file and no block of another file has changed. -/
def WritesBytes (v : Volume) (n : ℕ) (inode source : Bytes) (count skip : ℕ) : Prop :=
  ∃ w code, v.writeInodeBytes n source count skip = some (w, code) ∧
    (code ≠ writeFailed → w.readInode n = some inode ∧
      (∀ x < count, w.fileBytes inode (skip + x) = source x) ∧
      (∀ x < iSize inode, x < skip ∨ skip + count ≤ x → w.fileBytes inode x = v.fileBytes inode x) ∧
      ∀ b, ¬ v.IsData inode b → SameOn v.disk.bytes w.disk.bytes (v.blockAddr b) v.blockSize)

/-- **`ext2_write_inode_bytes` writes what was asked for exactly on the ranges of `WriteRange`.** -/
theorem writeInodeBytes_iff (h : v.Exclusive n inode) (hcount : 1 ≤ count)
    (hend : skip + count ≤ iSize inode) :
    (∀ source, v.WritesBytes n inode source count skip) ↔
      WriteRange v.blockSize count skip (iSize inode) := by
  have hsize := h.blockSize_pos
  rw [← writeEffect_right_iff (F := v.fileBytes inode) hcount (by omega) hend]
  have heffect := fun source => h.hasEffect source hcount hend
  generalize heq : writeEffect v.blockSize count skip = effect at heffect
  cases effect with
  | undefined =>
    refine iff_of_false (fun hall => ?_) id
    obtain ⟨w, code, hwrite, -⟩ := hall v.fresh
    exact absurd ((heffect v.fresh).symm.trans hwrite) nofun
  | failed =>
    refine iff_of_true (fun source => ?_) trivial
    obtain ⟨d, -, hwrite, -⟩ := heffect source
    exact ⟨_, writeFailed, hwrite, fun hne => absurd rfl hne⟩
  | written copies code =>
    obtain ⟨q, hq, hcode⟩ := code_le_of_writeEffect hcount (by omega) heq
    have hne : code ≠ writeFailed := by
      have := h.end_le (show v.HasBlock inode q by unfold HasBlock; omega)
      omega
    refine forall_congr' fun source => ?_
    obtain ⟨d, hwrite, hd⟩ := heffect source
    have hbytes : ∀ x < iSize inode, (v.withBytes d).fileBytes inode x =
        applyCopies source (v.fileBytes inode) copies x := fun x hx =>
      hd.fileBytes_eq h ((Nat.div_mul_le_self x v.blockSize).trans_lt hx)
    constructor
    · rintro ⟨w, code', hwrite', hall⟩ x hx
      obtain ⟨rfl, rfl⟩ := some_inj (hwrite.symm.trans hwrite')
      obtain ⟨-, hin, hout, -⟩ := hall hne
      rw [← hbytes x hx]
      by_cases hrange : skip ≤ x ∧ x < skip + count
      · obtain ⟨y, rfl⟩ := Nat.exists_eq_add_of_le hrange.1
        rw [blit_apply_of_mem hrange.1 hrange.2, hin y (by omega), Nat.add_sub_cancel_left,
          Nat.zero_add]
      · rw [blit_apply_of_outside (by omega), hout x hx (by omega)]
    · intro hright
      refine ⟨_, code, hwrite, fun _ => ⟨hd.readInode h, fun x hx => ?_, fun x hx hout => ?_,
        fun b hb => hd.sameOn_block hb⟩⟩
      · rw [hbytes _ (by omega), hright _ (by omega), blit_apply_of_mem (by omega) (by omega),
          Nat.add_sub_cancel_left, Nat.zero_add]
      · rw [hbytes x hx, hright x hx, blit_apply_of_outside (by omega)]

end Bytes

/-- A file of one block has no other ones. -/
theorem HasBlock.eq_zero {j : ℕ} (hj : v.HasBlock inode j)
    (hsize : iSize inode ≤ v.blockSize) : j = 0 := by
  rw [HasBlock] at hj
  by_contra hne
  have := Nat.mul_le_mul_right v.blockSize (Nat.pos_of_ne_zero hne)
  omega

/-- A file of one block has its own block, unless that holds the inode. -/
theorem exclusive_of_le (hv : v.Sound) (hread : v.readInode n = some inode)
    (hsize : iSize inode ≤ v.blockSize) (hblock : v.InRange (iBlock inode 0))
    (hapart : v.blockAddr (iBlock inode 0) + v.blockSize ≤ v.inodeSector n * 512 ∨
      v.inodeSector n * 512 + v.blockSize ≤ v.blockAddr (iBlock inode 0)) :
        v.Exclusive n inode := by
  refine ⟨hv, hread, fun j hj => ?_, fun i j hi hj _ => ?_, fun b hb => ?_⟩
  · rw [hj.eq_zero hsize]
    exact hblock
  · rw [hi.eq_zero hsize, hj.eq_zero hsize]
  · obtain ⟨j, hj, rfl⟩ := hb
    rw [hj.eq_zero hsize]
    exact hapart

theorem oneFile_exclusive : oneFile.Exclusive 1 oneFileInode := by
  refine exclusive_of_le oneFile_sound oneFile_readInode ?_ ?_ ?_
  · rw [oneFileInode_size, oneFile_blockSize]
  · exact ⟨by decide, by decide, by decide⟩
  · exact .inr (by decide)

/-- The whole file is written. -/
theorem writeInodeBytes_oneFile :
    oneFile.Exclusive 1 oneFileInode ∧ 0 + 1024 ≤ iSize oneFileInode ∧
      ∀ source, oneFile.WritesBytes 1 oneFileInode source 1024 0 := by
  have hsize : 0 + 1024 ≤ iSize oneFileInode :=
    Nat.le_of_eq oneFileInode_size.symm
  refine ⟨oneFile_exclusive, hsize, ?_⟩
  exact (writeInodeBytes_iff oneFile_exclusive (by decide) hsize).2 (.inl (by decide))

/-- Two bytes are to be written after the first one, and the second of them is not. -/
theorem writeInodeBytes_oneFile_skip :
    oneFile.Exclusive 1 oneFileInode ∧ 1 + 2 ≤ iSize oneFileInode ∧
      (oneFile.writeInodeBytes 1 (fun _ => 255) 2 1).map
        (fun r => (r.2, r.1.fileBytes oneFileInode 1, r.1.fileBytes oneFileInode 2)) =
          some (1023, 255, 2) ∧
      ¬ oneFile.WritesBytes 1 oneFileInode (fun _ => 255) 2 1 := by
  have hrun : (oneFile.writeInodeBytes 1 (fun _ => 255) 2 1).map
      (fun r => (r.2, r.1.fileBytes oneFileInode 1, r.1.fileBytes oneFileInode 2)) =
        some (1023, 255, 2) := by decide +kernel
  refine ⟨oneFile_exclusive, by decide, hrun, ?_⟩
  rintro ⟨w, code, hwrite, hall⟩
  rw [hwrite, Option.map_some, Option.some.injEq, Prod.mk.injEq, Prod.mk.injEq] at hrun
  obtain ⟨hcode, -, hbyte⟩ := hrun
  obtain rfl : code = 1023 := hcode
  have hsecond := (hall (by decide)).2.1 1 (by decide)
  exact absurd (hbyte.symm.trans hsecond) (by decide)

/-- **What is written is read.** After a file with direct blocks only has been written, every range
of `ReadRange` is read as the source has it. -/
theorem Exclusive.readInodeBytes_written (h : v.Exclusive n inode) (source : Bytes)
    (hpos : 0 < iSize inode) (hle : iSize inode ≤ 12 * v.blockSize) :
    ∃ w, v.writeInodeBytes n source (iSize inode) 0 = some (w, iSize inode) ∧
      ∀ buffer count skip, 1 ≤ count → skip + count ≤ iSize inode →
        ReadRange v.blockSize count skip →
          w.readInodeBytes n buffer count skip = (blit buffer 0 source skip count, count) := by
  obtain ⟨-, d, hwrite, hd⟩ := h.writeWhole source hpos hle
  refine ⟨_, hwrite, fun buffer count skip hcount hend hrange => ?_⟩
  have hextent := (readExtent_eq_iff hcount h.sound.blockSize_pos).2 hrange
  rw [(h.sound.withBytes d).readInodeBytes_eq (hd.readInode h) (hd.noHole h) hcount hend,
    show (v.withBytes d).blockSize = v.blockSize from rfl, hextent]
  refine congrArg (·, count) (blit_shift buffer 0 fun i hi => ?_)
  rw [hd.fileBytes_eq h ((Nat.div_mul_le_self _ v.blockSize).trans_lt (by omega)),
    blit_apply_of_mem (Nat.zero_le _) (by omega), Nat.zero_add, Nat.sub_zero]

theorem readInodeBytes_written_oneFile : ∃ w, oneFile.writeInodeBytes 1 (fun _ => 7) 1024 0 =
    some (w, 1024) ∧ (w.readInodeBytes 1 (fun _ => 0) 1024 0).1 1023 = 7 := by
  obtain ⟨w, hwrite, hread⟩ :=
    oneFile_exclusive.readInodeBytes_written (fun _ => 7) (by decide) (by decide)
  exact ⟨w, hwrite, congrArg (·.1 1023) (hread _ 1024 0 (by decide) (by decide) (.inl (by decide)))⟩

end Volume

end Bloodmoon
