import Bloodmoon.Ext2.DirectoryRecords
import Bloodmoon.Ext2.Footprint

/-!
# Files in blocks of their own

A file of a formatted volume has its data, and the tables on the way to it, in blocks that are in
use for nothing else (`Volume.DataFile`). Steps that touch none of them keep the file and its
content (`Volume.DataFile.of_touches`), and writing the file touches its data only. A directory is
full for a name (`DirectoryFull`) when its last record has no room for it; what
`ext2_create_directory_entry` returns is decided by that.
-/

namespace Bloodmoon

open Machine Option

/-! ### Full directories -/

/-- The records can be followed to the last one, and there is no room for the name in it. -/
def DirectoryFull (bytes : Bytes) (size : ℕ) (name : Text) : Prop :=
  insertEntry bytes size 0 name 0 = some none

section Full

variable {bytes bytes' : Bytes} {size : ℕ} {name : Text}

/-- Whether there is room depends on the name only. -/
theorem insertEntry_eq_none_iff {child type : ℕ} :
    insertEntry bytes size child name type = some none ↔ DirectoryFull bytes size name := by
  rw [DirectoryFull, insertEntry, insertEntry]
  rcases lastEntry bytes size (2 ^ 32) 0 none with _ | ⟨_ | entry, parsedBytes⟩
  · simp only [bind_none]
  · simp only [bind_some]
  · simp only [bind_some]
    split_ifs <;> simp

/-- The records are followed in the bytes of the directory. -/
theorem lastEntry_congr (h : SameOn bytes bytes' 0 size) (fuel p : ℕ) (entry : Option ℕ) :
    lastEntry bytes' size fuel p entry = lastEntry bytes size fuel p entry := by
  induction fuel generalizing p entry with
  | zero => rfl
  | succ fuel ih =>
    rw [lastEntry, lastEntry]
    split_ifs with hlt hend
    · rfl
    · have hlen : recLen bytes' p = recLen bytes p :=
        loadLE_congr (h.mono (Nat.zero_le _) (by change p + 4 + 2 ≤ _; omega))
      rw [nextEntry, hlen]
      exact ih _ _
    · rfl

theorem insertEntry_congr (h : SameOn bytes bytes' 0 size) :
    DirectoryFull bytes' size name ↔ DirectoryFull bytes size name := by
  rw [DirectoryFull, DirectoryFull, insertEntry, insertEntry, lastEntry_congr h]
  rcases lastEntry bytes size (2 ^ 32) 0 none with _ | ⟨_ | entry, parsedBytes⟩
  · simp only [bind_none]
  · simp only [bind_some]
  · simp only [bind_some]
    by_cases hend : size < entry + 7
    · rw [if_pos hend, if_pos hend]
    · have hlen : recLen bytes' entry = recLen bytes entry :=
        loadLE_congr (h.mono (Nat.zero_le _) (by change entry + 4 + 2 ≤ _; omega))
      have hname : nameLen bytes' entry = nameLen bytes entry :=
        loadLE_congr (h.mono (Nat.zero_le _) (by change entry + 6 + 1 ≤ _; omega))
      rw [hlen, hname]
      split_ifs <;> simp

end Full

namespace Volume

variable {v w : Volume} {n b : ℕ} {inode : Bytes} {blocks inodes : Set ℕ}

/-! ### Data blocks -/

/-- The block is in use, but not for metadata, and a flush spares it. -/
structure DataBlock (v : Volume) (b : ℕ) : Prop where
  allocated : v.Allocated b
  notMeta : ¬ v.IsMeta b
  spared : v.FlushSpares b

/-- The data of the file are in data blocks, each of them for a different part of the file, and so
are the tables on the way to them, which are not among the data. -/
structure DataFile (v : Volume) (n : ℕ) (inode : Bytes) : Prop where
  isInode : v.IsInode n
  read : v.readInode n = some inode
  path : ∀ j, v.HasBlock inode j → StagesIn v.diskArray (v.blockSize / 4)
    (fun b => v.DataBlock b ∧ ¬ v.IsData inode b) v.DataBlock (inodeStages inode) j
  inj : ∀ i j, v.HasBlock inode i → v.HasBlock inode j →
    v.fileBlock inode i = v.fileBlock inode j → i = j

theorem SameLayout.hasBlock_iff (h : SameLayout v w) {j : ℕ} :
    w.HasBlock inode j ↔ v.HasBlock inode j := by
  rw [HasBlock, HasBlock, h.blockSize]

/-- Data blocks stay data blocks as long as they are in use. -/
theorem SameRecord.dataBlock (h : SameRecord v w) (hb : v.DataBlock b) (hw : w.Allocated b) :
    w.DataBlock b :=
  ⟨hw, fun hmeta => hb.notMeta (h.isMeta_iff.mp hmeta), h.flushSpares_iff.mpr hb.spared⟩

namespace DataFile

variable (h : v.DataFile n inode)

include h

theorem dataBlock (hb : v.IsData inode b) : v.DataBlock b := by
  obtain ⟨j, hj, rfl⟩ := hb
  exact (h.path j hj).leaves_stagesBlock

theorem exclusive (hv : v.Laid) : v.Exclusive n inode := by
  have hrange : ∀ b, v.DataBlock b → v.InRange b :=
    fun b hb => hv.space.blocks b (.inr hb.allocated)
  refine ⟨hv.sound, h.read, fun j hj => ?_, h.inj, fun b hb => ?_⟩
  · exact (h.path j hj).mono (fun b hb => ⟨hrange b hb.1, hb.2⟩) hrange
  · rw [(hv.inodeIn h.isInode).sector]
    refine blockAddr_apart fun heq => (h.dataBlock hb).notMeta ?_
    exact HoldsInodes.isMeta ⟨n, h.isInode, heq.symm⟩

/-- **A file keeps its blocks** in steps that touch neither its inode nor the tables on the way to
them. -/
theorem of_touches_on {N L : ℕ → Prop} (ht : Touches v w blocks inodes) (hn : n ∉ inodes)
    (hpath : ∀ j, v.HasBlock inode j →
      StagesIn v.diskArray (v.blockSize / 4) N L (inodeStages inode) j)
    (hN : ∀ b, N b → v.DataBlock b ∧ ¬ v.IsData inode b ∧ b ∉ blocks ∧ w.Allocated b)
    (hL : ∀ b, L b → v.DataBlock b ∧ w.Allocated b) :
    w.DataFile n inode ∧ (∀ b, w.IsData inode b ↔ v.IsData inode b) ∧
      (∀ b, N b → ∀ i < v.blockSize / 4, w.diskArray b i = v.diskArray b i) ∧
      ∀ j, v.HasBlock inode j → w.fileBlock inode j = v.fileBlock inode j := by
  have hlayout := ht.record.toSameLayout
  have harray : ∀ b, N b → ∀ i < v.blockSize / 4, w.diskArray b i = v.diskArray b i := by
    intro b hb i hi
    obtain ⟨hdata, -, hmem, -⟩ := hN b hb
    have hsame := ht.kept b hmem (fun htable => hdata.notMeta htable.isMeta) hdata.spared
    rw [diskArray, hlayout.blockAddr]
    exact loadLE_congr (hsame.mono (by omega) (by omega))
  have hcongr := fun j hj => (hpath j hj).congr harray
  have hblock : ∀ j, v.HasBlock inode j → w.fileBlock inode j = v.fileBlock inode j := by
    intro j hj
    rw [fileBlock, hlayout.blockSize]
    exact (hcongr j hj).2
  have hdata : ∀ b, w.IsData inode b ↔ v.IsData inode b := fun b =>
    exists_congr fun j => by
      rw [hlayout.hasBlock_iff]
      exact and_congr_right fun hj => by rw [hblock j hj]
  refine ⟨⟨hlayout.isInode_iff.mpr h.isInode, ?_, fun j hj => ?_, fun i j hi hj heq => ?_⟩, hdata,
    harray, hblock⟩
  · rw [ht.readInode n hn h.isInode]
    exact h.read
  · rw [hlayout.blockSize]
    refine (hcongr j (hlayout.hasBlock_iff.mp hj)).1.mono (fun b hb => ?_) fun b hb => ?_
    · obtain ⟨hblock, hnot, -, hall⟩ := hN b hb
      exact ⟨ht.record.dataBlock hblock hall, fun hmem => hnot ((hdata b).mp hmem)⟩
    · exact ht.record.dataBlock (hL b hb).1 (hL b hb).2
  · rw [hlayout.hasBlock_iff] at hi hj
    rw [hblock i hi, hblock j hj] at heq
    exact h.inj i j hi hj heq

/-- The bytes of a block that is not touched are kept. -/
theorem fileBytes_of_touches (hv : v.Sound) (ht : Touches v w blocks inodes) {x : ℕ}
    (hx : v.HasBlock inode (x / v.blockSize))
    (hblock : w.fileBlock inode (x / v.blockSize) = v.fileBlock inode (x / v.blockSize))
    (hmem : v.fileBlock inode (x / v.blockSize) ∉ blocks) :
    w.fileBytes inode x = v.fileBytes inode x := by
  have hlayout := ht.record.toSameLayout
  have hdata := h.dataBlock ⟨_, hx, rfl⟩
  rw [fileBytes, hlayout.blockSize, hblock, hlayout.blockAddr]
  exact ht.kept _ hmem (fun htable => hdata.notMeta htable.isMeta) hdata.spared _ (by omega)
    (Nat.add_lt_add_left (Nat.mod_lt x hv.blockSize_pos) _)

/-- **A file is kept** by steps that touch neither its inode nor a data block. -/
theorem of_touches (hv : v.Sound) (ht : Touches v w blocks inodes)
    (hb : ∀ b ∈ blocks, ¬ v.DataBlock b)
    (hn : n ∉ inodes) (hw : ∀ b, v.DataBlock b → w.Allocated b) :
    w.DataFile n inode ∧ (∀ b, w.IsData inode b → v.IsData inode b) ∧
      ∀ x, v.HasBlock inode (x / v.blockSize) → w.fileBytes inode x = v.fileBytes inode x := by
  obtain ⟨hfile, hdata, -, hblock⟩ := h.of_touches_on ht hn h.path
    (fun b hb' => ⟨hb'.1, hb'.2, fun hmem => hb b hmem hb'.1, hw b hb'.1⟩) fun b hb' =>
      ⟨hb', hw b hb'⟩
  exact ⟨hfile, fun b => (hdata b).mp, fun x hx => h.fileBytes_of_touches hv ht hx (hblock _ hx)
    fun hmem => hb _ hmem (h.dataBlock ⟨_, hx, rfl⟩)⟩

end DataFile

/-! ### Files with the blocks of their size -/

/-- The blocks below the size of a file. -/
theorem Sound.hasBlock_iff (h : v.Sound) {j : ℕ} :
    v.HasBlock inode j ↔ j < v.blocksFor (iSize inode) := by
  have hbs := h.blockSize_pos
  rw [HasBlock, blocksFor, Nat.lt_iff_add_one_le, Nat.lt_iff_add_one_le, Nat.le_div_iff_mul_le hbs,
    Nat.succ_mul]
  omega

namespace DataFile

variable (h : v.DataFile n inode) (hv : v.Laid)

include h hv

/-- A data block can hold a table. -/
theorem isTable (hb : v.DataBlock b) : v.IsTable n b := by
  refine ⟨hb.allocated, fun hmap => hb.notMeta (.inl ⟨.blocks, hmap⟩), fun hin => ?_⟩
  rw [hin.unique (hv.inodeIn h.isInode) hv.sound] at hb
  exact hb.notMeta (HoldsInodes.isMeta ⟨n, h.isInode, rfl⟩)

theorem tablesOn : v.TablesOn inode (v.IsTable n) := fun j hj =>
  (h.path j (hv.sound.hasBlock_iff.mpr hj)).mono (fun _ hb => h.isTable hv hb.1)
    fun _ hb => hb.allocated

theorem place : ∃ b, v.InodeIn n b ∧ v.Allocated b ∧ ¬ v.IsBitmap b := by
  have hholds : v.HoldsInodes (v.tableBlock n) := ⟨n, h.isInode, rfl⟩
  exact ⟨_, hv.inodeIn h.isInode, hv.used _ hholds.isMeta, hv.apart _ hholds .blocks⟩

theorem flushSparesInode : v.FlushSparesInode n := by
  refine ⟨fun b hb => ?_, fun b hb => hv.spared b (.inr (IsMap.isMeta (k := .blocks) hb))⟩
  rw [hb.unique (hv.inodeIn h.isInode) hv.sound]
  exact hv.spared _ (.inr (HoldsInodes.isMeta ⟨n, h.isInode, rfl⟩))

variable (hmap : v.BlockMap inode (v.blocksFor (iSize inode)))

include hmap

theorem fileOn : v.FileOn n inode :=
  ⟨hv.space, hv.registered, h.read, h.place hv, hmap⟩

end DataFile

/-! ### Files of one block -/

/-- A file of one block has a data block of its own. -/
theorem dataFile_of_le (hn : v.IsInode n) (hread : v.readInode n = some inode)
    (hsize : iSize inode ≤ v.blockSize)
    (hblock : v.DataBlock (iBlock inode 0)) : v.DataFile n inode := by
  refine ⟨hn, hread, fun j hj => ?_, fun i j hi hj _ => ?_⟩
  · rw [hj.eq_zero hsize]
    exact hblock
  · rw [hi.eq_zero hsize, hj.eq_zero hsize]

/-- The content of a file of one block. -/
theorem fileBytes_of_lt (v : Volume) (inode : Bytes) {x : ℕ} (hx : x < v.blockSize) :
    v.fileBytes inode x = v.disk.bytes (v.blockAddr (iBlock inode 0) + x) := by
  rw [fileBytes, Nat.div_eq_of_lt hx, Nat.mod_eq_of_lt hx, fileBlock_of_lt v inode (by decide)]

/-- **A file of one block is kept** by steps that do not touch its inode. -/
theorem DataFile.of_touches_one (h : v.DataFile n inode) (hsize : iSize inode ≤ v.blockSize)
    (hblock : v.DataBlock (iBlock inode 0)) (ht : Touches v w blocks inodes) (hn : n ∉ inodes)
    (hw : w.Allocated (iBlock inode 0)) : w.DataFile n inode := by
  have hlayout := ht.record.toSameLayout
  refine dataFile_of_le (hlayout.isInode_iff.mpr h.isInode) ?_ ?_ (ht.record.dataBlock hblock hw)
  · rw [ht.readInode n hn h.isInode, h.read]
  · rwa [hlayout.blockSize]

/-- The content is kept by steps that do not touch the block. -/
theorem DataBlock.sameOn_fileBytes (hblock : v.DataBlock (iBlock inode 0))
    (ht : Touches v w blocks inodes) (hb : iBlock inode 0 ∉ blocks) :
    SameOn (v.fileBytes inode) (w.fileBytes inode) 0 v.blockSize := fun x _ hx => by
  have hlayout := ht.record.toSameLayout
  rw [fileBytes_of_lt w inode (by rw [hlayout.blockSize]; omega),
    fileBytes_of_lt v inode (by omega), hlayout.blockAddr]
  exact ht.kept _ hb (fun htable => hblock.notMeta htable.isMeta) hblock.spared _ (by omega)
    (by omega)

/-- **Writing a file** touches its data only. -/
theorem DataFile.touches_of_holds (h : v.DataFile n inode) (hv : v.Laid) {d F : Bytes}
    (hd : v.Holds inode d F) : Touches v (v.withBytes d) {b | v.IsData inode b} ∅ ∧
      (v.withBytes d).Laid := by
  have htouches : Touches v (v.withBytes d) {b | v.IsData inode b} ∅ := by
    refine hv.touches (.withBytes v d) (fun b hb htable => ?_) fun b hb _ => hd.sameOn_block hb
    exact (h.dataBlock hb).notMeta htable.isMeta
  refine ⟨htouches, hv.of_touches htouches (fun b hmap hb => ?_) (.withBytes .blocks v d)⟩
  exact (h.dataBlock hb).notMeta hmap.isMeta

/-! ### Adding an entry -/

/-- The directory cannot take the name: it is empty, it has more than the direct blocks, or it is
full. -/
def NoRoom (v : Volume) (inode : Bytes) (name : Text) : Prop :=
  iSize inode = 0 ∨ 12 * v.blockSize < iSize inode ∨
    DirectoryFull (v.fileBytes inode) (iSize inode) name

/-- **When an entry is added.** -/
theorem DataFile.createDirectoryEntry_eq (h : v.DataFile n inode) (hv : v.Laid)
    (hmode : IsDir inode) (child : ℕ) (name : Text) (type : ℕ) :
    (v.NoRoom inode name → v.createDirectoryEntry n child name type = some (v, 1)) ∧
      (¬ v.NoRoom inode name → ∀ w code, v.createDirectoryEntry n child name type = some (w, code) →
        code = 0 ∧ Touches v w {b | v.IsData inode b} ∅ ∧ w.Laid ∧
          ∃ B G, SameOn (v.fileBytes inode) B 0 (iSize inode) ∧
            insertEntry B (iSize inode) child name type = some (some G) ∧
            SameOn G (w.fileBytes inode) 0 (iSize inode)) := by
  have hexclusive := h.exclusive hv
  rw [createDirectoryEntry, h.read]
  simp only [if_pos hmode]
  by_cases hzero : iSize inode = 0
  · rw [if_pos hzero]
    exact ⟨fun _ => rfl, fun hroom => absurd (.inl hzero) hroom⟩
  rw [if_neg hzero]
  by_cases hlarge : 12 * v.blockSize < iSize inode
  · have hfail := (hv.sound.readWhole h.read hexclusive.noHole v.fresh).2 hlarge
    rw [if_pos hfail]
    exact ⟨fun _ => rfl, fun hroom => absurd (.inr (.inl hlarge)) hroom⟩
  obtain ⟨B, hread, hbuffer, hreadFailed⟩ := hexclusive.readWhole (Nat.pos_of_ne_zero hzero)
    (Nat.not_lt.mp hlarge)
  have hfull : v.NoRoom inode name ↔ DirectoryFull B (iSize inode) name := by
    rw [NoRoom, or_iff_right hzero, or_iff_right hlarge, insertEntry_congr hbuffer]
  rw [hread]
  simp only [if_neg hreadFailed, hfull, ← @insertEntry_eq_none_iff _ _ _ child type]
  rcases hinsert : insertEntry B (iSize inode) child name type with _ | _ | G
  · exact ⟨fun hnone => absurd hnone (by simp), fun _ w code heq => absurd heq (by simp)⟩
  · exact ⟨fun _ => rfl, fun hroom => absurd rfl hroom⟩
  · obtain ⟨hcode, d, hwritten, hd⟩ := hexclusive.writeWhole G (Nat.pos_of_ne_zero hzero)
      (Nat.not_lt.mp hlarge)
    simp only [bind_some, hwritten, map_some, if_neg (Nat.ne_of_lt hcode)]
    refine ⟨fun hnone => absurd hnone (by simp), fun _ w code heq => ?_⟩
    obtain ⟨rfl, rfl⟩ := some_inj heq
    obtain ⟨htouches, hlaid⟩ := h.touches_of_holds hv hd
    exact ⟨rfl, htouches, hlaid, B, G, hbuffer, hinsert,
      hd.sameOn_fileBytes hexclusive (Nat.le_refl _)⟩

/-! ### A volume with two directories -/

/-- The root directory, in block 6, has an entry `d` for the directory with inode 3, in block 7,
which has an entry for itself. The blocks have 1024 bytes, shifted by `log`; the first ones and
three inodes are in use. -/
def oneDirectory (log usedBlocks : ℕ) : Volume :=
  smallVolume log usedBlocks 3 fun x =>
    let bs := 1024 <<< log
    ([(5 * bs + 129, 0x41#8), (5 * bs + 133, BitVec.ofNat 8 (bs / 256)), (5 * bs + 168, 6#8),
      (5 * bs + 257, 0x41#8), (5 * bs + 261, BitVec.ofNat 8 (bs / 256)), (5 * bs + 296, 7#8),
      (6 * bs, 3#8), (6 * bs + 5, BitVec.ofNat 8 (bs / 256)), (6 * bs + 6, 1#8), (6 * bs + 7, 2#8),
      (6 * bs + 8, 0x64#8), (7 * bs, 3#8), (7 * bs + 5, BitVec.ofNat 8 (bs / 256)),
      (7 * bs + 6, 1#8), (7 * bs + 7, 2#8), (7 * bs + 8, 0x2e#8)].lookup x).getD 0#8

namespace oneDirectory

variable {log usedBlocks : ℕ}

/-- The path of the directory. -/
def dirPath : Text := [0x2f#8, 0x64#8]

/-- The path of a file in it. -/
def filePath : Text := [0x2f#8, 0x64#8, 0x2f#8, 0x78#8]

theorem filePath_eq : pathToParentAndName filePath = some (dirPath, some [0x78#8]) := by decide

theorem nextInode (hlog : log = 0 ∨ log = 1) : (oneDirectory log usedBlocks).NextInode 0 3 := by
  have hbs := smallVolume.le_blockSize hlog
  have hbit : ∀ i < 4, (oneDirectory log usedBlocks).mapBit .inodes 0 i = decide (i < 3 ∨ 8 ≤ i) :=
    fun i hi => smallVolume.mapBit_eq hlog .inodes (by omega)
  refine ⟨Nat.one_pos, ?_, ?_, fun g hg => absurd hg (Nat.not_lt_zero g), fun i hi => ?_⟩
  · rw [oneDirectory, smallVolume.blockSize_eq hlog]
    omega
  · rw [hbit 3 (by decide)]
    rfl
  · rw [hbit i (by omega)]
    exact decide_eq_true (.inl hi)

/-- The first block behind those in use is free. -/
theorem nextBlock (hlog : log = 0 ∨ log = 1) (hused : usedBlocks < 16) :
    (oneDirectory log usedBlocks).NextBlock (usedBlocks + 1) := by
  have hbs := smallVolume.le_blockSize hlog
  refine ⟨⟨0, Nat.one_pos, usedBlocks, ?_, ?_, ?_, ?_⟩, fun c hc => ?_⟩
  · exact hused
  · rw [oneDirectory, smallVolume.blockSize_eq hlog]
    omega
  · rw [blockNumber, Nat.zero_mul, Nat.zero_add]
  · rw [oneDirectory, smallVolume.mapBit_eq hlog .blocks (by omega)]
    exact decide_eq_false (by omega)
  · have hnumber := smallVolume.number hlog (.inl hc)
    have hnot := hc.not_allocated
    rw [oneDirectory, smallVolume.allocated_iff hlog (by omega)] at hnot
    omega

/-- The directory is in block 7. -/
theorem dataFile (hlog : log = 0 ∨ log = 1) (hused : usedBlocks = 7 ∨ usedBlocks = 8) :
    ∃ inode, (oneDirectory log usedBlocks).DataFile 3 inode ∧ iSize inode = 1024 <<< log ∧
      IsDir inode := by
  have hlaid : (oneDirectory log usedBlocks).Laid :=
    (smallVolume.formatted hlog (by omega) (by omega)).toLaid
  obtain ⟨inode, hread, hsize, hmode, hblock⟩ : ∃ inode,
      (oneDirectory log usedBlocks).readInode 3 = some inode ∧ iSize inode = 1024 <<< log ∧
      IsDir inode ∧ iBlock inode 0 = 7 := by
    obtain rfl | rfl : log = 0 ∨ log = 1 := by omega
    all_goals rcases hused with rfl | rfl <;> decide +kernel
  refine ⟨inode, dataFile_of_le (smallVolume.isInode_iff.mpr (by decide)) hread ?_ ?_,
    hsize, hmode⟩
  · rw [hsize, oneDirectory, smallVolume.blockSize_eq hlog]
  · rw [hblock]
    refine ⟨(smallVolume.allocated_iff hlog (by omega)).mpr (by omega), fun hmeta => ?_,
      smallVolume.flushSpares hlog (by decide)⟩
    have := smallVolume.isMeta hlog hmeta
    omega

end oneDirectory

end Volume

end Bloodmoon
