import Bloodmoon.Ext2.BlockBudget
import Bloodmoon.Ext2.DataFiles
import Bloodmoon.Ext2.Files
import Bloodmoon.Ext2.GrowFile
import Bloodmoon.Ext2.LoadedList
import Bloodmoon.Ext2.Shrink
import Bloodmoon.Ext2.WritePast

/-!
# The size of a file that is written

`ext2_write_file` compares the end of the range, a sum of 64 bits, with the size of the file, and
then resizes the file to the lower 32 bits of it. A sum above the size whose lower bits are below it
makes the file smaller (`ShrinksBy`). A sum of `2 ^ 32` or more can never be written, and is
reported as a failure unless the write slips (`Slips`).

The file is consistent: its blocks are its own and in use, and its map has exactly those that its
size says. If it grows, the new tables have what the heap held behind their entries, and a write
from the direct blocks on may follow it to any block, the one of the inode among them. So the memory
must be zero there (`GrowsClean`), unless the write ends before it comes to these entries. Otherwise
those are the only ways to lose the size (`writeFile_keepsSize_iff`).
-/

namespace Bloodmoon

open Machine List Option

namespace Volume

variable {v w u : Volume} {n b k : ℕ} {inode inode' : Bytes}
variable {code count newSize skip : ℕ} {source : Bytes}

/-! ### Consistent files -/

/-- The block is one of the first `k` blocks of the file. -/
def InFile (v : Volume) (inode : Bytes) (k b : ℕ) : Prop := ∃ j < k, v.fileBlock inode j = b

theorem Sound.isData_iff (h : v.Sound) :
    v.IsData inode b ↔ v.InFile inode (v.blocksFor (iSize inode)) b := by
  simp only [IsData, InFile, h.hasBlock_iff]

namespace DataFile

variable (h : v.DataFile n inode) (hv : v.Laid)

include h hv

theorem path_inFile {j : ℕ} (hj : j < v.blocksFor (iSize inode)) :
    StagesIn v.diskArray (v.blockSize / 4)
      (fun b => v.DataBlock b ∧ ¬ v.InFile inode (v.blocksFor (iSize inode)) b)
      (fun b => v.DataBlock b ∧ v.InFile inode (v.blocksFor (iSize inode)) b)
      (inodeStages inode) j := by
  have hin := h.path j (hv.sound.hasBlock_iff.mpr hj)
  refine (hin.of_stagesBlock ⟨hin.leaves_stagesBlock, j, hj, rfl⟩).mono (fun b hb => ?_)
    fun _ hb => hb
  exact ⟨hb.1, fun hfile => hb.2 (hv.sound.isData_iff.mpr hfile)⟩

variable (hmap : v.BlockMap inode (v.blocksFor (iSize inode)))

include hmap

/-- The trees of a consistent file have exactly the blocks of its map. -/
theorem stagesGuarded : StagesGuarded v.diskArray (v.blockSize / 4)
    (fun b => v.DataBlock b ∧ ¬ v.InFile inode (v.blocksFor (iSize inode)) b)
    (fun b => v.DataBlock b ∧ v.InFile inode (v.blocksFor (iSize inode)) b)
    (levelStages (iBlock inode) 1 [12, 13, 14])
    (v.blocksFor (iSize inode) - 12) := by
  have hholds := hmap.holds.2
  rw [leaves_direct] at hholds
  refine hholds.guarded fun j hj => ?_
  have hin := h.path_inFile hv (show 12 + j < _ by omega)
  rwa [inodeStages_eq, StagesIn, leaves_direct, if_neg (by omega), Nat.add_sub_cancel_left] at hin

theorem guarded :
    v.Guarded n inode (v.InFile inode (v.blocksFor (iSize inode))) (v.blocksFor (iSize inode)) := by
  have hrange : ∀ {b}, v.DataBlock b → v.InRange b :=
    fun hb => hv.space.blocks _ (.inr hb.allocated)
  refine ⟨hv.sound, h.read, ⟨_, hv.inodeIn h.isInode, fun hb => ?_⟩, hmap.iBlock_iff,
    fun i hi hlt => ?_, (h.stagesGuarded hv hmap).mono (Nat.le_refl _)
      (fun b hb => ⟨hrange hb.1, hb.2⟩) fun b hb => ⟨hrange hb.1, hb.2⟩⟩
  · exact (h.dataBlock (hv.sound.isData_iff.mpr hb)).notMeta
      (HoldsInodes.isMeta ⟨n, h.isInode, rfl⟩)
  · have hleaf := (h.path_inFile hv hlt).leaves_stagesBlock
    rw [← fileBlock, fileBlock_of_lt v inode hi] at hleaf
    exact ⟨hrange hleaf.1, hleaf.2⟩

end DataFile

/-! ### A file that has grown -/

section Grown

variable {newSize : ℕ} (h : GrowEffect v w n inode inode' newSize) (hfile : v.FileOn n inode)
  (hold : v.blocksFor (iSize inode) ≤ 12)

include h hfile hold

section

variable
  (hown : ∀ j < v.blocksFor (iSize inode), ∀ b, v.InodeIn n b → v.fileBlock inode j ≠ b)

include hown

/-- The blocks of a file that has grown from direct blocks are not the one of its inode, and the
tables on the way to them are none of them. -/
theorem GrowEffect.path :
    (∀ j < v.blocksFor (iSize inode) + v.blocksFor (newSize - iSize inode),
      StagesIn w.diskArray (w.blockSize / 4)
        (fun b => w.InRange b ∧ ¬ w.InFile inode' (v.blocksFor (iSize inode) +
          v.blocksFor (newSize - iSize inode)) b)
        w.InRange (inodeStages inode') j) ∧
    ∀ b, v.InodeIn n b → v.Allocated b → ¬ w.InFile inode' (v.blocksFor (iSize inode) +
          v.blocksFor (newSize - iSize inode)) b := by
  obtain ⟨taken, direct, indirect, hadded⟩ := h.added
  have hv := hfile.space.sound
  have hsize := h.record.blockSize
  have hmap := hfile.map
  generalize v.blocksFor (iSize inode) = old at *
  generalize v.blocksFor (newSize - iSize inode) = add at *
  have hrange : ∀ {b}, v.Free b ∨ v.Allocated b → w.InRange b := fun hb =>
    h.record.inRange (hfile.space.blocks _ hb)
  refine ⟨fun j hj => ?_, ?_⟩
  · rcases Nat.lt_or_ge j old with hlt | hge
    · have hj' : j < 12 := by omega
      rw [inodeStages_eq, StagesIn, leaves_direct, if_pos hj']
      change w.InRange (iBlock inode' j)
      rw [← fileBlock_of_lt w inode' hj', hadded.fileBlock_of_lt_old hold hlt]
      exact hrange (.inr (hmap.allocated j hlt))
    · have hleaf := (hadded.leaf hv hsize hold (j := j - old) (by omega)).1
      rw [Nat.add_sub_cancel' hge] at hleaf
      refine hleaf.mono (fun b hb => ⟨hrange (.inl (hadded.free b hb.1)), ?_⟩)
        fun b hb => hrange (.inl (hadded.free b (hadded.sub.subset hb)))
      -- a table is no leaf
      rintro ⟨i, hi, rfl⟩
      rcases Nat.lt_or_ge i old with hlt | hge'
      · rw [hadded.fileBlock_of_lt_old hold hlt] at hb
        exact (hadded.free _ hb.1).not_allocated (hmap.allocated i hlt)
      · exact hb.2 (mem_of_getElem? (hadded.getElem?_of_le hv hsize hold hge' hi))
  · rintro b hin hb ⟨j, hj, rfl⟩
    rcases Nat.lt_or_ge j old with hlt | hge
    · rw [hadded.fileBlock_of_lt_old hold hlt] at hin
      exact hown j hlt _ hin rfl
    · exact (hadded.free_of_le hv hsize hold hge hj).not_allocated hb

/-- Its blocks are its own, whatever the memory of the tables was. -/
theorem GrowEffect.exclusive (hlt : iSize inode < newSize) (hnew : newSize < 2 ^ 32) :
    w.Exclusive n inode' := by
  obtain ⟨hpath, hplace⟩ := h.path hfile hold hown
  obtain ⟨taken, direct, indirect, hadded⟩ := h.added
  obtain ⟨b, hin, hb, -⟩ := hfile.place
  have hv := hfile.space.sound
  have hw := h.record.sound hv
  have hblocks : ∀ j, w.HasBlock inode' j → j < v.blocksFor (iSize inode) +
      v.blocksFor (newSize - iSize inode) := by
    intro j hj
    rw [hw.hasBlock_iff, h.size hnew, blocksFor, h.record.blockSize] at hj
    exact Nat.lt_of_lt_of_le hj (blocksFor_add_le hv.blockSize_pos hlt.le).2
  refine ⟨hw, h.read, fun j hj => ?_, fun i j hi hj heq => ?_, fun c hc => ?_⟩
  · refine (hpath j (hblocks j hj)).mono (fun c hc => ⟨hc.1, ?_⟩) fun _ hc => hc
    rintro ⟨i, hi, rfl⟩
    exact hc.2 ⟨i, hblocks i hi, rfl⟩
  · exact hadded.inj hv h.record.blockSize hfile.map hold (hblocks i hi) (hblocks j hj) heq
  · obtain ⟨j, hj, rfl⟩ := hc
    rw [(h.record.inodeIn hin).sector]
    refine blockAddr_apart fun heq => hplace b hin hb ⟨j, hblocks j hj, heq⟩

end

end Grown

/-- **The trees of a file that has grown** have its old blocks and the new ones, if the memory of
the new tables was zero. A file that had tables loses some of its blocks. -/
theorem GrowEffect.guarded (h : GrowEffect v w n inode inode' newSize) (hv : v.Laid)
    (hfile : v.DataFile n inode) (hmap : v.BlockMap inode (v.blocksFor (iSize inode)))
    (hclear : LevelsClear (v.blockSize / 4) v.heapWord 1 3 (v.blocksFor (newSize - iSize inode) -
        (12 - v.blocksFor (iSize inode)))) :
    ∃ blocks, w.Guarded n inode' blocks (v.blocksFor (iSize inode) +
      v.blocksFor (newSize - iSize inode)) := by
  obtain ⟨taken, direct, indirect, hadded⟩ := h.added
  have hguarded := hfile.guarded hv hmap
  have hstages := (hfile.stagesGuarded hv hmap).congr hv.sound.entries_pos
    (List.forall₂_same.mpr fun _ _ => ⟨rfl, rfl, fun _ _ => rfl⟩)
    fun b hb => h.tables b (hfile.isTable hv hb.1) hb.1.spared
  obtain ⟨b₀, hin₀, hall₀, -⟩ := hfile.place hv
  obtain ⟨b, hin, hb⟩ := hguarded.place
  obtain rfl := hin.unique hin₀ hv.sound
  generalize v.blocksFor (iSize inode) = old at *
  generalize v.blocksFor (newSize - iSize inode) = add at *
  have hlen := hadded.length
  have hlen' := hadded.length_direct
  have hrange : ∀ {c}, v.Free c ∨ v.Allocated c → w.InRange c := fun hc =>
    h.record.inRange (hv.space.blocks _ hc)
  have hnew : ∀ {c}, c ∈ direct ++ indirect → v.Free c :=
    fun hc => hadded.free _ (hadded.sub.subset hc)
  have hapart : ∀ {c}, v.Free c → ¬ v.InFile inode old c := by
    rintro c hfree ⟨j, hj, rfl⟩
    exact hfree.not_allocated (hmap.allocated j hj)
  refine ⟨fun c => v.InFile inode old c ∨ c ∈ direct ++ indirect, h.record.sound hv.sound, h.read,
    ⟨b, h.record.inodeIn hin, fun hmem => hmem.elim hb fun hmem => (hnew hmem).not_allocated hall₀⟩,
    fun i hi => hadded.iBlock_iff hmap hi, fun i hi hk => ?_, ?_⟩
  · rw [hadded.direct i hi]
    split_ifs with hlt
    · have hold := hguarded.direct i hi hlt
      exact ⟨h.record.inRange hold.1, .inl hold.2⟩
    · have hmem : direct.getD (i - old) 0 ∈ direct ++ indirect := by
        rw [getD_eq_getElem _ _ (by omega)]
        exact mem_append_left _ (getElem_mem _)
      exact ⟨hrange (.inl (hnew hmem)), .inr hmem⟩
  · rw [h.record.blockSize]
    refine (hadded.levels.guarded hv.sound.entries_pos (fun c hc => ⟨(hadded.free c hc.1).ne_zero,
      hrange (.inl (hadded.free c hc.1)), fun hmem =>
        hmem.elim (hapart (hadded.free c hc.1)) hc.2⟩) (fun c hc => ?_) ?_
      (hstages.mono (Nat.le_refl _) (fun c hc => ?_) fun c hc => ?_)).mono
        (k := old - 12 + indirect.length) (by omega)
      (fun _ hc => hc) fun _ hc => hc
    · have hmem : c ∈ direct ++ indirect := mem_append_right _ hc
      exact ⟨(hnew hmem).ne_zero, hrange (.inl (hnew hmem)), .inr hmem⟩
    · rwa [show indirect.length = add - (12 - old) by omega]
    · refine ⟨hrange (.inr hc.1.allocated), fun hmem => hmem.elim hc.2 fun hmem => ?_⟩
      exact (hnew hmem).not_allocated hc.1.allocated
    · exact ⟨hrange (.inr hc.1.allocated), .inl hc.2⟩

/-- A file grows if there are enough blocks, and keeps its inode otherwise. -/
theorem FileOn.resizeFile_larger (h : v.FileOn n inode) (hflush : v.FlushSparesGrowth n)
    (hsize : iSize inode < newSize) (hnew : newSize < 2 ^ 32) :
    if v.blocksNeeded inode (v.blocksFor (newSize - iSize inode)) ≤ v.sbGet .freeBlocksCount then
      ∃ w inode', v.resizeFile n newSize = some (w, ext2ResultOk) ∧
        GrowEffect v w n inode inode' newSize
    else ∃ w, v.resizeFile n newSize = some (w, ext2ResultError) ∧ w.readInode n = some inode := by
  have hv := h.space.sound
  obtain ⟨m, hm, hblockSize⟩ := hv.exists_blockSize
  -- the three levels are enough
  have hlevels : v.blocksFor (newSize - iSize inode) ≤ (v.blockSize / 4) ^ 3 := by
    have hentries : 256 ≤ v.blockSize / 4 := by omega
    calc v.blocksFor (newSize - iSize inode)
        ≤ (2 ^ 32 + v.blockSize - 1) / v.blockSize := Nat.div_le_div_right (by omega)
      _ ≤ 256 ^ 3 := Nat.div_le_of_le_mul (by omega)
      _ ≤ (v.blockSize / 4) ^ 3 := Nat.pow_le_pow_left hentries 3
  obtain ⟨⟨taken, hgrown⟩, hiff⟩ := h.space.allocateBlocks_ok_iff h.map.iBlock_iff hlevels
  obtain ⟨b, hin, hb, hbitmap⟩ := h.place
  rcases h.resizeFile_grow hflush hsize with ⟨hcode, hgrow⟩ | ⟨hcode, hfailed⟩
  · rwa [if_pos (hiff.mp hcode)]
  · rw [if_neg (hiff.not.mp hcode)]
    refine ⟨_, hfailed, ?_⟩
    rw [hin.readInode_congr hv hgrown.record (hgrown.kept b hb hbitmap), h.read]

/-! ### A file that has shrunk -/

/-- The trees of a file that has shrunk still have the blocks of its map. -/
theorem ShrinkEffect.guarded {m : ℕ} (h : ShrinkEffect v w n inode inode' newSize m) (hv : v.Laid)
    (hfile : v.DataFile n inode) (hmap : v.BlockMap inode (v.blocksFor (iSize inode))) :
    w.Guarded n inode' (v.InFile inode (v.blocksFor (iSize inode)))
      (v.blocksFor (iSize inode)) := by
  have hguarded := hfile.guarded hv hmap
  have hstages := (hfile.stagesGuarded hv hmap).congr hv.sound.entries_pos
    (List.forall₂_cons.mp (forall₂_inodeStages h.blocks)).2
    fun b hb => h.tables b (hfile.isTable hv hb.1) hb.1.spared
  have hrange : ∀ {b}, v.DataBlock b → w.InRange b := fun hb =>
    h.record.inRange (hv.space.blocks _ (.inr hb.allocated))
  obtain ⟨b, hin, hb⟩ := hguarded.place
  refine ⟨h.record.sound hv.sound, h.read, ⟨b, h.record.inodeIn hin, hb⟩, fun i hi => ?_,
    fun i hi hlt => ?_, ?_⟩
  · rw [h.blocks i (by omega)]
    exact hguarded.first i hi
  · rw [h.blocks i (by omega)]
    exact ⟨h.record.inRange (hguarded.direct i hi hlt).1, (hguarded.direct i hi hlt).2⟩
  · rw [h.record.blockSize]
    exact hstages.mono (Nat.le_refl _) (fun b hb => ⟨hrange hb.1, hb.2⟩) fun b hb =>
      ⟨hrange hb.1, hb.2⟩

/-! ### Writing -/

/-- Nothing is written behind the direct blocks. -/
theorem writeInodeBytes_of_le (hv : v.Sound) (hread : v.readInode n = some inode)
    (hskip : 12 * v.blockSize ≤ skip)
    (hrun : v.writeInodeBytes n source count skip = some (w, code)) :
    w = v ∧ (code = writeFailed ∨ code = 0) := by
  have hblock : 12 ≤ skip / v.blockSize := (Nat.le_div_iff_mul_le hv.blockSize_pos).mpr hskip
  have hzero : v.readInodeBlocks n v.fresh 0 1 (skip / v.blockSize) = (v.fresh, 0) :=
    readInodeBlocks_of_le hread hblock
  rw [writeInodeBytes, hread] at hrun
  simp only [writeHead, hzero, ne_eq, Nat.zero_ne_one, not_false_eq_true] at hrun
  split_ifs at hrun with hs
  · rw [ok_bind] at hrun
    by_cases hremains : Remains count 0
    · have hnone := fun q => writeInodeBlocks_of_le (k := q) hread source 0 hblock
      have hne : (0 : ℕ) ≠ writeFailed := by decide
      have hmiddle : writeMiddle n source count ⟨v, 0, 0, skip / v.blockSize⟩ =
          .ok ⟨v, 0, 0, skip / v.blockSize⟩ := by
        simp only [writeMiddle, if_pos hremains, hnone, if_neg hne, Nat.zero_mul, Nat.add_zero]
      have htail : writeTail n source count ⟨v, 0, 0, skip / v.blockSize⟩ = .error (.failed v) := by
        simp only [writeTail, if_pos hremains, hzero, ne_eq, Nat.zero_ne_one, not_false_eq_true,
          if_true]
      rw [hmiddle, ok_bind, htail] at hrun
      obtain ⟨rfl, rfl⟩ := some_inj hrun
      exact ⟨rfl, .inl rfl⟩
    · rw [writeRest_done (t := ⟨v, 0, 0, skip / v.blockSize⟩) hremains] at hrun
      obtain ⟨rfl, rfl⟩ := some_inj hrun
      exact ⟨rfl, .inr rfl⟩
  · obtain ⟨rfl, rfl⟩ := some_inj hrun
    exact ⟨rfl, .inl rfl⟩

/-- **Writing within a file** keeps its inode. -/
theorem Exclusive.readInode_of_write (h : v.Exclusive n inode) (hend : skip + count ≤ iSize inode)
    (hrun : v.writeInodeBytes n source count skip = some (w, code)) :
    w.readInode n = some inode := by
  rcases Nat.eq_zero_or_pos count with rfl | hcount
  · -- only the first stage
    have hbs := h.sound.blockSize_pos
    have hskip := Nat.div_add_mod' skip v.blockSize
    have hhead := h.writeHead_eq source fun _ : skip % v.blockSize ≠ 0 =>
      show skip / v.blockSize * v.blockSize < _ by omega
    rw [writeInodeBytes, h.readInode] at hrun
    by_cases hfail : skip % v.blockSize ≠ 0 ∧ 12 ≤ skip / v.blockSize
    · rw [if_pos hfail] at hhead
      rw [hhead] at hrun
      obtain ⟨rfl, -⟩ := some_inj hrun
      exact h.readInode
    rw [if_neg hfail] at hhead
    by_cases hundef : v.blockSize < skip % v.blockSize + skip % v.blockSize
    · rw [if_pos hundef] at hhead
      rw [hhead] at hrun
      exact absurd hrun (by simp [bind, Except.bind])
    · rw [if_neg hundef] at hhead
      obtain ⟨t, d, hhead, hvolume, hd, -, hbytes, -⟩ := hhead
      have hdone : ¬ Remains 0 t.bytes := by
        have hlt : t.bytes < v.blockSize := by
          rw [hbytes]
          split_ifs <;> omega
        have hbs' := v.blockSize_lt
        rw [remains_iff (by decide) (by omega)]
        exact Nat.not_lt_zero _
      rw [hhead, ok_bind, writeRest_done hdone] at hrun
      obtain ⟨rfl, -⟩ := some_inj hrun
      rw [hvolume]
      exact hd.readInode h
  · have heffect := h.hasEffect source hcount hend
    generalize writeEffect v.blockSize count skip = effect at heffect
    cases effect with
    | undefined => exact absurd (hrun.symm.trans heffect) (some_ne_none _)
    | failed =>
      obtain ⟨d, F, hwrite, hd⟩ := heffect
      obtain ⟨rfl, -⟩ := some_inj (hwrite.symm.trans hrun)
      exact hd.readInode h
    | written copies code' =>
      obtain ⟨d, hwrite, hd⟩ := heffect
      obtain ⟨rfl, -⟩ := some_inj (hwrite.symm.trans hrun)
      exact hd.readInode h

/-! ### The size -/

/-- The size of the file is not below what it was, nor below the end of the range if the call
reports success. -/
def KeepsSize (w : Volume) (n : ℕ) (inode : Bytes) (total code : ℕ) : Prop :=
  ∃ inode', w.readInode n = some inode' ∧ iSize inode ≤ iSize inode' ∧
    (code = ext2ResultOk → total ≤ iSize inode')

/-- The number of blocks of the file when its bytes are written, for a range that ends at `total`;
none if there are not enough free blocks. -/
def blocksAtWrite (v : Volume) (inode : Bytes) (total : ℕ) : ℕ :=
  let size := iSize inode
  if wrap total ≤ size ∨ wrap32 total ≤ size then v.blocksFor size
  else if v.blocksNeeded inode (v.blocksFor (wrap32 total - size)) ≤ v.sbGet .freeBlocksCount then
    v.blocksFor size + v.blocksFor (wrap32 total - size)
  else 0

/-- If the file grows and the range begins in the direct blocks, then the memory of the new tables
is zero behind their entries, unless the range is in the file then, which had no tables before. -/
def GrowsClean (v : Volume) (inode : Bytes) (total skip : ℕ) : Prop :=
  let size := iSize inode
  let added := v.blocksFor (wrap32 total - size)
  size < wrap total → size < wrap32 total →
    v.blocksNeeded inode added ≤ v.sbGet .freeBlocksCount → skip < 12 * v.blockSize →
      total < 2 ^ 32 ∧ v.blocksFor size ≤ 12 ∨
        LevelsClear (v.blockSize / 4) v.heapWord 1 3 (added - (12 - v.blocksFor size))

/-- The end of the range is above the size with 64 bits and below it with 32. -/
def ShrinksBy (size total : ℕ) : Prop := size < wrap total ∧ wrap32 total < size

/-- The condition under which a write keeps the size of a file. -/
structure WritesSafely (v : Volume) (inode : Bytes) (size skip : ℕ) : Prop where
  clean : v.GrowsClean inode (size + skip) skip
  grows : ¬ ShrinksBy (iSize inode) (size + skip)
  reports : ¬ Slips v.blockSize size skip (v.blocksAtWrite inode (size + skip))

theorem blocksFor_mul_lt (hbs : 0 < v.blockSize) (size : ℕ) :
    v.blocksFor size * v.blockSize < size + v.blockSize := by
  have := Nat.div_mul_le_self (size + v.blockSize - 1) v.blockSize
  rw [blocksFor]
  omega

/-- The write ends behind the blocks of a file that has grown, if its end has more than 32 bits. -/
theorem blocksFor_add_mul_lt {size total : ℕ} (hv : v.Sound) (hbig : 2 ^ 32 ≤ total)
    (hlt : size < wrap32 total) :
    (v.blocksFor size + v.blocksFor (wrap32 total - size)) * v.blockSize < total := by
  have hk := blocksFor_mul_lt hv.blockSize_pos size
  have hk' := blocksFor_mul_lt hv.blockSize_pos (wrap32 total - size)
  have hhalf : 2 * v.blockSize ≤ 2 ^ 32 := by
    obtain ⟨m, hm⟩ := hv.blockSize_dvd
    have hbs := v.blockSize_lt
    have htwo : 2 ≤ m := by
      by_contra hone
      have := Nat.mul_le_mul_left v.blockSize (show m ≤ 1 by omega)
      omega
    have := Nat.mul_le_mul_left v.blockSize htwo
    omega
  have hwrap : wrap32 total + 2 ^ 32 ≤ total := by
    unfold wrap32
    omega
  rw [Nat.add_mul]
  omega

/-- What `ext2_write_file` returns, by the result of the write. -/
def writeResult (code : ℕ) : ℕ :=
  if code = writeFailed ∨ code ≤ 0 then ext2ResultError else ext2ResultOk

/-- A write past the last block keeps the size unless it slips. -/
theorem Guarded.keepsSize_iff_of_past {blocks : ℕ → Prop} (h : v.Guarded n inode' blocks k)
    (hcount : count < 2 ^ 64) (hend : k * v.blockSize < skip + count)
    (hrun : v.writeInodeBytes n source count skip = some (w, code))
    (hle : iSize inode ≤ iSize inode') (hlt : iSize inode' < count + skip) :
    w.KeepsSize n inode (count + skip) (writeResult code) ↔ ¬ Slips v.blockSize count skip k := by
  have hread := h.readInode (h.changedIn hrun)
  have hcode := h.code_of_past hcount hend hrun
  obtain ⟨m, -, hm⟩ := h.sound.exists_blockSize
  have hbs := v.blockSize_lt
  have hfailed : writeFailed = 0xFFFFFFFD := rfl
  unfold writeResult
  split_ifs at hcode with hslips
  · have hmod := Nat.mod_lt skip h.sound.blockSize_pos
    rw [if_neg (by omega)]
    refine iff_of_false ?_ (not_not.mpr hslips)
    rintro ⟨inode'', hread', -, htotal⟩
    obtain rfl := mem_unique hread hread'
    exact absurd (htotal rfl) (Nat.not_le.mpr hlt)
  · rw [if_pos (hcode.imp id fun hzero => hzero.le)]
    exact iff_of_true ⟨inode', hread, hle, fun hok => absurd hok Nat.zero_ne_one⟩ hslips

section WriteFile

variable {path : Text} {source : Bytes} {size skip code : ℕ}

/-- The write after the file has been resized, or not, with the code of that. -/
def writeResized (n : ℕ) (source : Bytes) (size skip : ℕ) (r : Volume × ℕ) : Option (Volume × ℕ) :=
  if r.2 ≠ ext2ResultOk then some (r.1, ext2ResultError)
  else (r.1.writeInodeBytes n source size skip).map fun w =>
    (w.1, if w.2 = writeFailed ∨ w.2 ≤ 0 then ext2ResultError else ext2ResultOk)

/-- The part of `ext2_write_file` behind the checks. -/
theorem writeFile_eq (hpath : v.pathToInode path = some n) (hn : n ≠ 0)
    (hread : v.readInode n = some inode) (hmode : ¬ IsDir inode) :
    v.writeFile path source size skip = (if iSize inode < wrap (size + skip) then
          v.resizeFile n (wrap32 (size + skip))
        else some (v, ext2ResultOk)).bind (writeResized n source size skip) := by
  simp only [writeFile, hpath, hread, bind_some, if_neg hn, if_neg hmode]
  rfl

theorem writeFile_resized {r : Volume × ℕ}
    (hrun : (some r).bind (writeResized n source size skip) = some (w, code))
    (hok : r.2 = ext2ResultOk) :
    ∃ c, r.1.writeInodeBytes n source size skip = some (w, c) ∧ writeResult c = code := by
  rw [bind_some, writeResized, if_neg (not_not.mpr hok)] at hrun
  obtain ⟨⟨w', c⟩, hwrite, heq⟩ := map_eq_some_iff.mp hrun
  obtain ⟨rfl, rfl⟩ := Prod.mk.inj heq
  exact ⟨c, hwrite, rfl⟩

variable (hv : v.Laid) (hfile : v.DataFile n inode)
  (hmap : v.BlockMap inode (v.blocksFor (iSize inode)))

include hv hfile hmap

/-- A file that is not resized. -/
theorem keepsSize_of_write {c : ℕ} (hsize : size < 2 ^ 64) (hbig : size + skip ≤ iSize inode ∨
      2 ^ 32 + iSize inode ≤ size + skip)
    (hwrite : v.writeInodeBytes n source size skip = some (w, c)) :
    w.KeepsSize n inode (size + skip) (writeResult c) ↔ ¬ Slips v.blockSize size skip
      (v.blocksFor (iSize inode)) := by
  have hguarded := hfile.guarded hv hmap
  have hz := inodeSize_lt inode
  have hbs := v.blockSize_lt
  rcases hbig with hle | hge
  · refine iff_of_true ⟨inode, hguarded.readInode (hguarded.changedIn hwrite), Nat.le_refl _,
      fun _ => hle⟩ fun hslips => ?_
    have := hslips.2.2.2
    omega
  · have hk := blocksFor_mul_lt hv.sound.blockSize_pos (iSize inode)
    exact hguarded.keepsSize_iff_of_past hsize (by omega) hwrite (Nat.le_refl _) (by omega)

/-- A file that shrinks loses its size. -/
theorem not_keepsSize_of_shrink {r : ℕ} (hr : r < iSize inode) {total : ℕ}
    (hrun : (v.resizeFile n r).bind (writeResized n source size skip) = some (w, code)) :
    ¬ w.KeepsSize n inode total code := by
  have hz := inodeSize_lt inode
  -- the blocks of the file fit into 32 bits, so that there is a list of them
  have hlist : divideRoundedUp32 (iSize inode) v.blockSize ≠ 0 := by
    rw [ne_eq, hv.sound.divideRoundedUp32_eq_zero_iff hz, not_or]
    refine ⟨by omega, Nat.not_lt.mpr ?_⟩
    have hbs := hv.sound.blockSize_pos
    have hpos : 0 < v.blocksFor (iSize inode) := Nat.div_pos (by omega) hbs
    have hend := (hfile.exclusive hv).end_le (hv.sound.hasBlock_iff.mpr
      (Nat.sub_lt hpos Nat.one_pos))
    rw [Nat.sub_add_cancel hpos] at hend
    have hceil := le_blocksFor_mul hbs (iSize inode)
    obtain ⟨m, hm⟩ := hv.sound.blockSize_dvd
    have hlt : v.blocksFor (iSize inode) < m := by
      refine Nat.lt_of_mul_lt_mul_right (a := v.blockSize) ?_
      rw [Nat.mul_comm m, ← hm]
      exact Nat.lt_trans hend (by decide)
    have hfits := region_le v.blockSize hlt
    rw [Nat.mul_comm m] at hfits
    omega
  have hshrink := (hfile.fileOn hv hmap).resizeFile_shrink_eq (hfile.tablesOn hv)
    (hfile.flushSparesInode hv) hr
  rw [if_neg hlist] at hshrink
  obtain ⟨u, inode', hresize, heffect⟩ := hshrink
  rw [hresize] at hrun
  obtain ⟨c, hwrite, -⟩ := writeFile_resized hrun rfl
  have hu := heffect.guarded hv hfile hmap
  rintro ⟨inode'', hread, hle, -⟩
  rw [hu.readInode (hu.changedIn hwrite), Option.some.injEq] at hread
  rw [← hread, heffect.size] at hle
  omega

/-- A file that has grown. -/
theorem keepsSize_of_grow {c : ℕ} {u : Volume} (hsize : size < 2 ^ 64)
    (hlt : iSize inode < wrap32 (size + skip))
    (hclean : skip < 12 * v.blockSize → size + skip < 2 ^ 32 ∧ v.blocksFor (iSize inode) ≤ 12 ∨
        LevelsClear (v.blockSize / 4) v.heapWord 1 3
          (v.blocksFor (wrap32 (size + skip) - iSize inode) - (12 - v.blocksFor (iSize inode))))
    (heffect : GrowEffect v u n inode inode' (wrap32 (size + skip)))
    (hwrite : u.writeInodeBytes n source size skip = some (w, c)) :
    w.KeepsSize n inode (size + skip) (writeResult c) ↔ ¬ Slips v.blockSize size skip
      (v.blocksFor (iSize inode) + v.blocksFor (wrap32 (size + skip) - iSize inode)) := by
  have hnew : wrap32 (size + skip) < 2 ^ 32 := Nat.mod_lt _ (by decide)
  have hnewSize := heffect.size hnew
  have hblockSize := heffect.record.blockSize
  have hu := heffect.record.sound hv.sound
  rcases Nat.lt_or_ge skip (12 * v.blockSize) with hnear | hfar
  swap
  · -- nothing is written
    obtain ⟨rfl, hfail⟩ := writeInodeBytes_of_le hu heffect.read (by rwa [hblockSize]) hwrite
    have hblock := (Nat.le_div_iff_mul_le hv.sound.blockSize_pos).mpr hfar
    rw [writeResult, if_pos (hfail.imp id fun hzero => hzero.le)]
    exact iff_of_true ⟨inode', heffect.read, by omega, fun hok => absurd hok Nat.zero_ne_one⟩
      fun hslips => absurd hslips.2.1 (Nat.not_lt.mpr hblock)
  have hin : size + skip < 2 ^ 32 → w.readInode n = some inode' →
      (w.KeepsSize n inode (size + skip) (writeResult c) ↔ ¬ Slips v.blockSize size skip
        (v.blocksFor (iSize inode) + v.blocksFor (wrap32 (size + skip) - iSize inode))) := by
    intro hsmall hread
    have hwrap : wrap32 (size + skip) = size + skip := Nat.mod_eq_of_lt hsmall
    refine iff_of_true ⟨inode', hread, by omega, fun _ => by omega⟩ fun hslips => ?_
    have := hslips.2.2.2
    omega
  rcases hclean hnear with ⟨hsmall, hold⟩ | hclear
  · -- the range is in the file, which has its blocks in order
    have hown : ∀ j < v.blocksFor (iSize inode), ∀ b, v.InodeIn n b → v.fileBlock inode j ≠ b := by
      rintro j hj b hin rfl
      obtain ⟨b, hin', hb⟩ := (hfile.guarded hv hmap).place
      exact hb ⟨j, hj, hin.unique hin' hv.sound⟩
    have hwrap : wrap32 (size + skip) = size + skip := Nat.mod_eq_of_lt hsmall
    exact hin hsmall ((heffect.exclusive (hfile.fileOn hv hmap) hold hown hlt
      hnew).readInode_of_write (by omega) hwrite)
  · obtain ⟨blocks, hguarded⟩ := heffect.guarded hv hfile hmap hclear
    rcases Nat.lt_or_ge (size + skip) (2 ^ 32) with hsmall | hbig
    · exact hin hsmall (hguarded.readInode (hguarded.changedIn hwrite))
    · have hpast := blocksFor_add_mul_lt hv.sound hbig hlt
      rw [← hblockSize] at hpast ⊢
      exact hguarded.keepsSize_iff_of_past hsize (by omega) hwrite (by omega) (by
        unfold wrap32 at hnewSize
        omega)

/-- What `ext2_write_file` does to the size, where the growth is clean. -/
theorem keepsSize_iff_of_clean (hpath : v.pathToInode path = some n) (hn : n ≠ 0)
    (hmode : ¬ IsDir inode) (hsize : size < 2 ^ 64) (hclean : v.GrowsClean inode (size + skip) skip)
    (hrun : v.writeFile path source size skip = some (w, code)) :
    w.KeepsSize n inode (size + skip) code ↔ ¬ ShrinksBy (iSize inode) (size + skip) ∧
        ¬ Slips v.blockSize size skip (v.blocksAtWrite inode (size + skip)) := by
  rw [writeFile_eq hpath hn hfile.read hmode] at hrun
  have hz := inodeSize_lt inode
  have hwrap32 : wrap32 (size + skip) = (size + skip) % 2 ^ 32 := rfl
  have hwrap : wrap (size + skip) = (size + skip) % 2 ^ 64 := rfl
  by_cases hmore : iSize inode < wrap (size + skip)
  · rw [if_pos hmore] at hrun
    rcases Nat.lt_trichotomy (wrap32 (size + skip)) (iSize inode) with
      hlt | heq | hgt
    · exact iff_of_false (not_keepsSize_of_shrink hv hfile hmap hlt hrun) fun hcond =>
        hcond.1 ⟨hmore, hlt⟩
    · -- the size with 32 bits is the one of the file
      rw [resizeFile, hfile.read] at hrun
      simp only [heq] at hrun
      obtain ⟨c, hwrite, rfl⟩ := writeFile_resized hrun rfl
      rw [keepsSize_of_write hv hfile hmap hsize (.inr (by omega)) hwrite, blocksAtWrite,
        if_pos (.inr heq.le)]
      exact ⟨fun hslips => ⟨fun hshrinks => Nat.ne_of_lt hshrinks.2 heq, hslips⟩, And.right⟩
    · have hnew : wrap32 (size + skip) < 2 ^ 32 := Nat.mod_lt _ (by decide)
      have hon := hfile.fileOn hv hmap
      have hnot : ¬ ShrinksBy (iSize inode) (size + skip) := fun hshrinks =>
        Nat.lt_asymm hgt hshrinks.2
      rw [and_iff_right hnot]
      simp only [blocksAtWrite]
      rw [if_neg (by omega)]
      have hgrow := hon.resizeFile_larger
        ⟨hfile.flushSparesInode hv, fun b hb => hv.spared b (.inl hb)⟩ hgt hnew
      split_ifs at hgrow ⊢ with henough
      · obtain ⟨u, inode', hresize, heffect⟩ := hgrow
        rw [hresize] at hrun
        obtain ⟨c, hwrite, rfl⟩ := writeFile_resized hrun rfl
        exact keepsSize_of_grow hv hfile hmap hsize hgt (hclean hmore hgt henough) heffect hwrite
      · -- the blocks that are free do not suffice
        obtain ⟨u, hresize, hread⟩ := hgrow
        rw [hresize, bind_some, writeResized] at hrun
        obtain ⟨rfl, rfl⟩ := some_inj hrun
        refine iff_of_true ⟨inode, hread, Nat.le_refl _, fun hok => absurd hok Nat.zero_ne_one⟩
          fun hslips => Nat.not_lt_zero _ hslips.2.2.1
  · rw [if_neg hmore] at hrun
    obtain ⟨c, hwrite, rfl⟩ := writeFile_resized hrun rfl
    rw [keepsSize_of_write hv hfile hmap hsize (by omega) hwrite, blocksAtWrite,
      if_pos (.inl (Nat.not_lt.mp hmore))]
    exact ⟨fun hslips => ⟨fun hshrinks => hmore hshrinks.1, hslips⟩, And.right⟩

end WriteFile

/-! ### A volume with a regular file -/

/-- The root directory, in block 6, has an entry `d` for a regular file with inode 3, whose only
block is 7. -/
def oneRegular : Volume :=
  smallVolume 0 7 3 fun x =>
    ([(5249, 0x41#8), (5253, 4#8), (5288, 6#8), (5377, 0x81#8), (5381, 4#8),
      (5416, 7#8), (6144, 3#8),
      (6149, 4#8), (6150, 1#8), (6151, 1#8), (6152, 0x64#8)].lookup x).getD 0#8

namespace oneRegular

/-- The path of the file. -/
def path : Text := [0x2f#8, 0x64#8]

theorem laid : oneRegular.Laid := (smallVolume.formatted (by decide) (by decide) (by decide)).toLaid

theorem blockSize_eq : oneRegular.blockSize = 1024 := by
  rfl

/-- The file has one full block. -/
theorem file : ∃ inode, oneRegular.DataFile 3 inode ∧ oneRegular.BlockMap inode 1 ∧
    iSize inode = 1024 ∧ ¬ IsDir inode := by
  obtain ⟨inode, hread, hsize, hmode, hblock⟩ : ∃ inode, oneRegular.readInode 3 = some inode ∧
      iSize inode = 1024 ∧ ¬ IsDir inode ∧ ∀ i < 15, iBlock inode i = if i = 0 then 7 else 0 := by
    decide +kernel
  have hallocated : oneRegular.Allocated 7 :=
    (smallVolume.allocated_iff (by decide) (by decide)).mpr (by decide)
  have hdata : oneRegular.DataBlock 7 :=
    ⟨hallocated, fun hmeta => absurd (smallVolume.isMeta (by decide) hmeta) (by decide),
      smallVolume.flushSpares (by decide) (by decide)⟩
  have hfirst : iBlock inode 0 = 7 := hblock 0 (by decide)
  refine ⟨inode, dataFile_of_le (smallVolume.isInode_iff.mpr (by decide)) hread
    (by rw [hsize, blockSize_eq]) (by rwa [hfirst]), ⟨?_, fun i hi j hj _ => by omega,
      fun j hj => ?_⟩,
    hsize, hmode⟩
  · refine (stagesHold_iff_of_le _ _ (by decide)).mpr ⟨fun i hi => ?_, fun i hi => ?_⟩
    · rw [hblock i (by omega)]
      split_ifs <;> omega
    · have hin : 12 ≤ i ∧ i < 15 := by
        simp only [mem_cons, not_mem_nil, or_false] at hi
        omega
      rw [hblock i hin.2, if_neg (by omega)]
  · rw [Nat.lt_one_iff.mp hj, fileBlock_of_lt _ _ (by decide), hfirst]
    exact hallocated

end oneRegular

open oneRegular

end Volume

end Bloodmoon
