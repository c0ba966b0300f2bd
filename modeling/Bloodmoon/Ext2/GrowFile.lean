import Bloodmoon.Ext2.BlockSearch
import Bloodmoon.Ext2.Grow
import Bloodmoon.Ext2.StoredInode

/-!
# Files that grow

`ext2_resize_file` with a larger size. A file that grows right (`Volume.FileGrown`) has as many
blocks as its new size says, the old ones first, and the new ones were free. The code gets there
only for a file without indirect blocks, since it makes new trees where the inode already has some;
only if the blocks for the difference of the sizes are the difference of the blocks; and only if the
memory from which the tables are written is zero behind their entries (`GrowsRight`). That is enough
where the numbers that the driver gives to the bits are those of ext2, and where the flush at the
end does not overwrite what has been stored (`resizeFile_grow_iff`).
-/

namespace Bloodmoon

open Machine List Option

namespace Volume

variable {v u w : Volume} {n b : ℕ} {inode inode' inode'' : Bytes} {old new add j : ℕ}
  {taken direct indirect : List ℕ}

/-- The block is free in an ext2 partition: the bit that is clear is its own. -/
structure Vacant (v : Volume) (b : ℕ) : Prop where
  first : v.sbGet .firstSbBlock ≤ b
  group : (v.ext2Bit b).1 < v.groupNumber
  clear : v.mapBit .blocks (v.ext2Bit b).1 (v.ext2Bit b).2 = false

/-- The driver numbers the bits as ext2 does if the first block is block 1. -/
theorem Free.vacant (hb : v.Free b) (hone : v.sbGet .firstSbBlock = 1) : v.Vacant b := by
  obtain ⟨g, hg, i, hi, -, rfl, hclear⟩ := hb
  have hbit : v.ext2Bit (v.blockNumber g i) = (g, i) := by
    rw [ext2Bit, hone, blockNumber, Nat.add_sub_cancel, mul_add_div_of_lt hi,
      Nat.mul_add_mod_of_lt hi]
  refine ⟨?_, ?_, ?_⟩
  · rw [hone]
    exact Nat.succ_pos _
  · rwa [hbit]
  · rwa [hbit]

/-- The file has grown from `k` to `k'` blocks. -/
structure FileGrown (v w : Volume) (inode inode' : Bytes) (k k' : ℕ) : Prop where
  map : w.BlockMap inode' k'
  kept : ∀ j < k, w.fileBlock inode' j = v.fileBlock inode j
  free : ∀ j, k ≤ j → j < k' → v.Vacant (w.fileBlock inode' j)

namespace BlocksAdded

variable (h : BlocksAdded v w inode inode' old add taken direct indirect)

include h

section

variable (hv : v.Sound) (hsize : w.blockSize = v.blockSize)

include hv hsize

/-- The blocks of the new trees. -/
theorem indirect_leaf {m : ℕ} (hm : m < indirect.length) :
    StagesIn w.diskArray (w.blockSize / 4) (TakenTable taken (direct ++ indirect)) (· ∈ indirect)
      (inodeStages inode') (12 + m) ∧
      indirect[m]? = some (w.fileBlock inode' (12 + m)) := by
  have hleaf := h.levels.leaf hv.entries_pos hm
  have hlt : ¬ 12 + m < 12 := by omega
  rw [fileBlock, inodeStages_eq, hsize, StagesIn, stagesBlock, leaves_direct,
    if_neg hlt, if_neg hlt, Nat.add_sub_cancel_left]
  exact hleaf

/-- **The blocks that have been added** follow the old ones, of a file with direct blocks only. -/
theorem leaf (hold : old ≤ 12) (hj : j < add) :
    StagesIn w.diskArray (w.blockSize / 4) (TakenTable taken (direct ++ indirect))
      (· ∈ direct ++ indirect) (inodeStages inode') (old + j) ∧
      (direct ++ indirect)[j]? = some (w.fileBlock inode' (old + j)) := by
  have hlen := h.length
  have hlen' := h.length_direct
  rcases Nat.lt_or_ge j direct.length with hlt | hge
  · have hblock : iBlock inode' (old + j) = direct[j] := by
      rw [h.direct (old + j) (by omega), if_neg (by omega), Nat.add_sub_cancel_left,
        getD_eq_getElem _ _ hlt]
    have hj' : old + j < 12 := by omega
    rw [fileBlock_of_lt _ _ hj', hblock, getElem?_append_left hlt,
      getElem?_eq_getElem hlt, inodeStages_eq, StagesIn, leaves_direct, if_pos hj']
    refine ⟨?_, rfl⟩
    change iBlock inode' (old + j) ∈ direct ++ indirect
    rw [hblock]
    exact mem_append_left _ (getElem_mem hlt)
  · have hleaf := h.indirect_leaf hv hsize (m := j - direct.length) (by omega)
    rw [show 12 + (j - direct.length) = old + j by omega] at hleaf
    rw [getElem?_append_right hge]
    exact ⟨hleaf.1.mono (fun _ hb => hb) fun _ hb => mem_append_right _ hb, hleaf.2⟩

end

/-- The direct blocks are those of the file. -/
theorem iBlock_iff (hmap : v.BlockMap inode old) {i : ℕ} (hi : i < 12) :
    iBlock inode' i ≠ 0 ↔ i < old + add := by
  have hlen := h.length
  have hlen' := h.length_direct
  rw [h.direct i hi]
  split_ifs with hlt
  · rw [hmap.iBlock_iff i hi]
    omega
  · rcases Nat.lt_or_ge (i - old) direct.length with hin | hout
    · rw [getD_eq_getElem _ _ hin]
      have hfree := h.free _ (h.sub.subset (mem_append_left _ (getElem_mem hin)))
      exact ⟨fun _ => by omega, fun _ => hfree.ne_zero⟩
    · rw [getD_eq_default _ _ hout]
      exact ⟨fun hne => absurd rfl hne, fun _ => by omega⟩

section

variable (hv : v.Sound) (hsize : w.blockSize = v.blockSize)

include hv hsize

/-- The block map is exact if the memory of the tables was zero behind their entries. -/
theorem stagesHold_iff (hmap : v.BlockMap inode old) (hold : old ≤ 12) :
    StagesHold w.diskArray (w.blockSize / 4) (inodeStages inode') (old + add) ↔
      LevelsClear (v.blockSize / 4) v.heapWord 1 3 (old + add - 12) := by
  have hlen := h.length
  have hlen' := h.length_direct
  have hlevels := h.levels.stagesHold_iff hv.entries_pos (fun b hb => (h.free b hb.1).ne_zero)
    (fun b hb => (h.free b (h.sub.subset (mem_append_right _ hb))).ne_zero)
    ((stagesHold_iff_of_le _ _ hold).mp hmap.holds).2
  have hdirect : HoldsLeaves w.diskArray (v.blockSize / 4) 0 (iBlock inode') 12 (old + add) :=
    fun i hi => h.iBlock_iff hmap hi
  rw [inodeStages_eq, hsize, StagesHold, leaves_direct,
    show old + add - 12 = indirect.length by omega, hlevels]
  exact ⟨fun hboth => hboth.2, fun hclear => ⟨hdirect, hclear⟩⟩

end

/-- The old blocks of a file with direct blocks only. -/
theorem fileBlock_of_lt_old (hold : old ≤ 12) (hj : j < old) :
    w.fileBlock inode' j = v.fileBlock inode j := by
  rw [fileBlock_of_lt _ _ (by omega), fileBlock_of_lt _ _ (by omega), h.direct j (by omega),
    if_pos hj]

section

variable (hv : v.Sound) (hsize : w.blockSize = v.blockSize)

include hv hsize

/-- The new ones. -/
theorem getElem?_of_le (hold : old ≤ 12) (hj : old ≤ j) (hj' : j < old + add) :
    (direct ++ indirect)[j - old]? = some (w.fileBlock inode' j) := by
  have hleaf := (h.leaf hv hsize hold (j := j - old) (by omega)).2
  rwa [Nat.add_sub_cancel' hj] at hleaf

theorem free_of_le (hold : old ≤ 12) (hj : old ≤ j) (hj' : j < old + add) :
    v.Free (w.fileBlock inode' j) :=
  h.free _ (h.sub.subset (mem_of_getElem? (h.getElem?_of_le hv hsize hold hj hj')))

/-- **No two blocks are the same**: an old block is allocated and a new one was free, and the new
ones are distinct. -/
theorem inj (hmap : v.BlockMap inode old) (hold : old ≤ 12) {i j : ℕ} (hi : i < old + add)
    (hj : j < old + add) (heq : w.fileBlock inode' i = w.fileBlock inode' j) : i = j := by
  have hlen := h.length
  have hapart : ∀ {i j}, i < old → old ≤ j → j < old + add →
      w.fileBlock inode' i ≠ w.fileBlock inode' j := by
    intro i j hi hj hj' heq
    rw [h.fileBlock_of_lt_old hold hi] at heq
    exact (h.free_of_le hv hsize hold hj hj').not_allocated (heq ▸ hmap.allocated i hi)
  rcases Nat.lt_or_ge i old with hi' | hi' <;> rcases Nat.lt_or_ge j old with hj' | hj'
  · rw [h.fileBlock_of_lt_old hold hi', h.fileBlock_of_lt_old hold hj'] at heq
    exact hmap.inj i hi' j hj' heq
  · exact absurd heq (hapart hi' hj' hj)
  · exact absurd heq.symm (hapart hj' hi' hi)
  · have hi'' := h.getElem?_of_le hv hsize hold hi' hi
    rw [heq, ← h.getElem?_of_le hv hsize hold hj' hj] at hi''
    have hij := (getElem?_inj (by rw [length_append]; omega) (h.nodup.sublist h.sub)).mp hi''
    omega

/-- A file that has grown right had direct blocks only, and the heap was zero where it must be. -/
theorem of_fileGrown (hmap : v.BlockMap inode old) (hadd : 0 < add) (hle : old ≤ new)
    (hnew : new ≤ old + add) (hgrown : FileGrown v w inode inode' old new) :
    old ≤ 12 ∧ old + add = new ∧ LevelsClear (v.blockSize / 4) v.heapWord 1 3 (new - 12) := by
  have hlen := h.length
  have hlen' := h.length_direct
  have hentries : 0 < w.blockSize / 4 := hsize ▸ hv.entries_pos
  have hold : old ≤ 12 := by
    refine Nat.not_lt.mp fun hlt => ?_
    -- the number of the first indirect block has been overwritten
    obtain ⟨-, hleaf⟩ := h.indirect_leaf hv hsize (m := 0) (by omega)
    have hnew : v.Free (w.fileBlock inode' 12) :=
      h.free _ (h.sub.subset (mem_append_right _ (mem_of_getElem? hleaf)))
    rw [hgrown.kept 12 hlt] at hnew
    exact hnew.not_allocated (hmap.allocated 12 hlt)
  have hcount : old + add = new := by
    refine (Nat.le_antisymm hnew (Nat.not_lt.mp fun hlt => ?_)).symm
    -- one block too many can be reached
    obtain ⟨hin, -⟩ := h.leaf hv hsize hold (j := new - old) (by omega)
    rw [Nat.add_sub_cancel' hle] at hin
    have hne := hin.mono (fun b hb => (h.free b hb.1).ne_zero)
      fun b hb => (h.free b (h.sub.subset hb)).ne_zero
    exact Nat.lt_irrefl new ((hgrown.map.holds.stagesIn_iff hentries).mp hne)
  rw [← hcount]
  exact ⟨hold, rfl, (h.stagesHold_iff hv hsize hmap hold).mp (hcount ▸ hgrown.map.holds)⟩

/-- And such a file grows right. -/
theorem fileGrown (hmap : v.BlockMap inode old) (hold : old ≤ 12)
    (hclear : LevelsClear (v.blockSize / 4) v.heapWord 1 3 (old + add - 12))
    (hvacant : ∀ b, v.Free b → v.Vacant b) : FileGrown v w inode inode' old (old + add) := by
  have hkept : ∀ j < old, w.fileBlock inode' j = v.fileBlock inode j := fun j hj =>
    h.fileBlock_of_lt_old hold hj
  have hadded := fun {j} hj hj' => h.getElem?_of_le hv hsize hold (j := j) hj hj'
  refine ⟨⟨(h.stagesHold_iff hv hsize hmap hold).mpr hclear,
    fun i hi j hj heq => h.inj hv hsize hmap hold hi hj heq, fun j hj => ?_⟩, hkept,
    fun j hj hj' => hvacant _ (h.free_of_le hv hsize hold hj hj')⟩
  rw [h.allocated]
  rcases Nat.lt_or_ge j old with hj' | hj'
  · exact .inl (hkept j hj' ▸ hmap.allocated j hj')
  · exact .inr (h.sub.subset (mem_of_getElem? (hadded hj' hj)))

end

/-- The added blocks are still there when the inode has been stored. -/
theorem stored (hbitmaps : ∀ c, v.IsBitmap c → v.FlushSpares c)
    (hfree : ∀ c, v.Free c → v.FlushSpares c) (hrecord : SameRecord v w) (hb : v.Allocated b)
      (hmap : ¬ v.IsBitmap b) (hstored : Stored w u n b inode')
    (hblocks : ∀ k < 15, iBlock inode'' k = iBlock inode' k) :
    BlocksAdded v u inode inode'' old add taken direct indirect := by
  have hspared : ∀ {c}, v.FlushSpares c → w.FlushSpares c := hrecord.flushSpares_iff.mpr
  refine ⟨⟨fun c => ?_, h.free, h.nodup⟩, h.sub, h.length, h.length_direct,
    h.levels.congr (fun c hc i hi => ?_) (fun _ hc => hc) (fun _ hc => hc) (fun _ _ => rfl)
      fun k hk => ?_, fun k hk => ?_⟩
  · rw [hstored.allocated_iff (by rwa [hrecord.isBitmap])
      fun c hc => hspared (hbitmaps c (hrecord.isBitmap.mp hc)), h.allocated]
  · have hcb : c ≠ b := by
      rintro rfl
      exact (h.free c hc.1).not_allocated hb
    exact hstored.diskArray_eq hcb (hspared (hfree c (h.free c hc.1))) (by rwa [hrecord.blockSize])
  · simp only [mem_cons, not_mem_nil, or_false] at hk
    exact hblocks k (by omega)
  · rw [hblocks k (by omega), h.direct k hk]

end BlocksAdded

/-! ### Resizing -/

/-- What a file of the given size and the heap must be for the file to grow right. -/
structure GrowsRight (v : Volume) (size newSize : ℕ) : Prop where
  direct : v.blocksFor size ≤ 12
  count : v.blocksFor size + v.blocksFor (newSize - size) = v.blocksFor newSize
  heap : LevelsClear (v.blockSize / 4) v.heapWord 1 3 (v.blocksFor newSize - 12)

/-- A flush writes neither to the inode `n` nor to a bitmap or a free block. -/
structure FlushSparesGrowth (v : Volume) (n : ℕ) : Prop extends FlushSparesInode v n where
  free : ∀ b, v.Free b → v.FlushSpares b

/-- The condition under which the file with the inode `n` grows right: besides, the blocks that are
free for the driver are free, and the flush that ends the call does no harm. -/
structure GrowsSafely (v : Volume) (n size newSize : ℕ) : Prop extends
    GrowsRight v size newSize, FlushSparesGrowth v n where
  numbering : ∀ b, v.Free b → v.Vacant b

section Count

variable {x y : ℕ}

/-- The blocks of a file do not become fewer, and not more than those of the part that is added. -/
theorem blocksFor_add_le (hbs : 0 < v.blockSize) (hxy : x ≤ y) :
    v.blocksFor x ≤ v.blocksFor y ∧ v.blocksFor y ≤ v.blocksFor x + v.blocksFor (y - x) := by
  have hx := le_blocksFor_mul hbs x
  have hy := le_blocksFor_mul hbs (y - x)
  refine ⟨Nat.div_le_div_right (by omega), ?_⟩
  rw [blocksFor, Nat.div_le_iff_le_mul_add_pred hbs, Nat.mul_comm, Nat.add_mul]
  omega

end Count

/-- What a call that makes a file larger does: it stores the new size, and adds the blocks for the
difference. -/
structure GrowEffect (v w : Volume) (n : ℕ) (inode inode' : Bytes) (newSize : ℕ) : Prop where
  read : w.readInode n = some inode'
  size : newSize < 2 ^ 32 → iSize inode' = newSize
  record : SameRecord v w
  tables : ∀ c, v.IsTable n c → v.FlushSpares c →
    ∀ i < v.blockSize / 4, w.diskArray c i = v.diskArray c i
  added : ∃ taken direct indirect, BlocksAdded v w inode inode' (v.blocksFor (iSize inode))
    (v.blocksFor (newSize - iSize inode)) taken direct indirect

/-- **`ext2_resize_file` with a larger size.** -/
theorem FileOn.resizeFile_grow {newSize : ℕ} (h : v.FileOn n inode)
    (hflush : v.FlushSparesGrowth n) (hsize : iSize inode < newSize) :
    let r := v.allocateBlocks inode (v.blocksFor (newSize - iSize inode))
    (r.2.2 = 0 ∧ ∃ w inode', v.resizeFile n newSize = some (w, ext2ResultOk) ∧
      GrowEffect v w n inode inode' newSize) ∨
    r.2.2 ≠ 0 ∧ v.resizeFile n newSize = some (r.1, ext2ResultError) := by
  rw [resizeFile_of_lt h.space.sound.blockSize_pos h.read hsize]
  obtain ⟨b, hin, hb, hbitmap⟩ := h.place
  have hadded := h.space.allocateBlocks h.map.iBlock_iff (v.blocksFor (newSize - iSize inode))
  generalize v.allocateBlocks inode (v.blocksFor (newSize - iSize inode)) = r at hadded ⊢
  by_cases hcode : r.2.2 = 0
  swap
  · exact .inr ⟨hcode, if_pos hcode⟩
  -- the allocation has succeeded
  refine .inl ⟨hcode, ?_⟩
  rw [if_neg (not_not.mpr hcode)]
  obtain ⟨-, taken, direct, indirect, hgrown, hadded, -⟩ :=
    hadded.resolve_right fun hfail => hfail.1 hcode
  -- and the inode is stored
  have hregistered := hgrown.record.registered h.registered
  have hin' := hgrown.record.inodeIn hin
  have hspares' := hgrown.record.flushSpares_iff.mpr (hflush.place b hin)
  obtain ⟨u, hstore, hstored, hnewSize⟩ := hregistered.storeResized hin' hspares' r.2.1 newSize
  rw [hstore]
  obtain ⟨inode', hread, hblocks⟩ := hstored.read
  refine ⟨u, inode', rfl, hread, fun hlt => ?_, hgrown.record.trans hstored.record,
    fun c hc hspared i hi => ?_, taken, direct, indirect,
    hadded.stored hflush.bitmaps hflush.free hgrown.record hb hbitmap hstored hblocks⟩
  · obtain ⟨inode'', hread', heq⟩ := hnewSize hlt
    rwa [mem_unique hread hread']
  · obtain ⟨hall, hnot, hplace⟩ := hc
    have hcb : c ≠ b := by
      rintro rfl
      exact hplace hin
    rw [hstored.diskArray_eq hcb (hgrown.record.flushSpares_iff.mpr hspared)
      (by rwa [hgrown.record.blockSize]), hgrown.diskArray_eq hall hnot hi]

/-- **When a file grows right.** A call of `ext2_resize_file` that reports success leaves the file
with the blocks of the larger size under the condition, and only for such a file and such a heap
where the flush does no harm. -/
theorem resizeFile_grow_iff {newSize : ℕ} (h : v.FileOn n inode) (hsize : iSize inode < newSize)
    (hok : v.resizeFile n newSize = some (w, ext2ResultOk)) :
    (v.GrowsSafely n (iSize inode) newSize →
      ∃ inode', w.readInode n = some inode' ∧ FileGrown v w inode inode'
        (v.blocksFor (iSize inode)) (v.blocksFor newSize)) ∧
    (v.FlushSparesGrowth n →
      (∃ inode', w.readInode n = some inode' ∧ FileGrown v w inode inode'
        (v.blocksFor (iSize inode)) (v.blocksFor newSize)) →
      v.GrowsRight (iSize inode) newSize) := by
  have hbs := h.space.sound.blockSize_pos
  have heffect : v.FlushSparesGrowth n → ∃ inode', GrowEffect v w n inode inode' newSize := by
    intro hflush
    rcases h.resizeFile_grow hflush hsize with ⟨-, w', inode', hresize, heffect⟩ | ⟨-, hresize⟩
    · obtain ⟨rfl, -⟩ := some_inj (hresize.symm.trans hok)
      exact ⟨inode', heffect⟩
    · exact absurd (some_inj (hresize.symm.trans hok)).2 Nat.zero_ne_one
  constructor
  · intro hright
    obtain ⟨inode', hread, -, hrecord, -, taken, direct, indirect, hadded⟩ :=
      heffect hright.toFlushSparesGrowth
    have hheap := hright.heap
    rw [← hright.count] at hheap ⊢
    exact ⟨inode', hread, hadded.fileGrown h.space.sound hrecord.blockSize h.map hright.direct hheap
      hright.numbering⟩
  · rintro hflush ⟨inode'', hread', hfile⟩
    obtain ⟨inode', hread, -, hrecord, -, taken, direct, indirect, hadded⟩ := heffect hflush
    rw [hread, Option.some.injEq] at hread'
    obtain ⟨hle, hnew⟩ := blocksFor_add_le hbs hsize.le
    have hadd : 0 < v.blocksFor (newSize - iSize inode) :=
      Nat.div_pos (by omega) hbs
    obtain ⟨hold, hcount, hclear⟩ := hadded.of_fileGrown h.space.sound hrecord.blockSize h.map hadd
      hle hnew (hread' ▸ hfile)
    exact ⟨hold, hcount, hclear⟩

theorem oneBlockFile.flushSparesGrowth (size : ℕ) : (oneBlockFile size).FlushSparesGrowth 1 := by
  refine ⟨flushSparesInode size, fun b hfree => flushSpares size ?_⟩
  refine Nat.not_lt.mp fun hlt => hfree.not_allocated (allocated_iff.mpr ?_)
  have := hfree.ne_zero
  omega

/-- A file of one full block grows to two blocks. -/
theorem resizeFile_grow_oneBlock : ∃ w inode',
    (oneBlockFile 1024).resizeFile 1 2048 = some (w, ext2ResultOk) ∧
      w.readInode 1 = some inode' ∧
        FileGrown (oneBlockFile 1024) w (oneBlockInode 1024) inode' 1 2 := by
  obtain ⟨⟨w, _⟩, hok, rfl⟩ : ∃ r, (oneBlockFile 1024).resizeFile 1 2048 = some r ∧
      r.2 = ext2ResultOk := by
    decide +kernel
  have hsize : iSize (oneBlockInode 1024) = 1024 := by decide +kernel
  have hgrow := resizeFile_grow_iff (oneBlockFile.fileOn (.inr rfl)) (by decide) hok
  rw [hsize] at hgrow
  obtain ⟨inode', hread, hgrown⟩ := hgrow.1 ⟨⟨by decide, by decide, by exact levelsClear_zero 3⟩,
    oneBlockFile.flushSparesGrowth 1024, fun b hb => hb.vacant (by decide)⟩
  exact ⟨w, inode', hok, hread, hgrown⟩

/-- A file of one byte gets a second block for its second byte. -/
theorem resizeFile_grow_secondByte :
    (oneBlockFile 1).FileOn 1 (oneBlockInode 1) ∧ iSize (oneBlockInode 1) = 1 ∧ ∃ w,
        (oneBlockFile 1).resizeFile 1 2 = some (w, ext2ResultOk) ∧
          ¬ ∃ inode', w.readInode 1 = some inode' ∧ FileGrown (oneBlockFile 1) w (oneBlockInode 1)
            inode' ((oneBlockFile 1).blocksFor 1) ((oneBlockFile 1).blocksFor 2) := by
  obtain ⟨⟨w, _⟩, hok, inode, hinode, rfl, hblock⟩ : ∃ r, (oneBlockFile 1).resizeFile 1 2 = some r ∧
      ∃ inode, r.1.readInode 1 = some inode ∧ r.2 = ext2ResultOk ∧ iBlock inode 1 = 9 := by
    decide +kernel
  refine ⟨oneBlockFile.fileOn (.inl rfl), by decide +kernel, w, hok, ?_⟩
  rintro ⟨inode', hinode', hgrown⟩
  -- one block is enough for two bytes
  have hsecond := hgrown.map.iBlock_iff 1 (by decide)
  rw [← mem_unique hinode hinode', hblock] at hsecond
  exact absurd (hsecond.mp (by decide)) (by decide)

end Volume

end Bloodmoon
