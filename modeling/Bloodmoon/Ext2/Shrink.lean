import Bloodmoon.Ext2.LoadedList

/-!
# Files that shrink

`ext2_resize_file` with a smaller size loads the list of the blocks and gives back the first ones of
it, as many as there are blocks in the difference of the sizes, and stores the inode with the block
numbers it had. So a call does what it should (`Volume.FileShrunk`) only when no block is to be
given back, and it does then unless the flush at the end overwrites the bitmaps, the inode or its
tables (`resizeFile_shrink_iff`).
-/

namespace Bloodmoon

open Machine List Option

namespace Volume

variable {v u w : Volume} {n b k k' : ℕ} {inode inode' : Bytes} {blocks freed freed' : List ℕ}
variable {newSize size : ℕ}

/-! ### Giving blocks back -/

/-- Blocks have been given back. -/
structure Shrunk (v w : Volume) (freed : List ℕ) : Prop where
  record : SameRecord v w
  allocated : ∀ b, w.Allocated b ↔ v.Allocated b ∧ b ∉ freed
  kept : ∀ b, ¬ v.IsBitmap b → SameOn v.disk.bytes w.disk.bytes (v.blockAddr b) v.blockSize

namespace Shrunk

theorem refl (v : Volume) : Shrunk v v [] := ⟨.refl v, by simp, fun _ _ => .refl _ _ _⟩

theorem trans (h : Shrunk v u freed) (h' : Shrunk u w freed') : Shrunk v w (freed ++ freed') := by
  have hlayout := h.record.toSameLayout
  refine ⟨h.record.trans h'.record, fun b => ?_, fun b hb => ?_⟩
  · rw [h'.allocated, h.allocated, mem_append, not_or, and_assoc]
  · have hkept := h'.kept b (by rwa [hlayout.isBitmap])
    rw [hlayout.blockAddr, hlayout.blockSize] at hkept
    exact (h.kept b hb).trans hkept

theorem requireFlush (h : Shrunk v w freed) : Shrunk v w.requireFlush freed :=
  ⟨h.record.trans ⟨.requireFlush w, rfl, rfl, rfl, rfl, rfl⟩, h.allocated, h.kept⟩

end Shrunk

/-- **`ext2_deallocate_block`** gives a block back. -/
theorem BlockCounts.deallocateBlock (h : v.BlockCounts) (hb : v.Allocated b) :
    (v.deallocateBlock b).2 = 1 ∧ (v.deallocateBlock b).1.BlockCounts ∧
      Shrunk v (v.deallocateBlock b).1 [b] := by
  obtain ⟨g, hg, i, hlow, hi, rfl, hset⟩ := hb
  have hlayout : SameLayout v (v.giveBlock g i) := v.sameLayout_withBit .blocks g i false _ _
  have hbit : OnlyBit v (v.giveBlock g i) .blocks g i false := h.onlyBit_withBit hg hi false _ _
  rw [h.deallocateBlock_eq hg hi hlow hset]
  refine ⟨rfl, h.giveBlock hg hi hlow hset, v.sameRecord_withBit .blocks g i false _ _, fun b => ?_,
    fun b hb => v.sameOn_withBit .blocks g hi false _ _ fun heq => hb ⟨g, hg, heq⟩⟩
  rw [hbit.allocated_iff hlayout hg hi hlow]
  split_ifs with heq <;> simp [heq]

/-- **The loop of `ext2_deallocate_blocks`** gives the first blocks of the list back. -/
theorem BlockCounts.deallocateFrom (h : v.BlockCounts) (hnodup : blocks.Nodup)
    (hk : k ≤ blocks.length) (hblocks : ∀ b ∈ blocks.take k, v.Allocated b) :
    (Volume.deallocateFrom blocks k v).2 = true ∧
      (Volume.deallocateFrom blocks k v).1.BlockCounts ∧
      ∃ freed, Shrunk v (Volume.deallocateFrom blocks k v).1 freed ∧
        ∀ b, b ∈ freed ↔ b ∈ blocks.take k := by
  induction k generalizing v with
  | zero => exact ⟨rfl, h, [], .refl v, by simp⟩
  | succ k ih =>
    have hlt : k < blocks.length := hk
    have htake : blocks.take (k + 1) = blocks.take k ++ [blocks[k]] :=
      take_succ_eq_append_getElem hlt
    simp only [htake, mem_append, mem_singleton] at hblocks ⊢
    obtain ⟨hcode, hcounts, hfirst⟩ := h.deallocateBlock (hblocks _ (.inr rfl))
    -- the last block is not among the ones before it
    have hnotMem : blocks[k] ∉ blocks.take k := by
      have hboth := hnodup.sublist (take_sublist (k + 1) blocks)
      rw [htake] at hboth
      exact fun hmem => (nodup_append.mp hboth).2.2 _ hmem _ (mem_singleton_self _) rfl
    obtain ⟨hok, hcounts', freed, hrest, hmem⟩ := ih hcounts hlt.le fun b hb => by
      rw [hfirst.allocated, mem_singleton]
      exact ⟨hblocks b (.inl hb), fun heq => hnotMem (heq ▸ hb)⟩
    rw [Volume.deallocateFrom, getD_eq_getElem _ _ hlt]
    simp only [hcode]
    refine ⟨hok, hcounts', _, hfirst.trans hrest, fun b => ?_⟩
    rw [mem_append, mem_singleton, hmem, or_comm]

theorem BlockCounts.requireFlush (h : v.BlockCounts) : v.requireFlush.BlockCounts :=
  ⟨(SameLayout.requireFlush v).maps h.toMaps h.high h.count, h.total, h.numbers, h.small⟩

/-- **Giving back the first blocks of a file.** -/
theorem BlockMap.deallocateBlocks {m : ℕ} (hmap : v.BlockMap inode k) (h : v.BlockCounts)
    (hm : m ≤ k) :
    ∃ u freed, v.deallocateBlocks ((List.range k).map (v.fileBlock inode)) m = (u, m) ∧
      u.BlockCounts ∧ Shrunk v u freed ∧ ∀ b, b ∈ freed ↔ ∃ j < m, v.fileBlock inode j = b := by
  have hmem : ∀ b, b ∈ ((List.range k).map (v.fileBlock inode)).take m ↔
      ∃ j < m, v.fileBlock inode j = b := fun b => by
    rw [← map_take, take_range, Nat.min_eq_left hm, List.mem_map]
    simp only [mem_range]
  have hnodup : ((List.range k).map (v.fileBlock inode)).Nodup :=
    nodup_range.map_on fun i hi j hj heq => hmap.inj i (mem_range.mp hi) j (mem_range.mp hj) heq
  have hle : m ≤ ((List.range k).map (v.fileBlock inode)).length := by
    rwa [length_map, length_range]
  obtain ⟨hall, hcounts, freed, hshrunk, hfreed⟩ := h.deallocateFrom hnodup hle fun b hb => by
      obtain ⟨j, hj, rfl⟩ := (hmem b).mp hb
      exact hmap.allocated j (hj.trans_le hm)
  refine ⟨_, freed, ?_, hcounts.requireFlush, hshrunk.requireFlush, fun b =>
    (hfreed b).trans (hmem b)⟩
  rw [Volume.deallocateBlocks, hall, if_pos rfl]

/-! ### Resizing -/

/-- The file has shrunk from `k` to `k'` blocks: the first ones are kept, exactly the others are
free now, and no block number of the inode is that of a block that has become free. -/
structure FileShrunk (v w : Volume) (inode inode' : Bytes) (k k' : ℕ) : Prop where
  kept : ∀ j < k', w.Allocated (v.fileBlock inode j) ∧
    w.fileBlock inode' j = v.fileBlock inode j
  freed : ∀ b, v.Allocated b ∧ w.Free b ↔ ∃ j, k' ≤ j ∧ j < k ∧ v.fileBlock inode j = b
  pointers : ∀ i < 15, ¬ (v.Allocated (iBlock inode' i) ∧ w.Free (iBlock inode' i))

/-- What a call that makes a file smaller does: it stores the block numbers that the inode had, with
the new size, and gives back the first `m` blocks of the file. -/
structure ShrinkEffect (v w : Volume) (n : ℕ) (inode inode' : Bytes) (newSize m : ℕ) : Prop where
  read : w.readInode n = some inode'
  size : iSize inode' = newSize
  blocks : ∀ i < 15, iBlock inode' i = iBlock inode i
  record : SameRecord v w
  allocated : ∀ b, w.Allocated b ↔ v.Allocated b ∧ ∀ j < m, v.fileBlock inode j ≠ b
  tables : ∀ c, v.IsTable n c → v.FlushSpares c →
    ∀ i < v.blockSize / 4, w.diskArray c i = v.diskArray c i

/-- **`ext2_resize_file` with a smaller size** fails only if there is no list of blocks. -/
theorem FileOn.resizeFile_shrink_eq (h : v.FileOn n inode)
    (htables : v.TablesOn inode (v.IsTable n)) (hflush : v.FlushSparesInode n)
    (hsize : newSize < iSize inode) :
    if divideRoundedUp32 (iSize inode) v.blockSize = 0 then
      v.resizeFile n newSize = some (v, ext2ResultError)
    else ∃ w inode', v.resizeFile n newSize = some (w, ext2ResultOk) ∧
      ShrinkEffect v w n inode inode' newSize ((iSize inode - newSize) / v.blockSize) := by
  have hbs := h.space.sound.blockSize_pos
  have hmap := h.map
  have hlt : newSize < 2 ^ 32 := hsize.trans (loadLE_lt inode _ 4)
  simp only [Volume.resizeFile, h.read, if_neg (Nat.ne_of_gt hsize), h.loadBlockList_eq htables]
  split_ifs with hzero
  · rfl
  generalize iSize inode = size at hsize hmap ⊢
  -- the list has the blocks of the file, of which the first ones are given back
  obtain ⟨u, freed, hgive, -, hshrunk, hfreed⟩ := hmap.deallocateBlocks h.space.toBlockCounts
    (m := (size - newSize) / v.blockSize) (Nat.div_le_div_right (by omega))
  simp only [hgive, ne_eq, not_true_eq_false, if_false]
  -- then the inode is stored
  obtain ⟨b, hin, hb, hbitmap⟩ := h.place
  have hrecord := hshrunk.record
  obtain ⟨w', hstore, hstored, hnewSize⟩ := (hrecord.registered h.registered).storeResized
    (hrecord.inodeIn hin) (hrecord.flushSpares_iff.mpr (hflush.place b hin)) inode newSize
  rw [hstore]
  obtain ⟨inode', hread, hblocks⟩ := hstored.read
  obtain ⟨inode'', hread', hnewSize⟩ := hnewSize hlt
  obtain rfl := mem_unique hread hread'
  refine ⟨w', inode', rfl, hread, hnewSize, hblocks, hrecord.trans hstored.record, fun c => ?_,
    fun c hc hspared i hi => ?_⟩
  · have hmaps : ∀ c, u.IsBitmap c → u.FlushSpares c := fun c hc =>
      hrecord.flushSpares_iff.mpr (hflush.bitmaps c (hrecord.isBitmap.mp hc))
    rw [hstored.allocated_iff (by rwa [hrecord.isBitmap]) hmaps, hshrunk.allocated, hfreed]
    simp only [not_exists, not_and]
  · obtain ⟨-, hnot, hplace⟩ := hc
    have hcb : c ≠ b := by
      rintro rfl
      exact hplace hin
    rw [hstored.diskArray_eq hcb (hrecord.flushSpares_iff.mpr hspared)
      (by rwa [hrecord.blockSize]), diskArray, hrecord.blockAddr]
    exact loadLE_congr ((hshrunk.kept c hnot).mono (by omega) (by omega))

theorem FileOn.resizeFile_shrink (h : v.FileOn n inode) (htables : v.TablesOn inode (v.IsTable n))
    (hflush : v.FlushSparesInode n) (hsize : newSize < iSize inode)
    (hok : v.resizeFile n newSize = some (w, ext2ResultOk)) :
    ∃ inode', ShrinkEffect v w n inode inode' newSize ((iSize inode - newSize) / v.blockSize) := by
  have hresize := h.resizeFile_shrink_eq htables hflush hsize
  split_ifs at hresize
  · rw [hresize] at hok
    exact absurd (congrArg Prod.snd (Option.some.inj hok)) Nat.zero_ne_one
  · obtain ⟨w', inode', hresize, heffect⟩ := hresize
    obtain ⟨rfl, -⟩ := some_inj (hresize.symm.trans hok)
    exact ⟨inode', heffect⟩

/-- The blocks that the sizes say are fewer if a block is given back. -/
theorem blocksFor_lt_of_div_pos (hbs : 0 < v.blockSize) (h : 0 < (size - newSize) / v.blockSize) :
    v.blocksFor newSize < v.blocksFor size := by
  have hle : v.blockSize ≤ size - newSize := (Nat.div_pos_iff.mp h).2
  calc v.blocksFor newSize < (newSize + v.blockSize - 1) / v.blockSize + 1 := Nat.lt_succ_self _
    _ = (newSize + v.blockSize - 1 + v.blockSize) / v.blockSize := (Nat.add_div_right _ hbs).symm
    _ ≤ v.blocksFor size := Nat.div_le_div_right (by omega)

/-- The condition under which the file with the inode `n` shrinks right: no block is to be given
back, and the flush that ends the call does no harm. -/
structure ShrinksSafely (v : Volume) (n : ℕ) (inode : Bytes) (newSize : ℕ) : Prop extends
    FlushSparesInode v n where
  count : v.blocksFor newSize = v.blocksFor (iSize inode)
  tables : v.TablesOn inode fun b => v.IsTable n b ∧ v.FlushSpares b

/-- **When a file shrinks right.** A call of `ext2_resize_file` that reports success takes away the
blocks behind the smaller size, and no others, under the condition, and only when there are none
where the flush spares the inode and the bitmaps. -/
theorem resizeFile_shrink_iff {newSize : ℕ} (h : v.FileOn n inode)
    (htables : v.TablesOn inode (v.IsTable n)) (hsize : newSize < iSize inode)
    (hok : v.resizeFile n newSize = some (w, ext2ResultOk)) :
    (v.ShrinksSafely n inode newSize →
      ∃ inode', w.readInode n = some inode' ∧ FileShrunk v w inode inode'
        (v.blocksFor (iSize inode)) (v.blocksFor newSize)) ∧
    (v.FlushSparesInode n →
      (∃ inode', w.readInode n = some inode' ∧ FileShrunk v w inode inode'
        (v.blocksFor (iSize inode)) (v.blocksFor newSize)) →
      v.blocksFor newSize = v.blocksFor (iSize inode)) := by
  have hbs := h.space.sound.blockSize_pos
  have hmap := h.map
  have hnone : ∀ {inode' m}, ShrinkEffect v w n inode inode' newSize m → m = 0 →
      (∀ b, w.Allocated b ↔ v.Allocated b) ∧ ∀ b, ¬ (v.Allocated b ∧ w.Free b) := by
    rintro inode' m heffect rfl
    have hsame : ∀ b, w.Allocated b ↔ v.Allocated b := fun b => by
      rw [heffect.allocated]
      exact and_iff_left fun j hj => absurd hj (Nat.not_lt_zero j)
    exact ⟨hsame, fun b hb => hb.2.not_allocated ((hsame b).mpr hb.1)⟩
  constructor
  · intro hright
    obtain ⟨inode', heffect⟩ := h.resizeFile_shrink htables hright.toFlushSparesInode hsize hok
    have hcount := hright.count
    have htables' := hright.tables
    unfold TablesOn at htables'
    generalize iSize inode = size at hsize heffect hmap hcount htables' ⊢
    obtain ⟨hsame, hnone⟩ := hnone heffect (Nat.eq_zero_of_not_pos fun hfreed =>
      Nat.ne_of_lt (blocksFor_lt_of_div_pos hbs hfreed) hcount)
    refine ⟨inode', heffect.read, fun j hj => ⟨?_, ?_⟩, fun b => ?_, fun i _ => hnone _⟩
    · exact (hsame _).mpr (hmap.allocated j (by omega))
    · obtain ⟨hin, hblock⟩ := (htables' j (by omega)).congr fun c hc => heffect.tables c hc.1 hc.2
      have hblock' := (hin.congr_stages (forall₂_inodeStages heffect.blocks)).2
      rw [fileBlock, fileBlock, heffect.record.blockSize, hblock', hblock]
    · refine iff_of_false (hnone b) ?_
      rintro ⟨j, hge, hlt, -⟩
      omega
  · rintro hflush ⟨inode'', hread, hshrunk⟩
    obtain ⟨inode', heffect⟩ := h.resizeFile_shrink htables hflush hsize hok
    generalize iSize inode = size at hsize heffect hmap hshrunk ⊢
    have hle : v.blocksFor newSize ≤ v.blocksFor size := Nat.div_le_div_right (by omega)
    rcases Nat.eq_zero_or_pos ((size - newSize) / v.blockSize) with hzero | hfreed
    · -- nothing has been given back
      refine Nat.le_antisymm hle (Nat.not_lt.mp fun hlt => ?_)
      exact (hnone heffect hzero).2 _ ((hshrunk.freed _).mpr ⟨_, Nat.le_refl _, hlt, rfl⟩)
    · -- the first block has been given back, and the inode still has its number
      have hfirst : iBlock inode'' 0 = v.fileBlock inode 0 := by
        rw [← mem_unique heffect.read hread, heffect.blocks 0 (by decide),
          fileBlock_of_lt _ _ (by decide)]
      have hall := hmap.allocated 0 (Nat.div_pos (by omega) hbs)
      have hfree : w.Free (v.fileBlock inode 0) :=
        (heffect.record.free_or_allocated.mpr (.inr hall)).resolve_right fun hstill =>
          ((heffect.allocated _).mp hstill).2 0 hfreed rfl
      exact absurd ⟨hfirst ▸ hall, hfirst ▸ hfree⟩ (hshrunk.pointers 0 (by decide))

/-- The file has no tables. -/
theorem oneBlockFile.tablesOn (h : size = 1 ∨ size = 1024) (tables : ℕ → Prop) :
    (oneBlockFile size).TablesOn (oneBlockInode size) tables := by
  intro j hj
  rw [blocksFor_size h] at hj
  have hall := (blockMap h).allocated j hj
  rw [fileBlock_of_lt _ _ (by omega)] at hall
  rw [inodeStages_eq, StagesIn, leaves_direct, if_pos (by omega)]
  exact hall

/-- A file of a full block keeps it when it shrinks to one byte. -/
theorem resizeFile_shrink_oneBlock : ∃ w inode',
    (oneBlockFile 1024).resizeFile 1 1 = some (w, ext2ResultOk) ∧
      w.readInode 1 = some inode' ∧
        FileShrunk (oneBlockFile 1024) w (oneBlockInode 1024) inode' 1 1 := by
  obtain ⟨⟨w, _⟩, hok, rfl⟩ : ∃ r, (oneBlockFile 1024).resizeFile 1 1 = some r ∧
      r.2 = ext2ResultOk := by
    decide +kernel
  have hsize : iSize (oneBlockInode 1024) = 1024 := by decide +kernel
  have hblocks : (oneBlockFile 1024).blocksFor 1024 = 1 := by decide
  have hblocks' : (oneBlockFile 1024).blocksFor 1 = 1 := by decide
  have hshrink := resizeFile_shrink_iff (oneBlockFile.fileOn (.inr rfl))
    (oneBlockFile.tablesOn (.inr rfl) _) (by decide) hok
  obtain ⟨inode', hread, hshrunk⟩ := hshrink.1
    ⟨oneBlockFile.flushSparesInode 1024, by rw [hsize, hblocks, hblocks'],
      oneBlockFile.tablesOn (.inr rfl) _⟩
  exact ⟨w, inode', hok, hread, hshrunk⟩

/-- When a file of one block shrinks to nothing, the block is given back, but the inode still has
its number. -/
theorem resizeFile_shrink_dangling :
    (oneBlockFile 1024).FileOn 1 (oneBlockInode 1024) ∧
      (oneBlockFile 1024).TablesOn (oneBlockInode 1024) ((oneBlockFile 1024).IsTable 1) ∧
      iSize (oneBlockInode 1024) = 1024 ∧ ∃ w,
        (oneBlockFile 1024).resizeFile 1 0 = some (w, ext2ResultOk) ∧
          ¬ ∃ inode', w.readInode 1 = some inode' ∧ FileShrunk (oneBlockFile 1024) w
            (oneBlockInode 1024) inode' ((oneBlockFile 1024).blocksFor 1024)
              ((oneBlockFile 1024).blocksFor 0) := by
  obtain ⟨⟨w, _⟩, hok, inode, hinode, rfl, hblock, hgroup, hfree⟩ :
      ∃ r, (oneBlockFile 1024).resizeFile 1 0 = some r ∧ ∃ inode, r.1.readInode 1 = some inode ∧
      r.2 = ext2ResultOk ∧ iBlock inode 0 = 7 ∧ 0 < r.1.groupNumber ∧
      6 < r.1.sbGet .blocksPerGroup ∧ 6 < 8 * r.1.blockSize ∧ 7 = r.1.blockNumber 0 6 ∧
      r.1.mapBit .blocks 0 6 = false := by
    decide +kernel
  refine ⟨oneBlockFile.fileOn (.inr rfl), oneBlockFile.tablesOn (.inr rfl) _, by decide +kernel,
    w, hok, ?_⟩
  rintro ⟨inode', hinode', hshrunk⟩
  -- block 7 is free, and it is the first block number of the inode
  refine hshrunk.pointers 0 (by decide) ?_
  rw [← mem_unique hinode hinode', hblock]
  exact ⟨oneBlockFile.allocated_iff.mpr (by decide), 0, hgroup, 6, hfree⟩

end Volume

end Bloodmoon
