import Bloodmoon.Ext2.DeleteEntry
import Bloodmoon.Ext2.NewDirectory
import Bloodmoon.Ext2.Shrink

/-!
# Files that share no block

Who a block belongs to is said by a function of the block number (`owner`). The blocks of a file,
and the tables on the way to them, belong to its inode (`Volume.OwnedFile`). A step that touches
blocks of one file keeps all others (`OwnedFile.of_touches`).

`ext2_delete_file` gives back the blocks of a file and clears its inode. The tables stay in use, and
the bitmap of the inodes and its counters do not agree any more (`Laid.deleteInode`); the layout of
the volume is kept.
-/

namespace Bloodmoon

open Machine BitArray List

namespace Volume

variable {v u w : Volume} {owner owner' : ℕ → ℕ} {n t b g : ℕ} {inode inode' : Bytes}
  {blocks inodes : Set ℕ}

/-! ### Files with blocks of their own -/

/-- The blocks of the file and the tables on the way to them belong to it, and there are exactly
those that its size says. -/
structure OwnedFile (v : Volume) (owner : ℕ → ℕ) (n : ℕ) (inode : Bytes) : Prop extends
    v.DataFile n inode where
  owned : ∀ j, v.HasBlock inode j → StagesIn v.diskArray (v.blockSize / 4)
    (fun b => v.DataBlock b ∧ owner b = n ∧ ¬ v.IsData inode b)
    (fun b => v.DataBlock b ∧ owner b = n)
    (inodeStages inode) j
  holds : iSize inode ≠ 0 → StagesHold v.diskArray (v.blockSize / 4)
    (inodeStages inode) (v.blocksFor (iSize inode))

/-- A file without bytes has no blocks. -/
theorem ownedFile_of_empty (owner : ℕ → ℕ) (hn : v.IsInode n) (hread : v.readInode n = some inode)
    (hsize : iSize inode = 0) : v.OwnedFile owner n inode := by
  have hnone : ∀ j, ¬ v.HasBlock inode j := fun j hj => by
    rw [HasBlock, hsize] at hj
    exact Nat.not_lt_zero _ hj
  exact ⟨⟨hn, hread, fun j hj => absurd hj (hnone j), fun i _ hi => absurd hi (hnone i)⟩,
    fun j hj => absurd hj (hnone j), fun hne => absurd hsize hne⟩

/-- A file of one block that has no other. -/
theorem ownedFile_of_one (hv : v.Sound) (hfile : v.DataFile n inode)
    (hsize : iSize inode = v.blockSize) (howner : owner (iBlock inode 0) = n)
    (hothers : ∀ k < 15, k ≠ 0 → iBlock inode k = 0) : v.OwnedFile owner n inode := by
  have hone : v.blocksFor (iSize inode) = 1 :=
    hsize ▸ blocksFor_self hv.blockSize_pos
  have hzero : ∀ {j}, v.HasBlock inode j → j = 0 := fun hj => by
    rw [hv.hasBlock_iff] at hj
    omega
  have hdata : v.DataBlock (iBlock inode 0) := by
    refine hfile.dataBlock ⟨0, hv.hasBlock_iff.mpr (by rw [hone]; decide), ?_⟩
    exact fileBlock_of_lt v inode (by decide)
  refine ⟨hfile, fun j hj => ?_, fun _ => ?_⟩
  · rw [hzero hj]
    exact ⟨hdata, howner⟩
  · rw [hone, stagesHold_iff_of_le _ _ (by decide)]
    refine ⟨fun i hi => ⟨fun hne => ?_, fun hlt => ?_⟩, fun i hi => ?_⟩
    · exact Nat.lt_one_iff.mpr (by_contra fun hi' => hne (hothers i (by omega) hi'))
    · rw [Nat.lt_one_iff.mp hlt]
      exact hdata.allocated.ne_zero
    · simp only [mem_cons, not_mem_nil, or_false] at hi
      exact hothers i (by omega) (by omega)

section

variable (h : v.OwnedFile owner n inode) (hv : v.Sound)

include h hv

/-- **A file is kept** by steps that touch neither its inode nor a table of it, and that leave its
blocks to it. -/
theorem OwnedFile.of_touches (ht : Touches v w blocks inodes) (hn : n ∉ inodes)
    (hkeep : ∀ b, v.DataBlock b → owner b = n → (v.IsData inode b ∨ b ∉ blocks) ∧ w.Allocated b ∧
      owner' b = n) :
    w.OwnedFile owner' n inode ∧
      ∀ j, v.HasBlock inode j → w.fileBlock inode j = v.fileBlock inode j := by
  have hlayout := ht.record.toSameLayout
  obtain ⟨hfile, hdata, harray, hblock⟩ := h.of_touches_on ht hn h.owned
    (fun b hb => ⟨hb.1, hb.2.2, (hkeep b hb.1 hb.2.1).1.resolve_left hb.2.2,
      (hkeep b hb.1 hb.2.1).2.1⟩) fun b hb => ⟨hb.1, (hkeep b hb.1 hb.2).2.1⟩
  have hstay : ∀ b, v.DataBlock b ∧ owner b = n → w.DataBlock b ∧ owner' b = n := fun b hb =>
    ⟨ht.record.dataBlock hb.1 (hkeep b hb.1 hb.2).2.1, (hkeep b hb.1 hb.2).2.2⟩
  refine ⟨⟨hfile, fun j hj => ?_, fun hne => ?_⟩, hblock⟩
  · rw [hlayout.blockSize]
    refine ((h.owned j (hlayout.hasBlock_iff.mp hj)).congr harray).1.mono (fun b hb => ?_) hstay
    have hb' := hstay b ⟨hb.1, hb.2.1⟩
    exact ⟨hb'.1, hb'.2, fun hmem => hb.2.2 ((hdata b).mp hmem)⟩
  · have hcount : w.blocksFor (iSize inode) = v.blocksFor (iSize inode) := by
      rw [blocksFor, blocksFor, hlayout.blockSize]
    rw [hlayout.blockSize, hcount]
    exact (h.holds hne).congr hv.entries_pos (forall₂_inodeStages fun _ _ => rfl) harray
      fun j hj => h.owned j (hv.hasBlock_iff.mpr hj)

/-- Its bytes are the same, if its blocks are not touched. -/
theorem OwnedFile.sameOn_of_touches (ht : Touches v w blocks inodes)
    (hblock : ∀ j, v.HasBlock inode j → w.fileBlock inode j = v.fileBlock inode j)
    (hkeep : ∀ b, v.DataBlock b → owner b = n → b ∉ blocks) :
    SameOn (v.fileBytes inode) (w.fileBytes inode) 0 (iSize inode) := by
  intro x _ hx
  have hx' : v.HasBlock inode (x / v.blockSize) := by
    have := Nat.div_mul_le_self x v.blockSize
    rw [HasBlock]
    omega
  have hleaf := (h.owned _ hx').leaves_stagesBlock
  exact h.fileBytes_of_touches hv ht hx' (hblock _ hx') (hkeep _ hleaf.1 hleaf.2)

theorem OwnedFile.blockMap (hsize : iSize inode ≠ 0) :
    v.BlockMap inode (v.blocksFor (iSize inode)) := by
  have hblock : ∀ j < v.blocksFor (iSize inode), v.HasBlock inode j :=
    fun _ => hv.hasBlock_iff.mpr
  refine ⟨h.holds hsize, fun i hi j hj => h.inj i j (hblock i hi) (hblock j hj), fun j hj => ?_⟩
  exact (h.dataBlock ⟨j, hblock j hj, rfl⟩).allocated

end

/-! ### Deleting a file -/

/-- **Giving data blocks back** keeps the layout. -/
theorem Laid.of_shrunk (hv : v.Laid) {freed : List ℕ} (h : Shrunk v u freed) (hu : u.BlockCounts)
    (hfreed : ∀ b ∈ freed, v.DataBlock b) :
    u.Laid ∧ Touches v u {c | v.IsMap .blocks c} ∅ := by
  have hlayout := h.record.toSameLayout
  have hmeta : ∀ b, v.IsMeta b → u.Allocated b := fun b hb =>
    (h.allocated b).mpr ⟨hv.used b hb, fun hmem => (hfreed b hmem).notMeta hb⟩
  refine ⟨hv.of_sameRecord h.record ⟨hu, fun b hb => ?_, fun b hb => ?_⟩ hmeta fun b hb => ?_,
    hv.touches h.record (fun b hb htable => hv.apart b htable .blocks hb) fun b hb _ => h.kept b hb⟩
  · exact hmeta b (.inl ⟨.blocks, hlayout.isMap_iff.mp hb⟩)
  · exact hlayout.inRange (hv.space.blocks b (hlayout.free_or_allocated.mp hb))
  · rcases hlayout.free_or_allocated.mp (.inl hb) with hfree | hall
    · exact hv.spared b (.inl hfree)
    · have hmem : b ∈ freed := by_contra fun hnot =>
        hb.not_allocated ((h.allocated b).mpr ⟨hall, hnot⟩)
      exact (hfreed b hmem).spared

/-- **`ext2_delete_file_blocks`** fails and changes nothing, or gives back the blocks of the file.
-/
theorem OwnedFile.deleteFileBlocks (h : v.OwnedFile owner n inode) (hv : v.Laid) :
    v.deleteFileBlocks n = some (v, 1) ∨ ∃ u, v.deleteFileBlocks n = some (u, 0) ∧ u.Laid ∧
      Touches v u {c | v.IsMap .blocks c} ∅ ∧
      ∀ b, u.Allocated b ↔ v.Allocated b ∧ ¬ v.IsData inode b := by
  have hbs := hv.sound.blockSize_pos
  have hbs' := v.blockSize_lt
  have hsize := inodeSize_lt inode
  by_cases hzero : divideRoundedUp32 (iSize inode) v.blockSize = 0
  · refine .inl ?_
    have hnone : v.loadBlockList n = some none := by
      rw [loadBlockList, h.read]
      simp only [hzero, if_true]
    rw [Volume.deleteFileBlocks, h.read]
    simp only [hnone, Option.bind_some]
  have hne : iSize inode ≠ 0 := fun heq => hzero (by
    rw [heq, divideRoundedUp32, if_neg (not_not_intro (Nat.zero_mod _)), Nat.zero_div])
  have hmap := h.blockMap hv.sound hne
  have hcount := divideRoundedUp32_eq_blocksFor hbs hsize hbs' hzero
  have hlist := (h.fileOn hv hmap).loadBlockList_eq (h.tablesOn hv)
  rw [if_neg hzero] at hlist
  obtain ⟨u, freed, hgive, hcounts, hshrunk, hfreed⟩ :=
    hmap.deallocateBlocks hv.space.toBlockCounts (Nat.le_refl _)
  have hdata : ∀ b, b ∈ freed ↔ v.IsData inode b := fun b => by
    rw [hfreed]
    simp only [IsData, hv.sound.hasBlock_iff]
  obtain ⟨hlaid, htouches⟩ := hv.of_shrunk hshrunk hcounts fun b hb => h.dataBlock ((hdata b).mp hb)
  refine .inr ⟨u, ?_, hlaid, htouches, fun b => ?_⟩
  · rw [Volume.deleteFileBlocks, h.read]
    simp only [hlist, Option.bind_some, hcount, hgive, ne_eq, not_true_eq_false, if_false]
  · rw [hshrunk.allocated, hdata]

/-- The counters of a deletion are those of inodes and directories. -/
theorem sameRecord_countDeleted (v : Volume) (g mode : ℕ) :
    SameRecord v (v.countDeleted g mode) ∧ SameCounts .blocks v (v.countDeleted g mode) := by
  have hlayout := v.sameLayout_countDeleted g mode
  unfold countDeleted at hlayout ⊢
  split_ifs at hlayout ⊢
  · refine ⟨⟨hlayout, rfl, rfl, rfl, rfl, rfl⟩, fun g' => ?_,
      superblock.get_set_of_ne _ (by decide)⟩
    exact (gdGet_gdSet_of_ne _ _ (.inl (by decide))).trans
      (gdGet_gdSet_of_ne _ _ (.inl (by decide)))
  · exact ⟨⟨hlayout, rfl, rfl, rfl, rfl, rfl⟩, fun g' => gdGet_gdSet_of_ne _ _ (.inl (by decide)),
      superblock.get_set_of_ne _ (by decide)⟩

theorem get_deletedInode (inode : Bytes) (epoch : ℕ) :
    iSize (deletedInode inode epoch) = 0 ∧
      inodeDescriptor.get (deletedInode inode epoch) 0 .mode = 0 := by
  constructor
  · rw [iSize, deletedInode, inodeDescriptor.get_set_of_ne _ (by decide),
      inodeDescriptor.get_set_of_ne _ (by decide)]
    exact inodeDescriptor.get_set_self (by decide)
  · rw [deletedInode, inodeDescriptor.get_set_of_ne _ (by decide)]
    exact inodeDescriptor.get_set_self (by decide)

/-- **`ext2_delete_inode`** leaves an inode without bytes that is no directory, and touches the
bitmaps of the inodes. -/
theorem Laid.deleteInode (h : v.Laid) (hn : v.IsInode n) (epoch : ℕ) :
    v.deleteInode epoch n = none ∨ ∃ w inode', v.deleteInode epoch n = some (w, 0) ∧ w.Laid ∧
      Touches v w {c | v.IsMap .inodes c} {n} ∧ (∀ b, w.Allocated b ↔ v.Allocated b) ∧
      w.readInode n = some inode' ∧ iSize inode' = 0 ∧ inodeDescriptor.get inode' 0 .mode = 0 := by
  obtain ⟨inode, hread⟩ := h.sound.exists_readInode n
  obtain ⟨u, hwrite, hu, hut, inode', hread', hsame⟩ :=
    h.writeInode hn (Volume.deletedInode inode epoch)
  have hlayout := hut.record.toSameLayout
  obtain ⟨hfields, -⟩ := inode_congr h.inodeSize hsame
  -- the bitmap of the group is read and written
  have hgroup : v.inodeGroup n < v.groupNumber := by
    rw [hn.inodeGroup_eq]
    exact hn.group
  have hgroup' : u.inodeGroup n = v.inodeGroup n := by
    rw [(hlayout.isInode_iff.mpr hn).inodeGroup_eq, hn.inodeGroup_eq, hlayout.inodesPerGroup]
  have hmap : u.IsMap .inodes (u.gdGet (v.inodeGroup n) .inodeBitmap) :=
    ⟨_, by rw [hlayout.groupNumber]; exact hgroup, rfl⟩
  have hrange := hu.inRange_of_isMeta hmap.isMeta
  rw [Volume.deleteInode, hread]
  simp only [hwrite, hu.sound.readInodeBitmap_eq hgroup' hrange]
  by_cases hle : v.blockSize ≤ v.inodeIndex n
  · rw [if_pos hle]
    exact .inl rfl
  refine .inr ?_
  rw [if_neg hle, hu.sound.writeInodeBitmap_eq hgroup' hrange]
  generalize hd : blit u.disk.bytes (u.blockAddr (u.gdGet (v.inodeGroup n) .inodeBitmap)) _ 0
    u.blockSize = d
  have hbt : Touches u (u.withBytes d) {c | u.IsMap .inodes c} ∅ := by
    refine hu.touches (.withBytes u d) (fun b hb htable => hu.apart b htable .inodes hb) ?_
    intro b hb _
    rw [← hd]
    exact sameOn_blit (blockAddr_apart fun heq => hb (heq ▸ hmap))
  have hbits : ∀ c, u.IsMap .blocks c → c ∉ {c | u.IsMap .inodes c} := fun c hc hmem =>
    hu.kinds c hc hmem
  have hlaid := hu.of_touches hbt hbits (.withBytes .blocks u d)
  -- the counters are in the memory
  obtain ⟨hrecord, hcounts'⟩ := (u.withBytes d).sameRecord_countDeleted (v.inodeGroup n)
    (inodeDescriptor.get inode 0 .mode)
  have hct : Touches (u.withBytes d) ((u.withBytes d).countDeleted (v.inodeGroup n)
      (inodeDescriptor.get inode 0 .mode)) ∅ ∅ :=
    hlaid.touches hrecord (fun b hb => absurd hb (Set.notMem_empty b)) fun b _ _ => by
      rw [disk_countDeleted]
      exact .refl _ _ _
  refine ⟨_, inode', rfl, hlaid.of_touches hct (fun c _ => Set.notMem_empty c) hcounts',
    ((hut.trans hbt).trans hct).mono ?_ (by simp), fun b => ?_, ?_, ?_, ?_⟩
  · intro c hc
    simpa [hlayout.isMap_iff] using hc
  · rw [hct.allocated_iff hlaid fun c _ => Set.notMem_empty c, hbt.allocated_iff hu hbits,
      hut.allocated_iff h fun c _ => Set.notMem_empty c]
  · rw [hct.readInode n (Set.notMem_empty n) (hbt.record.toSameLayout.isInode_iff.mpr
      (hlayout.isInode_iff.mpr hn)), hbt.readInode n (Set.notMem_empty n)
      (hlayout.isInode_iff.mpr hn), hread']
  · exact (hfields .size).trans (get_deletedInode inode epoch).1
  · rw [hfields, (get_deletedInode inode epoch).2]

end Volume

end Bloodmoon
