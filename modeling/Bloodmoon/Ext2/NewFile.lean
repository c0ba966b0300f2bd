import Bloodmoon.Ext2.DataFiles
import Bloodmoon.Ext2.Files
import Bloodmoon.Ext2.Grow

/-!
# The inode and the first block of a new file

`ext2_create_file` takes an inode, initializes it, gives it a block if it is to be a directory, and
adds an entry to the parent. Here is what has happened before the entry is added, for a formatted
volume (`Volume.Laid.makeDirectory`, `Volume.Laid.initialized`).
-/

namespace Bloodmoon

open Machine

/-! ### The new inode -/

section NewInode

variable (inode : Bytes) (type permissions epoch uniqueValue : ℕ)

/-- The block numbers are not among the other fields. -/
theorem get_blit_blocks (f : InodeField) :
    inodeDescriptor.get (blit inode 40 (fun _ => 0) 0 60) 0 f = inodeDescriptor.get inode 0 f :=
  loadLE_congr (sameOn_blit (by cases f <;> decide))

theorem get_newInode_mode :
    inodeDescriptor.get (newInode inode type permissions epoch uniqueValue) 0 .mode =
      (type ||| permissions) % 2 ^ 16 := by
  simp (disch := decide) only [newInode, Layout.get_set_of_ne, get_blit_blocks]
  exact loadLE_storeLE _ _ 2 _

theorem get_newInode_size : iSize (newInode inode type permissions epoch uniqueValue) = 0 := by
  simp (disch := decide) only [newInode, Layout.get_set_of_ne, get_blit_blocks]
  exact loadLE_storeLE _ _ 4 _

theorem iBlock_newInode {k : ℕ} (hk : k < 15) :
    iBlock (newInode inode type permissions epoch uniqueValue) k = 0 := by
  have hset : ∀ (m : Bytes) (f : InodeField) (x : ℕ), 100 ≤ inodeDescriptor.offset f →
      iBlock (inodeDescriptor.set m 0 f x) k = iBlock m k := fun m f x hf =>
    loadLE_congr (sameOn_storeLE _ _ (by omega))
  have hzero : ∀ m : Bytes, iBlock (blit m 40 (fun _ => 0) 0 60) k = 0 := fun m => by
    have hsame : SameOn (fun _ => 0) (blit m 40 (fun _ => 0) 0 60) (40 + 4 * k) 4 :=
      fun x hx hx' => blit_apply_of_mem (by omega) (by omega)
    exact (loadLE_congr hsame).trans (by simp [loadLE])
  simp (disch := decide) only [newInode, hset, hzero]

end NewInode

/-- The fields of an inode are in its first 128 bytes. -/
theorem inode_congr {inode inode' : Bytes} {size : ℕ} (hsize : 128 ≤ size)
    (h : ∀ x < size, inode' x = inode x) :
    (∀ f, inodeDescriptor.get inode' 0 f = inodeDescriptor.get inode 0 f) ∧
      ∀ k < 15, iBlock inode' k = iBlock inode k := by
  have hsame : SameOn inode inode' 0 128 := fun x _ hx => h x (by omega)
  exact ⟨Layout.get_congr hsame, fun k hk => loadLE_congr (hsame.mono (Nat.zero_le _) (by omega))⟩

/-- What `ext2_initialize_directory` stores in the buffer with the block of a directory. -/
def dotEntries (inodeNumber parentInodeNumber : ℕ) (buffer : Bytes) : Bytes :=
  let recLen := align4 (entrySize 1)
  let first := blit (entryHeader inodeNumber recLen 1 2) 8 (nameBytes [0x2e#8]) 0 255
  let second := blit (entryHeader parentInodeNumber (1024 - recLen) 2 2) 8
    (nameBytes [0x2e#8, 0x2e#8]) 0 255
  blit (blit buffer 0 first 0 (entrySize 1)) recLen second 0 (entrySize 2)

theorem sameOn_dotEntries (n p : ℕ) {m m' : Bytes} {a k : ℕ} (h : SameOn m m' a k) :
    SameOn (dotEntries n p m) (dotEntries n p m') a k :=
  (h.blit_left _ _ _ _).blit_left _ _ _ _

namespace Volume

variable {v u d w : Volume} {n p b mode g i : ℕ} {inode : Bytes}
variable {dentryType inodeType type : ℕ} {parentPath path : Text}

/-- The inode has the mode, and no blocks. -/
structure EmptyInode (v : Volume) (n mode : ℕ) (inode : Bytes) : Prop where
  read : v.readInode n = some inode
  size : iSize inode = 0
  mode : inodeDescriptor.get inode 0 .mode = mode
  blocks : ∀ k < 15, iBlock inode k = 0

/-- **The inode is initialized and written.** -/
theorem Laid.initialized (h : v.Laid) (hn : v.IsInode n) (epoch uniqueId type permissions : ℕ) :
    ∃ inode w inode', v.initializeInode epoch uniqueId n type permissions = some inode ∧
      v.writeInode n inode = some w ∧ w.Laid ∧ Touches v w ∅ {n} ∧
      w.EmptyInode n ((type ||| permissions) % 2 ^ 16) inode' := by
  obtain ⟨old, hold⟩ := h.sound.exists_readInode n
  have hid : getUniqueId uniqueId ≠ 0 := by
    rw [getUniqueId]
    split_ifs <;> omega
  obtain ⟨w, hwrite, hlaid, htouches, inode', hread, hsame⟩ :=
    h.writeInode hn (newInode old type permissions epoch (getUniqueId uniqueId))
  obtain ⟨hfields, hblocks⟩ := inode_congr h.inodeSize hsame
  refine ⟨_, w, inode', ?_, hwrite, hlaid, htouches, hread, ?_, ?_, fun k hk => ?_⟩
  · rw [initializeInode, hold, Option.bind_some, if_neg hid]
  · exact (hfields .size).trans (get_newInode_size _ _ _ _ _)
  · rw [hfields, get_newInode_mode]
  · rw [hblocks k hk, iBlock_newInode _ _ _ _ _ hk]

/-! ### The first block -/

/-- A single block is the first one of an inode without blocks. -/
theorem allocateBlocks_one (v : Volume) (h : iBlock inode 0 = 0) :
    v.allocateBlocks inode 1 = if v.allocateBlock.2 = 0 then
        (v.allocateBlock.1, setIBlock inode 0 0, 1)
      else (v.allocateBlock.1, setIBlock inode 0 v.allocateBlock.2, 0) := by
  have hdirect : allocateDirect 1 12 0 v inode 0 = if v.allocateBlock.2 = 0 then
      (v.allocateBlock.1, setIBlock inode 0 0, 0, false)
      else (v.allocateBlock.1, setIBlock inode 0 v.allocateBlock.2, 1, true) := by
    rw [allocateDirect, if_neg Nat.zero_ne_one, if_pos h]
    simp only [Nat.zero_add]
    rw [allocateDirect, if_pos rfl]
  rw [allocateBlocks, hdirect]
  by_cases hzero : v.allocateBlock.2 = 0
  · rw [if_pos hzero, if_pos hzero]
    rfl
  · rw [if_neg hzero, if_neg hzero]
    rfl

/-- The inode has got the block `b`, and nothing has changed besides the inode and the bitmap. -/
structure FirstBlock (v w : Volume) (n b mode : ℕ) (inode : Bytes) : Prop where
  first : v.NextBlock b
  laid : w.Laid
  touches : Touches v w {c | v.IsMap .blocks c} {n}
  allocated : ∀ c, w.Allocated c ↔ v.Allocated c ∨ c = b
  read : w.readInode n = some inode
  size : iSize inode = v.blockSize
  mode : inodeDescriptor.get inode 0 .mode = mode
  block : iBlock inode 0 = b
  others : ∀ k < 15, k ≠ 0 → iBlock inode k = 0

theorem FirstBlock.flushPartition (h : FirstBlock v w n b mode inode) (hn : v.IsInode n) :
    FirstBlock v w.flushPartition n b mode inode := by
  obtain ⟨hlaid, htouches⟩ := h.laid.flushPartition
  have hlayout := h.touches.record.toSameLayout
  refine ⟨h.first, hlaid, (h.touches.trans htouches).mono (by simp) (by simp), fun c => ?_, ?_,
    h.size, h.mode, h.block, h.others⟩
  · rw [htouches.allocated_iff h.laid fun b _ => Set.notMem_empty b, h.allocated]
  · rw [htouches.readInode n (Set.notMem_empty n) (hlayout.isInode_iff.mpr hn), h.read]

/-- The block of a new directory is a data block. -/
theorem FirstBlock.dataBlock (h : FirstBlock v w n b mode inode) (hv : v.Laid) : w.DataBlock b := by
  refine ⟨(h.allocated b).mpr (.inr rfl), fun hmeta => ?_, ?_⟩
  · rw [h.touches.record.toSameLayout.isMeta_iff] at hmeta
    exact hv.not_isMeta_of_free h.first.free hmeta
  · rw [h.touches.record.flushSpares_iff]
    exact hv.spared b (.inl h.first.free)

theorem FirstBlock.dataFile (h : FirstBlock v w n b mode inode) (hv : v.Laid)
    (hn : v.IsInode n) : w.DataFile n inode := by
  have hlayout := h.touches.record.toSameLayout
  refine dataFile_of_le (hlayout.isInode_iff.mpr hn) h.read ?_ ?_
  · rw [h.size, hlayout.blockSize]
  · rw [h.block]
    exact h.dataBlock hv

/-- **A new inode gets its first block**, if there is one. -/
theorem Laid.resizeFile_block (h : v.Laid) (hn : v.IsInode n) (he : v.EmptyInode n mode inode) :
    (v.Exhausted ∧ v.resizeFile n v.blockSize = some (v, ext2ResultError)) ∨
      ∃ b w inode', v.resizeFile n v.blockSize = some (w, ext2ResultOk) ∧
        FirstBlock v w n b mode inode' := by
  have hbs := h.sound.blockSize_pos
  rw [resizeFile_of_lt hbs he.read (by rwa [he.size]), he.size, Nat.sub_zero, blocksFor_self hbs,
    v.allocateBlocks_one (he.blocks 0 (by decide))]
  rcases h.allocateBlock with ⟨heq, hall⟩ | ⟨b, u, heq, htaken⟩
  · rw [heq]
    exact .inl ⟨hall, rfl⟩
  have hlayout := htaken.touches.record.toSameLayout
  have hlt := htaken.grown.block_lt h.space (List.mem_singleton_self b)
  rw [heq]
  simp only [if_neg htaken.first.free.ne_zero, ne_eq, not_true_eq_false, if_false]
  -- the inode is written with the block and the size
  obtain ⟨w, hwrite, hlaid, htouches, inode', hread, hsame⟩ :=
    htaken.laid.writeInode (hlayout.isInode_iff.mpr hn) (inodeDescriptor.set (inodeDescriptor.set
      (setIBlock inode 0 b) 0 .size v.blockSize) 0 .sectors
        (divideRoundedUp32 v.blockSize u.sectorSize))
  obtain ⟨hfields, hblocks⟩ := inode_congr htaken.laid.inodeSize hsame
  have hother : ∀ f, inodeDescriptor.get (setIBlock inode 0 b) 0 f =
      inodeDescriptor.get inode 0 f :=
    fun f => loadLE_congr (sameOn_storeLE _ _ (by cases f <;> decide))
  have hfirst : FirstBlock v w n b mode inode' := by
    refine ⟨htaken.first, hlaid, (htaken.touches.trans htouches).mono (by simp) (by simp),
      fun c => ?_, hread, ?_, ?_, ?_, fun k hk hne => ?_⟩
    · rw [htouches.allocated_iff htaken.laid fun b _ => Set.notMem_empty b,
        htaken.grown.allocated, List.mem_singleton]
    · rw [iSize, hfields, inodeDescriptor.get_set_of_ne _ (by decide)]
      exact inodeDescriptor.get_set_self (Nat.mod_lt _ (Nat.two_pow_pos 32))
    · rw [hfields, inodeDescriptor.get_set_of_ne _ (by decide),
        inodeDescriptor.get_set_of_ne _ (by decide), hother, he.mode]
    · rw [hblocks 0 (by decide), iBlock_resized, iBlock_setIBlock hlt]
    · rw [hblocks k hk, iBlock_resized, iBlock_setIBlock_of_ne hne, he.blocks k hk]
  refine .inr ⟨b, w.flushPartition, inode', ?_, hfirst.flushPartition hn⟩
  rw [storeResized]
  simp only [hwrite]

/-! ### The first entries -/

/-- The bytes of a block. -/
def blockBytes (v : Volume) (b : ℕ) : Bytes := fun x => v.disk.bytes (v.blockAddr b + x)

/-- The new directory `n` in `p` has the block `b`, with its two entries over what was in it.
Besides that and the inode, only the bitmap has changed. -/
structure NewDirectory (v w : Volume) (n p b mode : ℕ) (inode : Bytes) : Prop where
  first : v.NextBlock b
  laid : w.Laid
  touches : Touches v w ({c | v.IsMap .blocks c} ∪ {b}) {n}
  allocated : ∀ c, w.Allocated c ↔ v.Allocated c ∨ c = b
  file : w.DataFile n inode
  size : iSize inode = v.blockSize
  mode : inodeDescriptor.get inode 0 .mode = mode
  block : iBlock inode 0 = b
  others : ∀ k < 15, k ≠ 0 → iBlock inode k = 0
  content : SameOn (dotEntries n p (v.blockBytes b)) (w.fileBytes inode) 0 v.blockSize

/-- What was in the block is still there. -/
theorem FirstBlock.sameOn_fileBytes (h : FirstBlock v w n b mode inode) (hv : v.Laid) :
    SameOn (v.blockBytes b) (w.fileBytes inode) 0 v.blockSize := fun x _ hx => by
  have hlayout := h.touches.record.toSameLayout
  have hmeta := hv.not_isMeta_of_free h.first.free
  have hkept := h.touches.kept b (fun hmap => hmeta (IsMap.isMeta hmap))
    (fun htable => hmeta htable.isMeta) (hv.spared b (.inl h.first.free))
  rw [fileBytes_of_lt w inode (by rw [hlayout.blockSize]; omega), h.block, hlayout.blockAddr]
  exact hkept _ (by omega) (by omega)

/-- **The two entries of a new directory are written.** -/
theorem FirstBlock.initializeDirectory (h : FirstBlock v w n b mode inode) (hv : v.Laid)
    (hn : v.IsInode n) (p : ℕ) : ∃ u, w.initializeDirectory n p = some (u, 0) ∧
      NewDirectory v u n p b mode inode := by
  have hlayout := h.touches.record.toSameLayout
  have hbs := hv.sound.blockSize_pos
  have hfile := h.dataFile hv hn
  have hexclusive := hfile.exclusive h.laid
  have hsize : iSize inode = w.blockSize := by
    rw [h.size, hlayout.blockSize]
  have hle : iSize inode ≤ 12 * w.blockSize := by omega
  have hpos : 0 < iSize inode := by rw [h.size]; exact hbs
  have hread := (h.laid.sound.readWhole h.read hexclusive.noHole fun _ => 0).1 hle
  obtain ⟨hcode, d, hwritten, hd⟩ := hexclusive.writeWhole
    (dotEntries n p (blit (fun _ => 0) 0 (w.fileBytes inode) 0 (iSize inode)))
    hpos hle
  have hfailed : iSize inode ≠ readFailed := by
    unfold readFailed
    unfold writeFailed at hcode
    omega
  obtain ⟨htouches, hlaid⟩ := hfile.touches_of_holds h.laid hd
  have hused : ∀ c, (w.withBytes d).Allocated c ↔ w.Allocated c := fun c =>
    htouches.allocated_iff h.laid fun b hmap hb => (hfile.dataBlock hb).notMeta hmap.isMeta
  refine ⟨w.withBytes d, ?_, h.first, hlaid, ?_, ?_, ?_, h.size, h.mode, h.block, h.others, ?_⟩
  · rw [Volume.initializeDirectory, h.read]
    simp only [hread, if_neg hfailed, if_neg (show ¬ w.blockSize < iSize inode by
      omega)]
    rw [dotEntries] at hwritten
    simp only [hwritten, Option.map_some, if_neg (Nat.ne_of_lt hcode)]
  · refine (h.touches.trans htouches).mono (Set.union_subset_union_right _ fun c hc => ?_) (by simp)
    obtain ⟨j, hj, rfl⟩ := hc
    have hzero : j = 0 := by
      rw [HasBlock] at hj
      exact Nat.lt_one_iff.mp (Nat.lt_of_mul_lt_mul_right (by omega :
        j * w.blockSize < 1 * w.blockSize))
    rw [hzero, fileBlock_of_lt w inode (by decide), h.block]
    rfl
  · intro c
    rw [hused c, h.allocated]
  · have hlayout' := htouches.record.toSameLayout
    refine dataFile_of_le (hlayout'.isInode_iff.mpr hfile.isInode) ?_ (Nat.le_of_eq ?_) ?_
    · rw [htouches.readInode n (Set.notMem_empty n) hfile.isInode, h.read]
    · rw [hsize, hlayout'.blockSize]
    · rw [h.block]
      refine htouches.record.dataBlock (h.dataBlock hv) ((hused b).mpr ?_)
      exact (h.dataBlock hv).allocated
  · have hbuffer : SameOn (v.blockBytes b) (blit (fun _ => 0) 0 (w.fileBytes inode) 0
        v.blockSize) 0 v.blockSize := fun x _ hx => by
      rw [blit_apply_of_mem (Nat.zero_le x) (by omega), Nat.zero_add]
      exact h.sameOn_fileBytes hv x (Nat.zero_le x) hx
    have hcontent := hd.sameOn_fileBytes hexclusive (Nat.le_refl _)
    rw [h.size] at hcontent
    exact (sameOn_dotEntries n p hbuffer).trans hcontent

/-- **A new directory is made** in the first free block, if there is one. -/
theorem Laid.makeDirectory (h : v.Laid) (hn : v.IsInode n)
    (he : v.EmptyInode n mode inode) (p : ℕ) :
    (v.Exhausted ∧ v.makeDirectory n p = some (v, 1)) ∨
      ∃ b w inode', v.makeDirectory n p = some (w, 0) ∧ NewDirectory v w n p b mode inode' := by
  rw [Volume.makeDirectory]
  rcases h.resizeFile_block hn he with ⟨hall, heq⟩ | ⟨b, u, inode', heq, hfirst⟩
  · refine .inl ⟨hall, ?_⟩
    rw [heq]
    rfl
  · obtain ⟨w, hw, hnew⟩ := (hfirst.flushPartition hn).initializeDirectory h hn p
    refine .inr ⟨b, w, inode', ?_, hnew⟩
    rw [heq]
    exact hw

/-! ### The call -/

/-- The next inode has been taken and initialized. -/
structure NewInode (v u : Volume) (g i mode : ℕ) (inode : Bytes) : Prop
    extends NextInode v g i where
  isInode : v.IsInode (i + 1)
  laid : u.Laid
  touches : Touches v u {v.gdGet g .inodeBitmap} {i + 1}
  empty : u.EmptyInode (i + 1) mode inode

/-- **The next inode is taken**, if its number is that of an inode. -/
theorem Laid.newInode (h : v.Laid) (epoch uniqueId type permissions : ℕ) :
    v.allocateInode = (v, 0) ∨
    ∃ g i, v.NextInode g i ∧ 0 < v.gdGet g .freeInodesCount ∧ v.allocateInode.2 = i + 1 ∧
      (v.IsInode (i + 1) → ∃ inode u inode',
        v.allocateInode.1.initializeInode epoch uniqueId (i + 1) type permissions = some inode ∧
        v.allocateInode.1.writeInode (i + 1) inode = some u ∧
        NewInode v u g i ((type ||| permissions) % 2 ^ 16) inode') := by
  rcases h.allocateInode with hnone | ⟨g, i, a, heq, htaken⟩
  · exact .inl hnone
  refine .inr ⟨g, i, htaken.toNextInode, htaken.counted, by rw [heq], fun hinode => ?_⟩
  have hlayout := htaken.touches.record.toSameLayout
  obtain ⟨inode, u, inode', hinit, hwrite, hlaid, htouches, hempty⟩ :=
    htaken.laid.initialized (hlayout.isInode_iff.mpr hinode) epoch uniqueId type permissions
  rw [heq]
  exact ⟨inode, u, inode', hinit, hwrite, htaken.toNextInode, hinode, hlaid,
    (htaken.touches.trans htouches).mono (by simp) (by simp), hempty⟩

theorem NextInode.unique {g' i' : ℕ} (h : v.Formatted) (hnext : v.NextInode g i)
    (hnext' : v.NextInode g' i') : g = g' ∧ i = i' := by
  have hcount : ∀ {g i}, v.NextInode g i → v.gdGet g .freeInodesCount ≠ 0 := fun {g i} hnext => by
    rw [show v.gdGet g .freeInodesCount = (v.clearIn .inodes g).card from
      h.inodes.count g hnext.group]
    exact Finset.card_ne_zero_of_mem (mem_clearIn.mpr ⟨hnext.lt, hnext.clear⟩)
  have hgroup : g = g' := by
    rcases Nat.lt_trichotomy g g' with hlt | heq | hlt
    · exact absurd (hnext'.before g hlt) (hcount hnext)
    · exact heq
    · exact absurd (hnext.before g' hlt) (hcount hnext')
  subst hgroup
  refine ⟨rfl, ?_⟩
  rcases Nat.lt_trichotomy i i' with hlt | heq | hlt
  · exact absurd (hnext'.first i hlt) (by rw [hnext.clear]; decide)
  · exact heq
  · exact absurd (hnext.first i' hlt) (by rw [hnext'.clear]; decide)

namespace NewInode

variable (h : v.NewInode u g i mode inode) (hv : v.Laid)

include h hv

/-- The bitmap of the inodes is not one of the blocks. -/
theorem notMem_touched {c : ℕ} (hc : v.IsMap .blocks c) :
    c ∉ ({v.gdGet g .inodeBitmap} : Set ℕ) := by
  intro hmem
  rw [Set.mem_singleton_iff.mp hmem] at hc
  exact hv.kinds _ hc ⟨g, h.group, rfl⟩

/-- Blocks are free and in use as before. -/
theorem nextBlock_iff : u.NextBlock b ↔ v.NextBlock b := by
  have hfree : ∀ c, u.Free c ↔ v.Free c := fun c =>
    h.touches.free_iff hv fun _ => h.notMem_touched hv
  constructor
  · exact fun hb => ⟨(hfree b).mp hb.free, fun c hc => hb.le c ((hfree c).mpr hc)⟩
  · exact fun hb => ⟨(hfree b).mpr hb.free, fun c hc => hb.le c ((hfree c).mp hc)⟩

/-- The other files are kept. -/
theorem dataFile {file : Bytes} (hfile : v.DataFile p file) (hne : i + 1 ≠ p) :
    u.DataFile p file ∧ (∀ c, u.IsData file c → v.IsData file c) ∧
      ∀ x, v.HasBlock file (x / v.blockSize) → u.fileBytes file x = v.fileBytes file x := by
  refine hfile.of_touches hv.sound h.touches (fun c hc hdata => ?_) (fun hmem => hne ?_)
    fun c hdata => ?_
  · rw [Set.mem_singleton_iff.mp hc] at hdata
    exact hdata.notMeta (.inl ⟨.inodes, g, h.group, rfl⟩)
  · exact (Set.mem_singleton_iff.mp hmem).symm
  · exact (h.touches.allocated_iff hv fun _ => h.notMem_touched hv).mpr hdata.allocated

/-- What is in a free block is kept. -/
theorem sameOn_blockBytes (hb : v.Free b) :
    SameOn (v.blockBytes b) (u.blockBytes b) 0 v.blockSize := fun x _ hx => by
  have hmeta := hv.not_isMeta_of_free hb
  have hkept := h.touches.kept b (fun hmem => hmeta ?_) (fun htable => hmeta htable.isMeta)
    (hv.spared b (.inl hb))
  · rw [blockBytes, h.touches.record.toSameLayout.blockAddr]
    exact hkept _ (by omega) (by omega)
  · rw [Set.mem_singleton_iff.mp hmem]
    exact .inl ⟨.inodes, g, h.group, rfl⟩

end NewInode

theorem NewDirectory.dataBlock (h : NewDirectory u d n p b mode inode) (hu : u.Laid) :
    d.DataBlock (iBlock inode 0) := by
  refine h.file.dataBlock ⟨0, ?_, ?_⟩
  · rw [HasBlock, h.size, Nat.zero_mul]
    exact hu.sound.blockSize_pos
  · exact (fileBlock_of_lt d inode (by decide)).symm

/-- The other files are kept when a directory gets its block. -/
theorem NewDirectory.dataFile (h : NewDirectory u d n p b mode inode) (hu : u.Laid)
    {k : ℕ} {file : Bytes} (hfile : u.DataFile k file) (hne : n ≠ k) :
    d.DataFile k file ∧ (∀ c, d.IsData file c → u.IsData file c) ∧
      ∀ x, u.HasBlock file (x / u.blockSize) → d.fileBytes file x = u.fileBytes file x := by
  refine hfile.of_touches hu.sound h.touches (fun c hc hdata => ?_) (fun hmem => hne ?_)
    fun c hdata => (h.allocated c).mpr (.inl hdata.allocated)
  · rcases hc with hmap | hc
    · exact hdata.notMeta (IsMap.isMeta hmap)
    · rw [Set.mem_singleton_iff.mp hc] at hdata
      exact h.first.free.not_allocated hdata.allocated
  · exact (Set.mem_singleton_iff.mp hmem).symm

/-- `ext2_create_file` after the new inode has been written; nothing if there is no name. -/
def addFile (u : Volume) (path : Text) (type p n : ℕ) (name : Option Text) (dentryType : ℕ) :
    Option (Volume × ℕ) :=
  (if type = fileTypeDirectory then u.makeDirectory n p else some (u, 0)).bind fun d =>
    if d.2 ≠ 0 then some (d.1, ext2ResultError)
    else
      (name.bind fun name => d.1.createDirectoryEntry p n name dentryType).bind fun e =>
        if e.2 ≠ 0 then some (e.1, ext2ResultError)
        else (e.1.listDentry path).map fun _ => (e.1, ext2ResultOk)

/-- **`ext2_create_file`** in a directory: no inode is found, or the next one is used. -/
theorem Laid.createFile_eq (h : v.Laid) {name : Option Text}
    (htype : fileTypeTranslator[type]? = some (dentryType, inodeType))
    (hpath : pathToParentAndName path = some (parentPath, name))
    (hlookup : v.pathToInode parentPath = some p) (hp : p ≠ 0) (hread : v.readInode p = some inode)
    (hmode : IsDir inode) (epoch uniqueId permissions : ℕ) :
    v.createFile epoch uniqueId path type permissions = some (v, ext2ResultError) ∨
    ∃ g i, v.NextInode g i ∧ 0 < v.gdGet g .freeInodesCount ∧ (v.IsInode (i + 1) →
      ∃ u inode', NewInode v u g i ((inodeType ||| permissions) % 2 ^ 16) inode' ∧
        v.createFile epoch uniqueId path type permissions =
          u.addFile path type p (i + 1) name dentryType) := by
  rw [createFile, htype]
  simp only [Option.bind_some, hpath, hlookup, if_neg hp, hread, if_neg hmode]
  rcases h.newInode epoch uniqueId inodeType permissions with
    heq | ⟨g, i, hnext, hpos, hnumber, hnew⟩
  · rw [heq]
    exact .inl rfl
  · refine .inr ⟨g, i, hnext, hpos, fun hinode => ?_⟩
    obtain ⟨inode, u, inode', hinit, hwrite, hnew⟩ := hnew hinode
    refine ⟨u, inode', hnew, ?_⟩
    rw [hnumber, hinit, Option.bind_some, hwrite]
    rfl

end Volume

end Bloodmoon
