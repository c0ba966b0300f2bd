import Bloodmoon.Ext2.StoredInode
import Bloodmoon.Machine.LeafList

/-!
# The list of the blocks of a file

`ext2_load_block_list` on an inode and tables with any content. A table is read up to the first
entry that is zero or `INODE_BLOCK_END`, the direct blocks that are zero are left out, and nothing
says to the functions for the tables how many blocks are missing. So the list is the first blocks of
the file in order just if none of them is missing, and it fits the memory just if the tables have no
more entries than blocks are missing (`Volume.listsBlocks_iff`).

When `i_block[12]` is zero, no table is read, and the entries are those that the memory from the
heap held before.

On a file whose block map holds exactly the blocks of its size it returns them in order
(`FileOn.loadBlockList_eq`), unless their number, computed with 32 bits, comes out as zero.
-/

namespace Bloodmoon

open Machine List

/-- The number is one of a block, not zero or the mark for the end. -/
def isBlock (b : ℕ) : Bool := b ≠ 0 ∧ b ≠ inodeBlockEnd

namespace Volume

variable {v : Volume} {n k d : ℕ} {inode : Bytes}

/-! ### What the tables hold -/

/-- An entry of the table in a block, as it is read to a buffer from the heap. -/
def tableEntry (v : Volume) (b i : ℕ) : ℕ := loadLE (v.readBlock b v.fresh 0).1 (4 * i) 4

/-- The trees of an inode with their depths. -/
def inodeTrees (inode : Bytes) : List (ℕ × ℕ) :=
  [(iBlock inode 12, 1), (iBlock inode 13, 2), (iBlock inode 14, 3)]

/-- The number of the block with index `j` of a file, if the file has one there. -/
def logicalBlock (v : Volume) (inode : Bytes) (j : ℕ) : Option ℕ :=
  if j < 12 then leafAt v.tableEntry (v.blockSize / 4) isBlock 0 (iBlock inode j) 0
  else treesAt v.tableEntry (v.blockSize / 4) isBlock (inodeTrees inode) (j - 12)

/-- The number of direct blocks that are not zero. -/
def directCount (inode : Bytes) : ℕ := ((List.range 12).filter fun i => 0 < iBlock inode i).length

/-- The number of block numbers in an inode and its tables, where a table is looked at while there
are fewer than `k`, up to its first entry that is not one of a block. -/
def entryCount (v : Volume) (inode : Bytes) (k : ℕ) : ℕ :=
  treesCount v.tableEntry (v.blockSize / 4) isBlock k (inodeTrees inode) (min k (directCount inode))

/-! ### The functions that load the blocks -/

theorem Sound.readBlock_ne_readFailed (hv : v.Sound) (b : ℕ) (buffer : Bytes) (a : ℕ) :
    (v.readBlock b buffer a).2 ≠ readFailed := by
  rw [readBlock]
  split_ifs
  · rw [hv.reliable.read_eq]
    exact show 1 ≠ readFailed by decide
  · exact show 0 ≠ readFailed by decide

theorem loadEntries_eq {load : ℕ → Option (List ℕ)} {f : ℕ → List ℕ}
    (hload : ∀ b, load b = some (f b)) (entry : ℕ → ℕ) (left i : ℕ) :
    loadEntries load entry left i =
      some ((((List.range' i left).map entry).takeWhile isBlock).flatMap f) := by
  induction left generalizing i with
  | zero => rfl
  | succ left ih =>
    rw [loadEntries, range'_succ, map_cons, takeWhile_cons, ih]
    by_cases hend : entry i = 0 ∨ entry i = inodeBlockEnd
    · have hblock : ¬ isBlock (entry i) = true := by
        rw [isBlock, decide_eq_true_iff]
        exact fun h => hend.elim h.1 h.2
      rw [if_pos hend, if_neg hblock]
      rfl
    · have hblock : isBlock (entry i) = true := decide_eq_true (not_or.mp hend)
      rw [if_neg hend, if_pos hblock, hload]
      rfl

/-- **A function for tables** lists the leaves of the tree. -/
theorem Sound.loadTable_eq (hv : v.Sound) {load : Volume → ℕ → Option (List ℕ)}
    (hload : ∀ b, load v b = some (leafList v.tableEntry (v.blockSize / 4) isBlock d b)) (b : ℕ) :
    loadTable load v b = some (leafList v.tableEntry (v.blockSize / 4) isBlock (d + 1) b) := by
  rw [loadTable, if_neg (hv.readBlock_ne_readFailed b v.fresh 0), leafList, entryRun,
    range_eq_range']
  exact loadEntries_eq hload (v.tableEntry b) _ 0

theorem Sound.loadIndirectBlockList_eq (hv : v.Sound) (b : ℕ) : loadIndirectBlockList v b =
    some (leafList v.tableEntry (v.blockSize / 4) isBlock 1 b) :=
  hv.loadTable_eq (fun _ => rfl) b

theorem Sound.loadDoubleIndirectBlockList_eq (hv : v.Sound) (b : ℕ) :
    loadDoubleIndirectBlockList v b = some (leafList v.tableEntry (v.blockSize / 4) isBlock 2 b) :=
  hv.loadTable_eq hv.loadIndirectBlockList_eq b

theorem Sound.loadTripleIndirectBlockList_eq (hv : v.Sound) (b : ℕ) :
    loadTripleIndirectBlockList v b = some (leafList v.tableEntry (v.blockSize / 4) isBlock 3 b) :=
  hv.loadTable_eq hv.loadDoubleIndirectBlockList_eq b

/-- A function that lists the leaves of the trees of a depth. -/
def ListsTree (v : Volume) (stage : ℕ × (Volume → ℕ → Option (List ℕ))) (tree : ℕ × ℕ) : Prop :=
  stage.1 = tree.1 ∧
    ∀ b, stage.2 v b = some (leafList v.tableEntry (v.blockSize / 4) isBlock tree.2 b)

/-- **The stages** list the trees. -/
theorem loadStages_eq {stages : List (ℕ × (Volume → ℕ → Option (List ℕ)))} {trees : List (ℕ × ℕ)}
    (h : List.Forall₂ v.ListsTree stages trees) (blocks : List ℕ) :
    v.loadStages k stages blocks =
      some (treesList v.tableEntry (v.blockSize / 4) isBlock k trees blocks) := by
  induction h generalizing blocks with
  | nil => rfl
  | @cons stage tree stages trees hstage _ ih =>
    obtain ⟨hroot, hload⟩ := hstage
    rw [loadStages, treesList]
    split_ifs
    · rw [hload, hroot]
      exact ih _
    · exact ih _

/-- What `ext2_load_block_list` stores for a file of `k` blocks. -/
def loadedList (v : Volume) (inode : Bytes) (k : ℕ) : List ℕ :=
  treesList v.tableEntry (v.blockSize / 4) isBlock k (inodeTrees inode) (directBlockList inode k)

theorem length_directBlockList (inode : Bytes) (k : ℕ) :
    (directBlockList inode k).length = min k (directCount inode) := by
  rw [directBlockList, length_take, filter_map, length_map]
  rfl

theorem length_loadedList (v : Volume) (inode : Bytes) (k : ℕ) :
    (v.loadedList inode k).length = v.entryCount inode k := by
  rw [loadedList, length_treesList, length_directBlockList, entryCount]

/-- **`ext2_load_block_list`** returns what it has stored, if that is as much as the file has
blocks. -/
theorem Sound.loadBlockList_eq (hv : v.Sound) (hread : v.readInode n = some inode)
    (hk : divideRoundedUp32 (iSize inode) v.blockSize = k) :
    v.loadBlockList n =
      if k = 0 then some none
      else if k < v.entryCount inode k then none
      else if v.entryCount inode k ≠ k then some none
      else some (some (v.loadedList inode k)) := by
  have hstages : List.Forall₂ v.ListsTree [(iBlock inode 12, loadIndirectBlockList),
      (iBlock inode 13, loadDoubleIndirectBlockList),
      (iBlock inode 14, loadTripleIndirectBlockList)] (inodeTrees inode) :=
    .cons ⟨rfl, hv.loadIndirectBlockList_eq⟩ (.cons ⟨rfl, hv.loadDoubleIndirectBlockList_eq⟩
      (.cons ⟨rfl, hv.loadTripleIndirectBlockList_eq⟩ .nil))
  simp only [loadBlockList, hread, hk, loadStages_eq hstages]
  rw [← length_loadedList]
  rfl

/-! ### The blocks of the file -/

/-- The direct blocks in the list, if none of the first ones is zero. -/
theorem directBlockList_eq (h : ∀ i < 12, i < k → iBlock inode i ≠ 0) :
    directBlockList inode k = (List.range (min 12 k)).map (iBlock inode) := by
  have hrange : List.range 12 = List.range (min 12 k) ++
      (List.range (12 - min 12 k)).map (min 12 k + ·) := by
    rw [← range_add, Nat.add_sub_cancel' (Nat.min_le_left 12 k)]
  have hfirst : ∀ b ∈ (List.range (min 12 k)).map (iBlock inode), decide (0 < b) = true := by
    intro b hb
    obtain ⟨i, hi, rfl⟩ := List.mem_map.mp hb
    rw [mem_range, Nat.lt_min] at hi
    exact decide_eq_true (Nat.pos_of_ne_zero (h i hi.1 hi.2))
  rw [directBlockList, hrange, map_append, filter_append, filter_eq_self.mpr hfirst]
  rcases Nat.le_total k 12 with hle | hge
  · rw [Nat.min_eq_right hle]
    refine take_left' ?_
    rw [length_map, length_range]
  · rw [Nat.min_eq_left hge, range_zero, map_nil, map_nil,
      filter_nil, append_nil, take_of_length_le]
    rwa [length_map]

/-- Every block of a file up to index `k` exists. -/
def NoneMissing (v : Volume) (inode : Bytes) (k : ℕ) : Prop :=
  ∀ j < k, (v.logicalBlock inode j).isSome

/-- The blocks of a file, of which none is missing, are stored at their indices. -/
theorem Sound.getElem?_loadedList (hv : v.Sound) (h : v.NoneMissing inode k) {j : ℕ} (hj : j < k) :
    (v.loadedList inode k)[j]? = v.logicalBlock inode j := by
  have hdirect : ∀ i < 12, i < k → isBlock (iBlock inode i) = true := fun i hi hik => by
    have hsome := h i hik
    rw [logicalBlock, if_pos hi] at hsome
    exact valid_of_leafAt hsome
  have hlist : directBlockList inode k = (List.range (min 12 k)).map (iBlock inode) :=
    directBlockList_eq fun i hi hik => (of_decide_eq_true (hdirect i hi hik)).1
  have hlen : (directBlockList inode k).length = min 12 k := by
    rw [hlist, length_map, length_range]
  rw [loadedList, logicalBlock]
  split_ifs with hlt
  · rw [getElem?_treesList_of_lt _ (by omega), hlist, getElem?_map,
      getElem?_range (by omega), leafAt, if_pos (hdirect j hlt hj)]
    rfl
  · have hindex : j = (directBlockList inode k).length + (j - 12) := by omega
    have hall : ∀ m ≤ j - 12, (treesAt v.tableEntry (v.blockSize / 4) isBlock
        (inodeTrees inode) m).isSome := fun m hm => by
      have hsome := h (m + 12) (by omega)
      rwa [logicalBlock] at hsome
    rw [← getElem?_treesList hv.entries_pos _ (hindex ▸ hj) hall, ← hindex]

/-- `ext2_load_block_list` returns the null pointer, or exactly the blocks of the file in order, and
stores no more than the list has room for. -/
def ListsBlocks (v : Volume) (n : ℕ) (inode : Bytes) : Prop :=
  match v.loadBlockList n with
  | none => False
  | some none => True
  | some (some blocks) => blocks.map some =
    (List.range (v.blocksFor (iSize inode))).map (v.logicalBlock inode)

/-- The number of blocks as the code computes it, with 32 bits. -/
theorem divideRoundedUp32_eq_blocksFor {size : ℕ} (hbs : 0 < v.blockSize) (hsize : size < 2 ^ 32)
    (hbs' : v.blockSize < 2 ^ 32) (hne : divideRoundedUp32 size v.blockSize ≠ 0) :
    divideRoundedUp32 size v.blockSize = v.blocksFor size := by
  rw [blocksFor]
  unfold divideRoundedUp32 at hne ⊢
  split_ifs at hne ⊢ with hmod
  · rcases Nat.lt_or_ge (size + v.blockSize - 1) (2 ^ 32) with hlt | hge
    · rw [wrap32_of_lt hlt]
    · -- the sum wraps around to less than a block
      refine absurd (Nat.div_eq_of_lt ?_) hne
      unfold wrap32
      omega
  · rw [← div_add_ite hbs, if_neg hmod, Nat.add_zero]

theorem Sound.blockSize_dvd (hv : v.Sound) : v.blockSize ∣ 2 ^ 32 := by
  have hpow : 2 ^ v.sbGet .logBlockSize ≤ 2 ^ 21 :=
    Nat.pow_le_pow_right (by decide) (Nat.le_of_lt_succ hv.logBlockSize)
  have hlog := hv.logBlockSize
  rw [blockSize, Nat.shiftLeft_eq, wrap32_of_lt (by omega), show 1024 = 2 ^ 10 by decide,
    ← Nat.pow_add]
  exact Nat.pow_dvd_pow 2 (by omega)

/-- The number of blocks, rounded up with 32 bits, is zero for an empty file, and for one so large
that the sum wraps around. -/
theorem Sound.divideRoundedUp32_eq_zero_iff (hv : v.Sound) {size : ℕ} (hsize : size < 2 ^ 32) :
    divideRoundedUp32 size v.blockSize = 0 ↔ size = 0 ∨ 2 ^ 32 < size + v.blockSize := by
  have hpos := hv.blockSize_pos
  have hsplit := Nat.div_add_mod' size v.blockSize
  rw [divideRoundedUp32]
  split_ifs with hmod
  · rw [Nat.div_eq_zero_iff, wrap32]
    omega
  · rw [Nat.div_eq_zero_iff]
    constructor
    · rintro (hzero | hlt)
      · omega
      · rw [Nat.div_eq_of_lt hlt] at hsplit
        omega
    · rintro (rfl | hlt)
      · exact .inr hpos
      · -- a multiple of the block size is at least a block below the end
        obtain ⟨m, hm⟩ := hv.blockSize_dvd
        rw [Nat.mul_comm] at hm
        have hq : size / v.blockSize < m := by
          refine Nat.lt_of_mul_lt_mul_right (a := v.blockSize) ?_
          omega
        have hmul := region_le v.blockSize hq
        omega

/-- A list of the right length has the blocks of the file just if none is missing. -/
theorem Sound.loadedList_eq_iff (hv : v.Sound) (hcount : v.entryCount inode k = k) :
    (v.loadedList inode k).map some = (List.range k).map (v.logicalBlock inode) ↔
      v.NoneMissing inode k := by
  have hlen : (v.loadedList inode k).length = k := by rw [length_loadedList, hcount]
  constructor
  · intro hlist j hj
    have hget := congrArg (fun l => l[j]?) hlist
    simp only [getElem?_map, getElem?_range hj, getElem?_eq_getElem (hlen.symm ▸ hj)] at hget
    rw [← Option.some.inj hget]
    rfl
  · intro hnone
    refine ext_getElem? fun j => ?_
    rw [getElem?_map, getElem?_map]
    rcases Nat.lt_or_ge j k with hj | hj
    · obtain ⟨b, hb⟩ := Option.isSome_iff_exists.mp (hnone j hj)
      rw [hv.getElem?_loadedList hnone hj, hb, getElem?_range hj, Option.map_some,
        Option.map_some, hb]
    · rw [getElem?_eq_none (by omega), getElem?_eq_none (length_range.trans_le hj)]
      rfl

/-- **The list of the blocks of a file**: either the number of blocks comes out as zero, or the
inode and the tables have too few block numbers, or they have as many as needed, and none is
missing. -/
theorem listsBlocks_iff (hv : v.Sound) (hread : v.readInode n = some inode)
    (hk : v.blocksFor (iSize inode) = k) :
    v.ListsBlocks n inode ↔ 2 ^ 32 < iSize inode + v.blockSize ∨
      v.entryCount inode k < k ∨ v.entryCount inode k = k ∧ v.NoneMissing inode k := by
  have hsize := inodeSize_lt inode
  have hpos := hv.blockSize_pos
  have hzero := hv.divideRoundedUp32_eq_zero_iff hsize
  rw [ListsBlocks, hv.loadBlockList_eq hread rfl, hk]
  by_cases hnull : divideRoundedUp32 (iSize inode) v.blockSize = 0
  · rw [if_pos hnull]
    refine iff_of_true trivial ?_
    rcases hzero.mp hnull with hempty | hlarge
    · obtain rfl : k = 0 := by
        rw [← hk, blocksFor, Nat.div_eq_of_lt (by omega)]
      refine .inr (.inr ⟨?_, fun j hj => absurd hj (Nat.not_lt_zero j)⟩)
      rw [entryCount, treesCount_of_le _ (Nat.zero_le _), Nat.zero_min]
    · exact .inl hlarge
  · have hlarge : ¬ 2 ^ 32 < iSize inode + v.blockSize :=
      fun h => hnull (hzero.mpr (.inr h))
    have hround := divideRoundedUp32_eq_blocksFor hpos hsize (Nat.mod_lt _ (by decide)) hnull
    rw [hk] at hround
    rw [hround] at hnull ⊢
    rw [if_neg hnull, or_iff_right hlarge]
    rcases Nat.lt_trichotomy (v.entryCount inode k) k with hlt | heq | hgt
    · -- the null pointer
      rw [if_neg (by omega), if_pos (by omega)]
      exact iff_of_true trivial (.inl hlt)
    · rw [if_neg (by omega), if_neg (not_not.mpr heq)]
      refine (hv.loadedList_eq_iff heq).trans ?_
      rw [heq, or_iff_right (Nat.lt_irrefl k), and_iff_right rfl]
    · -- a store behind the list
      rw [if_pos hgt]
      exact iff_of_false id (by omega)

theorem oneFile_listsBlocks : oneFile.ListsBlocks 1 oneFileInode := by
  have hk : oneFile.blocksFor (iSize oneFileInode) = 1 := by decide +kernel
  refine (listsBlocks_iff oneFile_sound oneFile_readInode hk).mpr
    (.inr (.inr ⟨by decide +kernel, fun j hj => ?_⟩))
  rw [Nat.lt_one_iff.mp hj]
  decide +kernel

/-- The file with inode 1 has thirteen blocks: twelve direct blocks and one in the table in block 7,
which has another entry. -/
def longTable : Volume :=
  { oneFile with
    disk :=
      { sectorSize := 512
        bytes := fun x =>
          if x = 5125 then 0x34 else if 5160 ≤ x ∧ x < 5208 ∧ x % 4 = 0 then BitVec.ofNat 8 (x / 4)
          else if x = 5208 then 7 else if x = 7168 then 8 else if x = 7172 then 9 else 0
        readable := fun _ _ => true
        writable := fun _ _ => true } }

/-- The second entry of the table is stored behind the list. -/
theorem longTable_loadBlockList : ∃ inode, longTable.readInode 1 = some inode ∧
    longTable.blocksFor (iSize inode) = 13 ∧
    longTable.entryCount inode 13 = 14 ∧ ¬ longTable.ListsBlocks 1 inode := by
  refine ⟨_, rfl, by decide +kernel, by decide +kernel, ?_⟩
  exact id

/-! ### Files with the blocks of their size -/

/-- Blocks that can be addressed have smaller numbers than the mark for the end. -/
theorem InRange.ne_inodeBlockEnd {b : ℕ} (h : v.InRange b) (hv : v.Sound) : b ≠ inodeBlockEnd := by
  rintro rfl
  obtain ⟨m, hpos, hm⟩ := hv.exists_blockSize
  have hoffset := h.offset_lt
  have hmul := Nat.mul_le_mul_left inodeBlockEnd (show 2 ≤ v.blockSize by omega)
  have hend : inodeBlockEnd = 4294967295 := rfl
  omega

/-- A table that can be addressed is read as it is on the disk. -/
theorem Sound.tableEntry_eq (hv : v.Sound) {b i : ℕ} (hb : v.InRange b) (hi : i < v.blockSize / 4) :
    v.tableEntry b i = v.diskArray b i := by
  rw [tableEntry, hv.readBlock_eq hb]
  exact v.bufferArray_eq b hi

/-- The block map is listed in order. -/
theorem FileOn.loadedList_eq (h : v.FileOn n inode) (htables : v.TablesOn inode (v.IsTable n)) :
    v.loadedList inode (v.blocksFor (iSize inode)) =
      (List.range (v.blocksFor (iSize inode))).map (v.fileBlock inode) := by
  have hv := h.space.sound
  have hmap := h.map
  unfold TablesOn at htables
  generalize v.blocksFor (iSize inode) = k at hmap htables ⊢
  have hstages : Forall₂ Stage.Same (levelStages (iBlock inode) 1 [12, 13, 14])
      (treeStages (inodeTrees inode)) := by
    simp [inodeTrees, treeStages, levelStages, Stage.Same]
  have harray : ∀ b, v.InRange b → ∀ i < v.blockSize / 4, v.tableEntry b i = v.diskArray b i :=
    fun _ hb _ => hv.tableEntry_eq hb
  have hvalid : ∀ b, v.InRange b → isBlock b = true := fun b hb =>
    decide_eq_true ⟨Nat.ne_of_gt hb.pos, hb.ne_inodeBlockEnd hv⟩
  -- the blocks and tables can be addressed
  have hin : ∀ j < k - 12, StagesIn v.diskArray (v.blockSize / 4) v.InRange v.InRange
      (levelStages (iBlock inode) 1 [12, 13, 14]) j := fun j hj => by
    have hleaf := htables (j + 12) (by omega)
    rw [inodeStages_eq, StagesIn, leaves_direct, if_neg (by omega), Nat.add_sub_cancel] at hleaf
    exact hleaf.mono (fun b hb => h.space.blocks b (.inr hb.1)) fun b hb =>
      h.space.blocks b (.inr hb)
  have hcongr := fun j hj => ((hin j hj).congr harray).1.congr_stages hstages
  have hholds := hmap.holds.2
  rw [leaves_direct] at hholds
  have hdirect := directBlockList_eq fun i hi hik => (hmap.iBlock_iff i hi).mpr hik
  have hlen : (directBlockList inode k).length + (k - 12) = k := by
    rw [hdirect, length_map, length_range]
    omega
  have hlist := treesList_eq hv.entries_pos (by decide : ¬ isBlock 0)
    (hholds.congr hv.entries_pos hstages harray hin)
    (fun j hj => (hcongr j hj).1.mono hvalid hvalid) (directBlockList inode k)
  rw [hlen] at hlist
  have hblocks : (List.range k).map (v.fileBlock inode) = (List.range (min 12 k)).map
      (iBlock inode) ++ (List.range (k - 12)).map (stagesBlock v.diskArray (v.blockSize / 4)
        (levelStages (iBlock inode) 1 [12, 13, 14])) :=
    (map_stagesBlock_cons ⟨0, iBlock inode, 12⟩ _ k).trans (by rfl)
  rw [loadedList, hlist, hblocks, ← hdirect]
  refine congrArg (directBlockList inode k ++ ·) (map_congr_left fun j hj => ?_)
  have hj := mem_range.mp hj
  rw [(hcongr j hj).2, ((hin j hj).congr harray).2]

/-- **`ext2_load_block_list`** returns the blocks of the file. -/
theorem FileOn.loadBlockList_eq (h : v.FileOn n inode) (htables : v.TablesOn inode (v.IsTable n)) :
    v.loadBlockList n = some (if divideRoundedUp32 (iSize inode) v.blockSize = 0 then none
        else some ((List.range (v.blocksFor (iSize inode))).map (v.fileBlock inode))) := by
  have hv := h.space.sound
  have hlist := h.loadedList_eq htables
  have hcount := congrArg List.length hlist
  rw [length_loadedList, length_map, length_range] at hcount
  rw [hv.loadBlockList_eq h.read rfl]
  by_cases hzero : divideRoundedUp32 (iSize inode) v.blockSize = 0
  · rw [if_pos hzero, if_pos hzero]
  rw [if_neg hzero, if_neg hzero,
    divideRoundedUp32_eq_blocksFor hv.blockSize_pos (inodeSize_lt inode) v.blockSize_lt hzero,
    hcount, hlist, if_neg (Nat.lt_irrefl _), if_neg (not_not_intro rfl)]

end Volume

end Bloodmoon
