import Bloodmoon.Ext2.BlockSpace

/-!
# Growing a file

`ext2_allocate_blocks` puts new blocks at the places of the inode that are zero, and then makes a
table at each of the three levels until it has all blocks. The tables are trees (`Machine.Made`)
whose entries behind the last block are what the heap held (`heapWord`).

The functions for the levels are one argument: what a function does for the entries of a table
(`AllocatesTree d`) gives what the function with such tables as entries does. When no block is free
any more they stop short, and then all later ones do too, so that a call that reports success has
made all its trees.
-/

namespace Bloodmoon

open Machine List

namespace Volume

variable {v u w : Volume} {b p t d n : ℕ} {taken taken' leaves leaves' : List ℕ} {buffer : Bytes}
variable {i j left old : ℕ} {inode : Bytes}

/-- The block numbers in a buffer from the heap that has not been written. -/
def heapWord (v : Volume) (i : ℕ) : ℕ := loadLE v.fresh (4 * i) 4

/-- The block has been taken for a table. -/
def TakenTable (taken leaves : List ℕ) (b : ℕ) : Prop := b ∈ taken ∧ b ∉ leaves

section TakenTable

variable (hnodup : (taken ++ taken').Nodup)

include hnodup

/-- Tables stay tables when more blocks are taken, and so do those of the blocks taken later. -/
theorem TakenTable.append_left (hsub : leaves'.Sublist taken') (h : TakenTable taken leaves b) :
    TakenTable (taken ++ taken') (leaves ++ leaves') b := by
  refine ⟨mem_append_left _ h.1, fun hmem => ?_⟩
  rcases mem_append.mp hmem with hleft | hright
  · exact h.2 hleft
  · exact (nodup_append.mp hnodup).2.2 b h.1 b (hsub.subset hright) rfl

theorem TakenTable.append_right (hsub : leaves.Sublist taken) (h : TakenTable taken' leaves' b) :
    TakenTable (taken ++ taken') (leaves ++ leaves') b := by
  refine ⟨mem_append_right _ h.1, fun hmem => ?_⟩
  rcases mem_append.mp hmem with hleft | hright
  · exact (nodup_append.mp hnodup).2.2 b (hsub.subset hleft) b h.1 rfl
  · exact h.2 hright

end TakenTable

/-- A tree of depth `d` with the given leaves has been made below the block `p`. -/
structure TreeMade (v w : Volume) (d p : ℕ) (taken leaves : List ℕ) : Prop where
  grown : Grown v w taken
  sub : leaves.Sublist taken
  made : Made w.diskArray (v.blockSize / 4) v.heapWord (TakenTable taken leaves) (· ∈ leaves) d p
    leaves
  length : taken.length = nodes (v.blockSize / 4) d leaves.length

theorem TreeMade.root (h : TreeMade v w d p taken leaves) : p ∈ taken :=
  h.made.root.elim And.left (h.sub.subset ·)

/-- What a function does that allocates a tree of depth `d`: it makes one with as many leaves as
there are blocks to allocate, or as it can have, unless there are fewer blocks than the tree has
nodes, and it takes all of them. -/
structure AllocatesTree (d : ℕ) (allocate : Volume → ℕ → Volume × ℕ × ℕ) : Prop where
  makes : ∀ {v : Volume} {n : ℕ}, v.BlockSpace → 0 < n →
    (∃ taken leaves, TreeMade v (allocate v n).1 d (allocate v n).2.1 taken leaves ∧
      (allocate v n).2.2 = leaves.length ∧ leaves.length = min n ((v.blockSize / 4) ^ d)) ∨
    ∃ taken, Grown v (allocate v n).1 taken ∧ (allocate v n).1.Exhausted ∧
      (allocate v n).2.2 < min n ((v.blockSize / 4) ^ d) ∧
      taken.length < nodes (v.blockSize / 4) d (min n ((v.blockSize / 4) ^ d))
  stops : ∀ {v : Volume} {n : ℕ}, v.BlockSpace → v.Exhausted → allocate v n = (v, 0, 0)

/-- The numbers of blocks fit an entry. -/
theorem Grown.block_lt (h : Grown v w taken) (hv : v.BlockSpace) (hb : b ∈ taken) : b < 2 ^ 32 := by
  obtain ⟨g, hg, i, hlow, -, rfl, -⟩ := h.free b hb
  exact hv.blockNumber_lt hg hlow

/-- A tree is kept while other blocks are taken. -/
theorem Made.grown {word : ℕ → ℕ} {ls : List ℕ} (h : Grown v u taken) (h' : Grown u w taken')
    (hv : v.BlockSpace) (hsub : leaves'.Sublist taken')
    (hmade : Made u.diskArray (v.blockSize / 4) word (TakenTable taken leaves)
      (· ∈ leaves) d p ls) :
    Made w.diskArray (v.blockSize / 4) word (TakenTable (taken ++ taken') (leaves ++ leaves'))
      (· ∈ leaves ++ leaves') d p ls := by
  refine hmade.congr (fun b hb i hi => ?_) (fun b hb => hb.append_left (h.trans h').nodup hsub)
    fun b hb => mem_append_left _ hb
  rw [← h.record.blockSize] at hi
  exact h'.diskArray_eq ((h.allocated b).mpr (.inr hb.1)) (h.not_isBitmap' hv hb.1) hi

/-! ### Single blocks -/

/-- A block as a tree of depth 0. -/
def allocateLeaf (v : Volume) (_ : ℕ) : Volume × ℕ × ℕ :=
  (v.allocateBlock.1, v.allocateBlock.2, if v.allocateBlock.2 = 0 then 0 else 1)

theorem allocatesTree_leaf : AllocatesTree 0 allocateLeaf where
  makes {v n} hv hn := by
    rcases hv.allocateBlock with ⟨hne, hgrown⟩ | ⟨heq, hall⟩
    · refine .inl ⟨[v.allocateBlock.2], [v.allocateBlock.2], ⟨hgrown, .refl _,
        ⟨mem_singleton_self _, rfl⟩, (nodes_leaf _ _).symm⟩, if_neg hne, ?_⟩
      rw [length_singleton, Nat.pow_zero]
      omega
    · refine .inr ⟨[], ?_⟩
      rw [allocateLeaf, heq, nodes_leaf]
      exact ⟨.refl hv.toBlockCounts, hall, by simpa using hn, by simpa using hn⟩
  stops {v n} hv hall := by
    rw [allocateLeaf, hv.allocateBlock_of_exhausted hall]
    rfl

/-! ### Tables -/

/-- The state of the loop over the entries of a table before entry `j`. -/
structure Filling (v w : Volume) (d j : ℕ) (buffer : Bytes) (taken leaves : List ℕ) : Prop where
  grown : Grown v w taken
  sub : leaves.Sublist taken
  entries : ∀ i < j, i * (v.blockSize / 4) ^ d < leaves.length ∧
    Made w.diskArray (v.blockSize / 4) v.heapWord (TakenTable taken leaves) (· ∈ leaves) d
      (loadLE buffer (4 * i) 4)
      ((leaves.drop (i * (v.blockSize / 4) ^ d)).take ((v.blockSize / 4) ^ d))
  rest : ∀ i, j ≤ i → loadLE buffer (4 * i) 4 = v.heapWord i
  length : taken.length = nodes (v.blockSize / 4) d leaves.length

/-- One entry more. -/
theorem Filling.step (h : Filling v u d j buffer taken leaves) (hv : v.BlockSpace)
    (hlen : leaves.length = j * (v.blockSize / 4) ^ d) (hpos : 0 < leaves'.length)
    (hle : leaves'.length ≤ (v.blockSize / 4) ^ d) (h' : TreeMade u w d p taken' leaves') :
    Filling v w d (j + 1) (storeLE buffer (4 * j) 4 p) (taken ++ taken') (leaves ++ leaves') := by
  have hsize := h.grown.record.blockSize
  have hword : u.heapWord = v.heapWord := by
    funext i
    rw [heapWord, heapWord, h.grown.record.fresh]
  have hother : ∀ i, i ≠ j → loadLE (storeLE buffer (4 * j) 4 p) (4 * i) 4 =
      loadLE buffer (4 * i) 4 := fun i hi => loadLE_congr (sameOn_storeLE _ _ (by omega))
  have hp : loadLE (storeLE buffer (4 * j) 4 p) (4 * j) 4 = p := by
    rw [loadLE_storeLE]
    exact Nat.mod_eq_of_lt (h'.grown.block_lt (h.grown.blockSpace hv) h'.root)
  refine ⟨h.grown.trans h'.grown, h.sub.append h'.sub, fun i hi => ?_, fun i hi => ?_, ?_⟩
  · rw [length_append]
    rcases Nat.lt_or_eq_of_le (Nat.le_of_lt_succ hi) with hlt | rfl
    · -- an entry from before
      obtain ⟨hbegin, hmade⟩ := h.entries i hlt
      have hend : i * (v.blockSize / 4) ^ d + (v.blockSize / 4) ^ d ≤ leaves.length := by
        rw [hlen]
        exact region_le _ hlt
      refine ⟨by omega, ?_⟩
      rw [hother i (Nat.ne_of_lt hlt), drop_append_of_le_length (by omega),
        take_append_of_le_length (by rw [length_drop]; omega)]
      exact Made.grown h.grown h'.grown hv h'.sub hmade
    · refine ⟨by omega, ?_⟩
      rw [hp, ← hlen, drop_left, take_of_length_le hle]
      have hmade := h'.made
      rw [hsize, hword] at hmade
      exact hmade.congr (fun _ _ _ _ => rfl)
        (fun b hb => hb.append_right (h.grown.trans h'.grown).nodup h.sub)
        fun b hb => mem_append_right _ hb
  · rw [hother i (by omega)]
    exact h.rest i (by omega)
  · rw [length_append, length_append, h.length, h'.length, hlen, hsize,
      nodes_add hv.sound.entries_pos]

theorem Grown.heapWord_eq (h : Grown v w taken) : w.heapWord = v.heapWord := by
  funext i
  rw [heapWord, heapWord, h.record.fresh]

/-- The table is written to the block `t`, which was taken first. -/
theorem Filling.finish (hfirst : Grown v u [t]) (h : Filling u w d j buffer taken leaves)
    (hv : v.BlockSpace) (hle : leaves.length ≤ j * (v.blockSize / 4) ^ d)
    (hpos : 0 < leaves.length) (hfits : leaves.length ≤ (v.blockSize / 4) ^ (d + 1)) :
    w.writeBlock t buffer 0 = (w.withBlock t buffer, 1) ∧
      TreeMade v (w.withBlock t buffer) (d + 1) t ([t] ++ taken) leaves := by
  have hgrown := hfirst.trans h.grown
  have ht : t ∈ [t] ++ taken := mem_append_left _ (mem_singleton_self t)
  have hsize := hfirst.record.blockSize
  have hsize' := hgrown.record.blockSize
  -- it is not among the blocks taken after it
  have hfresh : ∀ {b}, b ∈ taken → b ≠ t := by
    rintro b hb rfl
    exact (nodup_append.mp hgrown.nodup).2.2 b (mem_singleton_self b) b hb rfl
  refine ⟨hgrown.writeBlock_eq hv ht buffer, hgrown.withBlock hv ht buffer,
    h.sub.trans (sublist_append_right _ _), ⟨⟨ht, fun hmem => hfresh (h.sub.subset hmem) rfl⟩,
    fun i hi => ?_⟩, ?_⟩
  swap
  · rw [nodes_succ hv.sound.entries_pos hpos hfits, ← hsize, ← h.length]
    rfl
  rw [w.diskArray_withBlock t buffer (by rwa [hsize'])]
  split_ifs with hlt
  · have hij : i < j := Nat.lt_of_mul_lt_mul_right (Nat.lt_of_lt_of_le hlt hle)
    obtain ⟨-, hmade⟩ := h.entries i hij
    rw [hsize, hfirst.heapWord_eq] at hmade
    refine hmade.congr (fun b hb k hk => ?_) (fun b hb => ⟨mem_append_right _ hb.1, hb.2⟩)
      fun b hb => hb
    exact w.diskArray_withBlock_of_ne buffer (hfresh hb.1) (by rwa [hsize'])
  · rw [h.rest i (Nat.not_lt.mp fun hij => hlt (hsize ▸ (h.entries i hij).1)), hfirst.heapWord_eq]

section Table

variable {allocate : Volume → ℕ → Volume × ℕ × ℕ}

/-- Without free blocks nothing is added. -/
theorem AllocatesTree.fillTable_of_exhausted (ha : AllocatesTree d allocate) (hv : v.BlockSpace)
    (hall : v.Exhausted) (n left j : ℕ) (buffer : Bytes) (written : ℕ) :
    (fillTable allocate n left j v buffer written).1 = v ∧
      (fillTable allocate n left j v buffer written).2.2 = written := by
  induction left generalizing j buffer with
  | zero => exact ⟨rfl, rfl⟩
  | succ left ih =>
    rw [fillTable]
    split_ifs
    · exact ⟨rfl, rfl⟩
    · simp only [ha.stops hv hall]
      exact ih _ _

/-- **The loop over the entries of a table** fills it from the left with trees, all of them full but
the last, unless there are no free blocks in the end. -/
theorem AllocatesTree.fillTable (ha : AllocatesTree d allocate) (hv : v.BlockSpace) {left j : ℕ}
    (hleft : j + left = v.blockSize / 4) (h : Filling v u d j buffer taken leaves)
    (hlen : leaves.length = min n (j * (v.blockSize / 4) ^ d)) :
    (∃ j' taken' leaves', Filling v (fillTable allocate n left j u buffer leaves.length).1 d j'
        (fillTable allocate n left j u buffer leaves.length).2.1 taken' leaves' ∧
      (fillTable allocate n left j u buffer leaves.length).2.2 = leaves'.length ∧
      leaves'.length = min n ((v.blockSize / 4) ^ (d + 1)) ∧
      leaves'.length ≤ j' * (v.blockSize / 4) ^ d) ∨
    ∃ taken', Grown v (fillTable allocate n left j u buffer leaves.length).1 taken' ∧
      (fillTable allocate n left j u buffer leaves.length).1.Exhausted ∧
      (fillTable allocate n left j u buffer leaves.length).2.2 <
        min n ((v.blockSize / 4) ^ (d + 1)) ∧
      taken'.length < nodes (v.blockSize / 4) d (min n ((v.blockSize / 4) ^ (d + 1))) := by
  have hentries := hv.sound.entries_pos
  have hpow : (v.blockSize / 4) ^ (d + 1) = v.blockSize / 4 * (v.blockSize / 4) ^ d := Nat.pow_succ'
  have hfits : ∀ {j}, j ≤ v.blockSize / 4 →
      j * (v.blockSize / 4) ^ d ≤ (v.blockSize / 4) ^ (d + 1) := fun hj => by
    rw [hpow]
    exact Nat.mul_le_mul_right _ hj
  induction left generalizing j u buffer taken leaves with
  | zero =>
    rw [Nat.add_zero] at hleft
    refine .inl ⟨j, taken, leaves, h, rfl, ?_, ?_⟩
    · rw [hlen, hleft, hpow]
    · exact hlen ▸ Nat.min_le_right _ _
  | succ left ih =>
    have hj' := hfits (show j + 1 ≤ v.blockSize / 4 by omega)
    rw [Nat.succ_mul] at hj'
    rw [Volume.fillTable]
    by_cases hdone : leaves.length = n
    · rw [if_pos hdone]
      exact .inl ⟨j, taken, leaves, h, rfl, by omega, by omega⟩
    · rw [if_neg hdone]
      have hfull : leaves.length = j * (v.blockSize / 4) ^ d := by omega
      have hu := h.grown.blockSpace hv
      rcases ha.makes hu (n := n - leaves.length) (by omega) with
        ⟨taken', leaves', hmade, hcount, hlen'⟩ | ⟨taken', hgrown, hall, hcount, hless⟩
      · rw [h.grown.record.blockSize] at hlen'
        have hpos : 0 < (v.blockSize / 4) ^ d := Nat.pow_pos hentries
        have hstep := h.step hv hfull (by omega) (by omega) hmade
        have hsum : leaves.length + (allocate u (n - leaves.length)).2.2 =
            (leaves ++ leaves').length := by
          rw [hcount, length_append]
        simp only [hsum]
        refine ih (j := j + 1) (by omega) hstep ?_
        rw [Nat.succ_mul]
        omega
      · -- the other entries add nothing
        rw [h.grown.record.blockSize] at hcount hless
        obtain ⟨hstate, hwritten⟩ := ha.fillTable_of_exhausted (hgrown.blockSpace hu) hall n left
          (j + 1) (storeLE buffer (4 * j) 4 (allocate u (n - leaves.length)).2.1)
          (leaves.length + (allocate u (n - leaves.length)).2.2)
        refine .inr ⟨taken ++ taken', ?_⟩
        simp only [hstate]
        refine ⟨h.grown.trans hgrown, hall, by omega, ?_⟩
        calc (taken ++ taken').length
            < nodes (v.blockSize / 4) d
                (leaves.length + min (n - leaves.length) ((v.blockSize / 4) ^ d)) := by
              rw [length_append, h.length, hfull, nodes_add hentries, ← hfull]
              omega
          _ ≤ nodes (v.blockSize / 4) d (min n ((v.blockSize / 4) ^ (d + 1))) :=
              nodes_mono hentries (by omega)

/-- **A table of trees is a tree.** -/
theorem AllocatesTree.table (ha : AllocatesTree d allocate) :
    AllocatesTree (d + 1) (allocateTable allocate) where
  makes {v n} hv hn := by
    have hentries := hv.sound.entries_pos
    have hpow : 0 < (v.blockSize / 4) ^ (d + 1) := Nat.pow_pos hentries
    rw [nodes_succ hentries (show 0 < min n _ by omega) (Nat.min_le_right _ _)]
    rcases hv.allocateBlock with ⟨hne, hgrown⟩ | ⟨heq, hall⟩
    · have hsize := hgrown.record.blockSize
      have hu := hgrown.blockSpace hv
      have hbegin : Filling v.allocateBlock.1 v.allocateBlock.1 d 0 v.fresh [] [] :=
        ⟨.refl hu.toBlockCounts, .refl _, fun i hi => absurd hi (Nat.not_lt_zero i),
          fun i _ => by rw [hgrown.heapWord_eq, heapWord], (nodes_no_leaves _ _).symm⟩
      have hfill := ha.fillTable hu (Nat.zero_add _) hbegin (n := n) (by simp)
      rw [hsize] at hfill
      simp only [allocateTable, if_neg hne]
      generalize Volume.fillTable allocate n (v.blockSize / 4) 0 v.allocateBlock.1 v.fresh 0 = r
        at hfill ⊢
      rcases hfill with ⟨j, taken, leaves, hfill, hcount, hlen, hle⟩ |
        ⟨taken, hgrown', hall, hcount, hless⟩
      · obtain ⟨hwrite, htree⟩ := hfill.finish hgrown hv hle (by omega) (by omega)
        rw [hwrite]
        exact .inl ⟨_, leaves, htree, hcount, hlen⟩
      · have hboth := hgrown.trans hgrown'
        have ht : v.allocateBlock.2 ∈ [v.allocateBlock.2] ++ taken := by simp
        rw [hboth.writeBlock_eq hv ht]
        refine .inr ⟨_, hboth.withBlock hv ht _, hboth.exhausted_withBlock hv ht _ hall, hcount, ?_⟩
        rw [length_append, length_singleton]
        omega
    · refine .inr ⟨[], ?_⟩
      simp only [allocateTable, heq, if_true]
      exact ⟨.refl hv.toBlockCounts, hall, by omega, Nat.succ_pos _⟩
  stops {v n} hv hall := by
    simp only [allocateTable, hv.allocateBlock_of_exhausted hall, if_true]

end Table

/-- The loop of `ext2_allocate_indirect_block` is the one of a table of blocks, unless there are no
free blocks in the end. -/
theorem BlockSpace.fillIndirect (hv : v.BlockSpace) (n left j : ℕ) (buffer : Bytes)
    {written : ℕ} (hle : written ≤ n) :
    (∃ buffer' written', Volume.fillIndirect n left j v buffer written =
        ((Volume.fillTable allocateLeaf n left j v buffer written).1, some (buffer', written')) ∧
      (Volume.fillTable allocateLeaf n left j v buffer written).2 = (buffer', written')) ∨
    ∃ w taken, Volume.fillIndirect n left j v buffer written = (w, none) ∧ Grown v w taken ∧
      w.Exhausted ∧ written + taken.length < min n (written + left) := by
  induction left generalizing j v buffer written with
  | zero => exact .inl ⟨buffer, written, rfl, rfl⟩
  | succ left ih =>
    rw [Volume.fillIndirect, Volume.fillTable]
    split_ifs with hdone
    · exact .inl ⟨buffer, written, rfl, rfl⟩
    · rcases hv.allocateBlock with ⟨hne, hgrown⟩ | ⟨heq, hall⟩
      · simp only [allocateLeaf, if_neg hne]
        rcases ih (hgrown.blockSpace hv) (j + 1) (storeLE buffer (4 * j) 4 v.allocateBlock.2)
          (show written + 1 ≤ n by omega) with hsome | ⟨w, taken, hnone, hgrown', hall, hless⟩
        · exact .inl hsome
        · refine .inr ⟨w, _, hnone, hgrown.trans hgrown', hall, ?_⟩
          rw [length_append, length_singleton]
          omega
      · simp only [heq]
        exact .inr ⟨v, [], rfl, .refl hv.toBlockCounts, hall, by rw [length_nil]; omega⟩

theorem allocatesTree_indirect : AllocatesTree 1 allocateIndirectBlock where
  makes {v n} hv hn := by
    have hentries := hv.sound.entries_pos
    have hnodes : nodes (v.blockSize / 4) 1 (min n (v.blockSize / 4)) =
        min n (v.blockSize / 4) + 1 := by
      rw [nodes_succ hentries (by omega) (by rw [Nat.pow_one]; omega), nodes_leaf]
    rcases hv.allocateBlock with ⟨hne, hgrown⟩ | ⟨heq, hall⟩
    · rcases (hgrown.blockSpace hv).fillIndirect n (v.blockSize / 4) 0 v.fresh (Nat.zero_le n) with
        ⟨buffer, written, hfill, htable⟩ | ⟨w, taken, hfill, hgrown', hall, hless⟩
      · have heq : allocateIndirectBlock v n = allocateTable allocateLeaf v n := by
          simp only [allocateIndirectBlock, allocateTable, hfill, htable]
        rw [heq]
        exact allocatesTree_leaf.table.makes hv hn
      · refine .inr ⟨[v.allocateBlock.2] ++ taken, ?_⟩
        simp only [allocateIndirectBlock, if_neg hne, hfill, length_append,
          length_singleton, Nat.pow_one]
        exact ⟨hgrown.trans hgrown', hall, by omega, by omega⟩
    · refine .inr ⟨[], ?_⟩
      simp only [allocateIndirectBlock, heq, if_true, hnodes, Nat.pow_one]
      exact ⟨.refl hv.toBlockCounts, hall, by omega, Nat.succ_pos _⟩
  stops {v n} hv hall := by
    simp only [allocateIndirectBlock, hv.allocateBlock_of_exhausted hall, if_true]

theorem allocatesTree_double : AllocatesTree 2 allocateDoubleIndirectBlock :=
  allocatesTree_indirect.table

theorem allocatesTree_triple : AllocatesTree 3 allocateTripleIndirectBlock :=
  allocatesTree_double.table

/-! ### The three levels -/

section Levels

variable {i : ℕ}

/-- The functions for the levels from depth `d` up, at different indices. -/
inductive LevelFunctions : ℕ → List (ℕ × (Volume → ℕ → Volume × ℕ × ℕ)) → Prop
  | nil {d : ℕ} : LevelFunctions d []
  | cons {d i : ℕ} {allocate : Volume → ℕ → Volume × ℕ × ℕ}
      {rest : List (ℕ × (Volume → ℕ → Volume × ℕ × ℕ))} (ha : AllocatesTree d allocate)
      (hi : i ∉ rest.map Prod.fst) (hrest : LevelFunctions (d + 1) rest) :
      LevelFunctions d ((i, allocate) :: rest)

variable {stages : List (ℕ × (Volume → ℕ → Volume × ℕ × ℕ))} {inode : Bytes} {a : ℕ}

theorem iBlock_setIBlock_of_ne {k : ℕ} (h : k ≠ i) :
    iBlock (setIBlock inode i b) k = iBlock inode k :=
  loadLE_congr (sameOn_storeLE _ _ (by omega))

theorem iBlock_setIBlock (h : b < 2 ^ 32) : iBlock (setIBlock inode i b) i = b := by
  rw [iBlock, setIBlock, loadLE_storeLE]
  exact Nat.mod_eq_of_lt h

/-- Without free blocks nothing is added. -/
theorem LevelFunctions.allocateStages_of_exhausted (hs : LevelFunctions d stages)
    (hv : v.BlockSpace) (hall : v.Exhausted) (n : ℕ) (inode : Bytes) (a : ℕ) :
    (allocateStages n stages v inode a).1 = v ∧ (allocateStages n stages v inode a).2.2 = a := by
  induction hs generalizing inode with
  | nil => exact ⟨rfl, rfl⟩
  | cons ha _ _ ih =>
    rw [allocateStages]
    split_ifs
    · exact ⟨rfl, rfl⟩
    · simp only [ha.stops hv hall]
      exact ih _

/-- **The levels are made one after the other** until all blocks are allocated. If they have room
for all leaves, they stop short only when no block is free any more. -/
theorem LevelFunctions.allocateStages (hs : LevelFunctions d stages) (hv : v.BlockSpace)
    (inode : Bytes) (ha : a ≤ n) :
    (Volume.allocateStages n stages v inode a).2.2 = n ∧
      (∃ taken leaves, Grown v (Volume.allocateStages n stages v inode a).1 taken ∧
        leaves.Sublist taken ∧ leaves.length = n - a ∧
        LevelsMade (Volume.allocateStages n stages v inode a).1.diskArray
          (v.blockSize / 4) v.heapWord
          (TakenTable taken leaves) (· ∈ leaves) (iBlock inode)
          (iBlock (Volume.allocateStages n stages v inode a).2.1) d (stages.map Prod.fst) leaves ∧
        (∀ k ∉ stages.map Prod.fst,
          iBlock (Volume.allocateStages n stages v inode a).2.1 k = iBlock inode k) ∧
        taken.length = levelNodes (v.blockSize / 4) d stages.length (n - a)) ∨
    (Volume.allocateStages n stages v inode a).2.2 < n ∧
      ∃ taken, Grown v (Volume.allocateStages n stages v inode a).1 taken ∧
        (n - a ≤ levelLeaves (v.blockSize / 4) d stages.length →
          (Volume.allocateStages n stages v inode a).1.Exhausted ∧
          taken.length < levelNodes (v.blockSize / 4) d stages.length (n - a)) := by
  induction hs generalizing v inode a with
  | nil =>
    rcases Nat.eq_or_lt_of_le ha with rfl | hlt
    · exact .inl ⟨rfl, [], [], .refl hv.toBlockCounts, .refl _, by rw [Nat.sub_self]; rfl, rfl,
        fun _ _ => rfl, rfl⟩
    · refine .inr ⟨hlt, [], .refl hv.toBlockCounts, fun hroom => ?_⟩
      rw [length_nil, levelLeaves] at hroom
      omega
  | @cons d i allocate rest hallocate hi hrest ih =>
    rw [Volume.allocateStages, length_cons, levelNodes, levelLeaves]
    by_cases hdone : a = n
    · rw [if_pos hdone, hdone, Nat.sub_self, Nat.zero_min, nodes_no_leaves, levelNodes_no_leaves]
      exact .inl ⟨rfl, [], [], .refl hv.toBlockCounts, .refl _, rfl, levelsMade_nil fun _ _ => rfl,
        fun _ _ => rfl, rfl⟩
    rw [if_neg hdone]
    rcases hallocate.makes hv (n := n - a) (by omega) with
      ⟨taken, leaves, htree, hcount, hlen⟩ | ⟨taken, hgrown, hall, hcount, hless⟩
    · have hsize := htree.grown.record.blockSize
      have hcase := ih (htree.grown.blockSpace hv) (setIBlock inode i (allocate v (n - a)).2.1)
        (show a + (allocate v (n - a)).2.2 ≤ n by omega)
      rw [hsize, htree.grown.heapWord_eq, show n - (a + (allocate v (n - a)).2.2) =
        n - a - min (n - a) ((v.blockSize / 4) ^ d) by omega] at hcase
      rcases hcase with ⟨hok, taken', leaves', hgrown', hsub, hlen', hmade, hother, htaken⟩ |
        ⟨hlt, taken', hgrown', hfail⟩
      swap
      · refine .inr ⟨hlt, _, htree.grown.trans hgrown', fun hroom => ?_⟩
        obtain ⟨hall, hless⟩ := hfail (by omega)
        refine ⟨hall, ?_⟩
        rw [length_append, htree.length, hlen]
        omega
      have hpos : 0 < (v.blockSize / 4) ^ d := Nat.pow_pos hv.sound.entries_pos
      have hp := htree.grown.block_lt hv htree.root
      -- a level that is not full is the last one
      have hsplit : leaves.length = (v.blockSize / 4) ^ d ∨
          leaves.length ≤ (v.blockSize / 4) ^ d ∧ leaves' = [] := by
        rcases Nat.lt_or_ge (n - a) ((v.blockSize / 4) ^ d) with hlt | hge
        · exact .inr ⟨by omega, length_eq_zero_iff.mp (by omega)⟩
        · exact .inl (by omega)
      have htake : (leaves ++ leaves').take ((v.blockSize / 4) ^ d) = leaves := by
        rcases hsplit with heq | ⟨hle, rfl⟩
        · rw [← heq, take_left]
        · rw [append_nil, take_of_length_le hle]
      have hdrop : (leaves ++ leaves').drop ((v.blockSize / 4) ^ d) = leaves' := by
        rcases hsplit with heq | ⟨hle, rfl⟩
        · rw [← heq, drop_left]
        · rw [append_nil, drop_of_length_le hle]
      refine .inl ⟨hok, taken ++ taken', leaves ++ leaves', htree.grown.trans hgrown',
        htree.sub.append hsub, by rw [length_append]; omega, ⟨fun hnil => ?_, fun _ => ?_, ?_⟩,
        fun k hk => ?_, by rw [length_append, htree.length, hlen, htaken]⟩
      · rw [(append_eq_nil_iff.mp hnil).1, length_nil] at hlen
        omega
      · rw [htake, hother i hi, iBlock_setIBlock hp]
        exact Made.grown htree.grown hgrown' hv hsub htree.made
      · rw [hdrop]
        refine hmade.congr (fun _ _ _ _ => rfl)
          (fun b hb => hb.append_right (htree.grown.trans hgrown').nodup htree.sub)
          (fun b hb => mem_append_right _ hb) (fun k hk => ?_) fun _ _ => rfl
        have hki : k ≠ i := by
          rintro rfl
          exact hi hk
        exact (iBlock_setIBlock_of_ne hki).symm
      · rw [map_cons, mem_cons, not_or] at hk
        rw [hother k hk.2, iBlock_setIBlock_of_ne hk.1]
    · obtain ⟨hstate, hfinal⟩ := hrest.allocateStages_of_exhausted (hgrown.blockSpace hv) hall n
        (setIBlock inode i (allocate v (n - a)).2.1) (a + (allocate v (n - a)).2.2)
      simp only [hstate]
      exact .inr ⟨by omega, taken, hgrown, fun _ => ⟨hall, by omega⟩⟩

end Levels

/-! ### The direct blocks -/

/-- The state of the loop over the direct blocks before block `i`, of an inode with the first `old`
of them. -/
structure DirectFilled (v w : Volume) (inode inode' : Bytes) (old : ℕ) (taken : List ℕ) :
    Prop where
  grown : Grown v w taken
  direct : ∀ k < 12, iBlock inode' k = if k < old then iBlock inode k else taken.getD (k - old) 0
  indirect : ∀ k, 12 ≤ k → iBlock inode' k = iBlock inode k

theorem DirectFilled.allocateDirect {inode' : Bytes} (hv : v.BlockSpace)
    (hold : ∀ k < 12, iBlock inode k ≠ 0 ↔ k < old) (hleft : i + left = 12)
    (h : DirectFilled v u inode inode' old taken) (hlen : taken.length = min n (i - old)) :
    (Volume.allocateDirect n left i u inode' taken.length).2.2.2 = true ∧
      (∃ taken', DirectFilled v (Volume.allocateDirect n left i u inode' taken.length).1 inode
          (Volume.allocateDirect n left i u inode' taken.length).2.1 old taken' ∧
        (Volume.allocateDirect n left i u inode' taken.length).2.2.1 = taken'.length ∧
        taken'.length = min n (12 - old)) ∨
    (Volume.allocateDirect n left i u inode' taken.length).2.2.2 = false ∧
      (Volume.allocateDirect n left i u inode' taken.length).1.Exhausted ∧
      ∃ taken', Grown v (Volume.allocateDirect n left i u inode' taken.length).1 taken' ∧
        taken'.length < min n (12 - old) := by
  induction left generalizing i u inode' taken with
  | zero => exact .inl ⟨rfl, taken, h, rfl, by rw [hlen, show i = 12 from hleft]⟩
  | succ left ih =>
    have hi : i < 12 := by omega
    rw [Volume.allocateDirect]
    by_cases hdone : taken.length = n
    · rw [if_pos hdone]
      exact .inl ⟨rfl, taken, h, rfl, by omega⟩
    · rw [if_neg hdone]
      have hentry := h.direct i hi
      by_cases hzero : iBlock inode' i = 0
      · rw [if_pos hzero]
        -- the place is behind the blocks of the file
        have hle : old ≤ i := by
          refine Nat.not_lt.mp fun hlt => ?_
          rw [if_pos hlt, hzero] at hentry
          exact (hold i hi).mpr hlt hentry.symm
        rcases (h.grown.blockSpace hv).allocateBlock with ⟨hne, hgrown⟩ | ⟨heq, hall⟩
        · rw [if_neg hne]
          have hlt := hgrown.block_lt (h.grown.blockSpace hv) (mem_singleton_self _)
          have hnext : DirectFilled v u.allocateBlock.1 inode
              (setIBlock inode' i u.allocateBlock.2) old (taken ++ [u.allocateBlock.2]) := by
            refine ⟨h.grown.trans hgrown, fun k hk => ?_, fun k hk => ?_⟩
            · by_cases hki : k = i
              · rw [hki, iBlock_setIBlock hlt, if_neg (by omega), getD_append_right _ _ _ _
                  (by omega), show i - old - taken.length = 0 by omega]
                rfl
              · rw [iBlock_setIBlock_of_ne hki, h.direct k hk]
                split_ifs with hko
                · rfl
                · rcases Nat.lt_or_ge (k - old) taken.length with hlt | hge
                  · rw [getD_append _ _ _ _ hlt]
                  · rw [getD_eq_default _ _ hge, getD_eq_default _ _ (by
                      rw [length_append, length_singleton]
                      omega)]
            · rw [iBlock_setIBlock_of_ne (by omega), h.indirect k hk]
          have hsum : taken.length + 1 = (taken ++ [u.allocateBlock.2]).length := by simp
          simp only [hsum]
          exact ih (by omega) hnext (by omega)
        · rw [heq]
          exact .inr ⟨rfl, hall, taken, h.grown, by omega⟩
      · rw [if_neg hzero]
        have hlt : i < old := by
          refine Nat.not_le.mp fun hle => hzero ?_
          rw [hentry, if_neg (by omega), getD_eq_default _ _ (by omega)]
        exact ih (by omega) h (by omega)

/-- Blocks have been added to an inode with the first `old` of its direct blocks: the blocks
`direct` follow them, and the blocks `indirect` are in new trees. -/
structure BlocksAdded (v w : Volume) (inode inode' : Bytes) (old n : ℕ)
    (taken direct indirect : List ℕ) : Prop extends Taken v w taken where
  sub : (direct ++ indirect).Sublist taken
  length : direct.length + indirect.length = n
  length_direct : direct.length = min n (12 - old)
  levels : LevelsMade w.diskArray (v.blockSize / 4) v.heapWord
    (TakenTable taken (direct ++ indirect)) (· ∈ indirect) (iBlock inode) (iBlock inode') 1
    [12, 13, 14] indirect
  direct : ∀ k < 12, iBlock inode' k = if k < old then iBlock inode k else direct.getD (k - old) 0

/-- The number of direct blocks from `i` on that the inode does not have, among the next `left`. -/
def missingBlocks (inode : Bytes) (i left : ℕ) : ℕ :=
  (List.range' i left).countP fun k => iBlock inode k = 0

theorem missingBlocks_eq (hold : ∀ k < 12, iBlock inode k ≠ 0 ↔ k < old) (hleft : i + left = 12) :
    missingBlocks inode i left = 12 - max i old := by
  induction left generalizing i with
  | zero =>
    rw [show i = 12 from hleft, Nat.sub_eq_zero_of_le (Nat.le_max_left _ _)]
    rfl
  | succ left ih =>
    have hi := hold i (by omega)
    have hrest := ih (i := i + 1) (by omega)
    rw [missingBlocks] at hrest ⊢
    rw [range'_succ, countP_cons]
    simp only [decide_eq_true_eq]
    split_ifs with hzero <;> omega

/-- The number of blocks that `ext2_allocate_blocks` takes for `n` blocks of a file. -/
def blocksNeeded (v : Volume) (inode : Bytes) (n : ℕ) : ℕ :=
  min n (missingBlocks inode 0 12) +
    levelNodes (v.blockSize / 4) 1 3 (n - min n (missingBlocks inode 0 12))

/-- **`ext2_allocate_blocks`** adds the blocks it reports. It takes the blocks it needs, or all
there are, and then it fails. -/
theorem BlockSpace.allocateBlocks (hv : v.BlockSpace)
    (hold : ∀ k < 12, iBlock inode k ≠ 0 ↔ k < old) (n : ℕ) :
    (v.allocateBlocks inode n).2.2 = 0 ∧
      (∃ taken direct indirect, Grown v (v.allocateBlocks inode n).1 taken ∧
        BlocksAdded v (v.allocateBlocks inode n).1 inode (v.allocateBlocks inode n).2.1 old n taken
          direct indirect ∧ taken.length = v.blocksNeeded inode n) ∨
    (v.allocateBlocks inode n).2.2 ≠ 0 ∧ ∃ taken, Grown v (v.allocateBlocks inode n).1 taken ∧
      (n ≤ (v.blockSize / 4) ^ 3 → (v.allocateBlocks inode n).1.Exhausted ∧
        taken.length < v.blocksNeeded inode n) := by
  have hbegin : DirectFilled v v inode inode old [] := by
    refine ⟨.refl hv.toBlockCounts, fun k hk => ?_, fun _ _ => rfl⟩
    split_ifs with hko
    · rfl
    · exact not_not.mp fun hne => hko ((hold k hk).mp hne)
  have hlevels : LevelFunctions 1 [(12, allocateIndirectBlock), (13, allocateDoubleIndirectBlock),
      (14, allocateTripleIndirectBlock)] :=
    .cons allocatesTree_indirect (by simp)
      (.cons allocatesTree_double (by simp) (.cons allocatesTree_triple (by simp) .nil))
  have hmissing : missingBlocks inode 0 12 = 12 - old := by
    rw [missingBlocks_eq hold (Nat.zero_add 12), Nat.zero_max]
  have hdirect := hbegin.allocateDirect (n := n) (i := 0) hv hold (Nat.zero_add 12) (by simp)
  simp only [Volume.allocateBlocks, blocksNeeded, hmissing]
  generalize Volume.allocateDirect n 12 0 v inode 0 = r at hdirect ⊢
  rcases hdirect with ⟨hflag, direct, hfilled, hcount, hlen⟩ | ⟨hflag, hall, taken, hgrown, hless⟩
  swap
  · rw [if_pos hflag]
    exact .inr ⟨Nat.one_ne_zero, taken, hgrown, fun _ => ⟨hall, by omega⟩⟩
  rw [if_neg (by rw [hflag]; decide)]
  have hstages := hlevels.allocateStages (hfilled.grown.blockSpace hv) r.2.1
    (show r.2.2.1 ≤ n by omega)
  rw [hfilled.grown.record.blockSize, hfilled.grown.heapWord_eq, hcount] at hstages
  rw [hcount]
  rcases hstages with ⟨hok, taken, indirect, hgrown, hsub, hlen', hmade, hother, htaken⟩ |
    ⟨hlt, taken, hgrown, hfail⟩
  · have hboth := hfilled.grown.trans hgrown
    refine .inl ⟨if_pos hok, direct ++ taken, direct, indirect, hboth, ⟨hboth.toTaken,
      (List.Sublist.refl direct).append hsub, by omega, hlen,
      hmade.congr (fun _ _ _ _ => rfl) (fun b hb => hb.append_right hboth.nodup (.refl direct))
        (fun _ hb => hb) (fun k hk => ?_) fun _ _ => rfl, fun k hk => ?_⟩, ?_⟩
    · refine (hfilled.indirect k ?_).symm
      simp at hk
      omega
    · rw [hother k (by simp; omega), hfilled.direct k hk]
    · rw [length_append, htaken, hlen]
      rfl
  · refine .inr ⟨by rw [if_neg (Nat.ne_of_lt hlt)]; exact Nat.one_ne_zero, direct ++ taken,
      hfilled.grown.trans hgrown, fun hn => ?_⟩
    obtain ⟨hall, hless⟩ := hfail (by
      simp only [length_cons, levelLeaves, Nat.reduceAdd]
      omega)
    refine ⟨hall, ?_⟩
    rw [length_append, ← hlen]
    exact Nat.add_lt_add_left hless _

end Volume

end Bloodmoon
