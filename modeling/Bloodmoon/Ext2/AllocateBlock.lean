import Bloodmoon.Ext2.Bitmaps

/-!
# Allocating blocks

The model of `ext2_allocate_block` and `ext2_deallocate_block`. Bit `i` of the bitmap of group `g`
stands for block `g * s_blocks_per_group + i + 1`: this is the numbering of partitions with blocks
of 1024 bytes, whose first block is block 1. A call that succeeds turns one bit over and moves the
two counters by one, so that the three copies of the free information stay in step
(`Volume.BlockMaps`) in every run (`block_maps_run`).
-/

namespace Bloodmoon

open Machine BitArray Relation

namespace Volume

variable {v w : Volume} {g i : ℕ}

/-! ### The code -/

/-- The loop of `ext2_allocate_block` over the groups from `i` on, of which `n` are left. -/
def allocateBlockFrom (v : Volume) : ℕ → ℕ → Volume × ℕ
  | 0, _ => (v, 0)
  | n + 1, i =>
    if v.gdGet i .freeBlocksCount = 0 then v.allocateBlockFrom n (i + 1)
    else
      let r := v.readBlock (v.gdGet i .blockBitmap) v.fresh 0
      if r.2 = 0 then (v, 0)
      else
        match findClear 32 (fun j => loadLE r.1 (4 * j) 4) (v.blockSize / 4) with
        | none => v.allocateBlockFrom n (i + 1)
        | some (j, k) =>
          let bitmap := storeLE r.1 (4 * j) 4 (loadLE r.1 (4 * j) 4 ||| 1 <<< k)
          let w := (v.gdSet i .freeBlocksCount (wsub16 (v.gdGet i .freeBlocksCount) 1)).sbSet
            .freeBlocksCount (wsub32 (v.sbGet .freeBlocksCount) 1)
          let r := w.writeBlock (v.gdGet i .blockBitmap) bitmap 0
          if r.2 ≤ 0 then
            ((r.1.gdSet i .freeBlocksCount (r.1.gdGet i .freeBlocksCount + 1)).sbSet
              .freeBlocksCount (wrap32 (r.1.sbGet .freeBlocksCount + 1)), 0)
          else
            (r.1.requireFlush, wrap32 (j * 32 + k + 1 + i * v.sbGet .blocksPerGroup))

/-- `ext2_allocate_block`. -/
def allocateBlock (v : Volume) : Volume × ℕ := v.allocateBlockFrom v.groupNumber 0

/-- `ext2_deallocate_block`. -/
def deallocateBlock (v : Volume) (block : ℕ) : Volume × ℕ :=
  let blockGroup := wsub32 block 1 / v.sbGet .blocksPerGroup
  let blockIndex := wsub32 block 1 % v.sbGet .blocksPerGroup
  let r := v.readBlock (v.gdGet blockGroup .blockBitmap) v.fresh 0
  if r.2 = 0 then (v, 0)
  else
    let word := loadLE r.1 (4 * (blockIndex / 32)) 4
    if word &&& (1 <<< (blockIndex % 32)) ≠ 0 then
      let bitmap := storeLE r.1 (4 * (blockIndex / 32)) 4
        (word &&& (2 ^ 32 - (1 <<< (blockIndex % 32) + 1)))
      let w := (v.gdSet blockGroup .freeBlocksCount
        (v.gdGet blockGroup .freeBlocksCount + 1)).sbSet
          .freeBlocksCount (wrap32 (v.sbGet .freeBlocksCount + 1))
      let r := w.writeBlock (v.gdGet blockGroup .blockBitmap) bitmap 0
      if r.2 ≤ 0 then
        ((r.1.gdSet blockGroup .freeBlocksCount
          (wsub16 (r.1.gdGet blockGroup .freeBlocksCount) 1)).sbSet .freeBlocksCount
            (wsub32 (r.1.sbGet .freeBlocksCount) 1), 0)
      else (r.1.requireFlush, 1)
    else (v, 0)

/-! ### The blocks of a bitmap -/

/-- The block of bit `i` of the bitmap of group `g`. -/
def blockNumber (v : Volume) (g i : ℕ) : ℕ := g * v.sbGet .blocksPerGroup + i + 1

/-- The block is allocated: its bit is set. -/
def Allocated (v : Volume) (block : ℕ) : Prop :=
  ∃ g < v.groupNumber, ∃ i < v.sbGet .blocksPerGroup, i < 8 * v.blockSize ∧
    block = v.blockNumber g i ∧ v.mapBit .blocks g i = true

/-- The block bitmaps and both kinds of counters agree. Block numbers have 32 bits and the counters
of the groups 16. -/
structure BlockCounts (v : Volume) : Prop extends Maps v .blocks where
  total : v.sbGet .freeBlocksCount = ∑ g ∈ Finset.range v.groupNumber, (v.clearIn .blocks g).card
  numbers : v.groupNumber * v.sbGet .blocksPerGroup < 2 ^ 32
  small : min (v.sbGet .blocksPerGroup) (8 * v.blockSize) < 2 ^ 16

/-- The block bitmaps and both kinds of counters agree, in a partition with blocks of 1024 bytes
whose block numbers have 32 bits. -/
structure BlockMaps (v : Volume) : Prop extends Maps v .blocks where
  blockSize : v.blockSize = 1024
  firstSbBlock : v.sbGet .firstSbBlock = 1
  total : v.sbGet .freeBlocksCount = ∑ g ∈ Finset.range v.groupNumber, (v.clearIn .blocks g).card
  numbers : v.groupNumber * v.sbGet .blocksPerGroup < 2 ^ 32

/-- The volume after bit `i` of group `g` has been set. -/
def takeBlock (v : Volume) (g i : ℕ) : Volume :=
  v.withBit .blocks g i true (v.gdGet g .freeBlocksCount - 1) (v.sbGet .freeBlocksCount - 1)

/-- The volume after bit `i` of group `g` has been cleared. -/
def giveBlock (v : Volume) (g i : ℕ) : Volume :=
  v.withBit .blocks g i false (v.gdGet g .freeBlocksCount + 1) (v.sbGet .freeBlocksCount + 1)

/-- Bit `j` of group `g` is the first clear bit from group `i` on. -/
structure FirstClear (v : Volume) (i g j : ℕ) : Prop where
  group : g < v.groupNumber
  lt : j < 8 * v.blockSize
  clear : v.mapBit .blocks g j = false
  before : ∀ g', i ≤ g' → g' < g → ∀ j' < 8 * v.blockSize, v.mapBit .blocks g' j' = true
  first : ∀ j' < j, v.mapBit .blocks g j' = true

theorem BlockMaps.blockCounts (h : v.BlockMaps) : v.BlockCounts := by
  refine ⟨h.toMaps, h.total, h.numbers, ?_⟩
  have := h.blockSize
  omega

/-- A volume with the layout of one with blocks of 1024 bytes. -/
theorem SameLayout.blockMaps (h : SameLayout v w) (hv : v.BlockMaps) (hw : w.BlockCounts) :
    w.BlockMaps :=
  ⟨hw.toMaps, h.blockSize.trans hv.blockSize,
    (h.sbGet _ fun k => by cases k <;> decide).trans hv.firstSbBlock, hw.total, hw.numbers⟩

/-- The copy of a bitmap is written back with one bit turned over. -/
theorem Sound.writeBitmap_eq {g i : ℕ} (h : v.Sound) (hin : v.InRange (v.gdGet g .blockBitmap))
    (hi : i < 8 * v.blockSize) (on : Bool) (count total : ℕ) :
    let copy := blit v.fresh 0 v.disk.bytes (v.blockAddr (v.gdGet g .blockBitmap)) v.blockSize
    ∃ w, (v.withCounts .blocks g count total).writeBlock (v.gdGet g .blockBitmap)
        (if on then set copy i else clear copy i) 0 = (w, 1) ∧
      w.requireFlush = v.withBit .blocks g i on count total := by
  have hlayout := v.sameLayout_withCounts .blocks g count total
  refine ⟨_, (hlayout.sound h).writeBlock_eq (hlayout.inRange hin) _ _, ?_⟩
  rw [Volume.withBit, ← blit_bitmap .blocks g on hi]
  rfl

/-! ### The search -/

/-- The words of the bitmap of group `g` that the code looks at: those of the disk, or of the buffer
as it was if they cannot be read. -/
def bitmapWord (v : Volume) (g j : ℕ) : ℕ :=
  loadLE (v.readBlock (v.gdGet g .blockBitmap) v.fresh 0).1 (4 * j) 4

/-- The first clear bit in the bitmap of group `g`, as a word and a bit of it. -/
def clearBit (v : Volume) (g : ℕ) : Option (ℕ × ℕ) :=
  findClear 32 (v.bitmapWord g) (v.blockSize / 4)

/-- The search goes on after group `g`. -/
def Passes (v : Volume) (g : ℕ) : Prop :=
  v.gdGet g .freeBlocksCount = 0 ∨ v.gdGet g .blockBitmap ≠ 0 ∧ v.clearBit g = none

/-- The search finds a clear bit in group `g`, if it gets there. -/
def Finds (v : Volume) (g : ℕ) : Prop :=
  v.gdGet g .freeBlocksCount ≠ 0 ∧ v.gdGet g .blockBitmap ≠ 0 ∧ v.clearBit g ≠ none

/-- The search stops at group `g` with a clear bit. -/
def StopsAt (v : Volume) (i g : ℕ) : Prop := v.Finds g ∧ ∀ g', i ≤ g' → g' < g → v.Passes g'

theorem Finds.not_passes (h : v.Finds g) : ¬ v.Passes g := by
  rintro (hzero | ⟨-, hnone⟩)
  · exact h.1 hzero
  · exact h.2.2 hnone

/-- There is one group at most at which the search stops. -/
theorem StopsAt.unique {g' : ℕ} (h : v.StopsAt i g) (h' : v.StopsAt i g') (hg : i ≤ g)
    (hg' : i ≤ g') : g = g' := by
  rcases Nat.lt_trichotomy g g' with hlt | heq | hlt
  · exact absurd (h'.2 g hg hlt) h.1.not_passes
  · exact heq
  · exact absurd (h.2 g' hg' hlt) h'.1.not_passes

/-- What the call does with the bit that it has found: the volume and the number it returns. -/
def takeFound (v : Volume) (g : ℕ) (bit : ℕ × ℕ) : Volume × ℕ :=
  let r := v.readBlock (v.gdGet g .blockBitmap) v.fresh 0
  let bitmap := storeLE r.1 (4 * bit.1) 4 (v.bitmapWord g bit.1 ||| 1 <<< bit.2)
  let w := v.withCounts .blocks g (wsub16 (v.gdGet g .freeBlocksCount) 1)
    (wsub32 (v.sbGet .freeBlocksCount) 1)
  ((w.writeBlock (v.gdGet g .blockBitmap) bitmap 0).1.requireFlush,
    wrap32 (bit.1 * 32 + bit.2 + 1 + g * v.sbGet .blocksPerGroup))

/-- The code of a block that is read or written: it is zero just for block 0. -/
theorem readBlock_code_eq_zero (block : ℕ) (buffer : Bytes) (a : ℕ) :
    (v.readBlock block buffer a).2 = 0 ↔ block = 0 := by
  rcases Nat.eq_zero_or_pos block with rfl | hpos
  · exact iff_of_true rfl rfl
  · refine iff_of_false ?_ (Nat.ne_of_gt hpos)
    rw [readBlock, if_pos hpos]
    cases v.disk.read (v.blockSector block) v.blockSectors buffer a with
    | none => exact show readFailed ≠ 0 by decide
    | some _ => exact Nat.one_ne_zero

theorem writeBlock_code_le_zero (block : ℕ) (buffer : Bytes) (a : ℕ) :
    (v.writeBlock block buffer a).2 ≤ 0 ↔ block = 0 := by
  by_cases hzero : block = 0
  · rw [writeBlock, if_neg (not_not.mpr hzero)]
    exact iff_of_true (Nat.le_refl 0) hzero
  · refine iff_of_false ?_ hzero
    rw [writeBlock, if_pos hzero]
    cases v.disk.write (v.blockSector block) v.blockSectors buffer a with
    | none => exact show ¬ writeFailed ≤ 0 by decide
    | some _ => exact Nat.not_succ_le_zero 0

/-- One round of the search on any volume. -/
theorem allocateBlockFrom_round (v : Volume) (n i : ℕ) :
    v.Passes i ∧ v.allocateBlockFrom (n + 1) i = v.allocateBlockFrom n (i + 1) ∨
    (∃ bit, v.clearBit i = some bit ∧ v.Finds i ∧
      v.allocateBlockFrom (n + 1) i = v.takeFound i bit) ∨
    ¬ v.Passes i ∧ ¬ v.Finds i ∧ v.allocateBlockFrom (n + 1) i = (v, 0) := by
  rw [allocateBlockFrom]
  by_cases hcount : v.gdGet i .freeBlocksCount = 0
  · rw [if_pos hcount]
    exact .inl ⟨.inl hcount, rfl⟩
  rw [if_neg hcount]
  by_cases hblock : v.gdGet i .blockBitmap = 0
  · refine .inr (.inr ⟨?_, fun hfinds => hfinds.2.1 hblock, ?_⟩)
    · rintro (hzero | ⟨hne, -⟩)
      · exact hcount hzero
      · exact hne hblock
    · exact if_pos ((readBlock_code_eq_zero _ _ _).mpr hblock)
  simp only [(readBlock_code_eq_zero _ _ _).not.mpr hblock]
  have hsearch : findClear 32 (fun j => loadLE (v.readBlock (v.gdGet i .blockBitmap) v.fresh 0).1
      (4 * j) 4) (v.blockSize / 4) = v.clearBit i := rfl
  rw [hsearch]
  cases hbit : v.clearBit i with
  | none => exact .inl ⟨.inr ⟨hblock, hbit⟩, rfl⟩
  | some bit =>
    refine .inr (.inl ⟨bit, rfl, ⟨hcount, hblock, by rw [hbit]; exact Option.some_ne_none bit⟩, ?_⟩)
    exact if_neg ((writeBlock_code_le_zero _ _ _).not.mpr hblock)

/-- **The search on any volume** ends at the first group with a clear bit, or finds none. -/
theorem allocateBlockFrom_any (v : Volume) (n i : ℕ) :
    (∃ g bit, i ≤ g ∧ g < i + n ∧ v.StopsAt i g ∧ v.clearBit g = some bit ∧
      v.allocateBlockFrom n i = v.takeFound g bit) ∨
    v.allocateBlockFrom n i = (v, 0) ∧ ∀ g, i ≤ g → g < i + n → ¬ v.StopsAt i g := by
  induction n generalizing i with
  | zero => exact .inr ⟨rfl, fun g hg hlt => by omega⟩
  | succ n ih =>
    rcases v.allocateBlockFrom_round n i with ⟨hpasses, heq⟩ | ⟨bit, hbit, hfinds, heq⟩ |
      ⟨hnot, hfinds, heq⟩
    · have hstop : ∀ g, i + 1 ≤ g → (v.StopsAt (i + 1) g ↔ v.StopsAt i g) := fun g hg =>
        and_congr_right fun _ => ⟨fun hall g' hg' hlt => by
          rcases Nat.eq_or_lt_of_le hg' with rfl | hlt'
          · exact hpasses
          · exact hall g' hlt' hlt, fun hall g' hg' hlt => hall g' (by omega) hlt⟩
      rw [heq]
      rcases ih (i + 1) with ⟨g, bit, hg, hlt, hstops, hbit, hres⟩ | ⟨hres, hall⟩
      · exact .inl ⟨g, bit, by omega, by omega, (hstop g hg).mp hstops, hbit, hres⟩
      · refine .inr ⟨hres, fun g hg hlt hstops => ?_⟩
        rcases Nat.eq_or_lt_of_le hg with rfl | hlt'
        · exact hstops.1.not_passes hpasses
        · exact hall g hlt' (by omega) ((hstop g hlt').mpr hstops)
    · exact .inl ⟨i, bit, Nat.le_refl i, by omega, ⟨hfinds, fun g' hg' hlt => by omega⟩, hbit, heq⟩
    · refine .inr ⟨heq, fun g hg hlt hstops => ?_⟩
      rcases Nat.eq_or_lt_of_le hg with rfl | hlt'
      · exact hfinds hstops.1
      · exact hnot (hstops.2 i (Nat.le_refl i) hlt')

/-- The words of the copy of a bitmap that the code works on. -/
theorem testBit_word {j k : ℕ} (hj : j < v.blockSize / 4) (hk : k < 32) :
    (loadLE (blit v.fresh 0 v.disk.bytes (v.blockAddr (v.gdGet g .blockBitmap)) v.blockSize)
      (4 * j) 4).testBit k = v.mapBit .blocks g (32 * j + k) := by
  rw [testBit_loadLE, decide_eq_true hk,
    show 8 * (4 * j) + k = 32 * j + k by omega, test_blit_self _ _ _ (by omega)]
  rfl

/-- The words of a bitmap that can be read. -/
theorem Sound.testBit_bitmapWord (h : v.Sound) (hin : v.InRange (v.gdGet g .blockBitmap)) {j k : ℕ}
    (hj : j < v.blockSize / 4) (hk : k < 32) :
    (v.bitmapWord g j).testBit k = v.mapBit .blocks g (32 * j + k) := by
  rw [bitmapWord, h.readBlock_eq hin]
  exact testBit_word hj hk

/-- The bit that is found is clear, and the call sets it. -/
theorem Sound.takeFound_eq (h : v.Sound) (hin : v.InRange (v.gdGet g .blockBitmap)) {j k : ℕ}
    (hbit : v.clearBit g = some (j, k)) :
    32 * j + k < 8 * v.blockSize ∧ v.mapBit .blocks g (32 * j + k) = false ∧
      v.takeFound g (j, k) = (v.withBit .blocks g (32 * j + k) true
        (wsub16 (v.gdGet g .freeBlocksCount) 1) (wsub32 (v.sbGet .freeBlocksCount) 1),
        wrap32 (v.blockNumber g (32 * j + k))) := by
  obtain ⟨hj, hk, hclear, -⟩ := findClear_eq_some hbit
  have hi : 32 * j + k < 8 * v.blockSize := by omega
  obtain ⟨w, hwrite, hw⟩ := h.writeBitmap_eq hin hi true (wsub16 (v.gdGet g .freeBlocksCount) 1)
    (wsub32 (v.sbGet .freeBlocksCount) 1)
  rw [if_pos rfl] at hwrite
  rw [h.testBit_bitmapWord hin hj hk] at hclear
  refine ⟨hi, hclear, ?_⟩
  rw [takeFound, bitmapWord, h.readBlock_eq hin]
  rw [storeLE_or _ _ (show k < 8 * 4 by omega), show 8 * (4 * j) + k = 32 * j + k by omega, hwrite,
    hw, blockNumber, show j * 32 + k + 1 + g * v.sbGet .blocksPerGroup =
      g * v.sbGet .blocksPerGroup + (32 * j + k) + 1 by omega]

namespace BlockCounts

variable {v : Volume} {g i : ℕ}

section

variable (h : v.BlockCounts) (hg : g < v.groupNumber)

include h hg

theorem count_eq : v.gdGet g .freeBlocksCount = (v.clearIn .blocks g).card := h.count g hg

theorem card_clearIn_lt : (v.clearIn .blocks g).card < 2 ^ 16 :=
  Nat.lt_of_le_of_lt (h.card_clearIn_le hg) h.small

/-- The sum over the groups, when one of them changes. -/
theorem sum_clearIn_withBit (hi : i < 8 * v.blockSize) (on : Bool) (count total : ℕ) :
    (∑ g' ∈ Finset.range v.groupNumber,
        ((v.withBit .blocks g i on count total).clearIn .blocks g').card) +
      (v.clearIn .blocks g).card =
    (∑ g' ∈ Finset.range v.groupNumber, (v.clearIn .blocks g').card) +
      (if on then (v.clearIn .blocks g).erase i else insert i (v.clearIn .blocks g)).card := by
  have hmem := Finset.mem_range.2 hg
  have hnew : ∀ g' < v.groupNumber, (v.withBit .blocks g i on count total).clearIn .blocks g' = _ :=
    fun _ hg' => (h.onlyBit_withBit hg hi on count total).clearIn_eq
      (v.sameLayout_withBit .blocks g i on count total) hi hg'
  have hrest : ∑ g' ∈ (Finset.range v.groupNumber).erase g,
      ((v.withBit .blocks g i on count total).clearIn .blocks g').card =
      ∑ g' ∈ (Finset.range v.groupNumber).erase g, (v.clearIn .blocks g').card := by
    refine Finset.sum_congr rfl fun g' hg' => ?_
    obtain ⟨hne, hg'⟩ := Finset.mem_erase.1 hg'
    rw [hnew g' (Finset.mem_range.1 hg'), if_neg hne]
  rw [← Finset.add_sum_erase _ _ hmem, ← Finset.add_sum_erase _ _ hmem, hnew g hg, if_pos rfl]
  omega

end

/-- The sum of the counters of the groups fits the counter of the superblock. -/
theorem sum_clearIn_lt (h : v.Maps .blocks)
    (hnumbers : v.groupNumber * v.sbGet .blocksPerGroup < 2 ^ 32) :
    ∑ g ∈ Finset.range v.groupNumber, (v.clearIn .blocks g).card < 2 ^ 32 := by
  have hle := Finset.sum_le_card_nsmul (Finset.range v.groupNumber)
    (fun g => (v.clearIn .blocks g).card) (v.sbGet .blocksPerGroup)
    fun g hg => (Nat.le_min.1 (h.card_clearIn_le (Finset.mem_range.1 hg))).1
  rw [Finset.card_range, smul_eq_mul] at hle
  omega

section

variable (h : v.BlockCounts) (hg : g < v.groupNumber)

include h hg

/-- The maps and counters after a bit is turned over and the counters are right. -/
theorem withBit (hi : i < 8 * v.blockSize) (hlow : i < v.sbGet .blocksPerGroup) (on : Bool)
    {count total : ℕ}
    (hcount : count =
      (if on then (v.clearIn .blocks g).erase i else insert i (v.clearIn .blocks g)).card)
    (htotal : total + (v.clearIn .blocks g).card = v.sbGet .freeBlocksCount + count) :
    (v.withBit .blocks g i on count total).BlockCounts := by
  have hlt : count < 2 ^ 16 := by
    have herase := (v.clearIn .blocks g).card_erase_le (a := i)
    have hcard := h.card_clearIn_lt hg
    rw [hcount]
    split_ifs
    · omega
    · exact Nat.lt_of_le_of_lt (h.card_insert_le hg hi hlow) h.small
  have hlayout := v.sameLayout_withBit .blocks g i on count total
  have hmaps := h.toMaps.withBit hg hi hlow on total hcount hlt
  have hsum : total = ∑ g' ∈ Finset.range v.groupNumber,
      ((v.withBit .blocks g i on count total).clearIn .blocks g').card := by
    have := h.sum_clearIn_withBit hg hi on count total
    rw [← h.total] at this
    omega
  have hself := v.sbGet_withBit_self .blocks g i on count total
  generalize v.withBit .blocks g i on count total = w at hlayout hmaps hsum hself ⊢
  have hnumbers : w.groupNumber * w.sbGet .blocksPerGroup < 2 ^ 32 := by
    rw [hlayout.groupNumber, hlayout.blocksPerGroup]
    exact h.numbers
  rw [← hlayout.groupNumber] at hsum
  refine ⟨hmaps, (hself ?_).trans hsum, hnumbers, ?_⟩
  · rw [hsum]
    exact sum_clearIn_lt hmaps hnumbers
  · rw [hlayout.blocksPerGroup, hlayout.blockSize]
    exact h.small

theorem card_clearIn_le_total : (v.clearIn .blocks g).card ≤ v.sbGet .freeBlocksCount := by
  rw [h.total]
  exact Finset.single_le_sum (f := fun g' => (v.clearIn .blocks g').card)
    (fun _ _ => Nat.zero_le _) (Finset.mem_range.2 hg)

theorem takeBlock (hi : i < 8 * v.blockSize) (hclear : v.mapBit .blocks g i = false) :
    (v.takeBlock g i).BlockCounts := by
  have hmem : i ∈ v.clearIn .blocks g := mem_clearIn.2 ⟨hi, hclear⟩
  have hpos : 0 < (v.clearIn .blocks g).card := Finset.card_pos.2 ⟨i, hmem⟩
  have hle := h.card_clearIn_le_total hg
  have hcount := h.count_eq hg
  refine h.withBit hg hi (h.lt_of_clear hg hi hclear) true ?_ (by omega)
  rw [hcount, if_pos rfl, Finset.card_erase_of_mem hmem]

theorem giveBlock (hi : i < 8 * v.blockSize) (hlow : i < v.sbGet .blocksPerGroup)
    (hset : v.mapBit .blocks g i = true) :
    (v.giveBlock g i).BlockCounts := by
  have hcount := h.count_eq hg
  refine h.withBit hg hi hlow false ?_ (by omega)
  rw [hcount, if_neg (by decide), Finset.card_insert_of_notMem (notMem_clearIn hset)]

theorem blockNumber_lt (hlow : i < v.sbGet .blocksPerGroup) : v.blockNumber g i < 2 ^ 32 := by
  have := h.numbers
  have := region_le (v.sbGet .blocksPerGroup) hg
  unfold blockNumber
  omega

/-- The copy of a bitmap that the code works on. -/
theorem readBlock_eq :
    v.readBlock (v.gdGet g .blockBitmap) v.fresh 0 =
      (blit v.fresh 0 v.disk.bytes (v.blockAddr (v.gdGet g .blockBitmap)) v.blockSize, 1) :=
  h.sound.readBlock_eq (h.inRange g hg) _ _

theorem writeBlock_eq (hi : i < 8 * v.blockSize) (on : Bool) (count total : ℕ) :
    let copy := blit v.fresh 0 v.disk.bytes (v.blockAddr (v.gdGet g .blockBitmap)) v.blockSize
    ∃ w, ((v.gdSet g .freeBlocksCount count).sbSet .freeBlocksCount total).writeBlock
        (v.gdGet g .blockBitmap) (if on then set copy i else clear copy i) 0 = (w, 1) ∧
      w.requireFlush = v.withBit .blocks g i on count total :=
  h.sound.writeBitmap_eq (h.inRange g hg) hi on count total

end

/-- A group that the search passes is full. -/
theorem full_of_passes (h : v.BlockCounts) (hg : g < v.groupNumber) (hpasses : v.Passes g)
    (hi : i < 8 * v.blockSize) : v.mapBit .blocks g i = true := by
  rcases hpasses with hzero | ⟨-, hnone⟩
  · have hempty := Finset.card_eq_zero.1 ((h.count_eq hg).symm.trans hzero)
    refine Bool.eq_true_of_not_eq_false fun hbit => ?_
    exact absurd (mem_clearIn.2 ⟨hi, hbit⟩) (by rw [hempty]; exact Finset.notMem_empty i)
  · obtain ⟨k, -, hsize⟩ := h.sound.exists_blockSize
    have hbit := findClear_eq_none hnone (show i / 32 < v.blockSize / 4 by omega)
      (Nat.mod_lt i (by decide))
    rwa [h.sound.testBit_bitmapWord (h.inRange g hg) (by omega) (by omega), Nat.div_add_mod] at hbit

/-- **The search finds the first group with a clear bit**, and sets the first one. -/
theorem allocateBlockFrom_eq (h : v.BlockCounts) {n : ℕ} (hn : i + n = v.groupNumber) :
    (∃ g j, v.FirstClear i g j ∧
      v.allocateBlockFrom n i = (v.takeBlock g j, v.blockNumber g j)) ∨
    (v.allocateBlockFrom n i = (v, 0) ∧
      ∀ g, i ≤ g → g < v.groupNumber → ∀ j < 8 * v.blockSize, v.mapBit .blocks g j = true) := by
  rcases v.allocateBlockFrom_any n i with ⟨g, ⟨j, k⟩, -, hlt, hstops, hbit, heq⟩ | ⟨heq, hall⟩
  · have hg : g < v.groupNumber := hn ▸ hlt
    have hin : v.InRange (v.gdGet g .blockBitmap) := h.inRange g hg
    obtain ⟨hi, hclear, hfound⟩ := h.sound.takeFound_eq hin hbit
    have hle := h.card_clearIn_le_total hg
    have hcount := h.count_eq hg
    have hpos := hstops.1.1
    refine .inl ⟨g, 32 * j + k, ⟨hg, hi, hclear, fun g' hge hlt' j' hj' =>
      h.full_of_passes (by omega) (hstops.2 g' hge hlt') hj', fun j' hj' => ?_⟩, ?_⟩
    · obtain ⟨m, -, hsize⟩ := h.sound.exists_blockSize
      have hset := (findClear_eq_some hbit).2.2.2 (j' / 32) (j' % 32) (Nat.mod_lt j' (by decide))
        (by omega)
      rwa [h.sound.testBit_bitmapWord hin (by omega) (by omega), Nat.div_add_mod] at hset
    · have hlt16 : v.gdGet g .freeBlocksCount < 2 ^ 16 := loadLE_lt _ _ 2
      have hlt32 : v.sbGet .freeBlocksCount < 2 ^ 32 := loadLE_lt _ _ 4
      rw [heq, hfound, wsub16_of_le (by omega) hlt16, wsub32_of_le (by omega) hlt32,
        wrap32_of_lt (h.blockNumber_lt hg (h.lt_of_clear hg hi hclear))]
      rfl
  · -- the first group that is not passed would be the one where the search stops
    have hpass : ∀ g, i ≤ g → g < v.groupNumber → v.Passes g := by
      intro g
      induction g using Nat.strong_induction_on with
      | _ g ih =>
        intro hge hg
        by_contra hnot
        obtain ⟨hcount, hclear⟩ := not_or.1 hnot
        have hne := Nat.ne_of_gt (h.inRange g hg).pos
        exact hall g hge (hn.symm ▸ hg) ⟨⟨hcount, hne, fun hnone => hclear ⟨hne, hnone⟩⟩,
          fun g' hge' hlt => ih g' hlt hge' (by omega)⟩
    exact .inr ⟨heq, fun g hge hg j hj => h.full_of_passes hg (hpass g hge hg) hj⟩

theorem blockNumber_inj {g' i' : ℕ} (hlow : i < v.sbGet .blocksPerGroup)
    (hlow' : i' < v.sbGet .blocksPerGroup) (heq : v.blockNumber g i = v.blockNumber g' i') :
    g = g' ∧ i = i' := by
  unfold blockNumber at heq
  have hg : g = g' := by
    rw [← mul_add_div_of_lt hlow g, ← mul_add_div_of_lt hlow' g', Nat.succ.inj heq]
  subst hg
  exact ⟨rfl, by omega⟩

section

variable (h : v.BlockCounts) (hg : g < v.groupNumber) (hi : i < 8 * v.blockSize)

include h hg hi

/-- There is room in the counter of the superblock for one more block. -/
theorem total_lt (hlow : i < v.sbGet .blocksPerGroup) (hset : v.mapBit .blocks g i = true) :
    v.sbGet .freeBlocksCount + 1 < 2 ^ 32 := by
  have hmaps := h.giveBlock hg hi hlow hset
  have hsum := h.sum_clearIn_withBit hg hi false (v.gdGet g .freeBlocksCount + 1)
    (v.sbGet .freeBlocksCount + 1)
  rw [if_neg (by decide), Finset.card_insert_of_notMem (notMem_clearIn hset), ← h.total] at hsum
  have hlt : ∑ g' ∈ Finset.range v.groupNumber,
      ((v.giveBlock g i).clearIn .blocks g').card < 2 ^ 32 :=
    sum_clearIn_lt hmaps.toMaps hmaps.numbers
  change ∑ g' ∈ Finset.range v.groupNumber,
    ((v.withBit .blocks g i false _ _).clearIn .blocks g').card < 2 ^ 32 at hlt
  omega

/-- `ext2_deallocate_block` clears the bit of a block that is allocated. -/
theorem deallocateBlock_eq (hlow : i < v.sbGet .blocksPerGroup)
    (hset : v.mapBit .blocks g i = true) :
    v.deallocateBlock (v.blockNumber g i) = (v.giveBlock g i, 1) := by
  obtain ⟨k, -, hsize⟩ := h.sound.exists_blockSize
  have hsub : wsub32 (v.blockNumber g i) 1 = g * v.sbGet .blocksPerGroup + i :=
    wsub32_of_le (Nat.succ_pos _) (h.blockNumber_lt hg hlow)
  have hbit := testBit_word (v := v) (g := g) (show i / 32 < v.blockSize / 4 by omega)
    (Nat.mod_lt i (by decide))
  rw [Nat.div_add_mod, hset] at hbit
  have hword : ∀ n : ℕ, n.testBit (i % 32) = true → n &&& (1 <<< (i % 32)) ≠ 0 := by
    intro n hn hzero
    rw [and_one_shiftLeft_eq_zero.1 hzero] at hn
    exact Bool.noConfusion hn
  have hclear := storeLE_and (blit v.fresh 0 v.disk.bytes (v.blockAddr (v.gdGet g .blockBitmap))
    v.blockSize) (4 * (i / 32)) (w := 4) (show i % 32 < 8 * 4 by omega)
  rw [show 8 * (4 * (i / 32)) + i % 32 = i by omega] at hclear
  obtain ⟨w, hwrite, hw⟩ := h.writeBlock_eq hg hi false (v.gdGet g .freeBlocksCount + 1)
    (v.sbGet .freeBlocksCount + 1)
  simp only [Bool.false_eq_true, if_false] at hwrite
  simp only [deallocateBlock, hsub, mul_add_div_of_lt hlow, Nat.mul_add_mod_of_lt hlow,
    h.readBlock_eq hg]
  rw [if_pos (hword _ hbit), hclear, wrap32_of_lt (h.total_lt hg hi hlow hset), hwrite]
  exact congrArg (·, 1) hw

/-- Setting a bit and clearing it again restores the bitmap and the counters. -/
theorem giveBlock_takeBlock (hclear : v.mapBit .blocks g i = false) :
    ((v.takeBlock g i).giveBlock g i).disk.bytes = v.disk.bytes ∧
      ((v.takeBlock g i).giveBlock g i).gd = v.gd ∧
      ((v.takeBlock g i).giveBlock g i).sb = v.sb := by
  have hmem : i ∈ v.clearIn .blocks g := mem_clearIn.2 ⟨hi, hclear⟩
  have hpos : 0 < (v.clearIn .blocks g).card := Finset.card_pos.2 ⟨i, hmem⟩
  have hcount := h.count_eq hg
  have hle := h.card_clearIn_le_total hg
  have hlt : v.sbGet .freeBlocksCount < 2 ^ 32 := loadLE_lt _ _ 4
  have hgroup : (v.takeBlock g i).gdGet g .freeBlocksCount + 1 = v.gdGet g .freeBlocksCount := by
    rw [show (v.takeBlock g i).gdGet g .freeBlocksCount = v.gdGet g .freeBlocksCount - 1 from
      v.gdGet_withBit_self .blocks g i true _ (v.sbGet .freeBlocksCount - 1)
        (by have := h.card_clearIn_lt hg; omega)]
    omega
  have htotal : (v.takeBlock g i).sbGet .freeBlocksCount + 1 = v.sbGet .freeBlocksCount := by
    rw [show (v.takeBlock g i).sbGet .freeBlocksCount = v.sbGet .freeBlocksCount - 1 from
      v.sbGet_withBit_self .blocks g i true (v.gdGet g .freeBlocksCount - 1) _ (by omega)]
    omega
  have hstart : (v.takeBlock g i).mapStart .blocks g = v.mapStart .blocks g :=
    (v.sameLayout_withBit .blocks g i true _ _).mapStart .blocks g
  refine ⟨?_, ?_, ?_⟩
  · change clear (set v.disk.bytes _) ((v.takeBlock g i).mapStart .blocks g + i) = _
    rw [hstart]
    exact clear_set hclear
  · change groupDescriptor.set (groupDescriptor.set v.gd _ _ _) _ _
      ((v.takeBlock g i).gdGet g .freeBlocksCount + 1) = _
    rw [hgroup]
    exact storeLE_storeLE_loadLE _ _ _ _
  · change superblock.set (superblock.set v.sb _ _ _) _ _
      ((v.takeBlock g i).sbGet .freeBlocksCount + 1) = _
    rw [htotal]
    exact storeLE_storeLE_loadLE _ _ _ _

end

end BlockCounts

/-! ### Runs -/

/-- A call of the allocator; only blocks that are allocated are given back. -/
inductive BlockStep : Volume → Volume → Prop
  | allocate (v : Volume) : BlockStep v v.allocateBlock.1
  | deallocate (v : Volume) {block : ℕ} (h : v.Allocated block) :
      BlockStep v (v.deallocateBlock block).1

/-- A call leaves the maps and counters in step, and where everything is. -/
theorem BlockCounts.step (h : v.BlockCounts) (hstep : BlockStep v w) :
    w.BlockCounts ∧ SameLayout v w := by
  cases hstep with
  | allocate =>
    rcases h.allocateBlockFrom_eq (Nat.zero_add _) with
      ⟨g, i, ⟨hg, hi, hclear, -, -⟩, heq⟩ | ⟨heq, -⟩
    · rw [allocateBlock, heq]
      exact ⟨h.takeBlock hg hi hclear, v.sameLayout_withBit .blocks g i true _ _⟩
    · rw [allocateBlock, heq]
      exact ⟨h, .refl v⟩
  | deallocate hblock =>
    obtain ⟨g, hg, i, hlow, hi, rfl, hset⟩ := hblock
    rw [h.deallocateBlock_eq hg hi hlow hset]
    exact ⟨h.giveBlock hg hi hlow hset, v.sameLayout_withBit .blocks g i false _ _⟩

theorem BlockMaps.step (h : v.BlockMaps) (hstep : BlockStep v w) : w.BlockMaps :=
  let ⟨hw, hlayout⟩ := h.blockCounts.step hstep
  hlayout.blockMaps h hw

/-- **The bitmaps and the counters agree in every run** of allocations and deallocations. A block
that is handed out had its bit clear and is not allocated, none is handed out only when no bit is
clear, and giving a block back at once restores bitmaps and counters. -/
theorem block_maps_run {v w : Volume} (hv : v.BlockMaps) (hrun : ReflTransGen BlockStep v w) :
    w.BlockMaps ∧
      (w.allocateBlock.2 = 0 →
        ∀ g < w.groupNumber, ∀ i < 8 * w.blockSize, w.mapBit .blocks g i = true) ∧
      (w.allocateBlock.2 ≠ 0 →
        (∃ g < w.groupNumber, ∃ i < w.sbGet .blocksPerGroup,
          w.allocateBlock.2 = w.blockNumber g i ∧ w.mapBit .blocks g i = false) ∧
        ¬ w.Allocated w.allocateBlock.2 ∧
        (w.allocateBlock.1.deallocateBlock w.allocateBlock.2).2 = 1 ∧
        (w.allocateBlock.1.deallocateBlock w.allocateBlock.2).1.disk.bytes = w.disk.bytes ∧
        (w.allocateBlock.1.deallocateBlock w.allocateBlock.2).1.gd = w.gd ∧
        (w.allocateBlock.1.deallocateBlock w.allocateBlock.2).1.sb = w.sb) := by
  have hw : w.BlockMaps := by
    induction hrun with
    | refl => exact hv
    | tail _ hstep ih => exact ih.step hstep
  refine ⟨hw, ?_⟩
  have hc := hw.blockCounts
  rcases hc.allocateBlockFrom_eq (Nat.zero_add _) with
      ⟨g, i, ⟨hg, hi, hclear, -, -⟩, heq⟩ | ⟨heq, hall⟩
  · have hlow := hw.lt_of_clear hg hi hclear
    rw [allocateBlock, heq]
    refine ⟨fun hzero => absurd hzero (Nat.succ_ne_zero _), fun _ => ⟨⟨g, hg, i, hlow, rfl, hclear⟩,
      ?_, ?_⟩⟩
    · rintro ⟨g', -, i', hlow', -, hnumber, hset⟩
      obtain ⟨rfl, rfl⟩ := BlockCounts.blockNumber_inj hlow hlow' hnumber
      rw [hclear] at hset
      exact Bool.noConfusion hset
    · have hlayout : SameLayout w (w.takeBlock g i) := w.sameLayout_withBit .blocks g i true _ _
      have hper := hlayout.blocksPerGroup
      have hnumber : w.blockNumber g i = (w.takeBlock g i).blockNumber g i := by
        rw [blockNumber, blockNumber, hper]
      have hset : (w.takeBlock g i).mapBit .blocks g i = true :=
        (hw.onlyBit_withBit hg hi true _ _ g hg i hi).trans (if_pos ⟨rfl, rfl⟩)
      have hgive := (hc.takeBlock hg hi hclear).deallocateBlock_eq hg
        (by rwa [hlayout.blockSize]) (by rwa [hper]) hset
      rw [hnumber, hgive]
      exact ⟨rfl, hc.giveBlock_takeBlock hg hi hclear⟩
  · rw [allocateBlock, heq]
    exact ⟨fun _ g hg => hall g (Nat.zero_le g) hg, fun hne => absurd rfl hne⟩

/-- A volume with one group of eight blocks, whose bitmap is block 3 and has one clear bit. -/
def oneFree : Volume where
  backupBgs _ := 0
  backupBgsCount := 1
  lba := 0
  groupNumber := 1
  sectorSize := 512
  bgdtBlock := 2
  sbBlock := 1
  flushRequired := false
  sb x := if x = 12 then 1 else if x = 20 then 1 else if x = 32 then 8 else 0
  gd x := if x = 0 then 3 else if x = 12 then 1 else 0
  disk :=
    { sectorSize := 512
      bytes := fun x => if x = 3072 then 0x7F else 0xFF
      readable := fun _ _ => true
      writable := fun _ _ => true }
  fresh _ := 0

theorem oneFree_mapBit (i : ℕ) : oneFree.mapBit .blocks 0 i = !decide (i = 7) := by
  have hstart : oneFree.mapStart .blocks 0 = 8 * 3072 := by decide +kernel
  have hfirst : ∀ k : Fin 8, (0x7F : BitVec 8).getLsbD k = !decide (k.val = 7) := by decide
  have hrest : ∀ k : Fin 8, (0xFF : BitVec 8).getLsbD k = true := by decide
  rw [mapBit, hstart]
  change (if (8 * 3072 + i) / 8 = 3072 then 0x7F else 0xFF : BitVec 8).getLsbD _ = _
  by_cases hi : i < 8
  · rw [if_pos (by omega), show (8 * 3072 + i) % 8 = i by omega]
    exact hfirst ⟨i, hi⟩
  · rw [if_neg (by omega), decide_eq_false (by omega)]
    exact hrest ⟨_, Nat.mod_lt _ (by decide)⟩

theorem oneFree_clearIn : oneFree.clearIn .blocks 0 = {7} := by
  have hsize : oneFree.blockSize = 1024 := by decide
  ext i
  rw [mem_clearIn, oneFree_mapBit]
  simp
  omega

theorem oneFree_blockMaps : oneFree.BlockMaps := by
  have hgroup : ∀ {g}, g < oneFree.groupNumber → g = 0 := fun {g} hg => Nat.lt_one_iff.1 hg
  have hper : oneFree.sbGet .blocksPerGroup = 8 := by decide
  refine ⟨⟨⟨⟨fun _ _ => rfl, fun _ _ => rfl⟩, rfl, rfl, by decide⟩, fun g hg => ?_,
    fun g hg g' hg' _ => ?_, fun g hg i _ hle => ?_, fun g hg => ?_⟩, by decide, by decide, ?_,
    by decide⟩
  · rw [hgroup hg, MapKind.bitmap]
    exact ⟨by decide, by decide, by decide⟩
  · rw [hgroup hg, hgroup hg']
  · rw [MapKind.perGroup] at hle
    rw [hgroup hg, oneFree_mapBit, decide_eq_false (by omega), Bool.not_false]
  · rw [hgroup hg, oneFree_clearIn]
    decide
  · change _ = ∑ g ∈ Finset.range 1, _
    rw [Finset.sum_range_one, oneFree_clearIn]
    decide

/-- The only free block is handed out. -/
theorem block_maps_oneFree :
    oneFree.BlockMaps ∧ ReflTransGen BlockStep oneFree oneFree.allocateBlock.1 ∧
      oneFree.allocateBlock.1.BlockMaps := by
  have hrun : ReflTransGen BlockStep oneFree oneFree.allocateBlock.1 := .single (.allocate oneFree)
  exact ⟨oneFree_blockMaps, hrun, (block_maps_run oneFree_blockMaps hrun).1⟩

end Volume

end Bloodmoon
