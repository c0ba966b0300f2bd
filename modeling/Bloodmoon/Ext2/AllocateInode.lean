import Bloodmoon.Ext2.Bitmaps

/-!
# Allocating inodes

The model of `ext2_allocate_inode` and `ext2_delete_inode`. Inode `g * s_inodes_per_group + i + 1`
has bit `i` of the bitmap of group `g`. The allocator takes the first clear bit of the first group
that has one, and returns its number within the group; a deletion clears the whole byte whose index
is the index of the inode in its group.
-/

namespace Bloodmoon

open Machine BitArray Relation List Option

namespace Volume

/-! ### The code -/

/-- `ext2_bg_has_free_inodes`. -/
def bgHasFreeInodes (v : Volume) (g : ℕ) : Volume × Bool :=
  (v, decide (v.gdGet g .freeInodesCount > 0))

/-- The search of `ext2_allocate_inode` in a bitmap: the number of the first clear bit of the first
byte that is not full, and 0 if there is none. -/
def findInode (bitmap : Bytes) (size : ℕ) : ℕ :=
  match (List.range size).find? fun i => bitmap i ≠ 0xFF with
  | none => 0
  | some i =>
    match (List.range 8).find? fun j => bitmap i &&& (1#8 <<< j) = 0 with
    | none => 0
    | some j => i * 8 + j + 1

/-- `ext2_allocate_inode`. -/
def allocateInode (v : Volume) : Volume × ℕ :=
  match (v.operateOnBg bgHasFreeInodes).2 with
  | none => (v, 0)
  | some g =>
    let r := v.readBlock (v.gdGet g .inodeBitmap) v.fresh 0
    if r.2 ≠ 1 then (v, 0)
    else
      let inodeNumber := findInode r.1 v.blockSize
      if inodeNumber = 0 then (v, 0)
      else
        let w := v.writeBlock (v.gdGet g .inodeBitmap) (set r.1 (inodeNumber - 1)) 0
        if w.2 ≤ 0 then (w.1, 0)
        else
          (((w.1.gdSet g .freeInodesCount (wsub16 (w.1.gdGet g .freeInodesCount) 1)).sbSet
            .freeInodesCount (wsub32 (w.1.sbGet .freeInodesCount) 1)).requireFlush, inodeNumber)

/-- `ext2_write_inode`. -/
def writeInode (v : Volume) (inodeNumber : ℕ) (inode : Bytes) : Option Volume := do
  let buffer ← v.disk.read (v.inodeSector inodeNumber) v.blockSectors v.fresh 0
  let disk ← v.disk.write (v.inodeSector inodeNumber) v.blockSectors
    (blit buffer (v.inodeOffset inodeNumber) inode 0 v.inodeSize) 0
  some { v with disk := disk }

/-- The first sector of the inode bitmap of the group of an inode. -/
def inodeBitmapSector (v : Volume) (inodeNumber : ℕ) : ℕ :=
  v.blockSector (v.gdGet (v.inodeGroup inodeNumber) .inodeBitmap)

/-- `ext2_read_inode_bitmap`. -/
def readInodeBitmap (v : Volume) (inodeNumber : ℕ) : Option Bytes :=
  v.disk.read (v.inodeBitmapSector inodeNumber) (v.blockSize / v.sectorSize) v.fresh 0

/-- `ext2_write_inode_bitmap`. -/
def writeInodeBitmap (v : Volume) (inodeNumber : ℕ) (bitmap : Bytes) : Option Volume := do
  let disk ← v.disk.write (v.inodeBitmapSector inodeNumber) (v.blockSize / v.sectorSize) bitmap 0
  some { v with disk := disk }

/-- The fields of an inode that is deleted. -/
def deletedInode (inode : Bytes) (epoch : ℕ) : Bytes :=
  let inode := inodeDescriptor.set inode 0 .dtime epoch
  let inode := inodeDescriptor.set inode 0 .linksCount 0
  let inode := inodeDescriptor.set inode 0 .size 0
  let inode := inodeDescriptor.set inode 0 .mode 0
  inodeDescriptor.set inode 0 .sectors 0

/-- The counters after an inode of group `g` has been deleted; `INODE_TYPE_DIR` is `0x4000`. -/
def countDeleted (v : Volume) (g mode : ℕ) : Volume :=
  let v := v.gdSet g .freeInodesCount (v.gdGet g .freeInodesCount + 1)
  let v := if mode &&& 0x4000 ≠ 0 then
      v.gdSet g .usedDirsCount (wsub16 (v.gdGet g .usedDirsCount) 1)
    else v
  (v.sbSet .freeInodesCount (wrap32 (v.sbGet .freeInodesCount + 1))).requireFlush

/-- `ext2_delete_inode`, at a time `epoch`; nothing when its behaviour is undefined, the byte being
outside of the buffer. -/
def deleteInode (v : Volume) (epoch inodeNumber : ℕ) : Option (Volume × ℕ) :=
  match v.readInode inodeNumber with
  | none => some (v, 1)
  | some inode =>
    match v.writeInode inodeNumber (deletedInode inode epoch) with
    | none => some (v, 1)
    | some w =>
      match w.readInodeBitmap inodeNumber with
      | none => some (w, 1)
      | some bitmap =>
        if v.blockSize ≤ v.inodeIndex inodeNumber then none
        else
          match w.writeInodeBitmap inodeNumber
              (Function.update bitmap (v.inodeIndex inodeNumber) 0) with
          | none => some (w, 1)
          | some u =>
            some (u.countDeleted (v.inodeGroup inodeNumber) (inodeDescriptor.get inode 0 .mode), 0)

/-! ### The inodes of a bitmap -/

/-- The inode of bit `i` of the bitmap of group `g`. -/
def inodeNumber (v : Volume) (g i : ℕ) : ℕ := g * v.sbGet .inodesPerGroup + i + 1

/-- The inode bitmaps and the counters of the groups agree. Inodes have 32-bit numbers and their
counters 16 bits, the bits of a group fit its bitmap, and no inode table overlaps a bitmap. -/
structure InodeMaps (v : Volume) : Prop extends Maps v .inodes where
  perGroup_lt : v.sbGet .inodesPerGroup < 2 ^ 16
  perGroup_le : v.sbGet .inodesPerGroup ≤ 8 * v.blockSize
  numbers : v.groupNumber * v.sbGet .inodesPerGroup < 2 ^ 32
  tables : ∀ g < v.groupNumber, ∀ i < v.sbGet .inodesPerGroup, ∀ g' < v.groupNumber,
    v.blockAddr (v.gdGet g' .inodeBitmap) + v.blockSize ≤ v.inodeSector (v.inodeNumber g i) * 512 ∨
      v.inodeSector (v.inodeNumber g i) * 512 + v.blockSize ≤ v.blockAddr (v.gdGet g' .inodeBitmap)

/-- The volume after bit `i` of group `g` has been set. -/
def takeInode (v : Volume) (g i : ℕ) : Volume :=
  v.withBit .inodes g i true (v.gdGet g .freeInodesCount - 1)
    (wsub32 (v.sbGet .freeInodesCount) 1)

namespace SameLayout

variable {v w : Volume} (h : SameLayout v w)

include h

theorem inodeSector (n : ℕ) : w.inodeSector n = v.inodeSector n := by
  have hsb : ∀ f, f = .inodesPerGroup ∨ f = .revLevel ∨ f = .inodeSize → w.sbGet f = v.sbGet f := by
    rintro f (rfl | rfl | rfl) <;> exact h.sbGet _ fun k => by cases k <;> decide
  simp only [Volume.inodeSector, inodeIndex, inodeGroup, inodeSize, blockSectors,
    h.blockSize, h.lba,
    h.sectorSize, hsb _ (.inl rfl), hsb _ (.inr (.inl rfl)), hsb _ (.inr (.inr rfl)),
    h.gdGet _ .inodeTable rfl]

theorem inodeMaps (hv : v.InodeMaps) (hmaps : w.Maps .inodes) : w.InodeMaps := by
  have hper := h.inodesPerGroup
  have hnumber : ∀ g i, w.inodeNumber g i = v.inodeNumber g i := fun g i => by
    rw [inodeNumber, inodeNumber, hper]
  refine ⟨hmaps, ?_, ?_, ?_, fun g hg i hi g' hg' => ?_⟩
  · rw [hper]
    exact hv.perGroup_lt
  · rw [hper, h.blockSize]
    exact hv.perGroup_le
  · rw [hper, h.groupNumber]
    exact hv.numbers
  · rw [h.groupNumber] at hg hg'
    rw [hper] at hi
    rw [hnumber, h.inodeSector, h.gdGet g' .inodeBitmap rfl, h.blockAddr, h.blockSize]
    exact hv.tables g hg i hi g' hg'

end SameLayout

/-! ### Allocation -/

/-- The search returns the first clear bit, counted from 1. -/
theorem findInode_eq (bitmap : Bytes) (size : ℕ) :
    (findInode bitmap size = 0 ∧ ∀ i < 8 * size, test bitmap i = true) ∨
      ∃ i < 8 * size, test bitmap i = false ∧ (∀ j < i, test bitmap j = true) ∧
        findInode bitmap size = i + 1 := by
  have hfull : ∀ k : Fin 8, (0xFF : BitVec 8).getLsbD k = true := by decide
  have hmask : ∀ (b : BitVec 8) (k : Fin 8), b &&& (1#8 <<< k.val) = 0 ↔ b.getLsbD k = false := by
    decide
  unfold findInode
  split
  next hnone =>
    refine .inl ⟨rfl, fun i hi => ?_⟩
    have hbyte := find?_eq_none.1 hnone (i / 8) (mem_range.2 (by omega))
    rw [decide_eq_true_eq, not_not] at hbyte
    rw [test, hbyte]
    exact hfull ⟨i % 8, Nat.mod_lt i (by decide)⟩
  next i hsome =>
    obtain ⟨hbyte, hmem, hbefore⟩ := find?_range_eq_some.1 hsome
    have hi := mem_range.1 hmem
    have hbyte : bitmap i ≠ 0xFF := of_decide_eq_true hbyte
    split
    next hnone =>
      refine absurd (BitVec.eq_of_getLsbD_eq fun k hk => ?_) hbyte
      have hbit := find?_eq_none.1 hnone k (mem_range.2 hk)
      rw [decide_eq_true_eq, hmask (bitmap i) ⟨k, hk⟩] at hbit
      rw [Bool.eq_true_of_not_eq_false hbit, hfull ⟨k, hk⟩]
    next j hj =>
      obtain ⟨hbit, hmem, hfirst⟩ := find?_range_eq_some.1 hj
      have hj8 := mem_range.1 hmem
      have hbit := (hmask (bitmap i) ⟨j, hj8⟩).1 (of_decide_eq_true hbit)
      refine .inr ⟨i * 8 + j, by omega, ?_, fun l hl => ?_, rfl⟩
      · rwa [test, show (i * 8 + j) / 8 = i by omega, show (i * 8 + j) % 8 = j by omega]
      rcases Nat.lt_or_ge (l / 8) i with hlt | hge
      · -- a byte before the one that is not full
        have hone := hbefore (l / 8) hlt
        rw [Bool.not_eq_true', decide_eq_false_iff_not, not_not] at hone
        rw [test, hone]
        exact hfull ⟨l % 8, Nat.mod_lt l (by decide)⟩
      · have hset := hfirst (l % 8) (by omega)
        rw [Bool.not_eq_true', decide_eq_false_iff_not,
          hmask (bitmap i) ⟨l % 8, Nat.mod_lt l (by decide)⟩] at hset
        rw [test, show l / 8 = i by omega]
        exact Bool.eq_true_of_not_eq_false hset

/-- The first group with a free inode. -/
theorem operateFrom_bgHasFreeInodes (v : Volume) (n i : ℕ) :
    ((operateFrom bgHasFreeInodes n i v).2 = none ∧
      ∀ g, i ≤ g → g < i + n → v.gdGet g .freeInodesCount = 0) ∨
    ∃ g, (operateFrom bgHasFreeInodes n i v).2 = some g ∧ i ≤ g ∧ g < i + n ∧
      0 < v.gdGet g .freeInodesCount ∧ ∀ g', i ≤ g' → g' < g → v.gdGet g' .freeInodesCount = 0 := by
  induction n generalizing i with
  | zero => exact .inl ⟨rfl, fun g hg hg' => by omega⟩
  | succ n ih =>
    rw [operateFrom]
    by_cases hfree : 0 < v.gdGet i .freeInodesCount
    · rw [if_pos (show (v.bgHasFreeInodes i).2 = true from decide_eq_true hfree)]
      exact .inr ⟨i, rfl, Nat.le_refl i, by omega, hfree, fun g' hg' hlt => by omega⟩
    · have hskip : ∀ g, i ≤ g → (i + 1 ≤ g → v.gdGet g .freeInodesCount = 0) →
          v.gdGet g .freeInodesCount = 0 := by
        intro g hg hrest
        rcases Nat.eq_or_lt_of_le hg with rfl | hlt
        · omega
        · exact hrest hlt
      rw [if_neg (show ¬ (v.bgHasFreeInodes i).2 = true from fun htrue =>
        hfree (of_decide_eq_true htrue))]
      rcases ih (i + 1) with ⟨hnone, hall⟩ | ⟨g, hsome, hg, hlt, hpos, hall⟩
      · exact .inl ⟨hnone, fun g hg hlt => hskip g hg fun hg' => hall g hg' (by omega)⟩
      · exact .inr ⟨g, hsome, by omega, by omega, hpos, fun g' hg' hlt' =>
          hskip g' hg' fun hg'' => hall g' hg'' hlt'⟩

/-- **The allocator** looks for a clear bit in the first group that counts a free inode. -/
theorem allocateInode_cases (v : Volume) (hv : v.Sound)
    (hrange : ∀ g < v.groupNumber, v.InRange (v.gdGet g .inodeBitmap)) :
    (v.allocateInode = (v, 0) ∧ ∀ g < v.groupNumber, v.gdGet g .freeInodesCount = 0) ∨
    ∃ g < v.groupNumber, 0 < v.gdGet g .freeInodesCount ∧
      (∀ g' < g, v.gdGet g' .freeInodesCount = 0) ∧
      (((∀ i < 8 * v.blockSize, v.mapBit .inodes g i = true) ∧ v.allocateInode = (v, 0)) ∨
        ∃ i < 8 * v.blockSize, v.mapBit .inodes g i = false ∧
          (∀ j < i, v.mapBit .inodes g j = true) ∧ v.allocateInode = (v.takeInode g i, i + 1)) := by
  rcases operateFrom_bgHasFreeInodes v v.groupNumber 0 with
    ⟨hnone, hall⟩ | ⟨g, hsome, -, hlt, hpos, hall⟩
  · refine .inl ⟨?_, fun g hg => hall g (Nat.zero_le g) (by omega)⟩
    rw [allocateInode, operateOnBg, hnone]
  have hg : g < v.groupNumber := by omega
  refine .inr ⟨g, hg, hpos, fun g' hg' => hall g' (Nat.zero_le g') hg', ?_⟩
  have hread : v.readBlock (v.gdGet g .inodeBitmap) v.fresh 0 =
      (blit v.fresh 0 v.disk.bytes (v.blockAddr (v.gdGet g .inodeBitmap)) v.blockSize, 1) :=
    hv.readBlock_eq (hrange g hg) _ _
  have hbits : ∀ i < 8 * v.blockSize, test (blit v.fresh 0 v.disk.bytes
      (v.blockAddr (v.gdGet g .inodeBitmap)) v.blockSize) i = v.mapBit .inodes g i :=
    fun i hi => test_blit_self _ _ _ hi
  rcases findInode_eq (blit v.fresh 0 v.disk.bytes (v.blockAddr (v.gdGet g .inodeBitmap))
    v.blockSize) v.blockSize with ⟨hzero, hset⟩ | ⟨i, hi, hclear, hfirst, hnumber⟩
  · refine .inl ⟨fun i hi => ?_, ?_⟩
    · rw [← hbits i hi]
      exact hset i hi
    · rw [allocateInode, operateOnBg, hsome]
      simp only [hread, hzero, ne_eq, not_true_eq_false, if_false, if_true]
  rw [hbits i hi] at hclear
  refine .inr ⟨i, hi, hclear, fun j hj => ?_, ?_⟩
  · rw [← hbits j (by omega)]
    exact hfirst j hj
  have hwrite := hv.writeBlock_eq (hrange g hg)
    (set (blit v.fresh 0 v.disk.bytes (v.blockAddr (v.gdGet g .inodeBitmap)) v.blockSize) i) 0
  rw [blit_set _ _ _ hi] at hwrite
  rw [allocateInode, operateOnBg, hsome]
  simp only [hread, hnumber, hwrite, Nat.add_sub_cancel]
  have hgroup : (v.withBytes (set v.disk.bytes
      (8 * v.blockAddr (v.gdGet g .inodeBitmap) + i))).gdGet g .freeInodesCount =
      v.gdGet g .freeInodesCount := rfl
  rw [hgroup, wsub16_of_le hpos (loadLE_lt _ _ 2)]
  rfl

namespace InodeMaps

variable {v : Volume} {g i : ℕ}

theorem count_eq (h : v.InodeMaps) (hg : g < v.groupNumber) :
    v.gdGet g .freeInodesCount = (v.clearIn .inodes g).card := h.count g hg

theorem takeInode (h : v.InodeMaps) (hg : g < v.groupNumber) (hi : i < 8 * v.blockSize)
    (hclear : v.mapBit .inodes g i = false) : (v.takeInode g i).InodeMaps := by
  have hmem : i ∈ v.clearIn .inodes g := mem_clearIn.2 ⟨hi, hclear⟩
  have hlt : v.gdGet g .freeInodesCount < 2 ^ 16 := loadLE_lt _ _ 2
  refine (v.sameLayout_withBit .inodes g i true _ _).inodeMaps h
    (h.toMaps.withBit hg hi (h.lt_of_clear hg hi hclear) true _ ?_ (by omega))
  rw [h.count_eq hg, if_pos rfl, Finset.card_erase_of_mem hmem]

/-- **The allocator** takes the first clear bit of the first group that has one, and returns its
number in the group. -/
theorem allocateInode_eq (h : v.InodeMaps) :
    (v.allocateInode = (v, 0) ∧ ∀ g < v.groupNumber, v.gdGet g .freeInodesCount = 0) ∨
    ∃ g < v.groupNumber, ∃ i < 8 * v.blockSize, v.mapBit .inodes g i = false ∧
      (∀ g' < g, v.gdGet g' .freeInodesCount = 0) ∧ (∀ j < i, v.mapBit .inodes g j = true) ∧
      v.allocateInode = (v.takeInode g i, i + 1) := by
  rcases v.allocateInode_cases h.sound h.inRange with
    hnone | ⟨g, hg, hpos, hbefore, ⟨hset, -⟩ | ⟨i, hi, hclear, hfirst, heq⟩⟩
  · exact .inl hnone
  · -- a group that counts a free inode has a clear bit
    obtain ⟨i, hi⟩ := Finset.card_pos.1 (h.count_eq hg ▸ hpos)
    obtain ⟨hi, hclear⟩ := mem_clearIn.1 hi
    rw [hset i hi] at hclear
    exact Bool.noConfusion hclear
  · exact .inr ⟨g, hg, i, hi, hclear, hbefore, hfirst, heq⟩

/-! ### Deletion -/

theorem inodeGroup_inodeNumber (h : v.InodeMaps) (hg : g < v.groupNumber)
    (hi : i < v.sbGet .inodesPerGroup) :
    v.inodeGroup (v.inodeNumber g i) = g ∧ v.inodeIndex (v.inodeNumber g i) = i := by
  have hnumbers := h.numbers
  have hle := region_le (v.sbGet .inodesPerGroup) hg
  have hsub : wsub32 (v.inodeNumber g i) 1 = g * v.sbGet .inodesPerGroup + i :=
    wsub32_of_le (Nat.succ_pos _) (by unfold inodeNumber; omega)
  rw [inodeGroup, inodeIndex, hsub]
  exact ⟨mul_add_div_of_lt hi g, Nat.mul_add_mod_of_lt hi⟩

end InodeMaps

section Deletion

variable {v : Volume} {g i : ℕ}

theorem sameLayout_countDeleted (v : Volume) (g mode : ℕ) :
    SameLayout v (v.countDeleted g mode) := by
  have hfree := SameLayout.gdSet v g (show GroupField.freeInodesCount.isPlace = false from rfl)
    (v.gdGet g .freeInodesCount + 1)
  refine (hfree.trans ?_).trans (SameLayout.requireFlush _)
  split_ifs
  · exact (SameLayout.gdSet _ g (f := .usedDirsCount) rfl _).trans (SameLayout.sbSet _ .inodes _)
  · exact SameLayout.sbSet _ .inodes _

theorem gdGet_countDeleted (v : Volume) (g mode g' : ℕ) :
    (v.countDeleted g mode).gdGet g' .freeInodesCount =
      if g' = g then (v.gdGet g .freeInodesCount + 1) % 2 ^ 16
      else v.gdGet g' .freeInodesCount := by
  have hfree : (v.countDeleted g mode).gdGet g' .freeInodesCount =
      (v.gdSet g .freeInodesCount (v.gdGet g .freeInodesCount + 1)).gdGet g' .freeInodesCount := by
    unfold countDeleted
    split_ifs
    · exact gdGet_gdSet_of_ne _ _ (.inl (by decide))
    · rfl
  rw [hfree]
  split_ifs with hg
  · rw [hg]
    exact loadLE_storeLE _ _ 2 _
  · exact gdGet_gdSet_of_ne _ _ (.inr hg)

theorem disk_countDeleted (v : Volume) (g mode : ℕ) : (v.countDeleted g mode).disk = v.disk := by
  unfold countDeleted
  split_ifs <;> rfl

/-- The inode that `ext2_write_inode` writes is in one block. -/
theorem Sound.exists_writeInode (h : v.Sound) (n : ℕ) (inode : Bytes) :
    ∃ d, v.writeInode n inode = some (v.withBytes d) ∧
      ∀ a k, a + k ≤ v.inodeSector n * 512 ∨ v.inodeSector n * 512 + v.blockSize ≤ a →
        SameOn v.disk.bytes d a k := by
  rw [writeInode, h.reliable.read_eq, bind_eq_bind, bind_some, h.reliable.write_eq,
    h.blockSectors_mul]
  refine ⟨_, rfl, fun a k hapart => sameOn_blit ?_⟩
  rwa [h.diskSectorSize]

theorem Sound.exists_readInode (h : v.Sound) (n : ℕ) : ∃ inode, v.readInode n = some inode := by
  rw [readInode, h.reliable.read_eq]
  exact ⟨_, rfl⟩

theorem Sound.sectors_mul (h : v.Sound) :
    v.blockSize / v.sectorSize * v.disk.sectorSize = v.blockSize := by
  obtain ⟨k, -, hk⟩ := h.exists_blockSize
  rw [h.sectorSize, h.diskSectorSize]
  omega

section Bitmap

variable {n : ℕ} (h : v.Sound) (hgroup : v.inodeGroup n = g)
  (hmap : v.InRange (v.gdGet g .inodeBitmap))

include h hgroup hmap

theorem Sound.readInodeBitmap_eq : v.readInodeBitmap n =
    some (blit v.fresh 0 v.disk.bytes (v.blockAddr (v.gdGet g .inodeBitmap)) v.blockSize) := by
  rw [readInodeBitmap, h.reliable.read_eq, inodeBitmapSector, hgroup, h.blockSector_mul hmap,
    h.sectors_mul]

theorem Sound.writeInodeBitmap_eq (bitmap : Bytes) : v.writeInodeBitmap n bitmap =
    some (v.withBytes
      (blit v.disk.bytes (v.blockAddr (v.gdGet g .inodeBitmap)) bitmap 0 v.blockSize)) := by
  rw [writeInodeBitmap, h.reliable.write_eq, inodeBitmapSector, hgroup, h.blockSector_mul hmap,
    h.sectors_mul]
  rfl

end Bitmap

/-- **A deletion** clears the byte of the bitmap whose index is the index of the inode, and counts
one free inode more. -/
theorem InodeMaps.deleteInode_eq (h : v.InodeMaps) (hg : g < v.groupNumber)
    (hi : i < v.sbGet .inodesPerGroup) (epoch : ℕ) :
    if v.blockSize ≤ i then v.deleteInode epoch (v.inodeNumber g i) = none
    else
      ∃ w, v.deleteInode epoch (v.inodeNumber g i) = some (w, 0) ∧ SameLayout v w ∧
        (∀ g', w.gdGet g' .freeInodesCount =
          if g' = g then (v.gdGet g .freeInodesCount + 1) % 2 ^ 16
          else v.gdGet g' .freeInodesCount) ∧
        ∀ g' < v.groupNumber, ∀ j < 8 * v.blockSize, w.mapBit .inodes g' j =
          if g' = g ∧ j / 8 = i then false else v.mapBit .inodes g' j := by
  obtain ⟨hgroup, hindex⟩ := h.inodeGroup_inodeNumber hg hi
  have htables := h.tables g hg i hi
  generalize hn : v.inodeNumber g i = n at hgroup hindex htables ⊢
  obtain ⟨inode, hinode⟩ := h.sound.exists_readInode n
  obtain ⟨d, hwrite, hsame⟩ := h.sound.exists_writeInode n (deletedInode inode epoch)
  have hmap : v.InRange (v.gdGet g .inodeBitmap) := h.inRange g hg
  have hread := (h.sound.withBytes d).readInodeBitmap_eq hgroup (hmap.withBytes d)
  rw [deleteInode, hinode]
  simp only [hwrite, hread, hindex, hgroup,
    (h.sound.withBytes d).writeInodeBitmap_eq hgroup (hmap.withBytes d)]
  by_cases hle : v.blockSize ≤ i
  · rw [if_pos hle, if_pos hle]
  rw [if_neg hle, if_neg hle]
  have hlayout : ∀ d', SameLayout v
      (((v.withBytes d).withBytes d').countDeleted g (inodeDescriptor.get inode 0 .mode)) :=
    fun d' => ((SameLayout.withBytes v d).trans (SameLayout.withBytes _ d')).trans
      (sameLayout_countDeleted _ _ _)
  refine ⟨_, rfl, hlayout _, gdGet_countDeleted _ _ _, fun g' hg' j hj => ?_⟩
  rw [mapBit, (hlayout _).mapStart .inodes g', disk_countDeleted]
  -- the bitmaps are apart from the block of the inode, and from each other
  have hstart : ∀ g, v.mapStart .inodes g = 8 * v.blockAddr (v.gdGet g .inodeBitmap) := fun _ => rfl
  have hkept : test d (v.mapStart .inodes g' + j) = v.mapBit .inodes g' j := by
    have hbyte := hsame _ _ (htables g' hg') ((v.mapStart .inodes g' + j) / 8)
      (by rw [hstart]; omega) (by rw [hstart]; omega)
    rw [mapBit, test, hbyte, test]
  have hbyte : (v.mapStart .inodes g' + j) / 8 = v.blockAddr (v.gdGet g .inodeBitmap) + i ↔
      g' = g ∧ j / 8 = i := by
    by_cases hgg : g' = g
    · subst hgg
      rw [hstart]
      omega
    · have := MapsApart.mapStart_apart h.inj hg' hg hgg
      rw [hstart, hstart] at this
      rw [hstart]
      omega
  rw [← hkept]
  refine (test_blit_update_zero v.fresh d _ (Nat.not_le.1 hle) _).trans ?_
  exact if_congr hbyte rfl rfl

end Deletion

/-! ### Runs -/

/-- A call of the allocator, or of the deletion of the inode of bit `i` of group `g`. -/
inductive InodeOp where
  | allocate
  | delete (epoch g i : ℕ)

namespace InodeOp

/-- The call of the source. -/
def run (v : Volume) : InodeOp → Option (Volume × ℕ)
  | allocate => some v.allocateInode
  | delete epoch g i => v.deleteInode epoch (v.inodeNumber g i)

/-- Only inodes that are in use are deleted. -/
def Valid (v : Volume) : InodeOp → Prop
  | allocate => True
  | delete _ g i => g < v.groupNumber ∧ i < v.sbGet .inodesPerGroup ∧ v.mapBit .inodes g i = true

/-- What the call has to do with the bitmaps, when it returns `n` and leaves the volume `w`: exactly
the bit of the inode changes, and an inode that is handed out was free. -/
def Flips (v w : Volume) (n : ℕ) : InodeOp → Prop
  | allocate =>
    (n = 0 → ∀ g < v.groupNumber, ∀ i < 8 * v.blockSize,
      w.mapBit .inodes g i = v.mapBit .inodes g i) ∧
    (n ≠ 0 → ∃ g < v.groupNumber, ∃ i < v.sbGet .inodesPerGroup, n = v.inodeNumber g i ∧
      v.mapBit .inodes g i = false ∧ OnlyBit v w .inodes g i true)
  | delete _ g i => n = 0 ∧ OnlyBit v w .inodes g i false

/-- The call does what it has to do, and the groups count their clear bits afterwards. -/
def Right (v : Volume) (op : InodeOp) : Prop :=
  ∃ w n, op.run v = some (w, n) ∧ op.Flips v w n ∧
    ∀ g < w.groupNumber, w.gdGet g .freeInodesCount = (w.clearIn .inodes g).card

/-- When the call is right: the allocator finds a free inode in the first group or in none, and the
inode that is deleted is the first one of its group with the next seven free. -/
def Meets (v : Volume) : InodeOp → Prop
  | allocate => 0 < v.gdGet 0 .freeInodesCount ∨
      ∀ g < v.groupNumber, v.gdGet g .freeInodesCount = 0
  | delete _ g i => i = 0 ∧ ∀ j, 0 < j → j < 8 → v.mapBit .inodes g j = false

end InodeOp

namespace InodeMaps

variable {v : Volume}
variable {epoch g i : ℕ}

/-- A group that counts no free inode has no clear bit. -/
theorem count_pos (h : v.InodeMaps) (hg : g < v.groupNumber) (hi : i < 8 * v.blockSize)
    (hclear : v.mapBit .inodes g i = false) : 0 < v.gdGet g .freeInodesCount := by
  rw [h.count_eq hg]
  exact Finset.card_pos.2 ⟨i, mem_clearIn.2 ⟨hi, hclear⟩⟩

theorem allocate_right_iff (h : v.InodeMaps) :
    InodeOp.allocate.Right v ↔ InodeOp.allocate.Meets v := by
  rcases h.allocateInode_eq with ⟨heq, hall⟩ | ⟨g, hg, i, hi, hclear, hall, -, heq⟩
  · exact ⟨fun _ => .inr hall, fun _ => ⟨v, 0, congrArg some heq,
      ⟨fun _ _ _ _ _ => rfl, fun hne => absurd rfl hne⟩, h.count⟩⟩
  have hpos := h.count_pos hg hi hclear
  have hlow := h.lt_of_clear hg hi hclear
  constructor
  · rintro ⟨w, n, hrun, ⟨-, hflips⟩, -⟩
    obtain ⟨rfl, rfl⟩ : v.takeInode g i = w ∧ i + 1 = n :=
      Prod.mk.inj (heq.symm.trans (Option.some.inj hrun))
    obtain ⟨g', hg', i', hi', hnumber, hclear', -⟩ := hflips (Nat.succ_ne_zero i)
    -- the number is that of an inode of the first group
    have hle : g' * v.sbGet .inodesPerGroup ≤ i := by
      unfold inodeNumber at hnumber
      omega
    rcases Nat.eq_zero_or_pos g' with rfl | hg'
    · exact .inl (h.count_pos hg' (Nat.lt_of_lt_of_le hi' h.perGroup_le) hclear')
    · exact absurd (Nat.le_trans (Nat.le_mul_of_pos_left _ hg') hle) (Nat.not_le.2 hlow)
  · rintro (hfirst | hnone)
    · obtain rfl : g = 0 := by
        by_contra hne
        have := hall 0 (Nat.pos_of_ne_zero hne)
        omega
      refine ⟨_, _, congrArg some heq, ⟨fun hzero => absurd hzero (Nat.succ_ne_zero i), fun _ =>
        ⟨0, hg, i, hlow, ?_, hclear, h.onlyBit_withBit hg hi true _ _⟩⟩, ?_⟩
      · rw [inodeNumber, Nat.zero_mul, Nat.zero_add]
      · exact (h.takeInode hg hi hclear).count
    · have := hnone g hg
      omega

/-- A deletion that meets the condition clears one bit and keeps the maps. -/
theorem delete_of_meets (h : v.InodeMaps) (hvalid : (InodeOp.delete epoch g i).Valid v)
    (hmeets : (InodeOp.delete epoch g i).Meets v) :
    ∃ w, v.deleteInode epoch (v.inodeNumber g i) = some (w, 0) ∧
      OnlyBit v w .inodes g i false ∧ w.InodeMaps := by
  obtain ⟨hg, hi, hset⟩ := hvalid
  obtain ⟨rfl, hnext⟩ := hmeets
  have hsize := h.sound.le_blockSize
  have hdelete := h.deleteInode_eq hg hi epoch
  rw [if_neg (by omega)] at hdelete
  obtain ⟨w, heq, hlayout, hcounts, hbits⟩ := hdelete
  have honly : OnlyBit v w .inodes g 0 false := by
    intro g' hg' j hj
    rw [hbits g' hg' j hj]
    by_cases hbyte : g' = g ∧ j / 8 = 0
    · obtain ⟨rfl, hj8⟩ := hbyte
      rw [if_pos ⟨rfl, hj8⟩]
      by_cases hj0 : j = 0
      · rw [if_pos ⟨rfl, hj0⟩]
      · rw [if_neg (fun heq => hj0 heq.2), hnext j (by omega) (by omega)]
    · rw [if_neg hbyte, if_neg (by omega)]
  refine ⟨w, heq, honly, hlayout.inodeMaps h (honly.maps hlayout h.toMaps (by omega) hi ?_ ?_)⟩
  · -- the group counts one inode more, and no more than it has
    have hlt := Nat.lt_of_le_of_lt (Nat.le_min.1 (h.card_insert_le hg (by omega) hi)).1
      h.perGroup_lt
    rw [Finset.card_insert_of_notMem (notMem_clearIn hset)] at hlt
    rw [MapKind.count, hcounts, if_pos rfl, h.count_eq hg, Nat.mod_eq_of_lt hlt,
      if_neg Bool.false_ne_true, Finset.card_insert_of_notMem (notMem_clearIn hset)]
  · exact fun g' hne => (hcounts g').trans (if_neg hne)

theorem delete_right_iff (h : v.InodeMaps) (hvalid : (InodeOp.delete epoch g i).Valid v) :
    (InodeOp.delete epoch g i).Right v ↔ (InodeOp.delete epoch g i).Meets v := by
  constructor
  · rintro ⟨w, n, hrun, ⟨rfl, honly⟩, -⟩
    obtain ⟨hg, hi, hset⟩ := hvalid
    have hi8 := Nat.lt_of_lt_of_le hi h.perGroup_le
    have hdelete := h.deleteInode_eq hg hi epoch
    change v.deleteInode epoch (v.inodeNumber g i) = some (w, 0) at hrun
    by_cases hle : v.blockSize ≤ i
    · rw [if_pos hle, hrun] at hdelete
      exact absurd hdelete (some_ne_none _)
    rw [if_neg hle] at hdelete
    obtain ⟨u, heq, -, -, hbits⟩ := hdelete
    obtain rfl : w = u := congrArg Prod.fst (mem_unique hrun heq)
    -- the byte that is cleared has to be the one of the bit
    have hzero : i = 0 := by
      have hcleared := (honly g hg i hi8).symm.trans (hbits g hg i hi8)
      rw [if_pos ⟨rfl, rfl⟩, hset] at hcleared
      by_contra hne
      rw [if_neg (by omega)] at hcleared
      exact Bool.noConfusion hcleared
    subst hzero
    refine ⟨rfl, fun j hj hj8 => ?_⟩
    have hkept := (honly g hg j (by omega)).symm.trans (hbits g hg j (by omega))
    rwa [if_neg (by omega), if_pos ⟨rfl, by omega⟩] at hkept
  · intro hmeets
    obtain ⟨w, heq, honly, hw⟩ := h.delete_of_meets hvalid hmeets
    exact ⟨w, 0, heq, ⟨rfl, honly⟩, hw.count⟩

end InodeMaps

/-- A call that is valid and meets its condition. -/
def InodeStep (v w : Volume) : Prop :=
  ∃ op : InodeOp, op.Valid v ∧ op.Meets v ∧ ∃ n, op.run v = some (w, n)

theorem InodeMaps.step {v w : Volume} (h : v.InodeMaps) (hstep : InodeStep v w) : w.InodeMaps := by
  obtain ⟨op, hvalid, hmeets, n, hrun⟩ := hstep
  cases op with
  | allocate =>
    have hw : w = v.allocateInode.1 := congrArg Prod.fst (Option.some.inj hrun).symm
    rcases h.allocateInode_eq with ⟨heq, -⟩ | ⟨g, hg, i, hi, hclear, -, -, heq⟩
    · rwa [hw, heq]
    · rw [hw, heq]
      exact h.takeInode hg hi hclear
  | delete epoch g i =>
    obtain ⟨u, heq, -, hu⟩ := h.delete_of_meets hvalid hmeets
    have hw : w = u := congrArg Prod.fst (mem_unique hrun heq)
    rwa [hw]

/-- **The inode bitmaps and the counters agree in every run** of allocations and deletions that meet
the condition, and a call in a state of such a run is right exactly when it meets it. -/
theorem inode_maps_run {v w : Volume} (hv : v.InodeMaps) (hrun : ReflTransGen InodeStep v w) :
    w.InodeMaps ∧ ∀ op : InodeOp, op.Valid w → (op.Right w ↔ op.Meets w) := by
  have hw : w.InodeMaps := by
    induction hrun with
    | refl => exact hv
    | tail _ hstep ih => exact ih.step hstep
  refine ⟨hw, fun op hvalid => ?_⟩
  cases op with
  | allocate => exact hw.allocate_right_iff
  | delete epoch g i => exact hw.delete_right_iff hvalid

/-- A volume with two groups of eight inodes, with the bitmaps in blocks 3 and 4 and the tables in
blocks 5 and 6. All inodes of the first group and the first one of the second are in use. -/
def fullGroup : Volume where
  backupBgs _ := 0
  backupBgsCount := 1
  lba := 0
  groupNumber := 2
  sectorSize := 512
  bgdtBlock := 2
  sbBlock := 1
  flushRequired := false
  sb x := if x = 16 then 7 else if x = 20 then 1 else if x = 40 then 8 else 0
  gd x :=
    if x = 4 then 3 else if x = 8 then 5
    else if x = 36 then 4 else if x = 40 then 6 else if x = 46 then 7 else 0
  disk :=
    { sectorSize := 512
      bytes := fun x => if x = 4096 then 0x01 else 0xFF
      readable := fun _ _ => true
      writable := fun _ _ => true }
  fresh _ := 0

theorem fullGroup_blockSize : fullGroup.blockSize = 1024 := by decide

theorem fullGroup_mapBit {g i : ℕ} (hg : g < 2) (hi : i < 8 * 1024) :
    fullGroup.mapBit .inodes g i = decide (g = 0 ∨ i = 0 ∨ 8 ≤ i) := by
  have hstart : ∀ g : Fin 2, fullGroup.mapStart .inodes g = 8 * (3072 + 1024 * g) := by
    decide +kernel
  have hfirst : ∀ k : Fin 8, (0x01 : BitVec 8).getLsbD k = decide (k.val = 0) := by decide
  have hrest : ∀ k : Fin 8, (0xFF : BitVec 8).getLsbD k = true := by decide
  rw [mapBit, hstart ⟨g, hg⟩]
  change (if (8 * (3072 + 1024 * g) + i) / 8 = 4096 then 0x01 else 0xFF : BitVec 8).getLsbD _ = _
  by_cases hbyte : (8 * (3072 + 1024 * g) + i) / 8 = 4096
  · rw [if_pos hbyte]
    refine (hfirst ⟨_, Nat.mod_lt _ (by decide)⟩).trans (decide_eq_decide.2 ?_)
    change (8 * (3072 + 1024 * g) + i) % 8 = 0 ↔ _
    omega
  · rw [if_neg hbyte, decide_eq_true (by omega)]
    exact hrest ⟨_, Nat.mod_lt _ (by decide)⟩

theorem fullGroup_clearIn {g : ℕ} (hg : g < 2) :
    fullGroup.clearIn .inodes g = if g = 0 then ∅ else Finset.Ico 1 8 := by
  ext i
  rw [mem_clearIn, fullGroup_blockSize]
  by_cases hi : i < 8 * 1024
  · rw [fullGroup_mapBit hg hi, decide_eq_false_iff_not]
    split_ifs with hg0
    · simp [hg0]
    · rw [Finset.mem_Ico]
      omega
  · split_ifs with hg0
    · simp [hi]
    · rw [Finset.mem_Ico]
      omega

theorem fullGroup_inodeMaps : fullGroup.InodeMaps := by
  have hplace : ∀ g : Fin 2, fullGroup.gdGet g .inodeBitmap = 3 + g := by decide +kernel
  have hcount : ∀ g : Fin 2, fullGroup.gdGet g .freeInodesCount = 7 * g := by decide +kernel
  refine ⟨⟨⟨⟨fun _ _ => rfl, fun _ _ => rfl⟩, rfl, rfl, by decide⟩, fun g hg => ?_,
    fun g hg g' hg' heq => ?_, fun g hg i hi hle => ?_, fun g hg => ?_⟩, by decide, ?_,
      by decide, ?_⟩
  · rw [MapKind.bitmap, hplace ⟨g, hg⟩]
    have hg2 : g < 2 := hg
    refine ⟨by omega, ?_, ?_⟩
    · change (3 + g) * 1024 < 2 ^ 32
      omega
    · change 0 + (3 + g) * 1024 / 512 < 2 ^ 31
      omega
  · rw [MapKind.bitmap, hplace ⟨g, hg⟩, hplace ⟨g', hg'⟩] at heq
    exact Nat.add_left_cancel heq
  · rw [fullGroup_mapBit hg hi, decide_eq_true (.inr (.inr hle))]
  · rw [fullGroup_clearIn hg, MapKind.count, hcount ⟨g, hg⟩]
    exact (show ∀ g : Fin 2, 7 * g.val = (if g.val = 0 then ∅ else Finset.Ico 1 8).card by decide)
      ⟨g, hg⟩
  · decide
  · decide +kernel

/-- The allocator hands out an inode that is in use, and a deletion leaves the bit of its inode. -/
theorem inode_maps_fullGroup_allocate :
    fullGroup.InodeMaps ∧ fullGroup.mapBit .inodes 0 1 = true ∧
      fullGroup.allocateInode.2 = fullGroup.inodeNumber 0 1 ∧
      ¬ InodeOp.allocate.Right fullGroup ∧
      ((fullGroup.deleteInode 0 (fullGroup.inodeNumber 0 1)).map fun r =>
        (r.1.mapBit .inodes 0 1, r.2)) = some (true, 0) := by
  refine ⟨fullGroup_inodeMaps, by decide +kernel, by decide +kernel, fun hright => ?_,
    by decide +kernel⟩
  rcases fullGroup_inodeMaps.allocate_right_iff.1 hright with hfirst | hnone
  · exact absurd hfirst (by decide +kernel)
  · exact absurd (hnone 1 (by decide)) (by decide +kernel)

/-- The first inode of the second group is deleted, with the next seven free. -/
theorem inode_maps_fullGroup :
    fullGroup.InodeMaps ∧ ∃ w, ReflTransGen InodeStep fullGroup w ∧ w.InodeMaps ∧
      (InodeOp.allocate.Right w ↔ InodeOp.allocate.Meets w) := by
  have hvalid : (InodeOp.delete 0 1 0).Valid fullGroup :=
    ⟨by decide, by decide, fullGroup_mapBit (by decide) (by decide)⟩
  have hmeets : (InodeOp.delete 0 1 0).Meets fullGroup :=
    ⟨rfl, fun j hj hj8 => by
      rw [fullGroup_mapBit (by decide) (by omega), decide_eq_false (by omega)]⟩
  obtain ⟨w, heq, -, -⟩ := fullGroup_inodeMaps.delete_of_meets hvalid hmeets
  have hrun : ReflTransGen InodeStep fullGroup w := .single ⟨_, hvalid, hmeets, 0, heq⟩
  obtain ⟨hw, hops⟩ := inode_maps_run fullGroup_inodeMaps hrun
  exact ⟨fullGroup_inodeMaps, w, hrun, hw, hops .allocate trivial⟩

end Volume

end Bloodmoon
