import Bloodmoon.Ext2.AllocateInode

/-!
# The inode tables

An inode is found by its group, its index in the group, the block of the group's table and the
offset in that block, each computed in 32 bits. When an inode does not cross a block,
`ext2_write_inode`, which reads and writes a whole block, replaces just the bytes of the inode
(`Volume.Sound.writeInode_eq`). When moreover the tables are apart and below 4 GiB
(`Volume.InodeTables`), different inodes are apart on the disk, wherever the partition starts
(`Volume.InodeTables.inodeAddr_apart`).
-/

namespace Bloodmoon

open Machine

namespace Volume

variable {v : Volume} {n m : ℕ}
variable {w : Volume}

/-! ### Inodes on the disk -/

/-- The address of an inode on the disk. -/
def inodeAddr (v : Volume) (n : ℕ) : ℕ := v.inodeSector n * 512 + v.inodeOffset n

/-- The inode is in one block. -/
def InOneBlock (v : Volume) (n : ℕ) : Prop := v.inodeOffset n + v.inodeSize ≤ v.blockSize

namespace Sound

theorem readInode_eq (hv : v.Sound) (hn : v.InOneBlock n) :
    v.readInode n = some (blit v.fresh 0 v.disk.bytes (v.inodeAddr n) v.inodeSize) := by
  rw [readInode, hv.reliable.read_eq, Option.bind_eq_bind, Option.bind_some, hv.blockSectors_mul,
    hv.diskSectorSize, blit_blit _ _ _ _ _ hn, inodeAddr]

theorem writeInode_eq (hv : v.Sound) (hn : v.InOneBlock n) (inode : Bytes) :
    v.writeInode n inode =
      some (v.withBytes (blit v.disk.bytes (v.inodeAddr n) inode 0 v.inodeSize)) := by
  rw [writeInode, hv.reliable.read_eq, Option.bind_eq_bind, Option.bind_some, hv.reliable.write_eq]
  refine congrArg (fun d => some (v.withBytes d)) (funext fun x => ?_)
  have hfits : v.inodeOffset n + v.inodeSize ≤ v.blockSize := hn
  rw [hv.blockSectors_mul, hv.diskSectorSize, inodeAddr]
  -- the rest of the block is written as it has been read
  by_cases hx : v.inodeSector n * 512 ≤ x ∧ x < v.inodeSector n * 512 + v.blockSize
  · rw [blit_apply_of_mem hx.1 hx.2]
    by_cases hin : v.inodeSector n * 512 + v.inodeOffset n ≤ x ∧
        x < v.inodeSector n * 512 + v.inodeOffset n + v.inodeSize
    · rw [blit_apply_of_mem hin.1 hin.2, blit_apply_of_mem (by omega) (by omega)]
      exact congrArg inode (by omega)
    · rw [blit_apply_of_outside (by omega), blit_apply_of_mem (by omega) (by omega),
        blit_apply_of_outside (by omega)]
      exact congrArg v.disk.bytes (by omega)
  · rw [blit_apply_of_outside (by omega), blit_apply_of_outside (by omega)]

end Sound

theorem SameLayout.inodeSize (h : SameLayout v w) : w.inodeSize = v.inodeSize := by
  have hsb : ∀ f, f = .revLevel ∨ f = .inodeSize → w.sbGet f = v.sbGet f := by
    rintro f (rfl | rfl) <;> exact h.sbGet _ fun k => by cases k <;> decide
  rw [Volume.inodeSize, Volume.inodeSize, hsb _ (.inl rfl), hsb _ (.inr rfl)]

theorem SameLayout.inodeOffset (h : SameLayout v w) (n : ℕ) :
    w.inodeOffset n = v.inodeOffset n := by
  rw [Volume.inodeOffset, Volume.inodeOffset, inodeIndex, inodeIndex, h.inodesPerGroup, h.inodeSize,
    h.blockSize]

theorem SameLayout.inodeAddr (h : SameLayout v w) (n : ℕ) : w.inodeAddr n = v.inodeAddr n := by
  rw [Volume.inodeAddr, Volume.inodeAddr, h.inodeSector, h.inodeOffset]

theorem SameLayout.inOneBlock_iff (h : SameLayout v w) : w.InOneBlock n ↔ v.InOneBlock n := by
  rw [InOneBlock, InOneBlock, h.inodeOffset, h.inodeSize, h.blockSize]

/-! ### Tables that are apart -/

/-- The offset of the inode table of a group in the partition. -/
def tableOffset (v : Volume) (g : ℕ) : ℕ := v.gdGet g .inodeTable * v.blockSize

/-- The size of the inode table of a group. -/
def tableSize (v : Volume) : ℕ := v.sbGet .inodesPerGroup * v.inodeSize

/-- The inode size divides the block size, and the inode tables of the groups are disjoint and lie
below 4 GiB. -/
structure InodeTables (v : Volume) : Prop where
  divides : v.inodeSize ∣ v.blockSize
  inodesPerGroup : 0 < v.sbGet .inodesPerGroup
  apart : ∀ g < v.groupNumber, ∀ g' < v.groupNumber, g ≠ g' →
    v.tableOffset g + v.tableSize ≤ v.tableOffset g' ∨ v.tableOffset g' + v.tableSize ≤
      v.tableOffset g
  below : ∀ g < v.groupNumber, v.tableOffset g + v.tableSize ≤ 2 ^ 32

/-- The partition has an inode with this number. -/
structure IsInode (v : Volume) (n : ℕ) : Prop where
  pos : 0 < n
  lt : n < 2 ^ 32
  group : (n - 1) / v.sbGet .inodesPerGroup < v.groupNumber

/-- The offset of an inode in the partition. -/
def inodeStart (v : Volume) (n : ℕ) : ℕ :=
  v.tableOffset ((n - 1) / v.sbGet .inodesPerGroup) +
    (n - 1) % v.sbGet .inodesPerGroup * v.inodeSize

theorem IsInode.inodeGroup_eq (h : v.IsInode n) :
    v.inodeGroup n = (n - 1) / v.sbGet .inodesPerGroup := by
  rw [inodeGroup, wsub32_of_le h.pos h.lt]

theorem IsInode.inodeIndex_eq (h : v.IsInode n) :
    v.inodeIndex n = (n - 1) % v.sbGet .inodesPerGroup := by
  rw [inodeIndex, wsub32_of_le h.pos h.lt]

/-- Sectors of blocks below 4 GiB are as far apart as the blocks, also if the number of the sector
is reduced to 32 bits. -/
theorem wrap32_sector_apart (lba : ℕ) {x y k : ℕ} (hx : x < 2 ^ 23) (hy : y < 2 ^ 23)
    (hk : k ≤ 2 ^ 23) (h : x + k ≤ y) : wrap32 (lba + x) + k ≤ wrap32 (lba + y) ∨
      wrap32 (lba + y) + k ≤ wrap32 (lba + x) := by
  simp only [wrap32]
  omega

namespace InodeTables

variable (h : v.InodeTables) (hv : v.Sound)

include h

/-- An inode lies in the table of its group. -/
theorem inodeStart_le (n : ℕ) :
    (n - 1) % v.sbGet .inodesPerGroup * v.inodeSize + v.inodeSize ≤ v.tableSize := by
  rw [← Nat.succ_mul]
  exact Nat.mul_le_mul_right _ (Nat.mod_lt _ h.inodesPerGroup)

/-- Different inodes are apart in the partition. -/
theorem inodeStart_apart (hn : v.IsInode n) (hm : v.IsInode m) (hne : m ≠ n) :
    v.inodeStart n + v.inodeSize ≤ v.inodeStart m ∨
      v.inodeStart m + v.inodeSize ≤ v.inodeStart n := by
  have hn' := h.inodeStart_le n
  have hm' := h.inodeStart_le m
  rw [inodeStart, inodeStart]
  by_cases hgroup : (n - 1) / v.sbGet .inodesPerGroup = (m - 1) / v.sbGet .inodesPerGroup
  · -- in one group the indices differ
    have hindex : (n - 1) % v.sbGet .inodesPerGroup ≠ (m - 1) % v.sbGet .inodesPerGroup := by
      intro heq
      have hdn := Nat.div_add_mod (n - 1) (v.sbGet .inodesPerGroup)
      have hdm := Nat.div_add_mod (m - 1) (v.sbGet .inodesPerGroup)
      rw [hgroup, heq] at hdn
      have := hn.pos
      have := hm.pos
      omega
    rw [hgroup]
    rcases Nat.lt_or_gt_of_ne hindex with hlt | hlt
    · have := region_le v.inodeSize hlt
      omega
    · have := region_le v.inodeSize hlt
      omega
  · have := h.apart _ hn.group _ hm.group hgroup
    omega

include hv

theorem inodeSize_pos : 0 < v.inodeSize := Nat.pos_of_dvd_of_pos h.divides hv.blockSize_pos

/-- The address of an inode, by its block and the offset in the block. -/
theorem inodeSector_eq (hn : v.IsInode n) :
    v.inodeSector n = wrap32 (v.lba + v.inodeStart n / v.blockSize * (v.blockSize / 512)) ∧
      v.inodeOffset n = v.inodeStart n % v.blockSize := by
  obtain ⟨k, hk, hsize⟩ := hv.exists_blockSize
  have hpos := h.inodeSize_pos hv
  have hle := h.inodeStart_le n
  have hbelow := h.below _ hn.group
  rw [inodeSector, inodeOffset, hn.inodeGroup_eq, hn.inodeIndex_eq, inodeStart, tableOffset,
    blockSectors, hv.sectorSize, divideRoundedUp, if_neg (by omega)]
  rw [tableOffset] at hbelow
  rw [wrap32_of_lt (n := v.gdGet _ _ * _) (by omega),
    wrap32_of_lt (n := _ % _ * v.inodeSize) (by omega)]
  refine ⟨congrArg wrap32 ?_, ?_⟩
  · have hdiv : v.gdGet ((n - 1) / v.sbGet .inodesPerGroup) .inodeTable * v.blockSize / 512 =
        v.gdGet ((n - 1) / v.sbGet .inodesPerGroup) .inodeTable * (v.blockSize / 512) :=
      Nat.mul_div_assoc _ ⟨2 * k, by omega⟩
    rw [Nat.add_comm (_ * v.blockSize), Nat.add_mul_div_right _ _ (by omega), Nat.add_mul]
    omega
  · rw [Nat.add_comm, Nat.add_mul_mod_self_right]

theorem inOneBlock (hn : v.IsInode n) : v.InOneBlock n := by
  have hsize := hv.blockSize_pos
  obtain ⟨c, hc⟩ := h.divides
  rw [InOneBlock, (h.inodeSector_eq hv hn).2, inodeStart, tableOffset,
    Nat.mul_add_mod_self_right, hc, Nat.mul_comm _ v.inodeSize, Nat.mul_mod_mul_left]
  refine Nat.mul_le_mul_left _ (Nat.mod_lt _ ?_)
  exact Nat.pos_of_ne_zero fun hzero => by
    rw [hzero] at hc
    omega

/-- The inode is below 4 GiB. -/
theorem inodeStart_lt (hn : v.IsInode n) : v.inodeStart n < 2 ^ 32 := by
  have hle := h.inodeStart_le n
  have hpos := h.inodeSize_pos hv
  have hbelow := h.below _ hn.group
  rw [inodeStart]
  omega

/-- **Different inodes are apart on the disk.** -/
theorem inodeAddr_apart (hn : v.IsInode n) (hm : v.IsInode m) (hne : m ≠ n) :
    v.inodeAddr n + v.inodeSize ≤ v.inodeAddr m ∨ v.inodeAddr m + v.inodeSize ≤ v.inodeAddr n := by
  obtain ⟨k, hk, hsize⟩ := hv.exists_blockSize
  have hone : v.inodeOffset n + v.inodeSize ≤ v.blockSize := h.inOneBlock hv hn
  have hone' : v.inodeOffset m + v.inodeSize ≤ v.blockSize := h.inOneBlock hv hm
  have hstart := h.inodeStart_apart hn hm hne
  have hlt := h.inodeStart_lt hv hn
  have hlt' := h.inodeStart_lt hv hm
  obtain ⟨hsector, hoffset⟩ := h.inodeSector_eq hv hn
  obtain ⟨hsector', hoffset'⟩ := h.inodeSector_eq hv hm
  have hsplit := Nat.div_add_mod' (v.inodeStart n) v.blockSize
  have hsplit' := Nat.div_add_mod' (v.inodeStart m) v.blockSize
  rw [inodeAddr, inodeAddr]
  -- the blocks of the two inodes, in sectors
  have hblocks : ∀ {a b : ℕ}, a * v.blockSize < 2 ^ 32 → b * v.blockSize < 2 ^ 32 → a < b →
      (wrap32 (v.lba + a * (v.blockSize / 512)) + v.blockSize / 512 ≤
        wrap32 (v.lba + b * (v.blockSize / 512)) ∨
      wrap32 (v.lba + b * (v.blockSize / 512)) + v.blockSize / 512 ≤
        wrap32 (v.lba + a * (v.blockSize / 512))) := by
    intro a b ha hb hab
    have hmul := region_le (v.blockSize / 512) hab
    have hsectors : ∀ c, c * (v.blockSize / 512) * 512 = c * v.blockSize := fun c => by
      rw [Nat.mul_assoc, Nat.div_mul_cancel ⟨2 * k, by omega⟩]
    have := hsectors b
    exact wrap32_sector_apart _ (by omega) (by omega) (by omega) hmul
  rcases Nat.lt_trichotomy (v.inodeStart n / v.blockSize) (v.inodeStart m / v.blockSize) with
    hlt | heq | hlt
  · have := hblocks (by omega) (by omega) hlt
    omega
  · rw [hsector, heq]
    rw [heq] at hsplit
    omega
  · have := hblocks (by omega) (by omega) hlt
    omega

end InodeTables

section

variable (h : v.InodeTables) (hv : v.Sound) (hn : v.IsInode n)

include h hv hn

/-- An inode of a volume with the same layout. -/
theorem InodeTables.readInode_withBytes (d : Bytes) :
    (v.withBytes d).readInode n = some (blit v.fresh 0 d (v.inodeAddr n) v.inodeSize) := by
  have hlayout := SameLayout.withBytes v d
  rw [(hv.withBytes d).readInode_eq (hlayout.inOneBlock_iff.mpr (h.inOneBlock hv hn))]
  rfl

/-- An inode that has been written is read as it was written. -/
theorem InodeTables.readInode_written (inode : Bytes) :
    ∃ inode', (v.withBytes (blit v.disk.bytes (v.inodeAddr n) inode 0 v.inodeSize)).readInode n =
        some inode' ∧ ∀ x < v.inodeSize, inode' x = inode x := by
  refine ⟨_, h.readInode_withBytes hv hn _, fun x hx => ?_⟩
  rw [blit_apply_of_mem (Nat.zero_le x) (by omega), blit_apply_of_mem (by omega) (by omega)]
  exact congrArg inode (by omega)

/-- The other inodes are read as before. -/
theorem InodeTables.readInode_other (inode : Bytes) {m : ℕ} (hm : v.IsInode m) (hne : m ≠ n) :
    (v.withBytes (blit v.disk.bytes (v.inodeAddr n) inode 0 v.inodeSize)).readInode m =
      v.readInode m := by
  have happart := h.inodeAddr_apart hv hn hm hne
  have hsame : SameOn v.disk.bytes (blit v.disk.bytes (v.inodeAddr n) inode 0 v.inodeSize)
      (v.inodeAddr m) v.inodeSize := sameOn_blit (by omega)
  rw [h.readInode_withBytes hv hm, hv.readInode_eq (h.inOneBlock hv hm), blit_congr _ _ hsame]

end

/-- **Writing an inode**: the inode is then read as it was written, and every other inode as
before. -/
theorem readInode_writeInode (hv : v.Sound) (h : v.InodeTables) (hn : v.IsInode n) (inode : Bytes) :
    ∃ w, v.writeInode n inode = some w ∧
      (∃ inode', w.readInode n = some inode' ∧ ∀ x < v.inodeSize, inode' x = inode x) ∧
      ∀ m, v.IsInode m → m ≠ n → w.readInode m = v.readInode m :=
  ⟨_, hv.writeInode_eq (h.inOneBlock hv hn) inode, h.readInode_written hv hn inode,
    fun _ hm hne => h.readInode_other hv hn inode hm hne⟩

/-- The two tables of `fullGroup` are blocks 5 and 6. -/
theorem fullGroup_inodeTables : fullGroup.InodeTables where
  divides := by decide
  inodesPerGroup := by decide
  apart := by
    have htables : ∀ g < 2, ∀ g' < 2, g ≠ g' →
        fullGroup.tableOffset g + fullGroup.tableSize ≤ fullGroup.tableOffset g' ∨
        fullGroup.tableOffset g' + fullGroup.tableSize ≤ fullGroup.tableOffset g := by
      decide +kernel
    exact htables
  below := by
    have htables : ∀ g < 2, fullGroup.tableOffset g + fullGroup.tableSize ≤ 2 ^ 32 := by
      decide +kernel
    exact htables

/-- Inode 9, the first one of the second group, is written. -/
theorem fullGroup_writeInode :
    ∃ w, fullGroup.writeInode 9 (fun _ => 1) = some w ∧
      (∃ inode, w.readInode 9 = some inode ∧ ∀ x < fullGroup.inodeSize, inode x = 1) ∧
      ∀ m, fullGroup.IsInode m → m ≠ 9 → w.readInode m = fullGroup.readInode m :=
  readInode_writeInode fullGroup_inodeMaps.sound fullGroup_inodeTables
    ⟨by decide, by decide, by decide +kernel⟩ _

end Volume

end Bloodmoon
