import Bloodmoon.Ext2.AllocateBlock

/-!
# The search for a free block on any volume

What `ext2_allocate_block` and `ext2_deallocate_block` do when nothing is known about the partition
or the disk. The search passes over the groups that count no free block and over those whose bitmap
shows none, and stops at the first group whose bitmap has a clear bit (`Volume.Finds`). The bitmap
is the one in the buffer of the code, which holds what the heap held before if the block could not
be read: the code of that failure is not zero, and the code of a block that could not be written is
not below zero, so neither is noticed (`bitmapFailure_iff`).

The number that is returned for bit `i` of group `g` is that of the block if the first block is
block 1, and off by one otherwise (`allocatedBit_iff`).
-/

namespace Bloodmoon

open Machine BitArray List

namespace Volume

variable {v w : Volume} {g i n block : ℕ}

/-! ### Disks that fail -/

/-- A transfer of a bitmap. -/
inductive BitmapOp where
  | read (block : ℕ)
  | write (block : ℕ)
  deriving DecidableEq

/-- The transfer fails: the code is not 1. -/
def Fails (v : Volume) : BitmapOp → Prop
  | .read block => (v.readBlock block v.fresh 0).2 ≠ 1
  | .write block => (v.writeBlock block v.fresh 0).2 ≠ 1

/-- The transfers of the loop of `ext2_allocate_block` over the groups from `i` on. -/
def allocateOpsFrom (v : Volume) : ℕ → ℕ → List BitmapOp
  | 0, _ => []
  | n + 1, i =>
    if v.gdGet i .freeBlocksCount = 0 then v.allocateOpsFrom n (i + 1)
    else .read (v.gdGet i .blockBitmap) ::
      if (v.readBlock (v.gdGet i .blockBitmap) v.fresh 0).2 = 0 then []
      else
        match v.clearBit i with
        | none => v.allocateOpsFrom n (i + 1)
        | some _ => [.write (v.gdGet i .blockBitmap)]

/-- The transfers of `ext2_allocate_block`. -/
def allocateOps (v : Volume) : List BitmapOp := v.allocateOpsFrom v.groupNumber 0

/-- The group of a block, as `ext2_deallocate_block` computes it. -/
def groupOf (v : Volume) (block : ℕ) : ℕ := wsub32 block 1 / v.sbGet .blocksPerGroup

/-- The bit of a block is set in the bitmap that `ext2_deallocate_block` looks at. -/
def ShowsSet (v : Volume) (block : ℕ) : Prop :=
  v.bitmapWord (v.groupOf block) (wsub32 block 1 % v.sbGet .blocksPerGroup / 32) &&&
    (1 <<< (wsub32 block 1 % v.sbGet .blocksPerGroup % 32)) ≠ 0

instance (v : Volume) (block : ℕ) : Decidable (v.ShowsSet block) :=
  inferInstanceAs (Decidable (_ ≠ _))

/-- The transfers of `ext2_deallocate_block`. -/
def deallocateOps (v : Volume) (block : ℕ) : List BitmapOp :=
  let bitmap := v.gdGet (v.groupOf block) .blockBitmap
  .read bitmap :: if (v.readBlock bitmap v.fresh 0).2 = 0 then []
    else if v.ShowsSet block then [.write bitmap] else []

/-- If one of the transfers fails, the call returns 0 and leaves the counters. -/
def SafeFailure (v : Volume) (ops : List BitmapOp) (r : Volume × ℕ) : Prop :=
  (∃ op ∈ ops, v.Fails op) → r.2 = 0 ∧
    (∀ g, r.1.gdGet g .freeBlocksCount = v.gdGet g .freeBlocksCount) ∧
    r.1.sbGet .freeBlocksCount = v.sbGet .freeBlocksCount

/-- If the search stops at a group with a clear bit, all bitmaps up to there can be read and that
one can be written. -/
def AllocateSafe (v : Volume) : Prop :=
  ∀ g < v.groupNumber, v.StopsAt 0 g →
    (∀ g' ≤ g, v.gdGet g' .freeBlocksCount ≠ 0 → ¬ v.Fails (.read (v.gdGet g' .blockBitmap))) ∧
      ¬ v.Fails (.write (v.gdGet g .blockBitmap))

/-- If the bit of the block is set in the bitmap of its group, or in the buffer when that cannot be
read, the bitmap can be read and written. -/
def DeallocateSafe (v : Volume) (block : ℕ) : Prop :=
  v.gdGet (v.groupOf block) .blockBitmap ≠ 0 → v.ShowsSet block →
    ¬ v.Fails (.read (v.gdGet (v.groupOf block) .blockBitmap)) ∧
      ¬ v.Fails (.write (v.gdGet (v.groupOf block) .blockBitmap))

theorem mem_allocateOpsFrom (hg : i ≤ g) (hlt : g < i + n) (h : v.StopsAt i g) {op : BitmapOp} :
    op ∈ v.allocateOpsFrom n i ↔
      (∃ g', i ≤ g' ∧ g' ≤ g ∧ v.gdGet g' .freeBlocksCount ≠ 0 ∧
        op = .read (v.gdGet g' .blockBitmap)) ∨ op = .write (v.gdGet g .blockBitmap) := by
  induction n generalizing i with
  | zero => omega
  | succ n ih =>
    rcases Nat.eq_or_lt_of_le hg with rfl | hlt'
    · -- the group at which the search stops
      obtain ⟨bit, hbit⟩ := Option.ne_none_iff_exists'.mp h.1.2.2
      rw [allocateOpsFrom, if_neg h.1.1, if_neg ((readBlock_code_eq_zero _ _ _).not.mpr h.1.2.1),
        hbit, mem_cons, mem_singleton]
      refine or_congr_left ⟨fun heq => ⟨i, Nat.le_refl i, Nat.le_refl i, h.1.1, heq⟩, ?_⟩
      rintro ⟨g', hge, hle, -, heq⟩
      rwa [Nat.le_antisymm hle hge] at heq
    · have hrest := ih (i := i + 1) hlt' (by omega) ⟨h.1, fun g' hg' => h.2 g' (by omega)⟩
      have hsplit : (∃ g', i ≤ g' ∧ g' ≤ g ∧ v.gdGet g' .freeBlocksCount ≠ 0 ∧
          op = .read (v.gdGet g' .blockBitmap)) ↔
          (v.gdGet i .freeBlocksCount ≠ 0 ∧ op = .read (v.gdGet i .blockBitmap)) ∨
            ∃ g', i + 1 ≤ g' ∧ g' ≤ g ∧ v.gdGet g' .freeBlocksCount ≠ 0 ∧
              op = .read (v.gdGet g' .blockBitmap) := by
        constructor
        · rintro ⟨g', hge, hle, hcount, heq⟩
          rcases Nat.eq_or_lt_of_le hge with rfl | hge'
          · exact .inl ⟨hcount, heq⟩
          · exact .inr ⟨g', hge', hle, hcount, heq⟩
        · rintro (⟨hcount, heq⟩ | ⟨g', hge, hle, hcount, heq⟩)
          · exact ⟨i, Nat.le_refl i, by omega, hcount, heq⟩
          · exact ⟨g', by omega, hle, hcount, heq⟩
      rw [hsplit, or_assoc, ← hrest, allocateOpsFrom]
      by_cases hcount : v.gdGet i .freeBlocksCount = 0
      · rw [if_pos hcount]
        exact ⟨.inr, fun hor => hor.resolve_left fun hfirst => hfirst.1 hcount⟩
      · obtain ⟨hblock, hnone⟩ := (h.2 i (Nat.le_refl i) hlt').resolve_left hcount
        rw [if_neg hcount, if_neg ((readBlock_code_eq_zero _ _ _).not.mpr hblock), hnone, mem_cons]
        exact or_congr_left ⟨fun heq => ⟨hcount, heq⟩, fun hfirst => hfirst.2⟩

theorem gd_writeBlock (v : Volume) (block : ℕ) (buffer : Bytes) (a : ℕ) :
    (v.writeBlock block buffer a).1.gd = v.gd := by
  rw [writeBlock]
  split_ifs
  · cases v.disk.write (v.blockSector block) v.blockSectors buffer a <;> rfl
  · rfl

theorem gd_takeFound (v : Volume) (g : ℕ) (bit : ℕ × ℕ) :
    (v.takeFound g bit).1.gd = (v.withCounts .blocks g (wsub16 (v.gdGet g .freeBlocksCount) 1)
      (wsub32 (v.sbGet .freeBlocksCount) 1)).gd := by
  simp only [takeFound, requireFlush, gd_writeBlock]

/-- A counter that is written with another value has changed. -/
theorem gdGet_withCounts_ne {count : ℕ} (total : ℕ)
    (hne : count % 2 ^ 16 ≠ v.gdGet g .freeBlocksCount) (u : Volume)
    (hu : u.gd = (v.withCounts .blocks g count total).gd) :
    u.gdGet g .freeBlocksCount ≠ v.gdGet g .freeBlocksCount := by
  have hget : u.gdGet g .freeBlocksCount = count % 2 ^ 16 := by
    rw [gdGet, hu]
    exact loadLE_storeLE _ _ 2 _
  rwa [hget]

theorem safeFailure_allocate_iff :
    SafeFailure v v.allocateOps v.allocateBlock ↔ v.AllocateSafe := by
  rcases v.allocateBlockFrom_any v.groupNumber 0 with
    ⟨g, bit, -, hlt, hstops, -, heq⟩ | ⟨heq, hall⟩
  · rw [Nat.zero_add] at hlt
    have hmem := fun op : BitmapOp => @mem_allocateOpsFrom _ _ _ _ (Nat.zero_le g)
      (by rwa [Nat.zero_add]) hstops op
    constructor
    · -- a clear bit is found, and the counter of its group changes
      intro hsafe g' hg' hstops'
      obtain rfl := hstops.unique hstops' (Nat.zero_le g) (Nat.zero_le g')
      have hnot : ¬ ∃ op ∈ v.allocateOps, v.Fails op := by
        intro hfails
        have hsame := (hsafe hfails).2.1 g
        rw [allocateBlock, heq] at hsame
        refine gdGet_withCounts_ne _ ?_ _ (v.gd_takeFound g bit) hsame
        have hlt16 : v.gdGet g .freeBlocksCount < 2 ^ 16 := loadLE_lt _ _ 2
        have hpos := hstops.1.1
        rw [wsub16_of_le (by omega) hlt16]
        omega
      exact ⟨fun g' hle hcount hfails => hnot
        ⟨_, (hmem _).mpr (.inl ⟨g', Nat.zero_le g', hle, hcount,
        rfl⟩), hfails⟩, fun hfails => hnot ⟨_, (hmem _).mpr (.inr rfl), hfails⟩⟩
    · rintro hsafe ⟨op, hop, hfails⟩
      obtain ⟨hread, hwrite⟩ := hsafe g hlt hstops
      rcases (hmem op).mp hop with ⟨g', -, hle, hcount, rfl⟩ | rfl
      · exact absurd hfails (hread g' hle hcount)
      · exact absurd hfails hwrite
  · refine iff_of_true (fun _ => ?_) fun g hg hstops => ?_
    · rw [allocateBlock, heq]
      exact ⟨rfl, fun _ => rfl, rfl⟩
    · exact absurd hstops (hall g (Nat.zero_le g) (by omega))

theorem safeFailure_deallocate_iff :
    SafeFailure v (v.deallocateOps block) (v.deallocateBlock block) ↔ v.DeallocateSafe block := by
  by_cases hblock : v.gdGet (v.groupOf block) .blockBitmap = 0
  · refine iff_of_true (fun _ => ?_) fun hne => absurd hblock hne
    have hzero : v.deallocateBlock block = (v, 0) :=
      if_pos ((readBlock_code_eq_zero _ _ _).mpr hblock)
    rw [hzero]
    exact ⟨rfl, fun _ => rfl, rfl⟩
  have hcode := (readBlock_code_eq_zero (v := v) _ v.fresh 0).not.mpr hblock
  by_cases hset : v.ShowsSet block
  · -- the counters change, whatever the disk does
    have hops : v.deallocateOps block = [.read (v.gdGet (v.groupOf block) .blockBitmap),
        .write (v.gdGet (v.groupOf block) .blockBitmap)] := by
      rw [deallocateOps, if_neg hcode, if_pos hset]
    have hgd : (v.deallocateBlock block).1.gd = (v.withCounts .blocks (v.groupOf block)
        (v.gdGet (v.groupOf block) .freeBlocksCount + 1)
        (wrap32 (v.sbGet .freeBlocksCount + 1))).gd := by
      have hrun : v.deallocateBlock block = _ := (if_neg hcode).trans ((if_pos hset).trans
        (if_neg ((writeBlock_code_le_zero _ _ _).not.mpr hblock)))
      rw [hrun]
      simp only [requireFlush, gd_writeBlock]
      rfl
    have hne := gdGet_withCounts_ne (v := v) (g := v.groupOf block) _ (by
      omega) _ hgd
    rw [hops]
    constructor
    · intro hsafe _ _
      have hnot := fun hfails => hne ((hsafe hfails).2.1 _)
      exact ⟨fun hfails => hnot ⟨_, mem_cons_self, hfails⟩,
        fun hfails => hnot ⟨_, mem_cons_of_mem _ mem_cons_self, hfails⟩⟩
    · rintro hsafe ⟨op, hop, hfails⟩
      obtain ⟨hread, hwrite⟩ := hsafe hblock hset
      rcases mem_cons.mp hop with rfl | hop
      · exact absurd hfails hread
      · rw [mem_singleton.mp hop] at hfails
        exact absurd hfails hwrite
  · refine iff_of_true (fun _ => ?_) fun _ hshows => absurd hshows hset
    have hzero : v.deallocateBlock block = (v, 0) := (if_neg hcode).trans (if_neg hset)
    rw [hzero]
    exact ⟨rfl, fun _ => rfl, rfl⟩

/-- **When a failing disk is noticed.** If a transfer of a bitmap fails, the call returns 0 and
leaves the counters exactly under the conditions: nothing that fails is followed by a bit that is
found, and nothing that has been read is followed by a bitmap that cannot be written. -/
theorem bitmapFailure_iff (v : Volume) :
    (SafeFailure v v.allocateOps v.allocateBlock ↔ v.AllocateSafe) ∧
      ∀ block, (SafeFailure v (v.deallocateOps block) (v.deallocateBlock block) ↔
        v.DeallocateSafe block) :=
  ⟨safeFailure_allocate_iff, fun _ => safeFailure_deallocate_iff⟩

/-- The volume with one free block, on a disk that reads or does not, and does not write. -/
def oneFreeFailing (readable : Bool) : Volume :=
  { oneFree with
    disk := { oneFree.disk with readable := fun _ _ => readable, writable := fun _ _ => false } }

/-- The bitmap is read, but not written: the block is handed out and counted all the same. And if it
is not read either, block 1 is handed out, which is in use. -/
theorem allocateBlock_unnoticed :
    (.write 3 ∈ (oneFreeFailing true).allocateOps ∧ (oneFreeFailing true).Fails (.write 3) ∧
      (oneFreeFailing true).allocateBlock.2 = 8 ∧
      (oneFreeFailing true).sbGet .freeBlocksCount = 1 ∧
      (oneFreeFailing true).allocateBlock.1.sbGet .freeBlocksCount = 0) ∧
    .read 3 ∈ (oneFreeFailing false).allocateOps ∧ (oneFreeFailing false).Fails (.read 3) ∧
      (oneFreeFailing false).allocateBlock.2 = 1 ∧
      (oneFreeFailing false).allocateBlock.1.sbGet .freeBlocksCount = 0 := by
  refine ⟨⟨?_, ?_, by decide +kernel, by decide, by decide +kernel⟩, ?_, ?_, by decide +kernel,
    by decide +kernel⟩
  · exact mem_cons_of_mem _ mem_cons_self
  · change ((oneFreeFailing true).writeBlock 3 _ 0).2 ≠ 1
    decide +kernel
  · exact mem_cons_self
  · change ((oneFreeFailing false).readBlock 3 _ 0).2 ≠ 1
    decide +kernel

/-! ### The bit of a block -/

/-- The bit of a block in an ext2 partition: its group and its place in the bitmap. -/
def ext2Bit (v : Volume) (block : ℕ) : ℕ × ℕ :=
  ((block - v.sbGet .firstSbBlock) / v.sbGet .blocksPerGroup,
    (block - v.sbGet .firstSbBlock) % v.sbGet .blocksPerGroup)

/-- The bits of the blocks in use are set. -/
def Marks (v : Volume) (inUse : ℕ → Prop) : Prop :=
  ∀ block, inUse block →
    v.sbGet .firstSbBlock ≤ block ∧ v.mapBit .blocks (v.ext2Bit block).1 (v.ext2Bit block).2 = true

/-- A call of `ext2_allocate_block` that returns a block returns one that is not in use, whichever
blocks are in use and marked so, and the bit that it sets is the bit of that block. -/
def AllocatesItsBit (v : Volume) : Prop :=
  v.allocateBlock.2 ≠ 0 → (∀ inUse, v.Marks inUse → ¬ inUse v.allocateBlock.2) ∧
    ∃ g < v.groupNumber, ∃ i < 8 * v.blockSize, v.mapBit .blocks g i = false ∧
      OnlyBit v v.allocateBlock.1 .blocks g i true ∧
      v.sbGet .firstSbBlock ≤ v.allocateBlock.2 ∧ v.ext2Bit v.allocateBlock.2 = (g, i)

/-- If there is a clear bit in the groups that count a free block, then for the first one the first
block of the partition is block 1, the bit is one of the group, and its number has 32 bits (or the
number that is returned is zero). -/
def FindsOwnBit (v : Volume) : Prop :=
  ∀ g < v.groupNumber, v.StopsAt 0 g → ∀ j k, v.clearBit g = some (j, k) →
    wrap32 (v.blockNumber g (32 * j + k)) = 0 ∨ v.sbGet .firstSbBlock = 1 ∧
      32 * j + k < v.sbGet .blocksPerGroup ∧ v.blockNumber g (32 * j + k) < 2 ^ 32

/-- The number that is returned for a bit is that of its block. -/
theorem ext2Bit_wrap32_iff (hper : 0 < v.sbGet .blocksPerGroup) {i : ℕ} :
    v.sbGet .firstSbBlock ≤ wrap32 (v.blockNumber g i) ∧
        v.ext2Bit (wrap32 (v.blockNumber g i)) = (g, i) ↔
      v.sbGet .firstSbBlock = 1 ∧ i < v.sbGet .blocksPerGroup ∧ v.blockNumber g i < 2 ^ 32 := by
  have hlt : wrap32 (v.blockNumber g i) < 2 ^ 32 := Nat.mod_lt _ (by decide)
  rw [ext2Bit, Prod.mk.injEq]
  constructor
  · rintro ⟨hle, hdiv, hmod⟩
    have hsplit := Nat.div_add_mod' (wrap32 (v.blockNumber g i) - v.sbGet .firstSbBlock)
      (v.sbGet .blocksPerGroup)
    have hi := Nat.mod_lt (wrap32 (v.blockNumber g i) - v.sbGet .firstSbBlock) hper
    rw [hdiv, hmod] at hsplit
    rw [hmod] at hi
    have hnumber : v.blockNumber g i = g * v.sbGet .blocksPerGroup + i + 1 := rfl
    unfold wrap32 at hsplit hlt hle
    exact ⟨by omega, hi, by omega⟩
  · rintro ⟨hone, hi, hsmall⟩
    rw [hone, wrap32_of_lt hsmall, blockNumber]
    exact ⟨by omega, mul_add_div_of_lt hi g, Nat.mul_add_mod_of_lt hi⟩

/-- **When the bit is that of the block.** A block that is handed out is not in use, and the bit
that is set is its own, exactly under the condition. -/
theorem allocatedBit_iff (h : v.Sound)
    (hin : ∀ g < v.groupNumber, v.InRange (v.gdGet g .blockBitmap)) (hmaps : v.MapsApart .blocks)
    (hper : 0 < v.sbGet .blocksPerGroup) : v.AllocatesItsBit ↔ v.FindsOwnBit := by
  rcases v.allocateBlockFrom_any v.groupNumber 0 with
    ⟨g, ⟨j, k⟩, -, hlt, hstops, hbit, heq⟩ | ⟨heq, hall⟩
  · rw [Nat.zero_add] at hlt
    obtain ⟨hi, hclear, hfound⟩ := h.takeFound_eq (hin g hlt) hbit
    rw [hfound] at heq
    have honly := hmaps.onlyBit_withBit hlt hi true (wsub16 (v.gdGet g .freeBlocksCount) 1)
      (wsub32 (v.sbGet .freeBlocksCount) 1)
    have hiff := ext2Bit_wrap32_iff (v := v) (g := g) hper (i := 32 * j + k)
    rw [AllocatesItsBit, allocateBlock, heq]
    constructor
    · intro hits g' hg' hstops' j' k' hbit'
      obtain rfl := hstops.unique hstops' (Nat.zero_le g) (Nat.zero_le g')
      rw [hbit, Option.some.injEq] at hbit'
      obtain ⟨rfl, rfl⟩ := hbit'
      refine or_iff_not_imp_left.mpr fun hne => hiff.mp ?_
      obtain ⟨-, g₂, hg₂, i₂, hi₂, hclear₂, honly₂, hle, hext⟩ := hits hne
      -- the bit that has been set is the one that was found
      have hset := honly₂ g₂ hg₂ i₂ hi₂
      rw [if_pos ⟨rfl, rfl⟩, honly g₂ hg₂ i₂ hi₂] at hset
      split_ifs at hset with hsame
      · rw [hsame.1, hsame.2] at hext
        exact ⟨hle, hext⟩
      · rw [hclear₂] at hset
        exact Bool.noConfusion hset
    · intro hown hne
      obtain ⟨hle, hext⟩ := hiff.mpr ((hown g hlt hstops j k hbit).resolve_left hne)
      refine ⟨fun inUse hmarks huse => ?_, g, hlt, _, hi, hclear, honly, hle, hext⟩
      have hset := (hmarks _ huse).2
      rw [hext, hclear] at hset
      exact Bool.noConfusion hset
  · refine iff_of_true (fun hne => ?_) fun g hg hstops => ?_
    · rw [allocateBlock, heq] at hne
      exact absurd rfl hne
    · exact absurd hstops (hall g (Nat.zero_le g) (by omega))

/-- The only free block of `oneFree` has its own bit. -/
theorem allocatedBit_oneFree : oneFree.AllocatesItsBit ∧ oneFree.allocateBlock.2 = 8 := by
  have hmaps := oneFree_blockMaps
  refine ⟨(allocatedBit_iff hmaps.sound hmaps.inRange hmaps.inj (by decide)).mpr ?_,
    by decide +kernel⟩
  intro g hg _ j k hbit
  obtain rfl := Nat.lt_one_iff.mp hg
  obtain ⟨rfl, rfl⟩ := hbit
  exact .inr ⟨by decide, by decide, by decide⟩

/-- A volume with blocks of 2048 bytes, whose first block is block 0. The bitmap is block 3, and bit
7 is the only one that is clear. -/
def zeroFirst : Volume :=
  { oneFree with
    sb := fun x => if x = 12 then 1 else if x = 24 then 1 else if x = 32 then 16 else 0
    disk := { oneFree.disk with bytes := fun x => if x = 6144 then 0x7F else 0xFF } }

/-- There the call sets bit 7 and returns block 8, whose bit was set. -/
theorem allocatedBit_zeroFirst :
    zeroFirst.blockSize = 2048 ∧ zeroFirst.sbGet .firstSbBlock = 0 ∧
      zeroFirst.mapBit .blocks 0 7 = false ∧ zeroFirst.allocateBlock.2 = 8 ∧
      zeroFirst.allocateBlock.1.mapBit .blocks 0 7 = true ∧ zeroFirst.ext2Bit 8 = (0, 8) ∧
      zeroFirst.mapBit .blocks 0 8 = true := by
  decide +kernel

end Volume

end Bloodmoon
