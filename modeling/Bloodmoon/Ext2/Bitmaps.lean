import Bloodmoon.Ext2.Write
import Bloodmoon.Machine.Bitmap

/-!
# The bitmaps of the groups

Each group has a bitmap of its blocks and a bitmap of its inodes, and its descriptor counts the
clear bits of both (`Volume.Maps`). The bits of all groups are bits of the disk: bit `i` of the
bitmap of group `g` is bit `mapStart k g + i`. Turning one of them over and writing new counters is
`Volume.withBit`, and that keeps `Maps` when the new counter of the group is right.
-/

namespace Bloodmoon

open Machine BitArray

/-- The fields of a group descriptor that say where something is. -/
def GroupField.isPlace : GroupField → Bool
  | .blockBitmap | .inodeBitmap | .inodeTable => true
  | _ => false

/-- What a bitmap is about. -/
inductive MapKind where
  | blocks
  | inodes

namespace MapKind

/-- The field of a group descriptor with the block of the bitmap. -/
def bitmap : MapKind → GroupField
  | blocks => .blockBitmap
  | inodes => .inodeBitmap

/-- The field of a group descriptor that counts the clear bits. -/
def count : MapKind → GroupField
  | blocks => .freeBlocksCount
  | inodes => .freeInodesCount

/-- The field of the superblock that counts the clear bits of all groups. -/
def total : MapKind → SuperblockField
  | blocks => .freeBlocksCount
  | inodes => .freeInodesCount

/-- The field of the superblock with the number of bits that are used. -/
def perGroup : MapKind → SuperblockField
  | blocks => .blocksPerGroup
  | inodes => .inodesPerGroup

theorem isPlace_bitmap (k : MapKind) : k.bitmap.isPlace = true := by cases k <;> rfl

theorem perGroup_ne_total (k l : MapKind) : k.perGroup ≠ l.total := by
  cases k <;> cases l <;> decide

end MapKind

namespace Volume

/-- Where the bitmap of group `g` starts, as a number of bits. -/
def mapStart (v : Volume) (k : MapKind) (g : ℕ) : ℕ := 8 * v.blockAddr (v.gdGet g k.bitmap)

/-- Bit `i` of the bitmap of group `g`. -/
def mapBit (v : Volume) (k : MapKind) (g i : ℕ) : Bool := test v.disk.bytes (v.mapStart k g + i)

/-- The clear bits of the bitmap of group `g`. -/
def clearIn (v : Volume) (k : MapKind) (g : ℕ) : Finset ℕ :=
  clearBits v.disk.bytes (v.mapStart k g) (8 * v.blockSize)

theorem mem_clearIn {v : Volume} {k : MapKind} {g i : ℕ} :
    i ∈ v.clearIn k g ↔ i < 8 * v.blockSize ∧ v.mapBit k g i = false :=
  mem_clearBits

theorem notMem_clearIn {v : Volume} {k : MapKind} {g i : ℕ} (h : v.mapBit k g i = true) :
    i ∉ v.clearIn k g := fun hmem => by simp [(mem_clearIn.1 hmem).2] at h

/-- The bitmaps are in blocks of their own, the bits that stand for nothing are set, and each group
counts its clear bits. -/
structure Maps (v : Volume) (k : MapKind) : Prop where
  sound : v.Sound
  inRange : ∀ g < v.groupNumber, v.InRange (v.gdGet g k.bitmap)
  inj : ∀ g < v.groupNumber, ∀ g' < v.groupNumber, v.gdGet g k.bitmap = v.gdGet g' k.bitmap → g = g'
  high : ∀ g < v.groupNumber, ∀ i < 8 * v.blockSize, v.sbGet k.perGroup ≤ i → v.mapBit k g i = true
  count : ∀ g < v.groupNumber, v.gdGet g k.count = (v.clearIn k g).card

/-! ### Volumes with the same layout -/

/-- The two volumes differ at most in the bytes of the disk, in the counters and in whether a flush
is required. -/
structure SameLayout (v w : Volume) : Prop where
  lba : w.lba = v.lba
  groupNumber : w.groupNumber = v.groupNumber
  sectorSize : w.sectorSize = v.sectorSize
  diskSectorSize : w.disk.sectorSize = v.disk.sectorSize
  readable : w.disk.readable = v.disk.readable
  writable : w.disk.writable = v.disk.writable
  sbGet : ∀ f, (∀ k : MapKind, f ≠ k.total) → w.sbGet f = v.sbGet f
  gdGet : ∀ g f, f.isPlace = true → w.gdGet g f = v.gdGet g f

namespace SameLayout

variable {v w u : Volume}

theorem refl (v : Volume) : SameLayout v v :=
  ⟨rfl, rfl, rfl, rfl, rfl, rfl, fun _ _ => rfl, fun _ _ _ => rfl⟩

theorem trans (h : SameLayout v w) (h' : SameLayout w u) : SameLayout v u :=
  ⟨h'.lba.trans h.lba, h'.groupNumber.trans h.groupNumber, h'.sectorSize.trans h.sectorSize,
    h'.diskSectorSize.trans h.diskSectorSize, h'.readable.trans h.readable,
    h'.writable.trans h.writable, fun f hf => (h'.sbGet f hf).trans (h.sbGet f hf),
    fun g f hf => (h'.gdGet g f hf).trans (h.gdGet g f hf)⟩

theorem withBytes (v : Volume) (d : Bytes) : SameLayout v (v.withBytes d) :=
  ⟨rfl, rfl, rfl, rfl, rfl, rfl, fun _ _ => rfl, fun _ _ _ => rfl⟩

theorem requireFlush (v : Volume) : SameLayout v v.requireFlush :=
  ⟨rfl, rfl, rfl, rfl, rfl, rfl, fun _ _ => rfl, fun _ _ _ => rfl⟩

theorem sbSet (v : Volume) (k : MapKind) (x : ℕ) : SameLayout v (v.sbSet k.total x) :=
  ⟨rfl, rfl, rfl, rfl, rfl, rfl, fun _ hf => superblock.get_set_of_ne x (hf k).symm,
    fun _ _ _ => rfl⟩

theorem gdSet (v : Volume) (g : ℕ) {f : GroupField} (hf : f.isPlace = false) (x : ℕ) :
    SameLayout v (v.gdSet g f x) := by
  refine ⟨rfl, rfl, rfl, rfl, rfl, rfl, fun _ _ => rfl, fun g' f' hf' => ?_⟩
  exact gdGet_gdSet_of_ne v x (.inl fun heq => by rw [heq, hf] at hf'; exact Bool.noConfusion hf')

variable (h : SameLayout v w)

include h

theorem blockSize : w.blockSize = v.blockSize := by
  rw [Volume.blockSize, h.sbGet _ fun k => by cases k <;> decide, Volume.blockSize]

theorem blockAddr (b : ℕ) : w.blockAddr b = v.blockAddr b := by
  rw [Volume.blockAddr, Volume.blockAddr, h.lba, h.blockSize]

theorem perGroup (k : MapKind) : w.sbGet k.perGroup = v.sbGet k.perGroup :=
  h.sbGet _ (k.perGroup_ne_total ·)

theorem blocksPerGroup : w.sbGet .blocksPerGroup = v.sbGet .blocksPerGroup := h.perGroup .blocks

theorem inodesPerGroup : w.sbGet .inodesPerGroup = v.sbGet .inodesPerGroup := h.perGroup .inodes

/-- Bitmaps with the same bits have the same clear bits. -/
theorem clearIn_eq {k : MapKind} {g : ℕ}
    (hbit : ∀ i < 8 * v.blockSize, w.mapBit k g i = v.mapBit k g i) :
    w.clearIn k g = v.clearIn k g := by
  ext i
  rw [mem_clearIn, mem_clearIn, h.blockSize]
  exact and_congr_right fun hi => by rw [hbit i hi]

theorem mapStart (k : MapKind) (g : ℕ) : w.mapStart k g = v.mapStart k g := by
  rw [Volume.mapStart, Volume.mapStart, h.gdGet g _ k.isPlace_bitmap, h.blockAddr]

theorem sound (hv : v.Sound) : w.Sound where
  reliable := ⟨by rw [h.readable]; exact hv.reliable.readable,
    by rw [h.writable]; exact hv.reliable.writable⟩
  sectorSize := h.sectorSize.trans hv.sectorSize
  diskSectorSize := h.diskSectorSize.trans hv.diskSectorSize
  logBlockSize := by
    rw [h.sbGet _ fun k => by cases k <;> decide]
    exact hv.logBlockSize

theorem inRange {b : ℕ} (hb : v.InRange b) : w.InRange b where
  pos := hb.pos
  offset_lt := by
    rw [h.blockSize]
    exact hb.offset_lt
  sector_lt := by
    rw [h.lba, h.blockSize]
    exact hb.sector_lt

/-- The maps of a volume with the same layout, when the bits that stand for nothing are still set
and the new counters are right. -/
theorem maps {k : MapKind} (hv : v.Maps k)
    (hhigh : ∀ g < v.groupNumber, ∀ i < 8 * v.blockSize, v.sbGet k.perGroup ≤ i →
      w.mapBit k g i = true)
    (hcount : ∀ g < v.groupNumber, w.gdGet g k.count = (w.clearIn k g).card) : w.Maps k where
  sound := h.sound hv.sound
  inRange g hg := by
    rw [h.groupNumber] at hg
    rw [h.gdGet g _ k.isPlace_bitmap]
    exact h.inRange (hv.inRange g hg)
  inj g hg g' hg' := by
    rw [h.groupNumber] at hg hg'
    rw [h.gdGet g _ k.isPlace_bitmap, h.gdGet g' _ k.isPlace_bitmap]
    exact hv.inj g hg g' hg'
  high g hg i hi hle := by
    rw [h.groupNumber] at hg
    rw [h.blockSize] at hi
    rw [h.perGroup] at hle
    exact hhigh g hg i hi hle
  count g hg := by
    rw [h.groupNumber] at hg
    exact hcount g hg

end SameLayout

/-! ### One bit -/

/-- The bit `i` of group `g` is `on` in the second volume, and every other bit is what it was. -/
def OnlyBit (v w : Volume) (k : MapKind) (g i : ℕ) (on : Bool) : Prop :=
  ∀ g' < v.groupNumber, ∀ j < 8 * v.blockSize,
    w.mapBit k g' j = if g' = g ∧ j = i then on else v.mapBit k g' j

namespace OnlyBit

variable {v w : Volume} {k : MapKind} {g i : ℕ} {on : Bool} (h : OnlyBit v w k g i on)
  (hlayout : SameLayout v w)

include h hlayout

theorem clearIn_eq (hi : i < 8 * v.blockSize) {g' : ℕ} (hg' : g' < v.groupNumber) :
    w.clearIn k g' = if g' = g then
        if on then (v.clearIn k g).erase i else insert i (v.clearIn k g)
      else v.clearIn k g' := by
  ext j
  rw [mem_clearIn, hlayout.blockSize]
  by_cases hj : j < 8 * v.blockSize
  · rw [h g' hg' j hj]
    by_cases hgg : g' = g
    · subst hgg
      by_cases hji : j = i <;> cases on <;> simp [hji, mem_clearIn, hi]
    · simp [hgg, mem_clearIn]
  · have hne : j ≠ i := fun heq => hj (heq ▸ hi)
    by_cases hgg : g' = g
    · cases on <;> simp [hgg, hj, hne, mem_clearIn]
    · simp [hgg, hj, mem_clearIn]

/-- **Changing a bit keeps the maps** when the new counter is right. -/
theorem maps (hv : v.Maps k) (hi : i < 8 * v.blockSize) (hlow : i < v.sbGet k.perGroup)
    (hcount : w.gdGet g k.count =
      (if on then (v.clearIn k g).erase i else insert i (v.clearIn k g)).card)
    (hother : ∀ g' ≠ g, w.gdGet g' k.count = v.gdGet g' k.count) : w.Maps k := by
  refine hlayout.maps hv (fun g' hg' j hj hle => ?_) fun g' hg' => ?_
  · rw [h g' hg' j hj, if_neg (by omega)]
    exact hv.high g' hg' j hj hle
  · rw [h.clearIn_eq hlayout hi hg']
    by_cases hgg : g' = g
    · rw [if_pos hgg, ← hcount, hgg]
    · rw [if_neg hgg, ← hv.count g' hg', hother g' hgg]

end OnlyBit

/-- The volume with new counters for group `g`. -/
def withCounts (v : Volume) (k : MapKind) (g count total : ℕ) : Volume :=
  (v.gdSet g k.count count).sbSet k.total total

/-- The volume with bit `i` of group `g` turned on or off, and new counters. -/
def withBit (v : Volume) (k : MapKind) (g i : ℕ) (on : Bool) (count total : ℕ) : Volume :=
  ((v.withCounts k g count total).withBytes
    (if on then set v.disk.bytes (v.mapStart k g + i)
      else clear v.disk.bytes (v.mapStart k g + i))).requireFlush

section WithBit

variable (v : Volume) (k : MapKind) (g i : ℕ) (on : Bool) (count total : ℕ)

theorem sameLayout_withCounts : SameLayout v (v.withCounts k g count total) :=
  (SameLayout.gdSet v g (by cases k <;> rfl) count).trans (SameLayout.sbSet _ k total)

theorem sameLayout_withBit : SameLayout v (v.withBit k g i on count total) :=
  ((v.sameLayout_withCounts k g count total).trans (SameLayout.withBytes _ _)).trans
    (SameLayout.requireFlush _)

theorem gdGet_withBit {g' : ℕ} (hg : g' ≠ g) :
    (v.withBit k g i on count total).gdGet g' k.count = v.gdGet g' k.count :=
  gdGet_gdSet_of_ne v count (.inr hg)

theorem gdGet_withBit_self (hlt : count < 2 ^ 16) :
    (v.withBit k g i on count total).gdGet g k.count = count := by
  have hwidth : groupDescriptor.width k.count = 2 := by cases k <;> rfl
  exact groupDescriptor.get_set_self (by rw [hwidth]; omega)

theorem sbGet_withBit_self (hlt : total < 2 ^ 32) :
    (v.withBit k g i on count total).sbGet k.total = total := by
  have hwidth : superblock.width k.total = 4 := by cases k <;> rfl
  exact superblock.get_set_self (by rw [hwidth]; omega)

variable {v i}

/-- The code turns a bit of a copy of the bitmap over and writes the copy back. -/
theorem blit_bitmap (hi : i < 8 * v.blockSize) :
    let copy := blit v.fresh 0 v.disk.bytes (v.blockAddr (v.gdGet g k.bitmap)) v.blockSize
    blit v.disk.bytes (v.blockAddr (v.gdGet g k.bitmap)) (if on then set copy i else clear copy i) 0
        v.blockSize =
      if on then set v.disk.bytes (v.mapStart k g + i)
      else clear v.disk.bytes (v.mapStart k g + i) := by
  cases on
  · exact blit_clear _ _ _ hi
  · exact blit_set _ _ _ hi

end WithBit

section SameCounts

variable {v u w : Volume} {k : MapKind}

/-- The counters of the kind are the same. -/
structure SameCounts (k : MapKind) (v w : Volume) : Prop where
  group : ∀ g, w.gdGet g k.count = v.gdGet g k.count
  total : w.sbGet k.total = v.sbGet k.total

theorem SameCounts.withBytes (k : MapKind) (v : Volume) (d : Bytes) :
    SameCounts k v (v.withBytes d) := ⟨fun _ => rfl, rfl⟩

/-- Counters of one kind are not those of the other. -/
theorem SameCounts.withBit {l : MapKind} (h : k ≠ l) (v : Volume) (g i : ℕ) (on : Bool)
    (count total : ℕ) : SameCounts k v (v.withBit l g i on count total) := by
  refine ⟨fun g' => gdGet_gdSet_of_ne v count (.inl fun heq => h ?_),
    superblock.get_set_of_ne _ fun heq => h ?_⟩
  · cases k <;> cases l <;> first | rfl | exact absurd heq (by decide)
  · cases k <;> cases l <;> first | rfl | exact absurd heq (by decide)

end SameCounts

/-- The bitmaps are in different blocks. -/
def MapsApart (v : Volume) (k : MapKind) : Prop :=
  ∀ g < v.groupNumber, ∀ g' < v.groupNumber, v.gdGet g k.bitmap = v.gdGet g' k.bitmap → g = g'

section Apart

variable {v : Volume} {k : MapKind} {g i : ℕ}

theorem MapsApart.mapStart_apart (h : v.MapsApart k) {g' : ℕ} (hg : g < v.groupNumber)
    (hg' : g' < v.groupNumber) (hne : g ≠ g') :
    v.mapStart k g + 8 * v.blockSize ≤ v.mapStart k g' ∨
      v.mapStart k g' + 8 * v.blockSize ≤ v.mapStart k g := by
  have := blockAddr_apart (v := v) fun heq => hne (h g hg g' hg' heq)
  unfold mapStart
  omega

theorem MapsApart.onlyBit_withBit (h : v.MapsApart k) (hg : g < v.groupNumber)
    (hi : i < 8 * v.blockSize) (on : Bool) (count total : ℕ) :
    OnlyBit v (v.withBit k g i on count total) k g i on := by
  intro g' hg' j hj
  have hpos : v.mapStart k g' + j = v.mapStart k g + i ↔ g' = g ∧ j = i := by
    by_cases hgg : g' = g
    · subst hgg
      simp
    · have := h.mapStart_apart hg' hg hgg
      omega
  rw [mapBit, (v.sameLayout_withBit k g i on count total).mapStart]
  change test (if on then set v.disk.bytes _ else clear v.disk.bytes _) _ = _
  cases on
  · simp only [Bool.false_eq_true, if_false, test_clear, hpos]
    split_ifs with heq
    · simp [heq]
    · simp [heq, mapBit]
  · simp only [if_true, test_set, hpos]
    split_ifs with heq
    · simp [heq]
    · simp [heq, mapBit]

end Apart

namespace Maps

variable {v : Volume} {k : MapKind} {g i : ℕ}

section

variable (h : v.Maps k) (hg : g < v.groupNumber) (hi : i < 8 * v.blockSize)

include h hg hi

theorem onlyBit_withBit (on : Bool) (count total : ℕ) :
    OnlyBit v (v.withBit k g i on count total) k g i on :=
  MapsApart.onlyBit_withBit h.inj hg hi on count total

theorem withBit (hlow : i < v.sbGet k.perGroup) (on : Bool) {count : ℕ} (total : ℕ)
    (hcount : count = (if on then (v.clearIn k g).erase i else insert i (v.clearIn k g)).card)
    (hlt : count < 2 ^ 16) : (v.withBit k g i on count total).Maps k := by
  refine (h.onlyBit_withBit hg hi on count total).maps
    (v.sameLayout_withBit k g i on count total) h hi hlow ?_ fun g' hgg =>
      v.gdGet_withBit k g i on count total hgg
  rw [← hcount]
  exact v.gdGet_withBit_self k g i on count total hlt

/-- Only bits that stand for something are clear. -/
theorem lt_of_clear (hclear : v.mapBit k g i = false) : i < v.sbGet k.perGroup := by
  by_contra hle
  exact absurd (h.high g hg i hi (Nat.not_lt.1 hle)) (by rw [hclear]; decide)

end

theorem clearIn_subset (h : v.Maps k) (hg : g < v.groupNumber) :
    v.clearIn k g ⊆ Finset.range (min (v.sbGet k.perGroup) (8 * v.blockSize)) := by
  intro i hi
  obtain ⟨hi, hclear⟩ := mem_clearIn.1 hi
  exact Finset.mem_range.2 (Nat.lt_min.2 ⟨h.lt_of_clear hg hi hclear, hi⟩)

/-- The clear bits of a group, and any other of its bits, are not more than it has. -/
theorem card_insert_le (h : v.Maps k) (hg : g < v.groupNumber) (hi : i < 8 * v.blockSize)
    (hlow : i < v.sbGet k.perGroup) :
    (insert i (v.clearIn k g)).card ≤ min (v.sbGet k.perGroup) (8 * v.blockSize) := by
  have hmem := Finset.mem_range.2 (Nat.lt_min.2 ⟨hlow, hi⟩)
  simpa using Finset.card_le_card (Finset.insert_subset hmem (h.clearIn_subset hg))

theorem card_clearIn_le (h : v.Maps k) (hg : g < v.groupNumber) :
    (v.clearIn k g).card ≤ min (v.sbGet k.perGroup) (8 * v.blockSize) := by
  simpa using Finset.card_le_card (h.clearIn_subset hg)

end Maps

end Volume

end Bloodmoon
