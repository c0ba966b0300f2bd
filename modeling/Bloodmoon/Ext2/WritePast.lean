import Bloodmoon.Ext2.StoredInode
import Bloodmoon.Machine.GuardedWalk

/-!
# Writing past the end of a file

`ext2_write_inode_bytes` does not look at the size of the file. What keeps it from other blocks is
that the trees of a file have exactly its blocks (`Volume.Guarded`): then the inode is as it was
whatever is written (`Guarded.writeInodeBytes`), and a write that goes past the last block reports a
failure or nothing written. The exception is a count so large that the bytes that remain are
negative as a signed number: then the first stage is the only one, and its bytes are reported
(`Slips`).
-/

namespace Bloodmoon

open Machine

namespace Volume

variable {v w : Volume} {n b k : ℕ} {inode : Bytes} {blocks : ℕ → Prop}

/-- The trees of the file have at most `k` blocks, all of them among the given ones, which are
neither tables of the file nor hold its inode. -/
structure Guarded (v : Volume) (n : ℕ) (inode : Bytes) (blocks : ℕ → Prop) (k : ℕ) : Prop where
  sound : v.Sound
  read : v.readInode n = some inode
  place : ∃ b, v.InodeIn n b ∧ ¬ blocks b
  first : ∀ i < 12, iBlock inode i ≠ 0 ↔ i < k
  direct : ∀ i < 12, i < k → v.InRange (iBlock inode i) ∧ blocks (iBlock inode i)
  tables : StagesGuarded v.diskArray (v.blockSize / 4) (fun b => v.InRange b ∧ ¬ blocks b)
    (fun b => v.InRange b ∧ blocks b) (levelStages (iBlock inode) 1 [12, 13, 14]) (k - 12)

/-- The volume has changed in the given blocks only. -/
def ChangedIn (v : Volume) (blocks : ℕ → Prop) (w : Volume) : Prop :=
  ∃ d, w = v.withBytes d ∧
    ∀ c, ¬ blocks c → SameOn v.disk.bytes d (v.blockAddr c) v.blockSize

theorem ChangedIn.refl (v : Volume) (blocks : ℕ → Prop) : v.ChangedIn blocks v :=
  ⟨v.disk.bytes, rfl, fun _ _ => .refl _ _ _⟩

theorem ChangedIn.writer_eq (h : v.ChangedIn blocks w) (source : Bytes) :
    w.writer source = v.writer source := by
  obtain ⟨d, rfl, -⟩ := h
  rfl

/-- The stages behind the direct blocks are trees of tables. -/
theorem levelStages_pos : ∀ stage ∈ levelStages (iBlock inode) 1 [12, 13, 14],
    0 < stage.depth ∧ 0 < stage.length := by
  simp [levelStages]

/-- An inode is read as before when its block is. -/
theorem InodeIn.readInode_congr (h : v.InodeIn n b) (hv : v.Sound) (hrecord : SameRecord v w)
    (hsame : SameOn v.disk.bytes w.disk.bytes (v.blockAddr b) v.blockSize) :
    w.readInode n = v.readInode n := by
  have hsector := h.sector
  have hfits := h.fits
  rw [(hrecord.sound hv).readInode_eq (hrecord.inodeIn h).fits, hv.readInode_eq h.fits,
    hrecord.fresh, hrecord.inodeAddr, hrecord.inodeSize]
  refine congrArg some (blit_congr _ _ (hsame.mono ?_ ?_))
  · rw [inodeAddr]
    omega
  · rw [inodeAddr]
    omega

namespace Guarded

variable (h : v.Guarded n inode blocks k)

include h

theorem readInode (hw : v.ChangedIn blocks w) : w.readInode n = some inode := by
  obtain ⟨d, rfl, hd⟩ := hw
  obtain ⟨b, hin, hb⟩ := h.place
  rw [hin.readInode_congr h.sound (.withBytes v d) (hd b hb), h.read]

/-- The writer changes blocks of the file only. -/
theorem writer_guards (source : Bytes) :
    (v.writer source).Guards v.bufferArray
      (fun w b pos => w.withBytes (blit w.disk.bytes (v.blockAddr b) source pos v.blockSize))
      (v.ChangedIn blocks) (fun b => v.InRange b ∧ ¬ blocks b)
      (fun b => v.InRange b ∧ blocks b) where
  entries_pos := h.sound.reader_serves.entries_pos
  one_lt_failed := show 1 < writeFailed by decide
  table w b hw hb := by
    obtain ⟨d, rfl, hd⟩ := hw
    exact h.sound.readArray_withBytes hb.1 (hd b hb.2)
  leaf w b pos hw hb := by
    obtain ⟨d, rfl, hd⟩ := hw
    exact (h.sound.withBytes d).writeBlock_eq (hb.1.withBytes d) source pos
  keep w b pos hw hb := by
    obtain ⟨d, rfl, hd⟩ := hw
    refine ⟨_, rfl, fun c hc => (hd c hc).trans (sameOn_blit ?_)⟩
    refine (blockAddr_apart (v := v) ?_).symm
    rintro rfl
    exact hc hb.2
  hole w _ := rfl
  gap w pos _ := rfl

/-- **Writing blocks** keeps everything else. Nothing is written behind the direct blocks or the
file, and otherwise all blocks or a failure is reported. -/
theorem writeInodeBlocks (hw : v.ChangedIn blocks w) (source : Bytes) (pos q b : ℕ) :
    v.ChangedIn blocks (w.writeInodeBlocks n source pos q b).1 ∧
      if 0 < q ∧ b < 12 ∧ b < k then
        (w.writeInodeBlocks n source pos q b).2 = writeFailed ∨
          q ≤ (w.writeInodeBlocks n source pos q b).2 ∧
            b + (w.writeInodeBlocks n source pos q b).2 ≤ k
      else (w.writeInodeBlocks n source pos q b).2 = 0 := by
  have hread := h.readInode hw
  have hguards := h.writer_guards source
  rw [Volume.writeInodeBlocks]
  rcases Nat.eq_zero_or_pos q with rfl | hq
  · exact ⟨hw, rfl⟩
  rw [if_neg (Nat.ne_of_gt hq), hread]
  have hwriter := hw.writer_eq source
  have hstages : [w.writeDirectBlocks source (iBlock inode) 12,
      w.writeIndirectBlocks source (fun i => iBlock inode (12 + i)) 1,
      w.writeDoubleIndirectBlocks source (fun i => iBlock inode (13 + i)) 1,
      w.writeTripleIndirectBlocks source (fun i => iBlock inode (14 + i)) 1] =
        (inodeStages inode).map (Stage.walk (v.writer source)) := by
    rw [← hwriter]
    rfl
  simp only [hstages, hwriter]
  rw [inodeStages_eq]
  by_cases hb : b < 12
  · by_cases hk : b < k
    · rw [if_pos ⟨hq, hb, hk⟩]
      exact hguards.stageBlocks_of_lt levelStages_pos _ pos hw h.first h.direct
        (h.tables.congr h.sound.entries_pos
          (List.forall₂_same.mpr fun _ _ => ⟨rfl, rfl, fun _ _ => rfl⟩)
          fun b _ i hi => v.bufferArray_eq b hi) hb hk
    · rw [if_neg fun hall => hk hall.2.2, hguards.stageBlocks_of_zero _ _ pos hw hb
        (not_not.mp fun hne => hk ((h.first b hb).mp hne))]
      exact ⟨hw, rfl⟩
  · rw [if_neg fun hall => hb hall.2.1, BlockIO.Serves.stageBlocks_of_le _ (Nat.not_lt.mp hb)]
    exact ⟨hw, rfl⟩

/-- One block is read or written if the file has it. -/
theorem readInodeBlocks_one (hw : v.ChangedIn blocks w) (buffer : Bytes) (pos b : ℕ) :
    (w.readInodeBlocks n buffer pos 1 b).2 = if b < 12 ∧ b < k then 1 else 0 := by
  have hread := h.readInode hw
  obtain ⟨d, rfl, hd⟩ := hw
  have hserves := (h.sound.withBytes d).reader_serves
  have hguards : (v.withBytes d).reader.Guards (v.withBytes d).bufferArray _ (fun _ => True)
      (v.withBytes d).InRange (v.withBytes d).InRange := ⟨hserves, fun _ _ => rfl, fun _ _ _ => rfl⟩
  rw [Volume.readInodeBlocks, hread]
  change (stageBlocks _ 1 ((inodeStages inode).map (Stage.walk (v.withBytes d).reader)) buffer pos b
    0).2 = _
  rw [inodeStages_eq]
  by_cases hb : b < 12
  · by_cases hk : b < k
    · rw [if_pos ⟨hb, hk⟩, hserves.stageBlocks_eq_of_lt pos
        (fun stage hstage => (levelStages_pos stage hstage).2) trivial Nat.one_pos
        (show 1 < readFailed by decide) hb fun j hj => ?_]
      · rw [Nat.lt_one_iff.mp hj, StagesIn, leaves_direct, if_pos (show b + 0 < 12 from hb)]
        exact (h.direct b hb hk).1.withBytes d
    · rw [if_neg fun hall => hk hall.2, hguards.stageBlocks_of_zero _ _ pos trivial hb
        (not_not.mp fun hne => hk ((h.first b hb).mp hne))]
  · rw [if_neg fun hall => hb hall.1, BlockIO.Serves.stageBlocks_of_le _ (Nat.not_lt.mp hb)]

theorem writeInodeBlocks_one (hw : v.ChangedIn blocks w) (source : Bytes) (pos : ℕ)
    (hb : b < 12) (hk : b < k) : (w.writeInodeBlocks n source pos 1 b).2 = 1 := by
  have hread := h.readInode hw
  have hguards := h.writer_guards source
  have hwriter := hw.writer_eq source
  rw [Volume.writeInodeBlocks, hread]
  change (stageBlocks (w.writer source) 1 ((inodeStages inode).map (Stage.walk (w.writer source))) w
    pos b 0).2 = _
  rw [inodeStages_eq, hwriter, hguards.stageBlocks_eq_of_lt pos
    (fun stage hstage => (levelStages_pos stage hstage).2) hw Nat.one_pos
    (show 1 < writeFailed by decide) hb fun j hj => ?_]
  · rw [Nat.lt_one_iff.mp hj, StagesIn, leaves_direct, if_pos (show b + 0 < 12 from hb)]
    exact h.direct b hb hk

end Guarded

/-! ### Bytes -/

/-- The volume that a stage leaves has the property. -/
def Leaves (P : Volume → Prop) : Except WriteStop WriteProgress → Prop
  | .ok t => P t.volume
  | .error (.failed w) => P w
  | .error .undefined => True

theorem Leaves.bind {P : Volume → Prop} {x : Except WriteStop WriteProgress}
    {f : WriteProgress → Except WriteStop WriteProgress} (hx : Leaves P x)
    (hf : ∀ t, P t.volume → Leaves P (f t)) : Leaves P (x >>= f) := by
  rcases x with (w | _) | t
  · exact hx
  · exact hx
  · exact hf t hx

/-- The stages after the first one do nothing if no bytes remain. -/
theorem writeRest_done {source : Bytes} {count : ℕ} {t : WriteProgress}
    (hdone : ¬ Remains count t.bytes) :
    (writeMiddle n source count t >>= writeTail n source count) = .ok t := by
  rw [writeMiddle, if_neg hdone, ok_bind, writeTail, if_neg hdone]

/-- The bytes that remain after the first stage are negative as a signed number, so that the call
reports those of the first stage. -/
def Slips (size count skip k : ℕ) : Prop :=
  skip % size ≠ 0 ∧ skip / size < 12 ∧ skip / size < k ∧ 2 ^ 63 + (size - skip % size) ≤ count

instance (size count skip k : ℕ) : Decidable (Slips size count skip k) :=
  inferInstanceAs (Decidable (_ ∧ _ ∧ _ ∧ _))

namespace Guarded

variable (h : v.Guarded n inode blocks k) {count skip code : ℕ}
variable {source : Bytes}

include h

theorem leaves_writeHead (source : Bytes) (skip : ℕ) :
    Leaves (v.ChangedIn blocks) (v.writeHead n source skip) := by
  have hrefl := ChangedIn.refl v blocks
  simp only [writeHead]
  split_ifs
  · exact hrefl
  · exact hrefl
  · trivial
  · exact (h.writeInodeBlocks hrefl _ 0 1 _).1
  · exact (h.writeInodeBlocks hrefl _ 0 1 _).1

theorem leaves_writeMiddle (source : Bytes) (count : ℕ) (t : WriteProgress)
    (ht : v.ChangedIn blocks t.volume) :
    Leaves (v.ChangedIn blocks) (writeMiddle n source count t) := by
  simp only [writeMiddle]
  split_ifs
  · exact (h.writeInodeBlocks ht source t.pos _ t.block).1
  · exact (h.writeInodeBlocks ht source t.pos _ t.block).1
  · exact ht

theorem leaves_writeTail (source : Bytes) (count : ℕ) (t : WriteProgress)
    (ht : v.ChangedIn blocks t.volume) :
    Leaves (v.ChangedIn blocks) (writeTail n source count t) := by
  simp only [writeTail]
  split_ifs
  · exact ht
  · trivial
  · exact (h.writeInodeBlocks ht _ 0 1 t.block).1
  · exact (h.writeInodeBlocks ht _ 0 1 t.block).1
  · exact ht

/-- **What is written is in the blocks of the file**, whatever the range. -/
theorem changedIn (hrun : v.writeInodeBytes n source count skip = some (w, code)) :
    v.ChangedIn blocks w := by
  have hall := ((h.leaves_writeHead source skip).bind (h.leaves_writeMiddle source count)).bind
    (h.leaves_writeTail source count)
  rw [Volume.writeInodeBytes, h.read] at hrun
  generalize v.writeHead n source skip >>= writeMiddle n source count >>=
    writeTail n source count = r at hrun hall
  rcases r with (w' | _) | t
  · obtain ⟨rfl, -⟩ := some_inj hrun
    exact hall
  · exact absurd hrun (by simp)
  · obtain ⟨rfl, -⟩ := some_inj hrun
    exact hall

/-- The stages after the first one fail when the range goes past the last block. -/
theorem writeRest_fails (source : Bytes) {t : WriteProgress}
    (ht : v.ChangedIn blocks t.volume) (hend : k * v.blockSize < skip + count)
    (hblock : skip + t.bytes = t.block * v.blockSize) (hremains : Remains count t.bytes)
    (hlt : t.bytes < count) (hcount : count < 2 ^ 64) :
    ∃ w, (writeMiddle n source count t >>= writeTail n source count) = .error (.failed w) := by
  have hbs := h.sound.blockSize_pos
  have hsize : t.volume.blockSize = v.blockSize := by
    obtain ⟨d, hd, -⟩ := ht
    rw [hd]
    rfl
  obtain ⟨q, c, hq, hc, hcs, hup⟩ := exists_divideRoundedUp (show 0 < count by omega) hbs
  obtain ⟨hnext, hcode⟩ := h.writeInodeBlocks ht source t.pos q t.block
  rw [writeMiddle, if_pos hremains, hsize, hup, Nat.add_sub_cancel]
  generalize t.volume.writeInodeBlocks n source t.pos q t.block = r at hnext hcode
  by_cases hfailed : r.2 = writeFailed
  · simp only [hfailed]
    exact ⟨_, rfl⟩
  simp only [hfailed, false_or] at hcode ⊢
  -- the last block that is asked for is behind the file
  obtain ⟨hmore, hout⟩ : t.bytes + r.2 * v.blockSize < count ∧
      ¬ (t.block + r.2 < 12 ∧ t.block + r.2 < k) := by
    have hmul : ∀ {x}, x ≤ k → x * v.blockSize ≤ k * v.blockSize := fun hx =>
      Nat.mul_le_mul_right _ hx
    split_ifs at hcode with hall
    · have hfits := hmul hcode.2
      rw [Nat.add_mul] at hfits
      refine ⟨by omega, fun hin => ?_⟩
      have hfits' := hmul (show t.block + r.2 + 1 ≤ k by omega)
      have hqs := Nat.mul_le_mul_right v.blockSize hcode.1
      rw [Nat.succ_mul, Nat.add_mul] at hfits'
      omega
    · rw [hcode, Nat.zero_mul]
      refine ⟨hlt, fun hin => hall ⟨Nat.pos_of_ne_zero ?_, hin⟩⟩
      rintro rfl
      have hfits := hmul (show t.block + 1 ≤ k by omega)
      rw [Nat.succ_mul] at hfits
      omega
  have hremains' : Remains count (t.bytes + r.2 * v.blockSize) := by
    rw [Remains, wsub_of_le hlt.le hcount] at hremains
    rw [Remains, wsub_of_le hmore.le hcount]
    omega
  rw [if_neg not_false, ok_bind, writeTail, if_pos hremains']
  simp only [h.readInodeBlocks_one hnext, if_neg hout]
  exact ⟨_, rfl⟩

/-- The first stage of a range that begins inside a block is done if the file has the block, unless
its behaviour is undefined. -/
theorem writeHead_cases (source : Bytes) (hs : skip % v.blockSize ≠ 0) :
    if skip / v.blockSize < 12 ∧ skip / v.blockSize < k then
      v.writeHead n source skip = .error .undefined ∨ ∃ u, v.ChangedIn blocks u ∧
        v.writeHead n source skip = .ok ⟨u, v.blockSize - skip % v.blockSize,
          v.blockSize - skip % v.blockSize, skip / v.blockSize + 1⟩
    else v.writeHead n source skip = .error (.failed v) := by
  have hrefl := ChangedIn.refl v blocks
  simp only [writeHead, if_neg hs, h.readInodeBlocks_one hrefl]
  by_cases hin : skip / v.blockSize < 12 ∧ skip / v.blockSize < k
  · generalize blit (v.readInodeBlocks n v.fresh 0 1 (skip / v.blockSize)).1 (skip % v.blockSize)
      source 0 (skip % v.blockSize) = patched
    have hone := h.writeInodeBlocks_one hrefl patched 0 hin.1 hin.2
    have hchanged := (h.writeInodeBlocks hrefl patched 0 1 (skip / v.blockSize)).1
    simp only [if_pos hin, hone, ne_eq, not_true_eq_false, if_false]
    split_ifs
    · exact .inl rfl
    · exact .inr ⟨_, hchanged, rfl⟩
  · simp only [if_neg hin, ne_eq, Nat.zero_ne_one, not_false_eq_true, if_true]

/-- **A write past the last block** reports a failure or nothing, unless it slips. -/
theorem code_of_past (hcount : count < 2 ^ 64) (hend : k * v.blockSize < skip + count)
    (hrun : v.writeInodeBytes n source count skip = some (w, code)) :
    if Slips v.blockSize count skip k then code = v.blockSize - skip % v.blockSize
    else code = writeFailed ∨ code = 0 := by
  have hskip := Nat.div_add_mod' skip v.blockSize
  have hmod := Nat.mod_lt skip h.sound.blockSize_pos
  rw [Volume.writeInodeBytes, h.read] at hrun
  by_cases hs : skip % v.blockSize = 0
  · -- there is no first stage
    have hhead : v.writeHead n source skip = .ok ⟨v, 0, 0, skip / v.blockSize⟩ := by
      rw [writeHead, if_pos hs]
    rw [if_neg fun hslips => hslips.1 hs]
    rw [hhead, ok_bind] at hrun
    by_cases hremains : Remains count 0
    · have hpos : 0 < count := Nat.pos_of_ne_zero fun hzero => by
        rw [hzero] at hremains
        exact absurd hremains (by decide)
      obtain ⟨w', hfails⟩ := h.writeRest_fails source (ChangedIn.refl v blocks) hend
        (t := ⟨v, 0, 0, skip / v.blockSize⟩) (by dsimp only; omega) hremains hpos hcount
      rw [hfails] at hrun
      exact .inl (some_inj hrun).2.symm
    · rw [writeRest_done (t := ⟨v, 0, 0, skip / v.blockSize⟩) hremains] at hrun
      exact .inr (some_inj hrun).2.symm
  have hhead := h.writeHead_cases source hs
  split_ifs at hhead with hin
  · rcases hhead with hhead | ⟨u, hchanged, hhead⟩
    · rw [hhead] at hrun
      exact absurd hrun (by simp [bind, Except.bind])
    rw [hhead, ok_bind] at hrun
    have hfits := Nat.mul_le_mul_right v.blockSize (show skip / v.blockSize + 1 ≤ k from hin.2)
    have hblock : skip + (v.blockSize - skip % v.blockSize) =
        (skip / v.blockSize + 1) * v.blockSize := by
      rw [Nat.succ_mul]
      omega
    have hlt : v.blockSize - skip % v.blockSize < count := by omega
    by_cases hremains : Remains count (v.blockSize - skip % v.blockSize)
    · have hnot : ¬ Slips v.blockSize count skip k := fun hslips => by
        rw [Remains, wsub_of_le hlt.le hcount] at hremains
        have := hslips.2.2.2
        omega
      obtain ⟨w', hfails⟩ := h.writeRest_fails source (t := ⟨u, _, _, _⟩) hchanged hend
        hblock hremains hlt hcount
      rw [if_neg hnot]
      rw [hfails] at hrun
      exact .inl (some_inj hrun).2.symm
    · have hslips : Slips v.blockSize count skip k := by
        rw [Remains, wsub_of_le hlt.le hcount] at hremains
        exact ⟨hs, hin.1, hin.2, by omega⟩
      rw [if_pos hslips]
      rw [writeRest_done (t := ⟨u, _, _, _⟩) hremains] at hrun
      exact (some_inj hrun).2.symm
  · rw [if_neg fun hslips => hin ⟨hslips.2.1, hslips.2.2.1⟩]
    rw [hhead] at hrun
    exact .inl (some_inj hrun).2.symm

end Guarded

end Volume

end Bloodmoon
