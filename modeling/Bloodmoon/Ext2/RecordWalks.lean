import Bloodmoon.Ext2.DirectoryRecords
import Bloodmoon.Machine.Walk

/-!
# The walks over the records of a directory

Four functions walk over the records of a directory: `ext2_inode_from_path_and_parent`,
`ext2_get_all_dirs`, `ext2_create_directory_entry` and `ext2_delete_dentry`. All of them go on by
the `rec_len` that is on the disk, and none of them looks at it. A walk ends exactly when it does
not come back to a record it has passed (`RecordWalk.terminates_iff`); as long as the positions do
not wrap, that is when no record on its way has the length 0.
-/

namespace Bloodmoon

open Machine

/-- The walks, with what they look for. -/
inductive RecordWalk where
  /-- `ext2_inode_from_path_and_parent` -/
  | lookup (path : Text)
  /-- `ext2_get_all_dirs` -/
  | list
  /-- `ext2_create_directory_entry` -/
  | create
  /-- `ext2_delete_dentry` -/
  | delete (target : ℕ)

namespace RecordWalk

variable (buffer : Bytes) (size : ℕ)

/-- The walk has returned after so many rounds. The buffer of `ext2_create_directory_entry` ends
with the directory; what its walk reads behind that is taken from the buffer as well. -/
def ReturnsIn (fuel : ℕ) : RecordWalk → Prop
  | lookup path => (searchEntries buffer size path fuel 0).isSome
  | list => (walkRecords (nextEntry buffer) size (addLive buffer) fuel 0 []).isSome
  | create => (walkRecords (nextEntry buffer) size (fun _ p => some p) fuel 0 none).isSome
  | delete target => (findEntry buffer size target fuel 0 none).isSome

/-- The walk returns. -/
def Terminates (walk : RecordWalk) : Prop := ∃ fuel, walk.ReturnsIn buffer size fuel

/-- The record is the one the walk looks for. -/
def Found : RecordWalk → ℕ → Prop
  | lookup path, p => strncmp (entryName buffer p) path (nameLen buffer p) = 0
  | list, _ => False
  | create, _ => False
  | delete target, p => entryInode buffer p = target

/-- The walk goes on behind the record. -/
def GoesOn (walk : RecordWalk) (p : ℕ) : Prop := p < size ∧ ¬ walk.Found buffer p

/-- Where the walk is after some rounds. -/
def position (k : ℕ) : ℕ := (nextEntry buffer)^[k] 0

/-! ### The loops of the model -/

theorem isWalk_searchEntries (path : Text) :
    IsWalk (nextEntry buffer) ((lookup path).GoesOn buffer size) (fun (_ : Unit) _ => ())
      (fun fuel p _ => searchEntries buffer size path fuel p) where
  zero _ _ := rfl
  go fuel p _ h := by
    have hfound : strncmp (entryName buffer p) path (nameLen buffer p) ≠ 0 := h.2
    rw [searchEntries, if_pos h.1, if_neg hfound]
    rfl
  stop fuel p _ h := by
    rw [searchEntries]
    split_ifs with hsize hfound
    · rfl
    · exact absurd ⟨hsize, hfound⟩ h
    · rfl

theorem isWalk_walkRecords {σ : Type*} (step : σ → ℕ → σ) {walk : RecordWalk}
    (hwalk : ∀ p, ¬ walk.Found buffer p) :
    IsWalk (nextEntry buffer) (walk.GoesOn buffer size) step
      (walkRecords (nextEntry buffer) size step) where
  zero _ _ := rfl
  go fuel p s h := by rw [walkRecords, if_pos h.1]
  stop fuel p s h := by
    rw [walkRecords, if_neg fun hsize => h ⟨hsize, hwalk p⟩]
    rfl

theorem isWalk_findEntry (target : ℕ) :
    IsWalk (nextEntry buffer) ((delete target).GoesOn buffer size) (fun _ p => some p)
      (findEntry buffer size target) where
  zero _ _ := rfl
  go fuel p s h := by
    have hfound : entryInode buffer p ≠ target := h.2
    rw [findEntry, if_pos h.1, if_neg hfound]
  stop fuel p s h := by
    rw [findEntry]
    split_ifs with hsize hfound
    · rfl
    · exact absurd ⟨hsize, hfound⟩ h
    · rfl

/-- The walks are walks over the records, and one round more than there are positions is enough. -/
theorem terminates_iff_ends (walk : RecordWalk) :
    (walk.Terminates buffer size ↔ Ends (nextEntry buffer) (walk.GoesOn buffer size) 0) ∧
      ∀ fuel, size < fuel →
        (walk.ReturnsIn buffer size fuel ↔
          Ends (nextEntry buffer) (walk.GoesOn buffer size) 0) := by
  have hbound : ∀ p, walk.GoesOn buffer size p → p < size := fun p h => h.1
  have hloop : ∀ {σ ρ : Type} {run : ℕ → ℕ → σ → Option ρ} {update : σ → ℕ → σ} (s : σ),
      IsWalk (nextEntry buffer) (walk.GoesOn buffer size) update run →
      (∀ fuel, walk.ReturnsIn buffer size fuel = (run fuel 0 s).isSome) →
      (walk.Terminates buffer size ↔ Ends (nextEntry buffer) (walk.GoesOn buffer size) 0) ∧
        ∀ fuel, size < fuel → (walk.ReturnsIn buffer size fuel ↔
          Ends (nextEntry buffer) (walk.GoesOn buffer size) 0) := by
    intro σ ρ run update s h hrun
    refine ⟨?_, fun fuel hfuel => ?_⟩
    · rw [Terminates, funext hrun]
      exact h.isSome_iff
    · rw [hrun]
      exact h.isSome_iff_of_bound hbound hfuel
  cases walk with
  | lookup path => exact hloop () (isWalk_searchEntries buffer size path) fun _ => rfl
  | list => exact hloop [] (isWalk_walkRecords buffer size _ fun _ => id) fun _ => rfl
  | create => exact hloop none (isWalk_walkRecords buffer size _ fun _ => id) fun _ => rfl
  | delete target => exact hloop none (isWalk_findEntry buffer size target) fun _ => rfl

/-- The fuel of the calls is enough for every walk that ends, as `i_size` has 32 bits. -/
theorem returnsIn_iff (walk : RecordWalk) (hsize : size < 2 ^ 32) :
    walk.ReturnsIn buffer size (2 ^ 32) ↔ walk.Terminates buffer size := by
  obtain ⟨hends, hfuel⟩ := walk.terminates_iff_ends buffer size
  exact (hfuel _ hsize).trans hends.symm

/-- The loop of `ext2_create_directory_entry` is the walk, as long as it reads inside its buffer. -/
theorem isSome_lastEntry_iff {fuel p : ℕ} {entry : Option ℕ} :
    (lastEntry buffer size fuel p entry).isSome ↔
      (walkRecords (nextEntry buffer) size (fun _ p => some p) fuel p entry).isSome ∧
        ∀ k, (∀ j ≤ k, (nextEntry buffer)^[j] p < size) → (nextEntry buffer)^[k] p + 6 ≤ size := by
  induction fuel generalizing p entry with
  | zero => exact iff_of_false Bool.false_ne_true fun h => Bool.false_ne_true h.1
  | succ fuel ih =>
    rw [lastEntry, walkRecords]
    by_cases hsize : p < size
    · rw [if_pos hsize, if_pos hsize]
      by_cases hread : size < p + 6
      · rw [if_pos hread]
        refine iff_of_false Bool.false_ne_true fun h => absurd (h.2 0 fun j hj => ?_) ?_
        · rw [Nat.le_zero.1 hj]
          exact hsize
        · exact Nat.not_le.2 hread
      · rw [if_neg hread, ih]
        refine and_congr_right fun _ => ⟨fun h k hk => ?_, fun h k hk => ?_⟩
        · cases k with
          | zero => exact Nat.not_lt.1 hread
          | succ k => exact h k fun j hj => hk (j + 1) (Nat.succ_le_succ hj)
        · refine h (k + 1) fun j hj => ?_
          cases j with
          | zero => exact hsize
          | succ j => exact hk j (Nat.le_of_succ_le_succ hj)
    · rw [if_neg hsize, if_neg hsize]
      exact iff_of_true rfl ⟨rfl, fun k hk => absurd (hk 0 (Nat.zero_le k)) hsize⟩

/-- **When the walks end**: the one over any directory, when it comes to no record twice; if the
positions do not wrap, when no record it passes has the length 0. The fuel of the calls is enough
then. The loop of `ext2_create_directory_entry` ends if moreover all lengths are in its buffer. -/
theorem terminates_iff (walk : RecordWalk) :
    (walk.Terminates buffer size ↔
      ∀ i j, i < j → (∀ k ≤ j, walk.GoesOn buffer size (position buffer k)) →
        position buffer i ≠ position buffer j) ∧
    (size + 65535 ≤ 2 ^ 32 →
      (walk.Terminates buffer size ↔
        ∀ k, (∀ j ≤ k, walk.GoesOn buffer size (position buffer j)) →
          recLen buffer (position buffer k) ≠ 0)) ∧
    (size < 2 ^ 32 → (walk.ReturnsIn buffer size (2 ^ 32) ↔ walk.Terminates buffer size)) ∧
    (walk = create → ∀ fuel, ((lastEntry buffer size fuel 0 none).isSome ↔
      walk.ReturnsIn buffer size fuel ∧
        ∀ k, (∀ j ≤ k, walk.GoesOn buffer size (position buffer j)) →
          position buffer k + 6 ≤ size)) := by
  have hnext : ∀ p, nextEntry buffer p < 2 ^ 32 := fun p => Nat.mod_lt _ (Nat.two_pow_pos 32)
  have hends := (walk.terminates_iff_ends buffer size).1
  refine ⟨hends.trans (ends_iff hnext), fun hsize => hends.trans ?_, walk.returnsIn_iff buffer size,
    ?_⟩
  · refine ends_iff_of_lengths (fun p hp => wrap32_of_lt ?_) (fun p hp => hp.1)
    have hlen := recLen_lt buffer p
    have hlt := hp.1
    show p + recLen buffer p < 2 ^ 32
    omega
  · rintro rfl fuel
    rw [isSome_lastEntry_iff]
    refine and_congr_right fun _ => forall_congr' fun k => imp_congr_left ?_
    exact forall₂_congr fun j _ => (and_iff_left id).symm

/-- A block that one record fills. -/
def oneRecord : Bytes := directoryEntry.set (fun _ => 0) 0 .recLen 1024

theorem terminates_oneRecord :
    1024 + 65535 ≤ 2 ^ 32 ∧ RecordWalk.list.Terminates oneRecord 1024 := by
  refine ⟨by decide, ((terminates_iff oneRecord 1024 .list).2.1 (by decide)).2 ?_⟩
  intro k hk
  match k with
  | 0 => exact (by decide : recLen oneRecord 0 ≠ 0)
  | k + 1 => exact absurd (hk 1 (Nat.le_add_left 1 k)).1 (by decide)

/-- A record for the name `b` with the length 0. -/
def zeroLength : Bytes :=
  storeLE (directoryEntry.set (directoryEntry.set (fun _ => 0) 0 .inode 5) 0 .nameLen 1) 8 1 0x62

/-- No walk leaves a record of the length 0 that is not the one it looks for. -/
theorem not_terminates_zeroLength : recLen zeroLength 0 = 0 ∧
    ∀ walk ∈ [lookup [0x61#8], list, create, delete 7], ¬ walk.Terminates zeroLength 1024 := by
  have hstay : nextEntry zeroLength 0 = 0 := by decide
  refine ⟨by decide, fun walk hwalk hreturns => ?_⟩
  have hgo : walk.GoesOn zeroLength 1024 0 := by
    refine ⟨by decide, ?_⟩
    simp only [List.mem_cons, List.not_mem_nil, or_false] at hwalk
    rcases hwalk with rfl | rfl | rfl | rfl
    · exact (by decide : strncmp (entryName zeroLength 0) [0x61#8] 1 ≠ 0)
    · exact id
    · exact id
    · exact (by decide : entryInode zeroLength 0 ≠ 7)
  -- the walk stays at the record
  obtain ⟨k, hend⟩ := (walk.terminates_iff_ends zeroLength 1024).1.1 hreturns
  rw [Function.iterate_fixed hstay] at hend
  exact hend hgo

end RecordWalk

end Bloodmoon
