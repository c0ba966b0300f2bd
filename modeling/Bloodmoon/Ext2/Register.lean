import Bloodmoon.Ext2.Partition

/-!
# Registering an unknown partition

`registerPartition` has one value for a partition that is refused and for a registration whose
behaviour is undefined. Here the two are told apart: `registerRun` divides by zero or stores behind
`backup_bgs` with a `RegisterFault`, and is the function of the model otherwise
(`registerPartition_eq`). Neither happens exactly when the superblock has blocks and inodes in its
groups and the partition has few enough superblocks (`registersSafely_iff`).
-/

namespace Bloodmoon

open Machine List Option

/-- What can go wrong in `ext2_partition_register_partition`. -/
inductive RegisterFault where
  | divisionByZero
  | backupOverflow
  deriving DecidableEq

/-- The fault of a computation. -/
def RegisterFault.of {α : Type} : Except RegisterFault α → Option RegisterFault
  | .ok _ => none
  | .error fault => some fault

theorem RegisterFault.of_eq_some {α : Type} {x : Except RegisterFault α} {fault : RegisterFault} :
    of x = some fault ↔ x = .error fault := by
  cases x with
  | ok a => exact iff_of_false nofun nofun
  | error e =>
    exact ⟨fun h => congrArg _ (Option.some.inj h), fun h => congrArg _ (Except.error.inj h)⟩

namespace Volume

/-- There is a superblock in the group. -/
def hasMagic (sb : Option Bytes) : Bool :=
  match sb with
  | none => false
  | some sb => superblock.get sb 0 .magic = ext2SuperMagic

/-- The loop of `ext2_partition_register_partition` over the groups from `i` on, of which `left` are
left: the groups with a superblock, nothing when a sector cannot be read. -/
def findBackups (groupSb : ℕ → Option Bytes) :
    ℕ → ℕ → List ℕ → Except RegisterFault (Option (List ℕ))
  | 0, _, backups => .ok (some backups)
  | left + 1, i, backups =>
    match groupSb i with
    | none => .ok none
    | some dummySb =>
      if superblock.get dummySb 0 .magic = ext2SuperMagic then
        if 64 ≤ backups.length then .error .backupOverflow
        else findBackups groupSb left (i + 1) (backups ++ [i])
      else findBackups groupSb left (i + 1) backups

/-- `DIVIDE_ROUNDED_UP` of 32-bit values, where the divisor may be zero. -/
def checkedDivide (x y : ℕ) : Except RegisterFault ℕ :=
  if y = 0 then .error .divisionByZero else .ok (divideRoundedUp32 x y)

/-- `ext2_partition_register_partition` with the faults it can have. -/
def registerRun (disk : Disk) (lba : ℕ) (fresh : Bytes) : Except RegisterFault (Option Volume) :=
  if disk.sectorSize = 0 ∨ 4096 < disk.sectorSize then .ok none
  else
    match disk.read (wrap32 (lba + sbOffsetLba)) 2 fresh 0 with
    | none => .ok none
    | some sb =>
      if superblock.get sb 0 .magic ≠ ext2SuperMagic then .ok none
      else do
        let blockSize := wrap32 (1024 <<< superblock.get sb 0 .logBlockSize)
        let sectorsPerBlock := divideRoundedUp blockSize disk.sectorSize
        let bgdtBlock := if blockSize = 1024 then 2 else 1
        let first ← checkedDivide (superblock.get sb 0 .blocksCount)
          (superblock.get sb 0 .blocksPerGroup)
        let second ← checkedDivide (superblock.get sb 0 .inodesCount)
          (superblock.get sb 0 .inodesPerGroup)
        if first ≠ second then .ok none
        else do
          let sectorsPerGroup := wrap32 (superblock.get sb 0 .blocksPerGroup * sectorsPerBlock)
          let backups ← findBackups (groupSuperblock disk lba sectorsPerGroup fresh) first 0 []
          .ok (backups.bind fun backups =>
            registered disk lba fresh sb sectorsPerBlock bgdtBlock first backups)

/-! ### The loop over the groups -/

section Backups

variable {groupSb : ℕ → Option Bytes} {left i : ℕ} {backups : List ℕ}

/-- The groups that have been found stay. -/
theorem length_le_of_foldlM {l : List ℕ}
    (h : (List.range' i left).foldlM (backupStep groupSb) backups = some l) :
    backups.length ≤ l.length := by
  induction left generalizing i backups with
  | zero =>
    obtain rfl := Option.some.inj h
    exact Nat.le_refl _
  | succ left ih =>
    obtain ⟨found, hfound, h⟩ := bind_eq_some_iff.1 h
    obtain ⟨sb, -, rfl⟩ := map_eq_some_iff.1 hfound
    refine Nat.le_trans ?_ (ih h)
    split_ifs
    · rw [length_append]
      exact Nat.le_add_right _ _
    · exact Nat.le_refl _

/-- What the loop returns is what the fold over all groups finds, and a fault is one of too many. -/
theorem findBackups_eq (groupSb : ℕ → Option Bytes) (left i : ℕ) (hlen : backups.length ≤ 64) :
    (∃ r, findBackups groupSb left i backups = .ok r ∧
      (List.range' i left).foldlM (backupStep groupSb) backups = r ∧
      ∀ l, r = some l → l.length ≤ 64) ∨
    findBackups groupSb left i backups = .error .backupOverflow ∧
      ∀ l, (List.range' i left).foldlM (backupStep groupSb) backups = some l → 64 < l.length := by
  induction left generalizing i backups with
  | zero =>
    refine .inl ⟨_, rfl, rfl, fun l hl => ?_⟩
    exact Option.some.inj hl ▸ hlen
  | succ left ih =>
    rw [findBackups, range'_succ, foldlM_cons, backupStep]
    cases hsb : groupSb i with
    | none => exact .inl ⟨none, rfl, rfl, nofun⟩
    | some sb =>
      simp only [map_some]
      split_ifs with hmagic hfull
      · refine .inr ⟨rfl, fun l hl => ?_⟩
        have hle := length_le_of_foldlM hl
        rw [length_append, length_singleton] at hle
        omega
      · refine ih (i + 1) ?_
        rw [length_append, length_singleton]
        omega
      · exact ih (i + 1) hlen

/-- The loop has no fault exactly when there are at most 64 superblocks before a sector that cannot
be read. -/
theorem findBackups_ok_iff (groupSb : ℕ → Option Bytes) (left i : ℕ)
    (hlen : backups.length ≤ 64) :
    (∃ r, findBackups groupSb left i backups = .ok r) ↔
      ∀ n ≤ left, (∀ k < n, (groupSb (i + k)).isSome = true) →
        backups.length + (List.range' i n).countP (fun k => hasMagic (groupSb k)) ≤ 64 := by
  induction left generalizing i backups with
  | zero =>
    refine iff_of_true ⟨_, rfl⟩ fun n hn _ => ?_
    rw [Nat.le_zero.1 hn]
    exact hlen
  | succ left ih =>
    -- the first group, and those behind it
    have hsplit : (∀ n ≤ left + 1, (∀ k < n, (groupSb (i + k)).isSome = true) →
        backups.length + (List.range' i n).countP (fun k => hasMagic (groupSb k)) ≤ 64) ↔
        ((groupSb i).isSome = true → ∀ n ≤ left,
          (∀ k < n, (groupSb (i + 1 + k)).isSome = true) →
            backups.length + (List.range' (i + 1) n).countP (fun k => hasMagic (groupSb k)) +
              (if hasMagic (groupSb i) = true then 1 else 0) ≤ 64) := by
      constructor
      · intro h hsome n hn hrest
        have hle := h (n + 1) (Nat.succ_le_succ hn) fun k hk => by
          cases k with
          | zero => exact hsome
          | succ k =>
            rw [Nat.add_comm k 1, ← Nat.add_assoc]
            exact hrest k (Nat.lt_of_succ_lt_succ hk)
        rwa [range'_succ, countP_cons, ← Nat.add_assoc] at hle
      · intro h n hn hall
        cases n with
        | zero => exact hlen
        | succ n =>
          rw [range'_succ, countP_cons, ← Nat.add_assoc]
          refine h (hall 0 (Nat.succ_pos n)) n (Nat.le_of_succ_le_succ hn) fun k hk => ?_
          rw [Nat.add_assoc, Nat.add_comm 1 k]
          exact hall (k + 1) (Nat.succ_lt_succ hk)
    rw [hsplit, findBackups]
    cases hsb : groupSb i with
    | none => exact iff_of_true ⟨none, rfl⟩ fun hsome => absurd hsome (by simp)
    | some sb =>
      simp only [hasMagic, decide_eq_true_eq, isSome_some, forall_true_left]
      split_ifs with hmagic hfull
      · refine iff_of_false (fun ⟨r, hr⟩ => nomatch hr) fun h => ?_
        have hle := h 0 (Nat.zero_le _) fun k hk => absurd hk (Nat.not_lt_zero k)
        omega
      · rw [ih (i + 1) (by rw [length_append, length_singleton]; omega)]
        simp only [length_append, length_singleton, hasMagic]
        refine forall_congr' fun n => imp_congr_right fun _ => imp_congr_right fun _ => ?_
        omega
      · exact ih (i + 1) hlen

end Backups

/-! ### The whole call -/

section Register

variable {disk : Disk} {lba : ℕ} {fresh sb : Bytes}

/-- The number of groups, as the blocks of the superblock say. -/
def groupsOf (sb : Bytes) : ℕ :=
  divideRoundedUp32 (superblock.get sb 0 .blocksCount) (superblock.get sb 0 .blocksPerGroup)

/-- The number of groups, as the inodes of the superblock say. -/
def inodeGroupsOf (sb : Bytes) : ℕ :=
  divideRoundedUp32 (superblock.get sb 0 .inodesCount) (superblock.get sb 0 .inodesPerGroup)

/-- What is read where the superblock of a group of the partition would be. -/
def groupSuperblockOf (disk : Disk) (lba : ℕ) (fresh sb : Bytes) : ℕ → Option Bytes :=
  groupSuperblock disk lba (wrap32 (superblock.get sb 0 .blocksPerGroup *
    divideRoundedUp (wrap32 (1024 <<< superblock.get sb 0 .logBlockSize)) disk.sectorSize)) fresh

/-- The call when the superblock has been read and there is no division by zero. -/
theorem registerRun_of_groups (hsize : ¬ (disk.sectorSize = 0 ∨ 4096 < disk.sectorSize))
    (hread : disk.read (wrap32 (lba + sbOffsetLba)) 2 fresh 0 = some sb)
    (hmagic : superblock.get sb 0 .magic = ext2SuperMagic)
    (hblocks : superblock.get sb 0 .blocksPerGroup ≠ 0)
    (hinodes : superblock.get sb 0 .inodesPerGroup ≠ 0) :
    registerRun disk lba fresh =
      if groupsOf sb ≠ inodeGroupsOf sb then .ok none
      else findBackups (groupSuperblockOf disk lba fresh sb) (groupsOf sb) 0 [] >>= fun backups =>
        .ok (backups.bind fun backups => registered disk lba fresh sb
          (divideRoundedUp (wrap32 (1024 <<< superblock.get sb 0 .logBlockSize)) disk.sectorSize)
          (if wrap32 (1024 <<< superblock.get sb 0 .logBlockSize) = 1024 then 2 else 1)
          (groupsOf sb) backups) := by
  rw [registerRun, if_neg hsize, hread]
  simp only [hmagic, checkedDivide, if_neg hblocks, if_neg hinodes]
  rfl

/-- A division by zero comes before everything that depends on the groups. -/
theorem registerRun_of_zero (hsize : ¬ (disk.sectorSize = 0 ∨ 4096 < disk.sectorSize))
    (hread : disk.read (wrap32 (lba + sbOffsetLba)) 2 fresh 0 = some sb)
    (hmagic : superblock.get sb 0 .magic = ext2SuperMagic)
    (hzero : superblock.get sb 0 .blocksPerGroup = 0 ∨ superblock.get sb 0 .inodesPerGroup = 0) :
    registerRun disk lba fresh = .error .divisionByZero := by
  rw [registerRun, if_neg hsize, hread]
  simp only [hmagic, checkedDivide]
  by_cases hblocks : superblock.get sb 0 .blocksPerGroup = 0
  · rw [if_pos hblocks]
    rfl
  · rw [if_neg hblocks, if_pos (hzero.resolve_left hblocks)]
    rfl

/-- The model when there is no division by zero. -/
theorem registerPartition_of_groups (hsize : ¬ (disk.sectorSize = 0 ∨ 4096 < disk.sectorSize))
    (hread : disk.read (wrap32 (lba + sbOffsetLba)) 2 fresh 0 = some sb)
    (hmagic : superblock.get sb 0 .magic = ext2SuperMagic)
    (hzero : ¬ (superblock.get sb 0 .blocksPerGroup = 0 ∨
      superblock.get sb 0 .inodesPerGroup = 0)) :
    registerPartition disk lba fresh =
      if groupsOf sb ≠ inodeGroupsOf sb then none
      else ((List.range' 0 (groupsOf sb)).foldlM
          (backupStep (groupSuperblockOf disk lba fresh sb)) []).bind fun backups =>
        if 64 < backups.length then none
        else registered disk lba fresh sb
          (divideRoundedUp (wrap32 (1024 <<< superblock.get sb 0 .logBlockSize)) disk.sectorSize)
          (if wrap32 (1024 <<< superblock.get sb 0 .logBlockSize) = 1024 then 2 else 1)
          (groupsOf sb) backups := by
  rw [registerPartition, if_neg hsize, hread, ← range_eq_range']
  simp only [hmagic, if_neg hzero, bind_eq_bind, bind_some]
  rfl

/-- **The model is the call without its faults.** -/
theorem registerPartition_eq (disk : Disk) (lba : ℕ) (fresh : Bytes) :
    registerPartition disk lba fresh =
      match registerRun disk lba fresh with
      | .ok r => r
      | .error _ => none := by
  by_cases hsize : disk.sectorSize = 0 ∨ 4096 < disk.sectorSize
  · rw [registerPartition, registerRun, if_pos hsize, if_pos hsize]
  cases hread : disk.read (wrap32 (lba + sbOffsetLba)) 2 fresh 0 with
  | none =>
    rw [registerPartition, registerRun, if_neg hsize, if_neg hsize, hread]
    rfl
  | some sb =>
    by_cases hmagic : superblock.get sb 0 .magic = ext2SuperMagic
    · by_cases hzero : superblock.get sb 0 .blocksPerGroup = 0 ∨
          superblock.get sb 0 .inodesPerGroup = 0
      · rw [registerRun_of_zero hsize hread hmagic hzero, registerPartition, if_neg hsize, hread]
        simp only [hmagic, ne_eq, not_true_eq_false, if_false, if_pos hzero, bind_eq_bind,
          bind_some]
      · obtain ⟨hblocks, hinodes⟩ := not_or.1 hzero
        rw [registerRun_of_groups hsize hread hmagic hblocks hinodes,
          registerPartition_of_groups hsize hread hmagic hzero]
        by_cases hgroups : groupsOf sb = inodeGroupsOf sb
        · rw [if_neg (not_not.2 hgroups), if_neg (not_not.2 hgroups)]
          rcases findBackups_eq (groupSuperblockOf disk lba fresh sb) (groupsOf sb) 0
            (show ([] : List ℕ).length ≤ 64 from Nat.zero_le 64) with
            ⟨r, hloop, hr, hlen⟩ | ⟨hloop, hmany⟩
          · rw [hloop, hr]
            cases r with
            | none => rfl
            | some l => exact if_neg (Nat.not_lt.2 (hlen l rfl))
          · rw [hloop]
            cases hfold : (List.range' 0 (groupsOf sb)).foldlM
                (backupStep (groupSuperblockOf disk lba fresh sb)) [] with
            | none => rfl
            | some l => exact if_pos (hmany l hfold)
        · rw [if_pos hgroups, if_pos hgroups]
    · rw [registerPartition, registerRun, if_neg hsize, if_neg hsize, hread]
      simp only [ne_eq, hmagic, not_false_eq_true, if_true, bind_eq_bind, bind_some]

/-- There is no fault, and a partition that is registered has at most 64 superblocks. -/
def RegistersSafely (disk : Disk) (lba : ℕ) (fresh : Bytes) : Prop :=
  ∃ r, registerRun disk lba fresh = .ok r ∧ ∀ v, r = some v → v.backupBgsCount ≤ 64

/-- **When registering is safe.** For a superblock with the magic of ext2: exactly when neither the
blocks nor the inodes in a group are zero, and, if both give the same number of groups, at most 64
groups before one that cannot be read have the magic where the superblock would be. -/
theorem registersSafely_iff (hsize : disk.sectorSize ≠ 0) (hsize' : disk.sectorSize ≤ 4096)
    (hread : disk.read (wrap32 (lba + sbOffsetLba)) 2 fresh 0 = some sb)
    (hmagic : superblock.get sb 0 .magic = ext2SuperMagic) :
    RegistersSafely disk lba fresh ↔
      superblock.get sb 0 .blocksPerGroup ≠ 0 ∧ superblock.get sb 0 .inodesPerGroup ≠ 0 ∧
        (groupsOf sb = inodeGroupsOf sb → ∀ n ≤ groupsOf sb,
          (∀ i < n, (groupSuperblockOf disk lba fresh sb i).isSome = true) →
            (List.range n).countP (fun i => hasMagic (groupSuperblockOf disk lba fresh sb i)) ≤
              64) := by
  have hsizes : ¬ (disk.sectorSize = 0 ∨ 4096 < disk.sectorSize) := by omega
  by_cases hzero : superblock.get sb 0 .blocksPerGroup = 0 ∨
      superblock.get sb 0 .inodesPerGroup = 0
  · refine iff_of_false ?_ fun hcond => hzero.elim hcond.1 hcond.2.1
    rintro ⟨r, hr, -⟩
    exact nomatch (registerRun_of_zero hsizes hread hmagic hzero).symm.trans hr
  obtain ⟨hblocks, hinodes⟩ := not_or.1 hzero
  have hloop := findBackups_ok_iff (groupSuperblockOf disk lba fresh sb) (groupsOf sb) 0
    (show ([] : List ℕ).length ≤ 64 from Nat.zero_le 64)
  simp only [length_nil, Nat.zero_add, ← range_eq_range'] at hloop
  rw [RegistersSafely, registerRun_of_groups hsizes hread hmagic hblocks hinodes,
    and_iff_right hblocks, and_iff_right hinodes]
  by_cases hgroups : groupsOf sb = inodeGroupsOf sb
  · rw [if_neg (not_not.2 hgroups), forall_prop_of_true hgroups, ← hloop]
    constructor
    · rintro ⟨r, hr, -⟩
      cases hfound : findBackups (groupSuperblockOf disk lba fresh sb) (groupsOf sb) 0 [] with
      | error e =>
        rw [hfound] at hr
        exact nomatch hr
      | ok backups => exact ⟨backups, rfl⟩
    · rintro ⟨backups, hfound⟩
      rw [hfound]
      refine ⟨_, rfl, fun v hv => ?_⟩
      obtain ⟨l, rfl, hv⟩ := bind_eq_some_iff.1 hv
      obtain ⟨gd, -, rfl⟩ := map_eq_some_iff.1 hv
      rcases findBackups_eq (groupSuperblockOf disk lba fresh sb) (groupsOf sb) 0
        (show ([] : List ℕ).length ≤ 64 from Nat.zero_le 64) with ⟨r, hr, -, hlen⟩ | ⟨herror, -⟩
      · exact hlen l (Except.ok.inj (hr.symm.trans hfound))
      · exact nomatch herror.symm.trans hfound
  · rw [if_pos hgroups]
    exact iff_of_true ⟨none, rfl, nofun⟩ fun h => absurd h hgroups

end Register

/-- A disk with groups of eight blocks, each with the same superblock, that says how many blocks are
in a group. -/
def repeatedSuperblock (blocksPerGroup groups : ℕ) : Disk where
  sectorSize := 512
  bytes x := ([(1024, BitVec.ofNat 8 (8 * groups)), (1025, BitVec.ofNat 8 (8 * groups / 256)),
    (1028, BitVec.ofNat 8 (8 * groups)), (1029, BitVec.ofNat 8 (8 * groups / 256)),
    (1056, BitVec.ofNat 8 blocksPerGroup), (1064, 8#8), (1080, 0x53#8),
    (1081, 0xEF#8)].lookup (x % 8192)).getD 0#8
  readable _ _ := true
  writable _ _ := true

/-- A partition with one group is registered. -/
theorem registersSafely_repeatedSuperblock :
    RegistersSafely (repeatedSuperblock 8 1) 0 fun _ => 0#8 := by
  refine (registersSafely_iff (by decide) (by decide) rfl (by decide +kernel)).2
    ⟨by decide +kernel, by decide +kernel, fun _ n hn _ => ?_⟩
  have hgroups : n ≤ 1 := Nat.le_trans hn (by decide +kernel)
  calc (List.range n).countP _ ≤ (List.range n).length := countP_le_length
    _ = n := length_range
    _ ≤ 64 := by omega

/-- With no blocks in a group there is a division by zero, and with 65 groups the last one is stored
behind `backup_bgs`. -/
theorem not_registersSafely_repeatedSuperblock :
    registerRun (repeatedSuperblock 0 1) 0 (fun _ => 0#8) = .error .divisionByZero ∧
      registerRun (repeatedSuperblock 8 65) 0 (fun _ => 0#8) = .error .backupOverflow ∧
      ¬ RegistersSafely (repeatedSuperblock 0 1) 0 (fun _ => 0#8) ∧
      ¬ RegistersSafely (repeatedSuperblock 8 65) 0 fun _ => 0#8 := by
  have hzero : registerRun (repeatedSuperblock 0 1) 0 (fun _ => 0#8) = .error .divisionByZero :=
    RegisterFault.of_eq_some.1 (by decide +kernel)
  have hmany : registerRun (repeatedSuperblock 8 65) 0 (fun _ => 0#8) = .error .backupOverflow :=
    RegisterFault.of_eq_some.1 (by decide +kernel)
  refine ⟨hzero, hmany, ?_, ?_⟩
  · rintro ⟨r, hr, -⟩
    exact nomatch hzero.symm.trans hr
  · rintro ⟨r, hr, -⟩
    exact nomatch hmany.symm.trans hr

end Volume

end Bloodmoon
