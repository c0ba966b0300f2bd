import Bloodmoon.Ext2.DirectoryRecords

/-!
# Removing an entry from a directory

`ext2_delete_dentry` looks for the first record with the inode that the path leads to, clears it and
adds its length to the record before it, whatever block that is in. So the entry that is removed is
the one that was meant just if no record before it has its inode, and the records stay in their
blocks just if the entry is not the first one of its block.

The sum of the two lengths has 16 bits. In blocks of at most 32 KiB it does not exceed them; in
larger ones it may, and what is then found behind the shorter length are bytes that nobody has
written as a record.
-/

namespace Bloodmoon

open Machine Layout List Option

variable {bytes : Bytes} {bs size p q r : ℕ} {ps before after : List ℕ}
variable {a e fuel target : ℕ}

/-- The records of a directory fill its blocks, none crosses the end of a block, and the records
with an inode have names. -/
structure BlockRecords (bs : ℕ) (bytes : Bytes) (size : ℕ) (ps : List ℕ) : Prop
    extends DirRecords bytes size ps where
  whole : bs ∣ size
  inBlock : ∀ p ∈ ps, p % bs + recLen bytes p ≤ bs
  named : ∀ p ∈ ps, entryInode bytes p ≠ 0 → 0 < nameLen bytes p

/-- Records whose bytes are the same are in their blocks as before. -/
theorem BlockRecords.congr {bytes' : Bytes} (h : BlockRecords bs bytes size ps)
    (hsame : SameOn bytes bytes' 0 size) : BlockRecords bs bytes' size ps := by
  have hget := h.toDirRecords.get_congr hsame
  refine ⟨(h.toDirRecords.congr hsame).1, h.whole, fun p hp => ?_, fun p hp hinode => ?_⟩
  · rw [recLen, hget p hp]
    exact h.inBlock p hp
  · rw [entryInode, hget p hp] at hinode
    rw [nameLen, hget p hp]
    exact h.named p hp hinode

/-! ### Finding a record -/

/-- The records that are left when one is merged with the one before it. -/
theorem sublist_merged : (before ++ q :: after).Sublist (before ++ q :: r :: after) :=
  (List.Sublist.refl before).append ((sublist_cons_self r after).cons_cons q)

/-- **The loop** finds the first record with the inode, and the record before it. -/
theorem findEntry_eq (h : Tiles (recLen bytes) a (before ++ r :: after) size)
    (hnext : ∀ p ∈ before, nextEntry bytes p = p + recLen bytes p)
    (hbefore : ∀ p ∈ before, entryInode bytes p ≠ target)
    (hr : entryInode bytes r = target) (hfuel : size < a + fuel) (previous : Option ℕ) :
    findEntry bytes size target fuel a previous =
      some (some (before.foldl (fun _ p => some p) previous, r)) := by
  induction before generalizing a fuel previous with
  | nil =>
    obtain ⟨rfl, hpos, hrest⟩ := h
    have hle := hrest.le
    obtain _ | fuel := fuel
    · omega
    rw [findEntry, if_pos (by omega), if_pos hr]
    rfl
  | cons p before ih =>
    obtain ⟨rfl, hpos, hrest⟩ := h
    have hle := hrest.le
    obtain _ | fuel := fuel
    · omega
    rw [findEntry, if_pos (by omega), if_neg (hbefore p mem_cons_self),
      hnext p mem_cons_self, ih hrest (forall_mem_cons.1 hnext).2
        (forall_mem_cons.1 hbefore).2 (by omega)]
    rfl

/-- The loop finds nothing if there is no record with the inode. -/
theorem findEntry_eq_none (h : Tiles (recLen bytes) a ps size)
    (hnext : ∀ p ∈ ps, nextEntry bytes p = p + recLen bytes p)
    (hps : ∀ p ∈ ps, entryInode bytes p ≠ target) (hfuel : size < a + fuel) (previous : Option ℕ) :
    findEntry bytes size target fuel a previous = some none := by
  induction ps generalizing a fuel previous with
  | nil =>
    obtain rfl : a = size := h
    obtain _ | fuel := fuel
    · omega
    rw [findEntry, if_neg (Nat.lt_irrefl a)]
  | cons p ps ih =>
    obtain ⟨rfl, hpos, hrest⟩ := h
    have hle := hrest.le
    obtain _ | fuel := fuel
    · omega
    rw [findEntry, if_pos (by omega), if_neg (hps p mem_cons_self),
      hnext p mem_cons_self, ih hrest (forall_mem_cons.1 hnext).2
        (forall_mem_cons.1 hps).2 (by omega)]

/-! ### Clearing a record -/

/-- The buffer after a record has been cleared, before its length is changed. -/
def wipeEntry (bytes : Bytes) (r : ℕ) : Bytes :=
  storeLE
    (directoryEntry.set
      (directoryEntry.set (directoryEntry.set bytes r .inode 0) r .nameLen 0) r .fileType 0)
    (r + 8) 1 0

theorem clearEntry_some (bytes : Bytes) (q r : ℕ) :
    clearEntry bytes (some q) r = directoryEntry.set
      (directoryEntry.set (wipeEntry bytes r) q .recLen
        (recLen (wipeEntry bytes r) q + recLen (wipeEntry bytes r) r)) r .recLen 0 := rfl

/-- Only the header and the first character of the name are wiped. -/
theorem wipeEntry_apply {x : ℕ} (h : x < r ∨ r + 9 ≤ x) : wipeEntry bytes r x = bytes x := by
  have houtside : x < r ∨ r + directoryEntry.size ≤ x := by
    change x < r ∨ r + 8 ≤ x
    omega
  rw [wipeEntry, storeLE_apply_of_not_mem _ _ (by omega), set_apply_of_outside _ houtside,
    set_apply_of_outside _ houtside, set_apply_of_outside _ houtside]

/-- The length of the record is kept. -/
theorem recLen_wipeEntry (bytes : Bytes) (r : ℕ) :
    recLen (wipeEntry bytes r) r = recLen bytes r := by
  have hname : ∀ m : Bytes, recLen (storeLE m (r + 8) 1 0) r = recLen m r := fun m =>
    loadLE_congr (sameOn_storeLE m 0 (.inl (by change r + 4 + 2 ≤ _; omega)))
  rw [wipeEntry, hname, recLen, get_set_of_ne _ (by decide), get_set_of_ne _ (by decide),
    get_set_of_ne _ (by decide)]

theorem recLen_clearEntry_self (bytes : Bytes) (previous : Option ℕ) (r : ℕ) :
    recLen (clearEntry bytes previous r) r = 0 :=
  get_set_self (by decide)

section Merge

variable (hq : 8 ≤ recLen bytes q) (hqr : q + recLen bytes q = r)

include hq hqr

/-- The bytes of the other records are kept. -/
theorem clearEntry_apply {x : ℕ} (h : x < r ∨ r + 9 ≤ x) (h' : x < q + 4 ∨ q + 6 ≤ x) :
    clearEntry bytes (some q) r x = bytes x := by
  have houtside : x < r ∨ r + directoryEntry.size ≤ x := by
    change x < r ∨ r + 8 ≤ x
    omega
  have hset : ∀ (m : Bytes) y, directoryEntry.set m q .recLen y x = m x := fun m y =>
    storeLE_apply_of_not_mem m y (by change x < q + 4 ∨ q + 4 + 2 ≤ x; omega)
  rw [clearEntry_some, set_apply_of_outside _ houtside, hset, wipeEntry_apply h]

/-- The record before has both lengths. -/
theorem recLen_clearEntry : recLen (clearEntry bytes (some q) r) q =
    (recLen bytes q + recLen bytes r) % 65536 := by
  have hapart : directoryEntry.Apart r q := by
    change r + 8 ≤ q ∨ q + 8 ≤ r
    omega
  have hsame : SameOn bytes (wipeEntry bytes r) q directoryEntry.size := fun x _ hx => by
    have hx : x < q + 8 := hx
    exact wipeEntry_apply (.inl (by omega))
  have hkept : recLen (wipeEntry bytes r) q = recLen bytes q := get_congr hsame .recLen
  rw [clearEntry_some, recLen, get_set_of_apart _ hapart, recLen_wipeEntry, hkept]
  exact loadLE_storeLE _ _ 2 _

/-- The record before keeps everything else. -/
theorem liveEntry_clearEntry (hname : 8 + nameLen bytes q ≤ recLen bytes q) :
    (∀ f, f ≠ .recLen →
      directoryEntry.get (clearEntry bytes (some q) r) q f = directoryEntry.get bytes q f) ∧
      liveEntry (clearEntry bytes (some q) r) q = liveEntry bytes q := by
  have hfields : ∀ f, f ≠ .recLen →
      directoryEntry.get (clearEntry bytes (some q) r) q f = directoryEntry.get bytes q f := by
    intro f hf
    have hwithin : directoryEntry.offset f + directoryEntry.width f ≤ 8 := directoryEntry.within f
    have hdisjoint := directoryEntry.disjoint f .recLen hf
    change _ ≤ 4 ∨ 4 + 2 ≤ _ at hdisjoint
    exact loadLE_congr fun x hx hx' => clearEntry_apply hq hqr (.inl (by omega)) (by omega)
  refine ⟨hfields, ?_⟩
  rw [liveEntry, liveEntry, entryInode, hfields _ (by decide), hfields _ (by decide),
    entryName_congr (hfields _ (by decide)) fun x hx hx' =>
      clearEntry_apply hq hqr (.inl (by omega)) (.inr (by omega))]

end Merge

/-- A record of which the length is lost with the one before it: the sum is 65536. -/
theorem DirRecords.not_tiles_of_sum (h : DirRecords bytes size (before ++ q :: r :: after))
    (hsum : recLen bytes q + recLen bytes r = 65536) :
    ¬ Tiles (recLen (clearEntry bytes (some q) r)) 0 ps size := by
  intro hps
  obtain ⟨hbefore, hqpos, hq, hrpos, hafter⟩ := h.tiles.split
  have hq : q + recLen bytes q = r := hq.symm
  have hqname := h.names q (by simp)
  have hle := hafter.le
  have hsame : ∀ p ∈ before, recLen (clearEntry bytes (some q) r) p = recLen bytes p := by
    intro p hp
    have := (hbefore.mem hp).2.2
    have := h.names p (by simp [hp])
    have hbytes : SameOn bytes (clearEntry bytes (some q) r) p (8 + nameLen bytes p) :=
      fun x hx hx' => clearEntry_apply (by omega) hq (.inl (by omega)) (.inl (by omega))
    exact (record_congr hbytes).1 .recLen
  have hlen := (hps.mem (hps.mem_of_tiles (hbefore.congr hsame) (by omega))).2.1
  rw [recLen_clearEntry (by omega) hq, hsum] at hlen
  exact absurd hlen (by decide)

/-- **A record is merged into the one before it**, and all others are kept. -/
theorem DirRecords.of_merge (h : DirRecords bytes size (before ++ q :: r :: after))
    (hr : 9 ≤ recLen bytes r) (hsum : recLen bytes q + recLen bytes r < 65536) {G : Bytes}
    (hG : clearEntry bytes (some q) r = G) :
    DirRecords G size (before ++ q :: after) ∧ recLen G q = recLen bytes q + recLen bytes r ∧
      (∀ p ∈ before ++ after, ∀ f, directoryEntry.get G p f = directoryEntry.get bytes p f) ∧
      (∀ f, f ≠ .recLen → directoryEntry.get G q f = directoryEntry.get bytes q f) ∧
      liveEntries G (before ++ q :: after) = liveEntries bytes (before ++ q :: after) := by
  obtain ⟨hbefore, hqpos, hq, hrpos, hafter⟩ := h.tiles.split
  have hq : q + recLen bytes q = r := hq.symm
  have hafter : Tiles (recLen bytes) (r + recLen bytes r) after size := hq ▸ hafter
  have hqname := h.names q (by simp)
  -- the records before and behind the two
  have hsame : ∀ p ∈ before ++ after, SameOn bytes G p (8 + nameLen bytes p) := by
    intro p hp x hx hx'
    rw [← hG]
    rcases mem_append.mp hp with hp | hp
    · have := (hbefore.mem hp).2.2
      have := h.names p (by simp [hp])
      exact clearEntry_apply (by omega) hq (.inl (by omega)) (.inl (by omega))
    · have := (hafter.mem hp).1
      exact clearEntry_apply (by omega) hq (.inr (by omega)) (.inr (by omega))
  have hothers := fun p hp => (record_congr (hsame p hp)).1
  -- the record that has both lengths
  have hlen : recLen G q = recLen bytes q + recLen bytes r := by
    rw [← hG, recLen_clearEntry (by omega) hq, Nat.mod_eq_of_lt hsum]
  obtain ⟨hfields, hentry⟩ := liveEntry_clearEntry (by omega) hq hqname
  rw [hG] at hfields hentry
  have hlenOthers : ∀ p ∈ before ++ after, recLen G p = recLen bytes p := fun p hp =>
    hothers p hp .recLen
  have htiles : Tiles (recLen G) 0 (before ++ q :: after) size := by
    refine tiles_append.mpr ⟨q, hbefore.congr fun p hp => hlenOthers p (by simp [hp]), rfl, ?_, ?_⟩
    · omega
    · rw [hlen, ← Nat.add_assoc, hq]
      exact hafter.congr fun p hp => hlenOthers p (by simp [hp])
  refine ⟨⟨htiles, fun p hp => ?_⟩, hlen, hothers, hfields, ?_⟩
  · rcases mem_append.mp hp with hp | hp
    · rw [hlenOthers p (by simp [hp]), nameLen, hothers p (by simp [hp])]
      exact h.names p (by simp [hp])
    · rcases mem_cons.mp hp with rfl | hp
      · rw [nameLen, hfields _ (by decide), hlen]
        exact Nat.le_trans hqname (Nat.le_add_right _ _)
      · rw [hlenOthers p (by simp [hp]), nameLen, hothers p (by simp [hp])]
        exact h.names p (by simp [hp])
  · rw [append_cons, liveEntries_append, liveEntries_append, liveEntries_append,
      liveEntries_append, liveEntries_singleton_congr hentry,
      liveEntries_congr fun p hp => hsame p (by simp [hp]),
      liveEntries_congr fun p hp => hsame p (by simp [hp])]

/-- The merged record stays in its block just if the record was not the first one of a block. -/
theorem BlockRecords.merge_iff (h : BlockRecords bs bytes size (before ++ q :: r :: after))
    (hlive : entryInode bytes r ≠ 0) (hsum : recLen bytes q + recLen bytes r < 65536) {G : Bytes}
    (hG : clearEntry bytes (some q) r = G) :
    BlockRecords bs G size (before ++ q :: after) ↔ r % bs ≠ 0 := by
  have hr := h.named r (by simp) hlive
  have hrname := h.names r (by simp)
  obtain ⟨hrecords, hlen, hothers, hfields, -⟩ := h.toDirRecords.of_merge (by omega) hsum hG
  obtain ⟨-, hqpos, hq, -⟩ := h.tiles.split
  have hq : r = q + recLen bytes q := hq
  have hqin := h.inBlock q (by simp)
  have hrin := h.inBlock r (by simp)
  have hmod : r % bs = (q % bs + recLen bytes q) % bs := by rw [hq, Nat.mod_add_mod]
  constructor
  · intro hmerged hzero
    have hmergedIn := hmerged.inBlock q (by simp)
    rw [hzero] at hmod
    have hdvd := Nat.dvd_of_mod_eq_zero hmod.symm
    have := Nat.le_of_dvd (by omega) hdvd
    omega
  · intro hne
    have hlt : q % bs + recLen bytes q < bs := by
      refine Nat.lt_of_le_of_ne hqin fun heq => hne ?_
      rw [hmod, heq, Nat.mod_self]
    rw [Nat.mod_eq_of_lt hlt] at hmod
    refine ⟨hrecords, h.whole, fun p hp => ?_, fun p hp hinode => ?_⟩
    · rcases mem_append.mp hp with hp | hp
      · rw [recLen, hothers p (by simp [hp])]
        exact h.inBlock p (by simp [hp])
      · rcases mem_cons.mp hp with rfl | hp
        · omega
        · rw [recLen, hothers p (by simp [hp])]
          exact h.inBlock p (by simp [hp])
    · rcases mem_append.mp hp with hp | hp
      · rw [entryInode, hothers p (by simp [hp])] at hinode
        rw [nameLen, hothers p (by simp [hp])]
        exact h.named p (by simp [hp]) hinode
      · rcases mem_cons.mp hp with rfl | hp
        · rw [entryInode, hfields _ (by decide)] at hinode
          rw [nameLen, hfields _ (by decide)]
          exact h.named p (by simp) hinode
        · rw [entryInode, hothers p (by simp [hp])] at hinode
          rw [nameLen, hothers p (by simp [hp])]
          exact h.named p (by simp [hp]) hinode

/-! ### Which entry is removed -/

/-- A list that is shifted by one element has the same element at both ends. -/
theorem eq_of_append_singleton_eq_cons {α : Type*} {l : List α} {a b : α}
    (h : l ++ [a] = b :: l) : a = b := by
  induction l with
  | nil => exact (List.cons.inj h).1
  | cons c l ih =>
    obtain ⟨rfl, htail⟩ := List.cons.inj h
    exact ih htail

/-- Removing one of two entries of which the first is not the second gives different lists. -/
theorem liveEntries_ne_of_before {mid : List ℕ} (hr : entryInode bytes r ≠ 0)
    (he : entryInode bytes e ≠ 0) (hne : liveEntry bytes e ≠ liveEntry bytes r) :
    liveEntries bytes (before ++ (mid ++ e :: after)) ≠
      liveEntries bytes (before ++ (r :: mid ++ after)) := by
  intro heq
  rw [cons_append, liveEntries_append, liveEntries_append, liveEntries_append,
    liveEntries_cons_of_ne hr, liveEntries_cons_of_ne he, liveEntries_append] at heq
  have hshift : liveEntries bytes mid ++ [liveEntry bytes e] =
      liveEntry bytes r :: liveEntries bytes mid := by
    refine (append_left_inj (liveEntries bytes after)).mp ?_
    rw [append_assoc]
    exact append_cancel_left heq
  exact hne (eq_of_append_singleton_eq_cons hshift)

/-- **The entry that is removed is the right one** just if it is the record that was meant: the
first record with its inode, and the first entry with its name. -/
theorem liveEntries_erase_iff {before' after' : List ℕ}
    (heq : before ++ r :: after = before' ++ e :: after')
    (hr : entryInode bytes r ≠ 0) (he : entryInode bytes e ≠ 0)
    (hfirst : ∀ p ∈ before, entryInode bytes p ≠ entryInode bytes r)
    (hname : ∀ p ∈ before', entryInode bytes p ≠ 0 → entryName bytes p ≠ entryName
      bytes e) :
    liveEntries bytes (before ++ after) = liveEntries bytes (before' ++ after') ↔
      before = before' ∧ r = e ∧ after = after' := by
  rcases append_eq_append_iff.mp heq with ⟨mid, rfl, hmid⟩ | ⟨mid, rfl, hmid⟩
  · cases mid with
    | nil =>
      obtain ⟨rfl, rfl⟩ := List.cons.inj hmid
      rw [append_nil]
      exact iff_of_true rfl ⟨rfl, rfl, rfl⟩
    | cons c mid =>
      -- the record that is removed comes before the entry that was meant
      obtain ⟨rfl, rfl⟩ := List.cons.inj hmid
      refine iff_of_false (fun hlists => ?_) fun hand => ?_
      · rw [append_assoc] at hlists
        refine liveEntries_ne_of_before hr he (fun hentry => ?_) hlists
        exact hname r (by simp) hr (congrArg LiveEntry.name hentry).symm
      · have := congrArg List.length hand.1
        simp at this
  · cases mid with
    | nil =>
      obtain ⟨rfl, rfl⟩ := List.cons.inj hmid
      rw [append_nil]
      exact iff_of_true rfl ⟨rfl, rfl, rfl⟩
    | cons c mid =>
      obtain ⟨rfl, rfl⟩ := List.cons.inj hmid
      refine iff_of_false (fun hlists => ?_) fun hand => ?_
      · rw [append_assoc] at hlists
        refine liveEntries_ne_of_before he hr (fun hentry => ?_) hlists.symm
        exact hfirst e (by simp) (congrArg LiveEntry.inode hentry).symm
      · have := congrArg List.length hand.1
        simp at this

/-! ### The call -/

namespace Volume

variable {v : Volume} {n e target : ℕ} {inode : Bytes} {path parentPath name : Text}

/-- The path without its last component leads to `n`. -/
def ParentFound (v : Volume) (path : Text) (n : ℕ) : Prop :=
  ∃ parentPath name, pathToParentAndName path = some (parentPath, name) ∧
    v.pathToInode parentPath = some n

/-- The directory `n` of the path has the given records. The parent path leads to no other inode; it
need not lead to one, as the path of the root directory shows. -/
structure DirectoryAt (v : Volume) (path : Text) (n : ℕ) (inode : Bytes) (ps : List ℕ) : Prop where
  exclusive : v.Exclusive n inode
  mode : IsDir inode
  ne_zero : n ≠ 0
  parent : ∃ parentPath name, pathToParentAndName path = some (parentPath, name) ∧
    (v.pathToInode parentPath = some n ∨ v.pathToInode parentPath = none)
  records : BlockRecords v.blockSize (v.fileBytes inode) (iSize inode) ps

namespace DirectoryAt

/-- **`ext2_delete_dentry`** clears the first record with the inode that the path leads to. -/
theorem deleteDentry_eq (h : v.DirectoryAt path n inode (before ++ r :: after))
    (hparent : v.ParentFound path n) (hread : v.Readable inode)
    (hpath : v.pathToInode path = some target) (htarget : target ≠ 0)
    (hfirst : ∀ p ∈ before, entryInode (v.fileBytes inode) p ≠ target)
    (hr : entryInode (v.fileBytes inode) r = target) :
    ∃ B d, SameOn (v.fileBytes inode) B 0 (iSize inode) ∧
      v.deleteDentry path = some (v.withBytes d, 0) ∧
      v.Holds inode d (blit (v.fileBytes inode) 0
        (clearEntry B (before.foldl (fun _ p => some p) none) r) 0 (iSize inode)) := by
  obtain ⟨parentPath, name, hsplit, hparent⟩ := hparent
  have hsize := inodeSize_lt inode
  have hrecords := h.records.toDirRecords
  have hpos : 0 < iSize inode := by
    have := hrecords.tiles.mem (p := r) (by simp)
    omega
  obtain ⟨B, hreadB, hbuffer, hreadFailed⟩ := h.exclusive.readWhole hpos hread.1
  have hcopy := (hrecords.congr hbuffer).1
  have hget := hrecords.get_congr hbuffer
  have hfind : findEntry B (iSize inode) target (2 ^ 32) 0 none =
      some (some (before.foldl (fun _ p => some p) none, r)) :=
    findEntry_eq hcopy.tiles (fun p hp => hcopy.nextEntry_eq hsize (by simp [hp]))
      (fun p hp => by rw [entryInode, hget p (by simp [hp])]; exact hfirst p hp)
      (by rw [entryInode, hget r (by simp)]; exact hr) (by omega) none
  obtain ⟨hcode, d, hwritten, hd⟩ := h.exclusive.writeWhole
    (clearEntry B (before.foldl (fun _ p => some p) none) r) hpos hread.1
  refine ⟨B, d, hbuffer, ?_, hd⟩
  have hwrap := wrap32_of_lt hread.2
  simp only [deleteDentry, hsplit, hparent, hpath, bind_some, h.exclusive.readInode, hreadB]
  rw [if_neg h.ne_zero, if_neg htarget, if_pos h.mode, if_neg (by omega), if_neg (by omega),
    if_neg hreadFailed, hfind, bind_some]
  simp only [hwritten, map_some, if_neg (Nat.ne_of_lt hcode)]

/-- Otherwise nothing is written. -/
theorem deleteDentry_of_not (h : v.DirectoryAt path n inode ps) (hpos : 0 < iSize inode)
    (hnot : ¬ (v.ParentFound path n ∧ v.Readable inode ∧
      ∃ target, v.pathToInode path = some target ∧ target ≠ 0 ∧
        ∃ p ∈ ps, entryInode (v.fileBytes inode) p = target)) :
    v.deleteDentry path = none ∨ v.deleteDentry path = some (v, 1) := by
  obtain ⟨parentPath, name, hsplit, hparent⟩ := h.parent
  have hsize := inodeSize_lt inode
  have hbs := v.blockSize_lt
  rcases hparent with hparent | hparent
  swap
  · refine .inl ?_
    simp only [deleteDentry, hsplit, hparent]
    rfl
  simp only [deleteDentry, hsplit, hparent, bind_some, h.exclusive.readInode]
  rw [if_neg h.ne_zero]
  cases hpath : v.pathToInode path with
  | none => exact .inl rfl
  | some target =>
    rw [bind_some, if_pos h.mode]
    split_ifs with hzero hnull hshort hfailed
    · exact .inr rfl
    · exact .inr rfl
    · exact .inl rfl
    · exact .inr rfl
    · -- the directory is read, and no record has the inode
      have hsum : iSize inode + v.blockSize < 2 ^ 32 := by
        rw [wrap32] at hshort
        omega
      have hle : iSize inode ≤ 12 * v.blockSize := Nat.not_lt.mp fun hlt =>
        hfailed ((h.exclusive.sound.readWhole h.exclusive.readInode h.exclusive.noHole
          v.fresh).2 hlt)
      obtain ⟨B, hreadB, hbuffer, -⟩ := h.exclusive.readWhole hpos hle
      have hrecords := h.records.toDirRecords
      have hcopy := (hrecords.congr hbuffer).1
      refine .inr ?_
      rw [hreadB, findEntry_eq_none hcopy.tiles (fun p hp => hcopy.nextEntry_eq hsize hp)
        (fun p hp heq => hnot ⟨⟨parentPath, name, hsplit, hparent⟩, ⟨hle, hsum⟩,
          target, hpath, hzero, p, hp, ?_⟩) (by omega) none]
      · rfl
      · rw [← heq]
        exact (hrecords.get_congr hbuffer p hp .inode).symm

end DirectoryAt

/-- The call removes the entry between `before` and `after`, and leaves a well-formed directory. -/
def RemovesEntry (v : Volume) (path : Text) (n : ℕ) (inode : Bytes) (before after : List ℕ) :
    Prop :=
  ∃ w code, v.deleteDentry path = some (w, code) ∧ w.readInode n = some inode ∧
    ∃ ps, BlockRecords v.blockSize (w.fileBytes inode) (iSize inode) ps ∧
      liveEntries (w.fileBytes inode) ps = liveEntries (v.fileBytes inode) (before ++ after)

/-- The path leads to the inode of the entry and its parent path to the directory, no record before
it has the inode, and it is not the first one of its block; the directory can be read and the
lengths can be added. -/
structure Removable (v : Volume) (path : Text) (n : ℕ) (inode : Bytes) (before : List ℕ) (e : ℕ) :
    Prop where
  parent : v.ParentFound path n
  found : v.pathToInode path = some (entryInode (v.fileBytes inode) e)
  first : ∀ p ∈ before, entryInode (v.fileBytes inode) p ≠
    entryInode (v.fileBytes inode) e
  inside : e % v.blockSize ≠ 0
  sum : ∀ q ∈ before.getLast?, recLen (v.fileBytes inode) q + recLen (v.fileBytes inode) e < 65536
  readable : v.Readable inode

/-- A call that writes nothing removes nothing. -/
theorem DirectoryAt.not_removesEntry (h : v.DirectoryAt path n inode (before ++ e :: after))
    (he : entryInode (v.fileBytes inode) e ≠ 0)
    (hcall : v.deleteDentry path = none ∨ v.deleteDentry path = some (v, 1)) :
    ¬ v.RemovesEntry path n inode before after := by
  rintro ⟨w, code, hdelete, -, ps, hrecords, hlive⟩
  rcases hcall with hnone | hsame
  · exact absurd (hnone.symm.trans hdelete) (some_ne_none _).symm
  · obtain ⟨rfl, rfl⟩ := some_inj (hsame.symm.trans hdelete)
    obtain rfl := hrecords.tiles.unique h.records.tiles
    rw [liveEntries_append, liveEntries_append, liveEntries_cons_of_ne he] at hlive
    have hlength := congrArg List.length hlive
    rw [length_append, length_append, length_cons] at hlength
    omega

/-- The record before the last one that the loop has looked at. -/
theorem foldl_concat (before : List ℕ) (q : ℕ) :
    (before ++ [q]).foldl (fun _ p => some p) none = some q := by
  rw [foldl_append]
  rfl

/-- **An entry that can be removed is removed.** -/
theorem DirectoryAt.removesEntry (h : v.DirectoryAt path n inode (before ++ e :: after))
    (he : entryInode (v.fileBytes inode) e ≠ 0)
    (hcond : v.Removable path n inode before e) : v.RemovesEntry path n inode before after := by
  obtain ⟨B, d, hbuffer, hdelete, hd⟩ :=
    h.deleteDentry_eq hcond.parent hcond.readable hcond.found he hcond.first rfl
  -- there is a record before the entry
  rcases eq_nil_or_concat before with rfl | ⟨before, q, rfl⟩
  · have hzero : e = 0 := h.records.tiles.1
    refine absurd ?_ hcond.inside
    rw [hzero, Nat.zero_mod]
  · rw [concat_eq_append] at *
    have hsum := hcond.sum q (by simp)
    rw [append_assoc] at h
    rw [foldl_concat] at hd
    have hcopy := h.records.congr hbuffer
    have hget := h.records.toDirRecords.get_congr hbuffer
    have he' : entryInode B e ≠ 0 := by rwa [entryInode, hget e (by simp)]
    have hsum' : recLen B q + recLen B e < 65536 := by
      rwa [recLen, recLen, hget q (by simp), hget e (by simp)]
    have hname := hcopy.named e (by simp) he'
    have hlen := hcopy.names e (by simp)
    obtain ⟨G, hG⟩ : ∃ G, clearEntry B (some q) e = G := ⟨_, rfl⟩
    obtain ⟨hmerged, -, -, -, hlive⟩ := hcopy.toDirRecords.of_merge (by omega) hsum' hG
    rw [hG] at hd
    have hfile := hd.sameOn_fileBytes h.exclusive (Nat.le_refl _)
    refine ⟨v.withBytes d, 0, hdelete, hd.readInode h.exclusive, before ++ q :: after,
      ((hcopy.merge_iff he' hsum' hG).mpr hcond.inside).congr hfile, ?_⟩
    rw [(hmerged.congr hfile).2, hlive, append_assoc]
    exact liveEntries_congr fun p hp =>
      h.records.toDirRecords.sameOn_record hbuffer p (sublist_merged.subset hp)

/-- **An entry that is removed could be removed**, if the sum of two lengths has 16 bits. -/
theorem DirectoryAt.removable (h : v.DirectoryAt path n inode (before ++ e :: after))
    (hbs : v.blockSize ≤ 32768) (he : entryInode (v.fileBytes inode) e ≠ 0)
    (hname : ∀ p ∈ before, entryInode (v.fileBytes inode) p ≠ 0 →
      entryName (v.fileBytes inode) p ≠ entryName (v.fileBytes inode) e)
    (hremoves : v.RemovesEntry path n inode before after) : v.Removable path n inode before e := by
  have hpos : 0 < iSize inode := by
    have := h.records.tiles.mem (p := e) (by simp)
    omega
  -- the call has found a record
  obtain ⟨hparent, hread, target, hpath, htarget, p, hp, hinode⟩ := Classical.not_not.mp fun hnot =>
    h.not_removesEntry he (h.deleteDentry_of_not hpos hnot) hremoves
  obtain ⟨r, hfind⟩ : ∃ r, (before ++ e :: after).find? (fun p =>
      entryInode (v.fileBytes inode) p = target) = some r :=
    isSome_iff_exists.mp (find?_isSome.mpr ⟨p, hp, decide_eq_true hinode⟩)
  obtain ⟨hr, before', after', hps, hfirst⟩ := find?_eq_some_iff_append.mp hfind
  have hr := of_decide_eq_true hr
  have hfirst : ∀ p ∈ before', entryInode (v.fileBytes inode) p ≠ target :=
    fun p hp => by simpa using hfirst p hp
  have h' := hps ▸ h
  obtain ⟨B, d, hbuffer, hdelete, hd⟩ := h'.deleteDentry_eq hparent hread hpath htarget hfirst hr
  obtain ⟨w, code, hdelete', -, ps, hrecords, hlive⟩ := hremoves
  obtain ⟨rfl, rfl⟩ := some_inj (hdelete.symm.trans hdelete')
  have hcopy := h'.records.congr hbuffer
  have hsame := hd.sameOn_fileBytes h.exclusive (Nat.le_refl _)
  have hresult := hrecords.congr hsame.symm
  rcases eq_nil_or_concat before' with rfl | ⟨before', q, rfl⟩
  · -- the first record of all has no length any more
    have hzero : r = 0 := h'.records.tiles.1
    have hmem := @Tiles.mem_of_tiles _ _ _ _ _ [] hresult.tiles rfl hpos
    have hlen := (hresult.tiles.mem hmem).2.1
    rw [← hzero, recLen_clearEntry_self] at hlen
    omega
  · rw [concat_eq_append] at hps hfirst hsame hresult h'
    rw [foldl_concat] at hresult hsame
    have hcopy : BlockRecords v.blockSize B (iSize inode) (before' ++ q :: r :: after') := by
      rw [append_cons]
      exact h'.records.congr hbuffer
    have hget := h.records.toDirRecords.get_congr hbuffer
    have hr' : entryInode B r ≠ 0 := by
      rw [entryInode, hget r (by rw [hps]; simp), ← entryInode, hr]
      exact htarget
    have hqin := hcopy.inBlock q (by simp)
    have hrin := hcopy.inBlock r (by simp)
    have hrname := hcopy.named r (by simp) hr'
    have hrlen := hcopy.names r (by simp)
    rcases Nat.lt_or_ge (recLen B q + recLen B r) 65536 with hsum | hsum
    · obtain ⟨G, hG⟩ : ∃ G, clearEntry B (some q) r = G := ⟨_, rfl⟩
      rw [hG] at hresult hsame
      obtain ⟨hmerged, -, -, -, hmergedLive⟩ := hcopy.toDirRecords.of_merge (by omega) hsum hG
      obtain rfl := hresult.tiles.unique hmerged.tiles
      -- the list of entries says which record it was
      have hlists : liveEntries (v.fileBytes inode) (before' ++ [q] ++ after') =
          liveEntries (v.fileBytes inode) (before ++ after) := by
        rw [← hlive, (hmerged.congr hsame).2, hmergedLive, append_assoc]
        refine (liveEntries_congr fun p hp => ?_).symm
        refine h.records.toDirRecords.sameOn_record hbuffer p ?_
        rw [hps, append_assoc]
        exact sublist_merged.subset hp
      obtain ⟨rfl, rfl, rfl⟩ := (liveEntries_erase_iff hps.symm (hr ▸ htarget) he
        (fun p hp => hr.symm ▸ hfirst p hp) hname).mp hlists
      refine ⟨hparent, hr ▸ hpath, fun p hp => hr.symm ▸ hfirst p hp, ?_, fun q' hq' => ?_, hread⟩
      · exact (hcopy.merge_iff hr' hsum hG).mp hresult
      · obtain rfl : q = q' := by simpa using hq'
        rwa [recLen, recLen, hget q (by simp), hget r (by simp)] at hsum
    · exact absurd hresult.tiles (hcopy.toDirRecords.not_tiles_of_sum (by omega))

/-- **Removing an entry**, the first one with its name: it is removed as it should be if the path
leads to its inode, no record before it has the inode and it is not the first record of its block;
and in blocks of at most 32 KiB, where the sum of two lengths has 16 bits, only then. -/
theorem removesEntry_iff (h : v.DirectoryAt path n inode (before ++ e :: after))
    (he : entryInode (v.fileBytes inode) e ≠ 0)
    (hname : ∀ p ∈ before, entryInode (v.fileBytes inode) p ≠ 0 →
      entryName (v.fileBytes inode) p ≠ entryName (v.fileBytes inode) e) :
    (v.Removable path n inode before e → v.RemovesEntry path n inode before after) ∧
      (v.blockSize ≤ 32768 →
        (v.RemovesEntry path n inode before after ↔ v.Removable path n inode before e)) :=
  ⟨h.removesEntry he, fun hbs => ⟨h.removable hbs he hname, h.removesEntry he⟩⟩

/-- A volume like `oneFile` whose root directory, in block 6, has an entry `d` for the directory
with inode 3, in block 7. That one has an entry `.` for itself and two entries `b` and `ab` for
inode 12. -/
def hardLinks : Volume :=
  { oneFile with
    disk :=
      { oneFile.disk with
        bytes := fun x => ([(5249, 0x41#8), (5253, 4#8), (5288, 6#8), (5377, 0x41#8), (5381, 4#8),
          (5416, 7#8), (6144, 3#8), (6149, 4#8), (6150, 1#8), (6151, 2#8), (6152, 0x64#8),
          (7168, 3#8), (7172, 12#8), (7174, 1#8), (7175, 2#8), (7176, 0x2e#8),
          (7180, 12#8), (7184, 12#8), (7186, 1#8), (7187, 1#8), (7188, 0x62#8),
          (7192, 12#8), (7196, 0xe8#8), (7197, 3#8), (7198, 2#8), (7199, 1#8), (7200, 0x61#8),
          (7201, 0x62#8)].lookup x).getD 0#8 } }

namespace hardLinks

/-- The inode of the directory. -/
def dirInode : Bytes :=
  blit oneFile.fresh 0 (blit oneFile.fresh 0 hardLinks.disk.bytes 5120 1024) 256 128

/-- The path of the directory. -/
def dirPath : Text := [0x2f#8, 0x64#8]

theorem exclusive : hardLinks.Exclusive 3 dirInode := by
  refine exclusive_of_le ⟨⟨fun _ _ => rfl, fun _ _ => rfl⟩, rfl, rfl, by decide⟩ rfl
    (by decide +kernel) ?_ ?_
  · exact ⟨by decide, by decide, by decide⟩
  · exact .inr (by decide)

theorem records : BlockRecords hardLinks.blockSize (hardLinks.fileBytes dirInode)
    (iSize dirInode) [0, 12, 24] := by
  have hrecords : DirRecords (hardLinks.fileBytes dirInode) (iSize dirInode) [0, 12, 24] := by
    decide +kernel
  exact ⟨hrecords, by decide, by decide +kernel, by decide +kernel⟩

theorem directoryAt {path : Text} {name : Option Text}
    (hpath : pathToParentAndName path = some (dirPath, name)) :
    hardLinks.DirectoryAt path 3 dirInode [0, 12, 24] :=
  ⟨exclusive, by decide +kernel, by decide, ⟨_, _, hpath, .inl (by decide +kernel)⟩, records⟩

theorem readable : hardLinks.Readable dirInode := by
  decide

end hardLinks

open hardLinks

/-- The entry `b` is removed. -/
theorem removesEntry_hardLinks :
    hardLinks.RemovesEntry (dirPath ++ [0x2f#8, 0x62#8]) 3 dirInode [0] [24] := by
  have hpath : pathToParentAndName (dirPath ++ [0x2f#8, 0x62#8]) =
      some (dirPath, some [0x62#8]) := by decide
  exact (@removesEntry_iff [0] [24] hardLinks 3 12 dirInode _ (directoryAt hpath)
    (by decide +kernel) (by decide +kernel)).1 ⟨⟨_, _, hpath, by decide +kernel⟩,
      by decide +kernel, by decide +kernel, by decide +kernel, by decide +kernel, readable⟩

/-- When `ab` is to be removed, `b` is removed. -/
theorem removesEntry_hardLinks_other :
    hardLinks.DirectoryAt (dirPath ++ [0x2f#8, 0x61#8, 0x62#8]) 3 dirInode
        [0, 12, 24] ∧
      hardLinks.pathToInode (dirPath ++ [0x2f#8, 0x61#8, 0x62#8]) = some 12 ∧
      ¬ hardLinks.RemovesEntry (dirPath ++ [0x2f#8, 0x61#8, 0x62#8]) 3 dirInode
        [0, 12] [] := by
  have hpath : pathToParentAndName (dirPath ++ [0x2f#8, 0x61#8, 0x62#8]) =
      some (dirPath, some [0x61#8, 0x62#8]) := by decide
  have hdir := directoryAt hpath
  refine ⟨hdir, by decide +kernel, fun hremoves => ?_⟩
  have hcond := @DirectoryAt.removable [0, 12] [] hardLinks 3 24 dirInode _ hdir
    (by decide +kernel) (by decide +kernel) (by decide +kernel) hremoves
  exact hcond.first 12 (by simp) (by decide +kernel)

end Volume

end Bloodmoon
