import Bloodmoon.Ext2.ExactLookup
import Bloodmoon.Ext2.Write

/-!
# Adding an entry to a directory

The records of a directory lie one behind the other and are as long as their names need
(`DirRecords`); its entries are the records with an inode (`liveEntries`).
`ext2_create_directory_entry` looks at the last record only: it is cut behind its name, and what is
left is the record of the new entry if that is long enough.
-/

namespace Bloodmoon

open Machine Layout List

/-! ### The records of a directory -/

/-- The bytes up to `size` are a sequence of records at the positions `ps`, each as long as its name
needs. -/
structure DirRecords (bytes : Bytes) (size : ℕ) (ps : List ℕ) : Prop where
  tiles : Tiles (recLen bytes) 0 ps size
  names : ∀ p ∈ ps, 8 + nameLen bytes p ≤ recLen bytes p

instance (bytes : Bytes) (size : ℕ) (ps : List ℕ) : Decidable (DirRecords bytes size ps) :=
  decidable_of_iff (Tiles (recLen bytes) 0 ps size ∧ ∀ p ∈ ps, 8 + nameLen bytes p ≤ recLen bytes p)
    ⟨fun h => ⟨h.1, h.2⟩, fun h => ⟨h.1, h.2⟩⟩

/-- The entries with an inode, in order. -/
def liveEntries (bytes : Bytes) (ps : List ℕ) : List LiveEntry :=
  (ps.filter fun p => entryInode bytes p ≠ 0).map (liveEntry bytes)

variable {bytes bytes' : Bytes} {size p : ℕ} {ps qs : List ℕ} {name : Text}

theorem nameLen_lt (bytes : Bytes) (p : ℕ) : nameLen bytes p < 256 := loadLE_lt bytes _ 1

theorem recLen_lt (bytes : Bytes) (p : ℕ) : recLen bytes p < 65536 := loadLE_lt bytes _ 2

theorem liveEntries_append (bytes : Bytes) (ps qs : List ℕ) :
    liveEntries bytes (ps ++ qs) = liveEntries bytes ps ++ liveEntries bytes qs := by
  rw [liveEntries, filter_append, map_append]
  rfl

theorem liveEntries_cons_of_ne (h : entryInode bytes p ≠ 0) (ps : List ℕ) :
    liveEntries bytes (p :: ps) = liveEntry bytes p :: liveEntries bytes ps := by
  rw [liveEntries, filter_cons, if_pos (decide_eq_true h)]
  rfl

theorem liveEntries_singleton_congr (h : liveEntry bytes' p = liveEntry bytes p) :
    liveEntries bytes' [p] = liveEntries bytes [p] := by
  have hinode := congrArg LiveEntry.inode h
  simp only [liveEntry] at hinode
  rw [liveEntries, liveEntries, filter_cons, filter_cons, hinode]
  split_ifs
  · exact congrArg (fun e => [e]) h
  · rfl

/-- Entries are read from their records. -/
theorem liveEntries_congr (h : ∀ p ∈ ps, SameOn bytes bytes' p (8 + nameLen bytes p)) :
    liveEntries bytes' ps = liveEntries bytes ps := by
  rw [liveEntries, filter_congr fun p hp => by rw [entryInode, (record_congr (h p hp)).1]]
  refine map_congr_left fun p hp => ?_
  exact (record_congr (h p (mem_filter.mp hp).1)).2

namespace DirRecords

/-- A record lies inside the directory. -/
theorem mem (h : DirRecords bytes size ps) (hp : p ∈ ps) :
    8 + nameLen bytes p ≤ recLen bytes p ∧ p + recLen bytes p ≤ size :=
  ⟨h.names p hp, (h.tiles.mem hp).2.2⟩

theorem sameOn_record (h : DirRecords bytes size ps) (hsame : SameOn bytes bytes' 0 size) (p : ℕ)
    (hp : p ∈ ps) : SameOn bytes bytes' p (8 + nameLen bytes p) := by
  have := h.mem hp
  exact hsame.mono (Nat.zero_le p) (by omega)

theorem get_congr (h : DirRecords bytes size ps) (hsame : SameOn bytes bytes' 0 size) (p : ℕ)
    (hp : p ∈ ps) : ∀ f, directoryEntry.get bytes' p f = directoryEntry.get bytes p f :=
  (record_congr (h.sameOn_record hsame p hp)).1

/-- Records whose bytes are the same are records again. -/
theorem congr (h : DirRecords bytes size ps) (hsame : SameOn bytes bytes' 0 size) :
    DirRecords bytes' size ps ∧ liveEntries bytes' ps = liveEntries bytes ps := by
  refine ⟨⟨h.tiles.congr fun p hp => h.get_congr hsame p hp .recLen, fun p hp => ?_⟩,
    liveEntries_congr (h.sameOn_record hsame)⟩
  have hget := h.get_congr hsame p hp
  rw [show nameLen bytes' p = nameLen bytes p from hget .nameLen,
    show recLen bytes' p = recLen bytes p from hget .recLen]
  exact h.names p hp

/-- Where the code goes on after a record. -/
theorem nextEntry_eq (h : DirRecords bytes size ps) (hsize : size < 2 ^ 32) (hp : p ∈ ps) :
    nextEntry bytes p = p + recLen bytes p :=
  wrap32_of_lt (Nat.lt_of_le_of_lt (h.mem hp).2 hsize)

end DirRecords

/-! ### The last record -/

theorem lastEntry_eq_foldl {a : ℕ} (h : Tiles (recLen bytes) a ps size)
    (hnext : ∀ p ∈ ps, nextEntry bytes p = p + recLen bytes p)
    (hlen : ∀ p ∈ ps, 6 ≤ recLen bytes p) {fuel : ℕ} (hfuel : size < a + fuel) (entry : Option ℕ) :
    lastEntry bytes size fuel a entry = some (ps.foldl (fun _ p => some p) entry, size) := by
  induction ps generalizing a fuel entry with
  | nil =>
    obtain rfl : a = size := h
    obtain _ | fuel := fuel
    · omega
    rw [lastEntry, if_neg (Nat.lt_irrefl a)]
    rfl
  | cons p ps ih =>
    obtain ⟨rfl, hpos, hrest⟩ := h
    have hle := hrest.le
    have hfirst := hlen p mem_cons_self
    obtain _ | fuel := fuel
    · omega
    rw [lastEntry, if_pos (by omega), if_neg (by omega), hnext p mem_cons_self,
      ih hrest (forall_mem_cons.1 hnext).2
        (forall_mem_cons.1 hlen).2 (by omega)]
    rfl

/-- **The loop finds the last record.** -/
theorem DirRecords.lastEntry_eq (h : DirRecords bytes size (qs ++ [p])) (hsize : size < 2 ^ 32) :
    lastEntry bytes size (2 ^ 32) 0 none = some (some p, size) := by
  rw [lastEntry_eq_foldl h.tiles (fun _ hq => h.nextEntry_eq hsize hq) (fun q hq => ?_) (by omega),
    foldl_append]
  · rfl
  · have := h.names q hq
    omega

/-! ### Splitting a record -/

theorem align4_of_le {x : ℕ} (h : x ≤ 263) : align4 x = (x + 3) / 4 * 4 := by
  rw [align4, wrap32_of_lt (by omega)]

theorem entrySize_eq (n : ℕ) : entrySize n = 8 + n := by
  unfold entrySize
  omega

/-- What the fields of a header are. -/
def headerField (inode recLen nameLen fileType : ℕ) : EntryField → ℕ
  | .inode => inode
  | .recLen => recLen
  | .nameLen => nameLen
  | .fileType => fileType

theorem get_entryHeader (inode recLen nameLen fileType : ℕ) (f : EntryField) :
    directoryEntry.get (entryHeader inode recLen nameLen fileType) 0 f =
      headerField inode recLen nameLen fileType f % 256 ^ directoryEntry.width f := by
  have hstore : ∀ (m : Bytes) x, directoryEntry.get (directoryEntry.set m 0 f x) 0 f =
      x % 256 ^ directoryEntry.width f := fun m x => loadLE_storeLE m _ _ x
  cases f with
  | fileType => exact hstore _ _
  | nameLen => exact (get_set_of_ne _ (by decide)).trans (hstore _ _)
  | recLen =>
    exact (get_set_of_ne _ (by decide)).trans
      ((get_set_of_ne _ (by decide)).trans (hstore _ _))
  | inode =>
    exact (get_set_of_ne _ (by decide)).trans
      ((get_set_of_ne _ (by decide)).trans
        ((get_set_of_ne _ (by decide)).trans (hstore _ _)))

theorem blit_self (m : Bytes) (a n : ℕ) : blit m a m a n = m := by
  funext x
  by_cases hx : a ≤ x ∧ x < a + n
  · rw [blit_apply_of_mem hx.1 hx.2]
    exact congrArg m (by omega)
  · exact blit_apply_of_outside (by omega)

section Split

variable {aligned child type : ℕ}

/-- The record that is split keeps its bytes up to the new record, its length apart. -/
theorem sameOn_splitEntry (bytes : Bytes) (p aligned child type : ℕ) (name : Text) :
    SameOn (directoryEntry.set bytes p .recLen aligned)
      (splitEntry bytes p p aligned child type name) 0 (p + aligned) := by
  intro x _ hx
  rw [splitEntry, blit_self, blit_apply_of_outside (by omega), blit_apply_of_outside (by omega)]

theorem sameOn_splitEntry_before (bytes : Bytes) (p aligned child type : ℕ) (name : Text) :
    SameOn bytes (splitEntry bytes p p aligned child type name) 0 (min p (p + aligned)) := by
  intro x hx hx'
  rw [sameOn_splitEntry bytes p aligned child type name x hx (by omega)]
  exact set_apply_of_outside _ (by omega)

/-- The record of the new entry. -/
theorem splitEntry_header (bytes : Bytes) (p aligned child type : ℕ) (name : Text)
    (f : EntryField) :
    directoryEntry.get (splitEntry bytes p p aligned child type name) (p + aligned) f =
      headerField child (recLen bytes p - aligned) name.length type f %
        256 ^ directoryEntry.width f := by
  have hwithin : directoryEntry.offset f + directoryEntry.width f ≤ 8 := directoryEntry.within f
  rw [← get_entryHeader]
  refine loadLE_eq_of_shift fun i hi => ?_
  rw [splitEntry, blit_apply_of_outside (by omega), blit_apply_of_mem (by omega) (by omega)]
  exact congrArg (entryHeader _ _ _ _) (by omega)

theorem splitEntry_name (hlen : name.length < 256) :
    entryName (splitEntry bytes p p aligned child type name) (p + aligned) = name := by
  have hname : nameLen (splitEntry bytes p p aligned child type name) (p + aligned) = name.length :=
    (splitEntry_header bytes p aligned child type name .nameLen).trans (Nat.mod_eq_of_lt hlen)
  rw [entryName, hname]
  refine ext_getElem (by rw [length_map, length_range]) fun i hi hi' => ?_
  rw [getElem_map, getElem_range, splitEntry,
    blit_apply_of_mem (by omega) (by omega), nameBytes,
    show 0 + (p + aligned + 8 + i - (p + aligned + 8)) = i by omega,
    getD_eq_getElem _ _ hi']

/-- **Splitting the last record** gives a directory with the new entry at its end. -/
theorem DirRecords.of_split (h : DirRecords bytes size (qs ++ [p])) (hchild : child ≠ 0)
    (hchild' : child < 2 ^ 32) (hlen : name.length < 256) (haligned : 8 + nameLen bytes p ≤ aligned)
    (hroom : aligned + (8 + name.length) ≤ recLen bytes p) {G : Bytes}
    (hG : splitEntry bytes p p aligned child type name = G) :
    DirRecords G size (qs ++ [p, p + aligned]) ∧ (∀ q ∈ qs, recLen G q = recLen bytes q) ∧
      recLen G p = aligned ∧ recLen G (p + aligned) = recLen bytes p - aligned ∧
      liveEntries G (qs ++ [p, p + aligned]) =
        liveEntries bytes (qs ++ [p]) ++ [⟨child, name, type % 256⟩] := by
  obtain ⟨hbefore, hpos, hend⟩ := h.tiles.split
  have hend : p + recLen bytes p = size := hend
  have hrecLen := recLen_lt bytes p
  have hsame := sameOn_splitEntry_before bytes p aligned child type name
  have hset := sameOn_splitEntry bytes p aligned child type name
  have hnew := splitEntry_header bytes p aligned child type name
  have hnewText := @splitEntry_name bytes p name aligned child type hlen
  rw [hG] at hsame hset hnew hnewText
  -- the records before the last one
  have hrecords : ∀ q ∈ qs, SameOn bytes G q (8 + nameLen bytes q) := fun q hq => by
    have := (hbefore.mem hq).2.2
    have := h.names q (mem_append_left _ hq)
    exact hsame.mono (Nat.zero_le q) (by omega)
  have hbeforeLen : ∀ q ∈ qs, recLen G q = recLen bytes q := fun q hq =>
    (record_congr (hrecords q hq)).1 .recLen
  -- the last record
  have hfields : ∀ f, directoryEntry.get G p f =
      directoryEntry.get (directoryEntry.set bytes p .recLen aligned) p f :=
    Layout.get_congr (hset.mono (Nat.zero_le p) (by change p + 8 ≤ _; omega))
  have hkept : ∀ f, f ≠ .recLen → directoryEntry.get G p f = directoryEntry.get bytes p f :=
    fun f hf => (hfields f).trans (get_set_of_ne _ hf.symm)
  have hlast : recLen G p = aligned :=
    (hfields .recLen).trans (get_set_self (show aligned < 65536 by omega))
  have hlastName : nameLen G p = nameLen bytes p := hkept .nameLen (by decide)
  have hentry : liveEntry G p = liveEntry bytes p := by
    rw [liveEntry, liveEntry, entryInode, hkept .inode (by decide), hkept .fileType (by decide),
      entryName_congr hlastName fun x hx hx' => ?_]
    rw [hset x (Nat.zero_le x) (by omega)]
    exact set_apply_of_outside _ (.inr hx)
  -- the new record
  have hnewInode : entryInode G (p + aligned) = child :=
    (hnew .inode).trans (Nat.mod_eq_of_lt hchild')
  have hnewLen : recLen G (p + aligned) = recLen bytes p - aligned :=
    (hnew .recLen).trans (Nat.mod_eq_of_lt (show recLen bytes p - aligned < 65536 by omega))
  have hnewName : nameLen G (p + aligned) = name.length :=
    (hnew .nameLen).trans (Nat.mod_eq_of_lt hlen)
  have hlastTiles : Tiles (recLen G) p [p, p + aligned] size := by
    refine ⟨rfl, ?_, ?_⟩
    · omega
    · rw [hlast]
      refine ⟨rfl, ?_, ?_⟩
      · omega
      · rw [hnewLen]
        exact show p + aligned + (recLen bytes p - aligned) = size by omega
  refine ⟨⟨tiles_append.mpr ⟨p, hbefore.congr hbeforeLen, hlastTiles⟩, fun q hq => ?_⟩, hbeforeLen,
    hlast, hnewLen, ?_⟩
  · rcases mem_append.mp hq with hq | hq
    · rw [show nameLen G q = nameLen bytes q from (record_congr (hrecords q hq)).1 .nameLen,
        hbeforeLen q hq]
      exact h.names q (mem_append_left _ hq)
    · rcases mem_cons.mp hq with rfl | hq
      · omega
      · rw [mem_singleton.mp hq]
        omega
  · have hadded : liveEntries G [p + aligned] = [⟨child, name, type % 256⟩] := by
      rw [liveEntries_cons_of_ne (by rwa [hnewInode]), liveEntry, hnewInode, hnewText,
        show directoryEntry.get G (p + aligned) .fileType = type % 256 from hnew .fileType]
      rfl
    rw [append_cons, liveEntries_append, liveEntries_append, liveEntries_append,
      liveEntries_congr hrecords, liveEntries_singleton_congr hentry, hadded]

/-- **`ext2_create_directory_entry` in the buffer**: the last record is split if it is long enough.
-/
theorem DirRecords.insertEntry_eq (h : DirRecords bytes size (qs ++ [p])) (hsize : size < 2 ^ 32)
    (hlen : name.length < 256) : insertEntry bytes size child name type =
      some (if recLen bytes p < align4 (8 + nameLen bytes p) + align4 (8 + name.length) then none
        else some (splitEntry bytes p p (align4 (8 + nameLen bytes p)) child type name)) := by
  obtain ⟨-, -, hend⟩ := h.tiles.split
  have hend : p + recLen bytes p = size := hend
  have hname := h.names p (by simp)
  have hle := align4_of_le (x := 8 + name.length) (by omega)
  rw [insertEntry, h.lastEntry_eq hsize, Option.bind_some]
  simp only [entrySize_eq, Nat.mod_eq_of_lt hlen]
  rw [if_neg (by omega)]
  split_ifs with hroom hbounds
  · rfl
  · exact absurd hbounds (by omega)
  · rw [show size - recLen bytes p = p by omega]

end Split

/-! ### The call -/

/-- The lengths of the records are multiples of four. -/
def RecordsAligned (bytes : Bytes) (ps : List ℕ) : Prop := ∀ p ∈ ps, 4 ∣ recLen bytes p

instance (bytes : Bytes) (ps : List ℕ) : Decidable (RecordsAligned bytes ps) :=
  inferInstanceAs (Decidable (∀ p ∈ ps, _))

theorem DirRecords.aligned_congr (h : DirRecords bytes size ps) (hsame : SameOn bytes bytes' 0 size)
    (haligned : RecordsAligned bytes ps) : RecordsAligned bytes' ps := fun p hp => by
  rw [recLen, h.get_congr hsame p hp]
  exact haligned p hp

theorem four_dvd_align4 (x : ℕ) : 4 ∣ align4 x := Nat.dvd_mul_left _ _

/-- The record is split at a multiple of four. -/
theorem DirRecords.of_split_align4 {child type : ℕ} (h : DirRecords bytes size (qs ++ [p]))
    (haligned : RecordsAligned bytes (qs ++ [p])) (hchild : child ≠ 0) (hchild' : child < 2 ^ 32)
    (hlen : name.length < 256)
    (hroom : align4 (8 + nameLen bytes p) + align4 (8 + name.length) ≤ recLen bytes p) {G : Bytes}
    (hG : splitEntry bytes p p (align4 (8 + nameLen bytes p)) child type name = G) :
    DirRecords G size (qs ++ [p, p + align4 (8 + nameLen bytes p)]) ∧
      RecordsAligned G (qs ++ [p, p + align4 (8 + nameLen bytes p)]) ∧
      liveEntries G (qs ++ [p, p + align4 (8 + nameLen bytes p)]) =
        liveEntries bytes (qs ++ [p]) ++ [⟨child, name, type % 256⟩] := by
  have hname := nameLen_lt bytes p
  have hle := align4_of_le (x := 8 + nameLen bytes p) (by omega)
  have hle' := align4_of_le (x := 8 + name.length) (by omega)
  obtain ⟨hrecords, hbefore, hlast, hnew, hentries⟩ :=
    h.of_split hchild hchild' hlen (by omega) (by omega) hG
  refine ⟨hrecords, fun q hq => ?_, hentries⟩
  rcases mem_append.mp hq with hq | hq
  · rw [hbefore q hq]
    exact haligned q (mem_append_left _ hq)
  · rcases mem_cons.mp hq with rfl | hq
    · rw [hlast]
      exact four_dvd_align4 _
    · rw [mem_singleton.mp hq, hnew]
      exact Nat.dvd_sub (haligned p (by simp)) (four_dvd_align4 _)

namespace Volume

variable {v : Volume} {n : ℕ} {inode : Bytes} {child type : ℕ}

/-- A file that has been written as a whole is read as it was written. -/
theorem Holds.sameOn_fileBytes {d F G : Bytes} {size : ℕ} (hd : v.Holds inode d (blit F 0 G 0 size))
    (h : v.Exclusive n inode) (hsize : size ≤ iSize inode) :
    SameOn G ((v.withBytes d).fileBytes inode) 0 size := fun x _ hx => by
  rw [hd.fileBytes_eq h ((Nat.div_mul_le_self x v.blockSize).trans_lt (by omega)),
    blit_apply_of_mem (Nat.zero_le x) hx]
  exact congrArg G (by omega)

/-- What is in the buffer after a directory of at most twelve blocks has been read. -/
theorem Exclusive.readWhole (h : v.Exclusive n inode) (hpos : 0 < iSize inode)
    (hle : iSize inode ≤ 12 * v.blockSize) :
    ∃ B, v.readInodeBytes n v.fresh (iSize inode) 0 = (B, iSize inode) ∧
      SameOn (v.fileBytes inode) B 0 (iSize inode) ∧ iSize inode ≠ readFailed := by
  have hlt := (h.writeWhole v.fresh hpos hle).1
  refine ⟨_, (h.sound.readWhole h.readInode h.noHole v.fresh).1 hle, sameOn_blit_buffer _ _ _, ?_⟩
  unfold readFailed
  unfold writeFailed at hlt
  omega

/-- **Adding an entry** to a directory of at most twelve blocks: either the entries are those before
and the new one behind them, or nothing has changed. -/
theorem createDirectoryEntry_spec (h : v.Exclusive n inode) (hmode : IsDir inode)
    (hpos : 0 < iSize inode) (hle : iSize inode ≤ 12 * v.blockSize)
    (hrecords : DirRecords (v.fileBytes inode) (iSize inode) ps)
    (haligned : RecordsAligned (v.fileBytes inode) ps)
    (hchild : child ≠ 0) (hchild' : child < 2 ^ 32) (hlen : name.length < 256) :
    ∃ w code, v.createDirectoryEntry n child name type = some (w, code) ∧
      (code = 0 ∧ w.readInode n = some inode ∧
          (∃ ps', DirRecords (w.fileBytes inode) (iSize inode) ps' ∧
            RecordsAligned (w.fileBytes inode) ps' ∧
            liveEntries (w.fileBytes inode) ps' =
              liveEntries (v.fileBytes inode) ps ++ [⟨child, name, type % 256⟩]) ∨
        code = 1 ∧ w = v) := by
  obtain ⟨qs, p, rfl, -⟩ := hrecords.tiles.exists_concat hpos
  have hsize := inodeSize_lt inode
  -- the directory in the buffer
  obtain ⟨B, hread, hbuffer, hreadFailed⟩ := h.readWhole hpos hle
  obtain ⟨hcopy, hlive⟩ := hrecords.congr hbuffer
  have hinsert : insertEntry B (iSize inode) child name type = _ :=
    hcopy.insertEntry_eq hsize hlen
  simp only [createDirectoryEntry, h.readInode, hread]
  rw [if_pos hmode, if_neg (by omega), if_neg hreadFailed, hinsert, Option.bind_some]
  split_ifs with hroom
  · exact ⟨v, 1, rfl, .inr ⟨rfl, rfl⟩⟩
  · -- the record is split, and what has been written is read again
    obtain ⟨G, hG⟩ : ∃ G, splitEntry B p p (align4 (8 + nameLen B p)) child type name = G :=
      ⟨_, rfl⟩
    obtain ⟨hnew, halignedNew, hentries⟩ :=
      hcopy.of_split_align4 (hrecords.aligned_congr hbuffer haligned) hchild hchild' hlen
        (by omega) hG
    obtain ⟨hcode, d, hwritten, hd⟩ := h.writeWhole G hpos hle
    have hfile := hd.sameOn_fileBytes h (Nat.le_refl _)
    obtain ⟨hrecords', hlive'⟩ := hnew.congr hfile
    refine ⟨v.withBytes d, 0, ?_, .inl ⟨rfl, hd.readInode h, _, hrecords',
      hnew.aligned_congr hfile halignedNew, ?_⟩⟩
    · simp only [hG, hwritten, Option.map_some, if_neg (Nat.ne_of_lt hcode)]
    · rw [hlive', hentries, hlive]

theorem twoNames_exclusive : twoNames.Exclusive ext2RootInoIndex twoNamesRoot := by
  refine exclusive_of_le twoNames_sound twoNames_directory.readInode (by decide +kernel) ?_ ?_
  · exact ⟨by decide, by decide, by decide⟩
  · exact .inr (by decide)

theorem twoNames_dirRecords :
    DirRecords (twoNames.fileBytes twoNamesRoot) (iSize twoNamesRoot) [0, 12] ∧
      RecordsAligned (twoNames.fileBytes twoNamesRoot) [0, 12] :=
  ⟨by decide +kernel, by decide +kernel⟩

/-- An entry `c` for inode 13 is added to the root directory. -/
theorem twoNames_createDirectoryEntry :
    ∃ w ps, twoNames.createDirectoryEntry ext2RootInoIndex 13 [0x63#8] 1 = some (w, 0) ∧
      w.readInode ext2RootInoIndex = some twoNamesRoot ∧
      DirRecords (w.fileBytes twoNamesRoot) (iSize twoNamesRoot) ps ∧
      RecordsAligned (w.fileBytes twoNamesRoot) ps ∧
      liveEntries (w.fileBytes twoNamesRoot) ps =
        liveEntries (twoNames.fileBytes twoNamesRoot) [0, 12] ++ [⟨13, [0x63#8], 1⟩] := by
  have hcode : (twoNames.createDirectoryEntry ext2RootInoIndex 13 [0x63#8] 1).map Prod.snd =
      some 0 := by decide +kernel
  have hspec : ∃ w code, twoNames.createDirectoryEntry ext2RootInoIndex 13 [0x63#8] 1 =
      some (w, code) ∧ _ :=
    createDirectoryEntry_spec twoNames_exclusive (by decide +kernel) (by decide +kernel)
      (by decide +kernel) twoNames_dirRecords.1 twoNames_dirRecords.2 (by decide) (by decide)
      (by decide)
  obtain ⟨w, code, hcreate, ⟨rfl, hinode, ps, hrecords⟩ | ⟨rfl, -⟩⟩ := hspec
  · exact ⟨w, ps, hcreate, hinode, hrecords⟩
  · rw [hcreate] at hcode
    exact absurd (Option.some.inj hcode) Nat.one_ne_zero

end Volume

end Bloodmoon
