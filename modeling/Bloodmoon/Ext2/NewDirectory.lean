import Bloodmoon.Ext2.NewFile

/-!
# The entries of a new directory

`ext2_initialize_directory` writes the entries `.` and `..` over what was in the block, and the
record of `..` always ends at 1024. In larger blocks the directory goes on with what was there
before, so it lists the two entries only if that happens to be unused records (`UnusedRecords`).
-/

namespace Bloodmoon

open Machine List Option

variable {bytes bytes' : Bytes} {size n p q : ℕ} {ps qs : List ℕ}
variable {a aligned e x : ℕ} {rs : List ℕ}

/-! ### The two records -/

/-- The name of the directory itself, and that of its parent. -/
def dotName : Text := [0x2e#8]

@[inherit_doc dotName]
def dotDotName : Text := [0x2e#8, 0x2e#8]

/-- The entries of a new directory. -/
def newEntries (n p : ℕ) : List LiveEntry := [⟨n, dotName, 2⟩, ⟨p, dotDotName, 2⟩]

/-- A record that is stored as a header and a name is read as such. -/
theorem stored_record {inode len type : ℕ} {name : Text} (hlen : name.length < 256)
    (h : ∀ i < 8 + name.length, bytes (a + i) = blit (entryHeader inode len name.length type) 8
      (nameBytes name) 0 255 i) :
    (∀ f, directoryEntry.get bytes a f =
        headerField inode len name.length type f % 256 ^ directoryEntry.width f) ∧
      liveEntry bytes a = ⟨inode % 2 ^ 32, name, type % 256⟩ := by
  have hget : ∀ f, directoryEntry.get bytes a f =
      headerField inode len name.length type f % 256 ^ directoryEntry.width f := fun f => by
    have hwithin : directoryEntry.offset f + directoryEntry.width f ≤ 8 := directoryEntry.within f
    rw [← get_entryHeader]
    refine loadLE_eq_of_shift fun i hi => ?_
    rw [Nat.add_assoc, h _ (by omega), blit_apply_of_outside (by omega), Nat.zero_add]
  have hname : nameLen bytes a = name.length :=
    (hget .nameLen).trans (Nat.mod_eq_of_lt hlen)
  have htext : entryName bytes a = name := by
    rw [entryName, hname]
    refine ext_getElem (by rw [length_map, length_range]) fun i hi hi' => ?_
    rw [getElem_map, getElem_range, Nat.add_assoc, h _ (by omega),
      blit_apply_of_mem (by omega) (by omega), nameBytes,
      show 0 + (8 + i - 8) = i by omega, getD_eq_getElem _ _ hi']
  refine ⟨hget, ?_⟩
  rw [liveEntry, htext, entryInode, hget, hget]
  rfl

section DotEntries

variable (n p : ℕ) (m : Bytes)

theorem dotEntries_eq : dotEntries n p m =
    blit (blit m 0 (blit (entryHeader n 12 dotName.length 2) 8 (nameBytes dotName) 0 255) 0 9) 12
      (blit (entryHeader p 1012 dotDotName.length 2) 8 (nameBytes dotDotName) 0 255) 0 10 := by
  rfl

theorem dotEntries_first : (∀ f, directoryEntry.get (dotEntries n p m) 0 f =
      headerField n 12 1 2 f % 256 ^ directoryEntry.width f) ∧
    liveEntry (dotEntries n p m) 0 = ⟨n % 2 ^ 32, dotName, 2⟩ := by
  refine stored_record (show dotName.length < 256 by decide) fun i hi => ?_
  have hi : i < 9 := hi
  rw [dotEntries_eq, blit_apply_of_outside (by omega),
    blit_apply_of_mem (by omega) (by omega), show 0 + (0 + i - 0) = i by omega]

theorem dotEntries_second : (∀ f, directoryEntry.get (dotEntries n p m) 12 f =
      headerField p 1012 2 2 f % 256 ^ directoryEntry.width f) ∧
    liveEntry (dotEntries n p m) 12 = ⟨p % 2 ^ 32, dotDotName, 2⟩ := by
  refine stored_record (show dotDotName.length < 256 by decide) fun i hi => ?_
  have hi : i < 10 := hi
  rw [dotEntries_eq, blit_apply_of_mem (by omega) (by omega), show 0 + (12 + i - 12) = i by omega]

theorem sameOn_dotEntries_rest (k : ℕ) : SameOn m (dotEntries n p m) 1024 k := fun x hx _ => by
  rw [dotEntries_eq, blit_apply_of_outside (by omega), blit_apply_of_outside (by omega)]

end DotEntries

/-! ### The rest of the block -/

/-- From 1024 on there are records without an inode. -/
structure UnusedRecords (bytes : Bytes) (size : ℕ) (qs : List ℕ) : Prop where
  tiles : Tiles (recLen bytes) 1024 qs size
  names : ∀ q ∈ qs, 8 + nameLen bytes q ≤ recLen bytes q
  aligned : RecordsAligned bytes qs
  inodes : ∀ q ∈ qs, entryInode bytes q = 0

/-- The directory is well formed, and these are its entries. -/
def Lists (bytes : Bytes) (size : ℕ) (entries : List LiveEntry) : Prop :=
  ∃ ps, DirRecords bytes size ps ∧ RecordsAligned bytes ps ∧ liveEntries bytes ps = entries

theorem Lists.congr {entries : List LiveEntry} (h : Lists bytes size entries)
    (hsame : SameOn bytes bytes' 0 size) : Lists bytes' size entries := by
  obtain ⟨ps, hrecords, haligned, hentries⟩ := h
  obtain ⟨hrecords', hlive⟩ := hrecords.congr hsame
  exact ⟨ps, hrecords', hrecords.aligned_congr hsame haligned, hlive.trans hentries⟩

theorem liveEntries_eq_nil_iff :
    liveEntries bytes ps = [] ↔ ∀ q ∈ ps, entryInode bytes q = 0 := by
  rw [liveEntries, map_eq_nil_iff, filter_eq_nil_iff]
  exact forall₂_congr fun q _ => by simp

/-- Records behind 1024 are read in the rest of the block. -/
theorem UnusedRecords.congr (h : UnusedRecords bytes size qs)
    (hsame : SameOn bytes bytes' 1024 (size - 1024)) : UnusedRecords bytes' size qs := by
  have hget : ∀ q ∈ qs, ∀ f, directoryEntry.get bytes' q f = directoryEntry.get bytes q f := by
    intro q hq
    have hmem := h.tiles.mem hq
    have hname := h.names q hq
    exact Layout.get_congr (hsame.mono hmem.1 (by change q + 8 ≤ _; omega))
  refine ⟨h.tiles.congr fun q hq => hget q hq .recLen, fun q hq => ?_, fun q hq => ?_,
    fun q hq => ?_⟩
  · rw [nameLen, recLen, hget q hq, hget q hq]
    exact h.names q hq
  · rw [recLen, hget q hq]
    exact h.aligned q hq
  · rw [entryInode, hget q hq]
    exact h.inodes q hq

/-- **When the two entries are listed**: the records behind them are unused. -/
theorem lists_dotEntries_iff {m : Bytes} (hn : n ≠ 0) (hn' : n < 2 ^ 32) (hp : p ≠ 0)
    (hp' : p < 2 ^ 32) (hsize : 1024 ≤ size) :
    Lists (dotEntries n p m) size (newEntries n p) ↔ ∃ qs, UnusedRecords m size qs := by
  obtain ⟨hfirst, hfirstEntry⟩ := dotEntries_first n p m
  obtain ⟨hsecond, hsecondEntry⟩ := dotEntries_second n p m
  rw [Nat.mod_eq_of_lt hn'] at hfirstEntry
  rw [Nat.mod_eq_of_lt hp'] at hsecondEntry
  have hrest := sameOn_dotEntries_rest n p m (size - 1024)
  generalize dotEntries n p m = D at *
  have hlen : recLen D 0 = 12 ∧ recLen D 12 = 1012 := ⟨hfirst .recLen, hsecond .recLen⟩
  have hlive : ∀ qs, liveEntries D (0 :: 12 :: qs) = newEntries n p ++ liveEntries D qs := by
    intro qs
    rw [liveEntries_cons_of_ne, liveEntries_cons_of_ne, hfirstEntry, hsecondEntry]
    · rfl
    · rw [entryInode, hsecond]
      exact (Nat.mod_eq_of_lt hp').trans_ne hp
    · rw [entryInode, hfirst]
      exact (Nat.mod_eq_of_lt hn').trans_ne hn
  constructor
  · rintro ⟨ps, ⟨htiles, hnames⟩, haligned, hentries⟩
    -- the first two records are those of the entries
    cases ps with
    | nil => exact absurd (show (0 : ℕ) = size from htiles) (by omega)
    | cons q ps =>
    obtain ⟨rfl, -, htiles⟩ := htiles
    rw [hlen.1] at htiles
    cases ps with
    | nil => exact absurd (show 0 + 12 = size from htiles) (by omega)
    | cons q qs =>
    obtain ⟨rfl, -, htiles⟩ := htiles
    rw [hlive, append_right_eq_self] at hentries
    rw [hlen.2] at htiles
    refine ⟨qs, UnusedRecords.congr ⟨htiles, fun q hq => ?_, fun q hq => ?_, ?_⟩ hrest.symm⟩
    · exact hnames q (by simp [hq])
    · exact haligned q (by simp [hq])
    · exact liveEntries_eq_nil_iff.mp hentries
  · rintro ⟨qs, hunused⟩
    have hunused := hunused.congr hrest
    have hname : nameLen D 0 = 1 ∧ nameLen D 12 = 2 := ⟨hfirst .nameLen, hsecond .nameLen⟩
    have htiles : Tiles (recLen D) 0 (0 :: 12 :: qs) size := by
      refine ⟨rfl, by omega, ?_⟩
      rw [hlen.1, Nat.zero_add]
      refine ⟨rfl, by omega, ?_⟩
      rw [hlen.2]
      exact hunused.tiles
    refine ⟨0 :: 12 :: qs, ⟨htiles, ?_⟩, ?_, ?_⟩
    · rw [forall_mem_cons, forall_mem_cons]
      exact ⟨by omega, by omega, hunused.names⟩
    · rw [RecordsAligned, forall_mem_cons, forall_mem_cons, hlen.1, hlen.2]
      exact ⟨by decide, by decide, hunused.aligned⟩
    · rw [hlive, liveEntries_eq_nil_iff.mpr hunused.inodes, append_nil]

/-! ### A third entry -/

/-- The loop of `ext2_create_directory_entry` ends at a record that is reached by others, and behind
which there is no further one. -/
theorem lastEntry_tiles (hsize : size + 65536 ≤ 2 ^ 32) {fuel parsed : ℕ} {entry : Option ℕ}
    (ha : a < size) (h : lastEntry bytes size fuel a entry = some (some e, parsed)) :
    ∃ rs, Tiles (recLen bytes) a rs e ∧ e < size ∧ size ≤ parsed ∧ parsed = e + recLen bytes e := by
  induction fuel generalizing a entry with
  | zero => exact absurd h.symm (some_ne_none _)
  | succ fuel ih =>
    have hlen := recLen_lt bytes a
    have hnext : nextEntry bytes a = a + recLen bytes a :=
      wrap32_of_lt (show a + recLen bytes a < _ by omega)
    rw [lastEntry] at h
    split_ifs at h
    rw [hnext] at h
    by_cases hlt : a + recLen bytes a < size
    · obtain ⟨rs, htiles, hrest⟩ := ih hlt h
      by_cases hzero : recLen bytes a = 0
      · rw [hzero] at htiles
        exact ⟨rs, htiles, hrest⟩
      · exact ⟨a :: rs, ⟨rfl, Nat.pos_of_ne_zero hzero, htiles⟩, hrest⟩
    · cases fuel with
      | zero => exact absurd h.symm (some_ne_none _)
      | succ fuel =>
        rw [lastEntry, if_neg hlt] at h
        obtain ⟨heq, rfl⟩ := some_inj h
        obtain rfl := Option.some.inj heq
        exact ⟨[], rfl, ha, by omega, rfl⟩

variable {child type : ℕ} {name : Text} {G : Bytes}

/-- What `ext2_create_directory_entry` does in the buffer, for any content. -/
theorem insertEntry_eq_some (hsize : size + 65536 ≤ 2 ^ 32) (hpos : 0 < size)
    (h : insertEntry bytes size child name type = some (some G)) :
    ∃ rs e aligned, Tiles (recLen bytes) 0 rs e ∧ size ≤ e + recLen bytes e ∧
      8 ≤ aligned ∧ aligned < 65536 ∧ e + aligned < size ∧
      G = splitEntry bytes e e aligned child type name := by
  rw [insertEntry] at h
  obtain ⟨⟨entry, parsed⟩, hlast, h⟩ := bind_eq_some_iff.mp h
  cases entry with
  | none => exact absurd (Option.some.inj h).symm (some_ne_none G)
  | some e =>
    obtain ⟨rs, htiles, hlt, hle, rfl⟩ := lastEntry_tiles hsize hpos hlast
    have hname := nameLen_lt bytes e
    have haligned := align4_of_le (x := 8 + nameLen bytes e) (by omega)
    simp only [entrySize_eq, Nat.add_sub_cancel] at h
    split_ifs at h with hend hroom hbounds
    · exact absurd (Option.some.inj h).symm (some_ne_none G)
    · refine ⟨rs, e, align4 (8 + nameLen bytes e), htiles, hle, by omega, by omega, by omega,
        (Option.some.inj (Option.some.inj h)).symm⟩

/-- Up to its length, the record that is split is kept, and so is everything before it. -/
theorem splitEntry_apply_of_lt (haligned : 8 ≤ aligned) (hx : x < e + 4) :
    splitEntry bytes e e aligned child type name x = bytes x := by
  rw [sameOn_splitEntry bytes e aligned child type name x (Nat.zero_le x) (by omega)]
  exact storeLE_apply_of_not_mem bytes aligned (.inl hx)

/-- A record before the one that is split keeps its length, unless that gets odd. -/
theorem recLen_splitEntry (hlt : a < e) (haligned : 8 ≤ aligned) (hpos : 0 < recLen bytes a)
    (hnext : a + recLen bytes a ≤ e)
    (h : 4 ∣ recLen (splitEntry bytes e e aligned child type name) a) :
    recLen (splitEntry bytes e e aligned child type name) a = recLen bytes a := by
  have hkept : ∀ x < e + 4, splitEntry bytes e e aligned child type name x = bytes x :=
    fun x => splitEntry_apply_of_lt haligned
  generalize splitEntry bytes e e aligned child type name = G at *
  by_cases hadjacent : e = a + 1
  · -- the low byte of the length is kept, and it is 1
    have hone : recLen bytes a = 1 := by omega
    have hlow : ∀ m : Bytes, recLen m a = (m (a + 4)).toNat + 256 * loadLE m (a + 5) 1 :=
      fun m => rfl
    rw [hlow] at h hone
    rw [hkept _ (by omega)] at h
    omega
  · exact loadLE_congr fun x hx hx' => hkept x (by change x < a + 4 + 2 at hx'; omega)

/-- The records before the one that is split are records afterwards, if all records are aligned
then. -/
theorem tiles_splitEntry (haligned : 8 ≤ aligned) (hrs : Tiles (recLen bytes) a rs e)
    (hps : Tiles (recLen (splitEntry bytes e e aligned child type name)) a ps size)
    (hlt : e < size) (h : RecordsAligned (splitEntry bytes e e aligned child type name) ps) :
    Tiles (recLen (splitEntry bytes e e aligned child type name)) a rs e := by
  induction rs generalizing a ps with
  | nil => exact hrs
  | cons r rs ih =>
    obtain ⟨rfl, hpos, hrest⟩ := hrs
    have hle := hrest.le
    cases ps with
    | nil =>
      obtain rfl : r = size := hps
      omega
    | cons q ps =>
      obtain ⟨rfl, hpos', hps⟩ := hps
      have heq := recLen_splitEntry (by omega) haligned hpos hle (h q mem_cons_self)
      rw [heq] at hps
      refine ⟨rfl, hpos', ?_⟩
      rw [heq]
      exact ih hrest hps (forall_mem_cons.1 h).2

/-- The record of the new entry is among the records. -/
theorem mem_splitEntry (haligned : 8 ≤ aligned) (hlt : aligned < 65536)
    (hrs : Tiles (recLen bytes) 0 rs e)
    (hps : Tiles (recLen (splitEntry bytes e e aligned child type name)) 0 ps size)
    (hin : e + aligned < size)
    (h : RecordsAligned (splitEntry bytes e e aligned child type name) ps) :
    e + aligned ∈ ps := by
  have hbefore := tiles_splitEntry haligned hrs hps (by omega) h
  have hlast : recLen (splitEntry bytes e e aligned child type name) e = aligned := by
    refine (loadLE_congr ((sameOn_splitEntry bytes e aligned child type name).mono (Nat.zero_le _)
      (show e + 4 + 2 ≤ _ by omega))).trans ?_
    exact Layout.get_set_self hlt
  have hnew : Tiles (recLen (splitEntry bytes e e aligned child type name)) e [e] (e + aligned) :=
    ⟨rfl, by omega, congrArg (e + ·) hlast⟩
  exact hps.mem_of_tiles (tiles_append.mpr ⟨e, hbefore, hnew⟩) hin

/-- Three records with inodes are three entries. -/
theorem three_le_length {y z : ℕ} (hxy : x < y) (hyz : y < z)
    (h : ∀ q ∈ ({x, y, z} : Finset ℕ), q ∈ ps ∧ entryInode bytes q ≠ 0) :
    3 ≤ (liveEntries bytes ps).length := by
  rw [liveEntries, length_map,
    ← Finset.card_eq_three.mpr ⟨x, y, z, by omega, by omega, by omega, rfl⟩]
  refine le_trans (Finset.card_le_card fun q hq => ?_) (toFinset_card_le _)
  rw [List.mem_toFinset, mem_filter]
  exact ⟨(h q hq).1, decide_eq_true (h q hq).2⟩

/-- **A third entry is listed**, if the records are aligned. -/
theorem not_lists_insertEntry {m : Bytes} (hn : n ≠ 0) (hn' : n < 2 ^ 32) (hp : p ≠ 0)
    (hp' : p < 2 ^ 32) (hsize : 1024 ≤ size) (hsize' : size + 65536 ≤ 2 ^ 32)
    (hbytes : SameOn (dotEntries n p m) bytes 0 size)
    (h : insertEntry bytes size n name type = some (some G)) : ¬ Lists G size (newEntries n p) := by
  rintro ⟨ps, hrecords, haligned, hentries⟩
  obtain ⟨rs, e, aligned, htiles, hend, hle, hlt, hin, rfl⟩ :=
    insertEntry_eq_some hsize' (by omega) h
  have hthird := mem_splitEntry hle hlt htiles hrecords.tiles hin haligned
  have hnew : entryInode (splitEntry bytes e e aligned n type name) (e + aligned) =
      n := (splitEntry_header bytes e aligned n type name .inode).trans (Nat.mod_eq_of_lt hn')
  -- the first two records are those of the new directory
  have hfields : ∀ f, directoryEntry.get bytes 0 f = directoryEntry.get (dotEntries n p m) 0 f :=
    Layout.get_congr (hbytes.mono (Nat.le_refl 0) (show 0 + 8 ≤ _ by omega))
  have hfields' : ∀ f, directoryEntry.get bytes 12 f = directoryEntry.get (dotEntries n p m) 12 f :=
    Layout.get_congr (hbytes.mono (Nat.zero_le 12) (show 12 + 8 ≤ _ by omega))
  have hlen : recLen bytes 0 = 12 := (hfields .recLen).trans ((dotEntries_first n p m).1 .recLen)
  have hfirst : entryInode bytes 0 = n :=
    (hfields .inode).trans (((dotEntries_first n p m).1 .inode).trans (Nat.mod_eq_of_lt hn'))
  have hsecond : entryInode bytes 12 = p :=
    (hfields' .inode).trans (((dotEntries_second n p m).1 .inode).trans (Nat.mod_eq_of_lt hp'))
  have he : 12 ≤ e := by
    cases rs with
    | nil =>
      obtain rfl : 0 = e := htiles
      omega
    | cons r rs =>
      have := htiles.2.2.le
      omega
  have hkept : ∀ x < e + 4, splitEntry bytes e e aligned n type name x = bytes x :=
    fun x => splitEntry_apply_of_lt hle
  generalize splitEntry bytes e e aligned n type name = G at *
  have hlen' : recLen G 0 = 12 := by
    rw [← hlen]
    exact loadLE_congr fun x _ hx => hkept x (by change x < 0 + 4 + 2 at hx; omega)
  have hinode : ∀ q ≤ e, entryInode G q = entryInode bytes q :=
    fun q hq => loadLE_congr fun x _ hx => hkept x (by change x < q + 0 + 4 at hx; omega)
  have hzero : Tiles (recLen G) 0 [] 0 := rfl
  have htwelve : Tiles (recLen G) 0 [0] 12 := ⟨rfl, by omega, congrArg (0 + ·) hlen'⟩
  have hthree : 3 ≤ (liveEntries G ps).length := by
    refine three_le_length (show 0 < 12 by decide) (show 12 < e + aligned by omega) fun q hq => ?_
    simp only [Finset.mem_insert, Finset.mem_singleton] at hq
    rcases hq with rfl | rfl | rfl
    · rw [hinode 0 (by omega), hfirst]
      exact ⟨hrecords.tiles.mem_of_tiles hzero (by omega), hn⟩
    · rw [hinode 12 he, hsecond]
      exact ⟨hrecords.tiles.mem_of_tiles htwelve (by omega), hp⟩
    · rw [hnew]
      exact ⟨hthird, hn⟩
  rw [hentries] at hthree
  exact absurd hthree (by decide : ¬ 3 ≤ 2)

namespace Volume

variable {v u d w : Volume} {b mode g i : ℕ} {inode : Bytes} {path : Text}
variable {epoch permissions uniqueId : ℕ} {parentPath : Text}

/-! ### Listing a directory -/

theorem foldl_liveEntries (bytes : Bytes) (ps : List ℕ) (entries : List LiveEntry) :
    ps.foldl (addLive bytes) entries = entries ++ liveEntries bytes ps := by
  induction ps generalizing entries with
  | nil => exact (append_nil entries).symm
  | cons p ps ih =>
    rw [foldl_cons, ih, addLive]
    by_cases hp : entryInode bytes p = 0
    · rw [if_neg (not_not_intro hp), liveEntries, liveEntries, filter_cons_of_neg (by simpa)]
    · rw [if_pos hp, liveEntries_cons_of_ne hp, append_assoc, singleton_append]

section Listing

variable (h : v.Exclusive n inode) (hn : n ≠ 0) (hpath : v.pathToInode path = some n)
  (hmode : IsDir inode)
  (hpos : 0 < iSize inode)
  (hle : iSize inode ≤ 12 * v.blockSize)
  (hsum : iSize inode + v.blockSize < 2 ^ 32)

include h hn hpath hmode hpos hle hsum

/-- `ext2_get_all_dirs` goes over the records in the buffer. -/
theorem Exclusive.getAllDirs_walk :
    ∃ B, SameOn (v.fileBytes inode) B 0 (iSize inode) ∧
      v.getAllDirs path =
        (walkRecords (nextEntry B) (iSize inode) (addLive B) (2 ^ 32) 0 []).map Prod.snd := by
  have hwrap := wrap32_of_lt hsum
  obtain ⟨B, hread, hbuffer, hreadFailed⟩ := h.readWhole hpos hle
  refine ⟨B, hbuffer, ?_⟩
  simp only [getAllDirs, hpath, bind_some, if_neg hn, h.readInode, if_pos hmode, hread,
    if_neg hreadFailed]
  rw [if_neg (by omega), if_neg (by omega)]

/-- **`ext2_get_all_dirs`** returns the entries of a well-formed directory. -/
theorem Exclusive.getAllDirs_eq (hrecords : DirRecords (v.fileBytes inode) (iSize inode) ps) :
    v.getAllDirs path = some (liveEntries (v.fileBytes inode) ps) := by
  obtain ⟨B, hbuffer, heq⟩ := h.getAllDirs_walk hn hpath hmode hpos hle hsum
  obtain ⟨hcopy, hlive⟩ := hrecords.congr hbuffer
  have hsize : iSize inode < 2 ^ 32 := by omega
  rw [heq, hcopy.tiles.walkRecords_eq (fun q hq => hcopy.nextEntry_eq hsize hq) (by omega),
    foldl_liveEntries, ← hlive]
  rfl

/-- **It does not end** at a record without a length, if that is reached by others. -/
theorem Exclusive.getAllDirs_eq_none {c : ℕ}
    (htiles : Tiles (recLen (v.fileBytes inode)) 0 ps c) (hheader : ∀ q ∈ ps, q + 6 ≤ c)
    (hc : c + 6 ≤ iSize inode) (hzero : recLen (v.fileBytes inode) c = 0) :
    v.getAllDirs path = none := by
  obtain ⟨B, hbuffer, heq⟩ := h.getAllDirs_walk hn hpath hmode hpos hle hsum
  have hlen : ∀ q, q + 6 ≤ iSize inode → recLen B q = recLen (v.fileBytes inode) q := fun q hq =>
    loadLE_congr (hbuffer.mono (Nat.zero_le _) (show q + 4 + 2 ≤ _ by omega))
  have hnext : ∀ q, q + recLen B q ≤ c → nextEntry B q = q + recLen B q := fun q hq =>
    wrap32_of_lt (show q + recLen B q < _ by omega)
  have htiles' : Tiles (recLen B) 0 ps c := htiles.congr fun q hq => by
    have := hheader q hq
    exact hlen q (by omega)
  have hstay : nextEntry B c = c := by
    have hzero' : recLen B c = 0 := by rw [hlen c hc, hzero]
    rw [hnext c (by omega), hzero', Nat.add_zero]
  rw [heq, htiles'.walkRecords_eq_none (by omega) (fun q hq => hnext q (htiles'.mem hq).2.2) hstay,
    map_none]

end Listing

/-- The new directory is well formed, and its entries are its own and that of the parent. -/
def ListsNewDirectory (w : Volume) (path : Text) (n p : ℕ) : Prop :=
  ∃ inode ps, w.readInode n = some inode ∧ DirRecords (w.fileBytes inode) (iSize inode) ps ∧
    RecordsAligned (w.fileBytes inode) ps ∧ w.getAllDirs path = some (newEntries n p)

theorem DataFile.getAllDirs_lists_iff (h : w.DataFile n inode) (hw : w.Laid)
    (hpath : w.pathToInode path = some n) (hbs : w.blockSize ≤ 4096)
    (hsize : iSize inode = w.blockSize) (hmode : IsDir inode) :
    w.ListsNewDirectory path n p ↔ Lists (w.fileBytes inode) w.blockSize (newEntries n p) := by
  have hpos := hw.sound.blockSize_pos
  have hlist : ∀ ps, DirRecords (w.fileBytes inode) (iSize inode) ps →
      w.getAllDirs path = some (liveEntries (w.fileBytes inode) ps) := fun ps =>
    (h.exclusive hw).getAllDirs_eq (Nat.ne_of_gt h.isInode.pos) hpath hmode (by omega) (by omega)
      (by omega)
  constructor
  · rintro ⟨inode', ps, hread, hrecords, haligned, hentries⟩
    obtain rfl := mem_unique hread h.read
    refine ⟨ps, hsize ▸ hrecords, haligned, ?_⟩
    exact mem_unique (hlist ps hrecords) hentries
  · rintro ⟨ps, hrecords, haligned, hentries⟩
    rw [← hsize] at hrecords
    refine ⟨inode, ps, h.read, hrecords, haligned, ?_⟩
    rw [hlist ps hrecords, hentries]

/-! ### The call -/

/-- The mode of a new directory. -/
theorem directory_mode (permissions : ℕ) :
    (0x4000 ||| permissions) % 2 ^ 16 &&& inodeTypeDir ≠ 0 := by
  have hbit : ((0x4000 ||| permissions) % 2 ^ 16 &&& inodeTypeDir).testBit 14 = true := by
    rw [Nat.testBit_and, Nat.testBit_mod_two_pow, Nat.testBit_or]
    rfl
  intro hzero
  rw [hzero] at hbit
  exact absurd hbit (by decide)

/-- The parent of a file that has been created is a directory. -/
theorem mode_of_createFile {code : ℕ}
    (hpath : pathToParentAndName path = some (parentPath, some name))
    (hlookup : v.pathToInode parentPath = some p) (hread : v.readInode p = some inode)
    (hcode : code ≠ ext2ResultError)
    (h : v.createFile epoch uniqueId path type permissions = some (w, code)) :
    IsDir inode := by
  intro hmode
  rw [createFile] at h
  obtain ⟨types, -, h⟩ := bind_eq_some_iff.mp h
  simp only [hpath, hlookup, bind_some, hread] at h
  have hcode' : code = ext2ResultError := by
    split_ifs at h <;> exact (some_inj h).2.symm
  exact hcode hcode'

/-- What has been done when a directory has been created: the inode `n` in `u`, the block `b` in
`d`, and the entry in the parent in `w`. -/
theorem createFile_directory (h : v.Formatted)
    (hpath : pathToParentAndName path = some (parentPath, some name))
    (hlookup : v.pathToInode parentPath = some p) (hp : p ≠ 0) (hread : v.readInode p = some inode)
    (hcreate : v.createFile epoch uniqueId path fileTypeDirectory permissions = some (w,
      ext2ResultOk)) :
    ∃ g i u inode₀ b d inode', v.NewInode u g i ((0x4000 ||| permissions) % 2 ^ 16) inode₀ ∧
      u.NewDirectory d (i + 1) p b ((0x4000 ||| permissions) % 2 ^ 16) inode' ∧
      d.createDirectoryEntry p (i + 1) name 2 = some (w, 0) := by
  have hmode := mode_of_createFile hpath hlookup hread (by decide) hcreate
  have htype : fileTypeTranslator[fileTypeDirectory]? = some (2, 0x4000) := rfl
  rcases h.toLaid.createFile_eq htype hpath hlookup hp hread hmode epoch uniqueId permissions with
    heq | ⟨g, i, hnext, -, hinode⟩
  · rw [hcreate] at heq
    exact absurd (some_inj heq).2 (by decide)
  obtain ⟨u, inode₀, hinode, heq⟩ := hinode (h.isInode_next hnext)
  have hlayout := hinode.touches.record.toSameLayout
  rw [heq, addFile, if_pos rfl] at hcreate
  rcases hinode.laid.makeDirectory (hlayout.isInode_iff.mpr hinode.isInode) hinode.empty p with
    ⟨-, hfail⟩ | ⟨b, d, inode', hmade, hnew⟩
  · rw [hfail] at hcreate
    exact absurd (some_inj hcreate).2 (by decide)
  rw [hmade, bind_some] at hcreate
  obtain ⟨⟨w', code⟩, hentry, hcreate⟩ := bind_eq_some_iff.mp hcreate
  by_cases hcode : code = 0
  · subst hcode
    rw [if_neg (not_not_intro rfl), map_eq_some_iff] at hcreate
    obtain ⟨-, -, hcreate⟩ := hcreate
    obtain rfl : w' = w := (Prod.mk.inj hcreate).1
    exact ⟨g, i, u, inode₀, b, d, inode', hinode, hnew, hentry⟩
  · rw [if_pos hcode] at hcreate
    exact absurd (some_inj hcreate).2 (by decide)

/-- An entry is added to a file of its own blocks only if there is room. -/
theorem DataFile.room_of_entry {child : ℕ} (h : v.DataFile n inode) (hv : v.Laid)
    (hmode : IsDir inode)
    (hentry : v.createDirectoryEntry n child name type = some (w, 0)) : ¬ v.NoRoom inode name :=
  fun hroom => by
    have heq := (h.createDirectoryEntry_eq hv hmode child name type).1 hroom
    rw [hentry] at heq
    exact absurd (some_inj heq).2 (by decide)

namespace NewDirectory

variable {name : Text} {type : ℕ} (h : NewDirectory u d n p b mode inode) (hu : u.Laid)
  (hmode : mode &&& inodeTypeDir ≠ 0)
variable {file : Bytes}

include h hu

/-- The new directory is still there after an entry has been added. -/
theorem dataFile_of_touches (hfile : d.DataFile p file) (ht : Touches d w {c | d.IsData file c} ∅) :
    w.DataFile n inode := by
  have hblock := h.dataBlock hu
  have hbits : ∀ c, d.IsMap .blocks c → c ∉ {c | d.IsData file c} := fun c hmap hmem =>
    (hfile.dataBlock hmem).notMeta hmap.isMeta
  refine h.file.of_touches_one ?_ hblock ht (Set.notMem_empty n)
    ((ht.allocated_iff h.laid hbits).mpr hblock.allocated)
  rw [h.size, h.touches.record.toSameLayout.blockSize]

/-- **In a parent of its own**, the new directory has its two entries over what was in the block. -/
theorem content_of_ne (hfile : u.DataFile p file) (hdir : IsDir file) (hne : n ≠ p)
    (hentry : d.createDirectoryEntry p n name type = some (w, 0)) :
    w.Laid ∧ SameRecord u w ∧ w.DataFile n inode ∧
      SameOn (dotEntries n p (u.blockBytes b)) (w.fileBytes inode) 0 u.blockSize := by
  obtain ⟨hkept, hdata, -⟩ := h.dataFile hu hfile hne
  obtain ⟨-, ht, hw, -⟩ := (hkept.createDirectoryEntry_eq h.laid hdir n name type).2
    (hkept.room_of_entry h.laid hdir hentry) w 0 hentry
  have hb : iBlock inode 0 ∉ {c | d.IsData file c} := fun hmem => by
    rw [h.block] at hmem
    exact h.first.free.not_allocated (hfile.dataBlock (hdata b hmem)).allocated
  have hsame := (h.dataBlock hu).sameOn_fileBytes ht hb
  rw [h.touches.record.toSameLayout.blockSize] at hsame
  exact ⟨hw, h.touches.record.trans ht.record, h.dataFile_of_touches hu hkept ht,
    h.content.trans hsame⟩

include hmode

/-- **In itself**, it has a third entry. -/
theorem content_of_self (hself : n = p)
    (hentry : d.createDirectoryEntry p n name type = some (w, 0)) :
    w.Laid ∧ SameRecord u w ∧ w.DataFile n inode ∧ ∃ B G,
      SameOn (dotEntries n p (u.blockBytes b)) B 0 u.blockSize ∧
      insertEntry B u.blockSize n name type = some (some G) ∧
      SameOn G (w.fileBytes inode) 0 u.blockSize := by
  subst hself
  rw [← h.mode] at hmode
  obtain ⟨-, ht, hw, B, G, hB, hG, hF⟩ :=
    (h.file.createDirectoryEntry_eq h.laid hmode n name type).2
      (h.file.room_of_entry h.laid hmode hentry) w 0 hentry
  rw [h.size] at hB hG hF
  exact ⟨hw, h.touches.record.trans ht.record, h.dataFile_of_touches hu h.file ht, B, G,
    h.content.trans hB, hG, hF⟩

end NewDirectory

/-- **A new directory** lists its two entries exactly when it is not its own parent, and its block
goes on behind them with unused records. -/
theorem listsNewDirectory_iff (h : v.Formatted) (hbs : v.blockSize ≤ 4096)
    {path parentPath name dirPath : Text} {epoch uniqueId permissions : ℕ}
    (hpath : pathToParentAndName path = some (parentPath, some name))
    (hlookup : v.pathToInode parentPath = some p) (hparent : v.DataFile p inode)
    (hnext : v.NextInode g i)
    (hcreate : v.createFile epoch uniqueId path fileTypeDirectory permissions =
      some (w, ext2ResultOk)) (hdir : w.pathToInode dirPath = some (i + 1)) :
    w.ListsNewDirectory dirPath (i + 1) p ↔
      i + 1 ≠ p ∧ ∃ b qs, v.NextBlock b ∧ UnusedRecords (v.blockBytes b) v.blockSize qs := by
  have hp := hparent.isInode
  obtain ⟨g', i', u, inode₀, b, d, inode', hinode, hnew, hentry⟩ :=
    createFile_directory h hpath hlookup (Nat.ne_of_gt hp.pos) hparent.read hcreate
  obtain ⟨rfl, rfl⟩ := hnext.unique h hinode.toNextInode
  have hu := hinode.laid
  have hn := hinode.isInode
  have hlayout := hinode.touches.record.toSameLayout
  have hsize := h.inodes.sound.le_blockSize
  have hmode := directory_mode permissions
  have hlists : w.Laid → SameRecord u w → w.DataFile (i + 1) inode' →
      (w.ListsNewDirectory dirPath (i + 1) p ↔
        Lists (w.fileBytes inode') v.blockSize (newEntries (i + 1) p)) := by
    intro hw hrecord hfile
    have hwbs : w.blockSize = v.blockSize := by
      rw [hrecord.toSameLayout.blockSize, hlayout.blockSize]
    rw [hfile.getAllDirs_lists_iff hw hdir (hwbs ▸ hbs), hwbs]
    · rw [hnew.size, hlayout.blockSize, hwbs]
    · rw [IsDir, hnew.mode]
      exact hmode
  by_cases hself : i + 1 = p
  · obtain ⟨hw, hrecord, hfile, B, G, hB, hG, hF⟩ := hnew.content_of_self hu hmode hself hentry
    rw [hlists hw hrecord hfile]
    rw [hlayout.blockSize] at hB hG hF
    refine ⟨fun hlist => absurd (hlist.congr hF.symm) ?_, fun hcond => absurd hself hcond.1⟩
    exact not_lists_insertEntry (Nat.ne_of_gt hn.pos) hn.lt (Nat.ne_of_gt hp.pos) hp.lt hsize
      (by omega) hB hG
  · obtain ⟨hkept, -⟩ := hinode.dataFile h.toLaid hparent hself
    obtain ⟨hw, hrecord, hfile, hcontent⟩ := hnew.content_of_ne hu hkept
      (mode_of_createFile hpath hlookup hparent.read (by decide) hcreate) hself hentry
    have hfirst := (hinode.nextBlock_iff h.toLaid).mp hnew.first
    rw [hlayout.blockSize] at hcontent
    have hstale := (sameOn_dotEntries (i + 1) p (hinode.sameOn_blockBytes h.toLaid
      hfirst.free)).trans
      hcontent
    rw [hlists hw hrecord hfile]
    constructor
    · intro hlist
      obtain ⟨qs, hqs⟩ := (lists_dotEntries_iff (Nat.ne_of_gt hn.pos) hn.lt (Nat.ne_of_gt hp.pos)
        hp.lt hsize).mp (hlist.congr hstale.symm)
      exact ⟨hself, b, qs, hfirst, hqs⟩
    · rintro ⟨-, b', qs, hfirst', hqs⟩
      rw [hfirst'.unique hfirst] at hqs
      exact ((lists_dotEntries_iff (Nat.ne_of_gt hn.pos) hn.lt (Nat.ne_of_gt hp.pos) hp.lt
        hsize).mpr ⟨qs, hqs⟩).congr hstale

/-- In blocks of 1024 bytes, a new directory lists its two entries. -/
theorem listsNewDirectory_oneDirectory : ∃ w,
    (oneDirectory 0 7).createFile 0 0 oneDirectory.filePath fileTypeDirectory 0x1ed =
      some (w, ext2ResultOk) ∧ w.ListsNewDirectory oneDirectory.filePath 4 3 := by
  obtain ⟨⟨w, _⟩, hcreate, rfl, hlookup⟩ : ∃ r,
      (oneDirectory 0 7).createFile 0 0 oneDirectory.filePath fileTypeDirectory 0x1ed = some r ∧
      r.2 = ext2ResultOk ∧ r.1.pathToInode oneDirectory.filePath = some 4 := by
    decide +kernel
  obtain ⟨inode, hfile, -⟩ := @oneDirectory.dataFile 0 7 (by decide) (.inl rfl)
  refine ⟨w, hcreate, (listsNewDirectory_iff (smallVolume.formatted (by decide) (by decide)
    (by decide)) (by decide) oneDirectory.filePath_eq (by decide +kernel) hfile
    (oneDirectory.nextInode (by decide)) hcreate hlookup).mpr ⟨by decide, 8, [], ?_, ?_⟩⟩
  · exact oneDirectory.nextBlock (by decide) (by decide)
  · exact ⟨rfl, nofun, nofun, nofun⟩

/-- In blocks of 2048 bytes, listing it does not end. -/
theorem not_listsNewDirectory_oneDirectory : ∃ w,
    (oneDirectory 1 8).blockSize = 2048 ∧ (oneDirectory 1 8).Formatted ∧
    (oneDirectory 1 8).createFile 0 0 oneDirectory.filePath fileTypeDirectory 0x1ed =
      some (w, ext2ResultOk) ∧ w.pathToInode oneDirectory.filePath = some 4 ∧
    w.getAllDirs oneDirectory.filePath = none ∧
    ¬ w.ListsNewDirectory oneDirectory.filePath 4 3 := by
  obtain ⟨⟨w, _⟩, hcreate, inode', hread', rfl, hlookup, htiles, hthird⟩ : ∃ r,
      (oneDirectory 1 8).createFile 0 0 oneDirectory.filePath fileTypeDirectory 0x1ed = some r ∧
      ∃ inode, r.1.readInode 4 = some inode ∧ r.2 = ext2ResultOk ∧
      r.1.pathToInode oneDirectory.filePath = some 4 ∧
      Tiles (recLen (r.1.fileBytes inode)) 0 [0, 12] 1024 ∧
      recLen (r.1.fileBytes inode) 1024 = 0 := by
    decide +kernel
  have hformatted : (oneDirectory 1 8).Formatted :=
    smallVolume.formatted (by decide) (by decide) (by decide)
  obtain ⟨parent, hparent, -, hdir⟩ := @oneDirectory.dataFile 1 8 (by decide) (.inr rfl)
  -- the new directory is the file with inode 4, and it has a block of its own
  obtain ⟨g, i, u, inode₀, b, d, inode, hinode, hnew, hentry⟩ :=
    createFile_directory hformatted oneDirectory.filePath_eq (by decide +kernel) (by decide)
      hparent.read hcreate
  obtain ⟨rfl, rfl⟩ := (oneDirectory.nextInode (by decide)).unique hformatted hinode.toNextInode
  have hbs : u.blockSize = 2048 := by
    rw [hinode.touches.record.toSameLayout.blockSize]
    decide
  obtain ⟨hparent', -⟩ := hinode.dataFile hformatted.toLaid hparent (by decide)
  obtain ⟨hw, hrecord, hfile, -⟩ := hnew.content_of_ne hinode.laid hparent' hdir (by decide) hentry
  have hwbs : w.blockSize = 2048 := by rw [hrecord.toSameLayout.blockSize, hbs]
  have hsize : iSize inode = 2048 := by rw [hnew.size, hbs]
  have hnone : w.getAllDirs oneDirectory.filePath = none := by
    obtain rfl := mem_unique hread' hfile.read
    refine (hfile.exclusive hw).getAllDirs_eq_none (by decide) hlookup ?_ (by omega) (by omega)
      (by omega) htiles (by decide) (by omega) hthird
    rw [IsDir, hnew.mode]
    exact directory_mode _
  refine ⟨w, by decide, hformatted, hcreate, hlookup, hnone, ?_⟩
  rintro ⟨inode, ps, -, -, -, hlist⟩
  rw [hnone] at hlist
  exact absurd hlist.symm (some_ne_none _)

end Volume

end Bloodmoon
