import Bloodmoon.Ext2.OwnedFiles

/-!
# The names in a directory

`ext2_create_file` appends an entry without a look at those that are there, so that two entries of a
directory can have the same name. They do not in runs of `ext2_create_file` and `ext2_delete_file`
on a consistent volume (`Volume.Consistent`) if each file is created under a name that its directory
does not have (`Volume.CreateSafe`), and if no deletion clears the first record of a directory,
whose length is then zero (`Volume.DeleteSafe`).

Each step touches the blocks of one file and one inode, which `Tidy.of_touches` turns into a
statement about these two.
-/

namespace Bloodmoon

open Machine List Option

variable {bytes G : Bytes} {size child type n p : ℕ} {name : Text} {entries : List LiveEntry}

/-! ### The content of a directory -/

/-- The name of an entry as it is stored: the length has eight bits. -/
def storedName (name : Text) : Text := name.take (name.length % 256)

theorem length_storedName (name : Text) : (storedName name).length = name.length % 256 := by
  rw [storedName, length_take, Nat.min_eq_left (Nat.mod_le _ _)]

theorem lists_zero (bytes : Bytes) : Lists bytes 0 [] :=
  ⟨[], ⟨rfl, fun _ hp => absurd hp not_mem_nil⟩, fun _ hp => absurd hp not_mem_nil, rfl⟩

theorem Lists.unique {entries' : List LiveEntry} (h : Lists bytes size entries)
    (h' : Lists bytes size entries') : entries = entries' := by
  obtain ⟨ps, hrecords, -, rfl⟩ := h
  obtain ⟨qs, hrecords', -, rfl⟩ := h'
  rw [hrecords.tiles.unique hrecords'.tiles]

/-- An entry is stored with the characters that its length counts. -/
theorem splitEntry_storedName (bytes : Bytes) (e start aligned child type : ℕ) (name : Text) :
    splitEntry bytes e start aligned child type (storedName name) =
      splitEntry bytes e start aligned child type name := by
  have hheader : ∀ recLen, entryHeader child recLen (storedName name).length type =
      entryHeader child recLen name.length type := fun recLen => by
    rw [length_storedName]
    exact congrArg (directoryEntry.set · 0 .fileType type) (storeLE_mod _ _ 1 _)
  rw [splitEntry, hheader, length_storedName, Nat.mod_mod]
  refine blit_congr _ _ fun i _ hi => ?_
  rw [nameBytes, nameBytes, storedName, getD_eq_getElem?_getD, getD_eq_getElem?_getD,
    getElem?_take_of_lt (by omega)]

theorem insertEntry_storedName (bytes : Bytes) (size child : ℕ) (name : Text) (type : ℕ) :
    insertEntry bytes size child (storedName name) type =
      insertEntry bytes size child name type := by
  simp only [insertEntry, length_storedName, Nat.mod_mod, splitEntry_storedName]

/-- **An entry that is added** comes behind the others. -/
theorem Lists.insertEntry (h : Lists bytes size entries) (hsize : size < 2 ^ 32) (hpos : 0 < size)
    (hchild : child ≠ 0) (hchild' : child < 2 ^ 32)
    (hG : Bloodmoon.insertEntry bytes size child name type = some (some G)) :
    Lists G size (entries ++ [⟨child, storedName name, type % 256⟩]) := by
  obtain ⟨ps, hrecords, haligned, rfl⟩ := h
  have hlen : (storedName name).length < 256 := by
    rw [length_storedName]
    exact Nat.mod_lt _ (by decide)
  rcases eq_nil_or_concat ps with rfl | ⟨qs, p, rfl⟩
  · obtain rfl : 0 = size := hrecords.tiles
    omega
  rw [concat_eq_append] at *
  rw [← insertEntry_storedName, hrecords.insertEntry_eq hsize hlen] at hG
  split_ifs at hG with hroom
  · exact absurd (Option.some.inj hG) nofun
  obtain ⟨hrecords', haligned', hlive⟩ := hrecords.of_split_align4 haligned hchild hchild' hlen
    (Nat.not_lt.mp hroom) (Option.some.inj (Option.some.inj hG))
  exact ⟨_, hrecords', haligned', hlive⟩

/-- **An entry that is removed** leaves the others. -/
theorem DirRecords.lists_clearEntry {before after : List ℕ} {q r : ℕ}
    (h : DirRecords bytes size (before ++ q :: r :: after))
    (haligned : RecordsAligned bytes (before ++ q :: r :: after)) (hr : 9 ≤ recLen bytes r)
    (hsum : recLen bytes q + recLen bytes r < 65536) :
    ∃ entries, Lists (clearEntry bytes (some q) r) size entries ∧
      entries.Sublist (liveEntries bytes (before ++ q :: r :: after)) := by
  obtain ⟨hrecords, hlen, hothers, -, hlive⟩ := h.of_merge hr hsum rfl
  refine ⟨_, ⟨_, hrecords, fun p hp => ?_, hlive⟩, ?_⟩
  · have hq := haligned q (by simp)
    have hr := haligned r (by simp)
    have hp : p ∈ before ++ after ∨ p = q := by
      rw [mem_append, mem_cons] at hp
      rw [mem_append]
      tauto
    rcases hp with hp | rfl
    · rw [recLen, hothers p hp]
      refine haligned p ?_
      rw [mem_append] at hp
      simp only [mem_append]
      tauto
    · rw [hlen]
      exact (Nat.dvd_add_right hq).mpr hr
  · exact (sublist_merged.filter _).map _

/-! ### Looking up a name -/

/-- A search finds nothing, or the inode of an entry. -/
theorem searchEntries_mem {a m fuel : ℕ} {ps : List ℕ} (h : Tiles (recLen bytes) a ps size)
    (hnext : ∀ p ∈ ps, nextEntry bytes p = p + recLen bytes p)
    (hfound : searchEntries bytes size name fuel a = some m) :
    m = 0 ∨ ∃ p ∈ ps, entryInode bytes p = m := by
  induction ps generalizing a fuel with
  | nil =>
    obtain rfl : a = size := h
    cases fuel with
    | zero => exact absurd hfound.symm (some_ne_none m)
    | succ fuel =>
      rw [searchEntries, if_neg (Nat.lt_irrefl a)] at hfound
      exact .inl (Option.some.inj hfound).symm
  | cons p ps ih =>
    obtain ⟨rfl, hpos, hrest⟩ := h
    have hle := hrest.le
    cases fuel with
    | zero => exact absurd hfound.symm (some_ne_none m)
    | succ fuel =>
      have hstep : wrap32 (p + recLen bytes p) = p + recLen bytes p :=
        hnext p mem_cons_self
      rw [searchEntries, if_pos (by omega), hstep] at hfound
      split_ifs at hfound with hmatch
      · exact .inr ⟨p, mem_cons_self, Option.some.inj hfound⟩
      · refine (ih hrest (forall_mem_cons.1 hnext).2 hfound).imp_right ?_
        rintro ⟨q, hq, hinode⟩
        exact ⟨q, mem_cons_of_mem _ hq, hinode⟩

theorem Lists.searchEntries_mem (h : Lists bytes size entries) (hsize : size < 2 ^ 32) {m : ℕ}
    (hfound : searchEntries bytes size name (2 ^ 32) 0 = some m) :
    m = 0 ∨ ∃ e ∈ entries, e.inode = m := by
  obtain ⟨ps, hrecords, -, rfl⟩ := h
  rcases Bloodmoon.searchEntries_mem hrecords.tiles
    (fun p => hrecords.nextEntry_eq hsize) hfound with
    hzero | ⟨p, hp, rfl⟩
  · exact .inl hzero
  by_cases hzero : entryInode bytes p = 0
  · exact .inl hzero
  refine .inr ⟨liveEntry bytes p, List.mem_map_of_mem (mem_filter.mpr ⟨hp, ?_⟩), rfl⟩
  exact decide_eq_true hzero

namespace Volume

variable {v u d w : Volume} {owner owner' : ℕ → ℕ} {g i b mode m : ℕ} {inode : Bytes}
  {blocks inodes : Set ℕ} {path : Text}
variable {code epoch permissions uniqueId : ℕ}

/-! ### Consistent volumes -/

/-- Each inode has blocks of its own, exactly those that its size says, and the records of a
directory fill it and name inodes of the volume. The bitmap of the inodes need not be right. -/
structure Consistent (v : Volume) (owner : ℕ → ℕ) : Prop where
  laid : v.Laid
  root : v.IsInode ext2RootInoIndex
  file : ∀ n inode, v.IsInode n → v.readInode n = some inode → v.OwnedFile owner n inode
  directory : ∀ n inode, v.IsInode n → v.readInode n = some inode → IsDir inode → ∃ entries,
      Lists (v.fileBytes inode) (iSize inode) entries ∧ ∀ e ∈ entries, v.IsInode e.inode

/-- No directory has two live entries with the same name. -/
def DistinctNames (v : Volume) : Prop :=
  ∀ n inode entries, v.IsInode n → v.readInode n = some inode → IsDir inode →
    Lists (v.fileBytes inode) (iSize inode) entries →
    (entries.map LiveEntry.name).Nodup

/-- The entries of a directory name inodes, and have distinct names. -/
def WellNamed (v : Volume) (inode : Bytes) : Prop :=
  IsDir inode → ∃ entries, Lists (v.fileBytes inode) (iSize inode) entries ∧
    (∀ e ∈ entries, v.IsInode e.inode) ∧ (entries.map LiveEntry.name).Nodup

/-- A consistent volume with distinct names. -/
structure Tidy (v : Volume) (owner : ℕ → ℕ) : Prop where
  laid : v.Laid
  root : v.IsInode ext2RootInoIndex
  file : ∀ n inode, v.IsInode n → v.readInode n = some inode → v.OwnedFile owner n inode
  names : ∀ n inode, v.IsInode n → v.readInode n = some inode → v.WellNamed inode

theorem Consistent.tidy (h : v.Consistent owner) (hnames : v.DistinctNames) : v.Tidy owner := by
  refine ⟨h.laid, h.root, h.file, fun n inode hn hread hmode => ?_⟩
  obtain ⟨entries, hlists, hinodes⟩ := h.directory n inode hn hread hmode
  exact ⟨entries, hlists, hinodes, hnames n inode entries hn hread hmode hlists⟩

theorem Tidy.distinctNames (h : v.Tidy owner) : v.DistinctNames := by
  intro n inode entries hn hread hmode hlists
  obtain ⟨entries', hlists', -, hnodup⟩ := h.names n inode hn hread hmode
  rwa [hlists.unique hlists']

/-- An inode without bytes has no entries. -/
theorem wellNamed_of_empty (v : Volume) (hsize : iSize inode = 0) :
    v.WellNamed inode := fun _ => by
  rw [hsize]
  exact ⟨[], lists_zero _, fun _ he => absurd he not_mem_nil, nodup_nil⟩

theorem WellNamed.congr (h : v.WellNamed inode) (hlayout : SameLayout v w)
    (hsame : SameOn (v.fileBytes inode) (w.fileBytes inode) 0 (iSize inode)) :
    w.WellNamed inode := fun hmode => by
  obtain ⟨entries, hlists, hinodes, hnodup⟩ := h hmode
  exact ⟨entries, hlists.congr hsame, fun e he => hlayout.isInode_iff.mpr (hinodes e he), hnodup⟩

/-- **A step keeps a tidy volume** if it touches the blocks and inodes of some files only, and
leaves these as they should be. -/
theorem Tidy.of_touches (h : v.Tidy owner) (ht : Touches v w blocks inodes) (hw : w.Laid)
    {files : Set ℕ} (hinodes : inodes ⊆ files)
    (hkeep : ∀ b, v.DataBlock b → owner b ∉ files → b ∉ blocks ∧ w.Allocated b ∧ owner' b = owner b)
    (hfiles : ∀ n ∈ files, v.IsInode n → ∀ inode, w.readInode n = some inode →
      w.OwnedFile owner' n inode ∧ w.WellNamed inode) : w.Tidy owner' := by
  have hlayout := ht.record.toSameLayout
  have hfile : ∀ n inode, w.IsInode n → w.readInode n = some inode →
      w.OwnedFile owner' n inode ∧ w.WellNamed inode := by
    intro n inode hn hread
    rw [hlayout.isInode_iff] at hn
    by_cases hmem : n ∈ files
    · exact hfiles n hmem hn inode hread
    rw [ht.readInode n (fun hmem' => hmem (hinodes hmem')) hn] at hread
    have hold := h.file n inode hn hread
    have hown : ∀ b, v.DataBlock b → owner b = n → b ∉ blocks ∧ w.Allocated b ∧ owner' b = n :=
      fun b hb howner => by
        have hkept := hkeep b hb (howner ▸ hmem)
        exact ⟨hkept.1, hkept.2.1, hkept.2.2.trans howner⟩
    obtain ⟨hnew, hblock⟩ := hold.of_touches h.laid.sound ht (fun hmem' => hmem (hinodes hmem'))
      fun b hb howner => ⟨.inr (hown b hb howner).1, (hown b hb howner).2⟩
    exact ⟨hnew, (h.names n inode hn hread).congr hlayout (hold.sameOn_of_touches h.laid.sound ht
      hblock fun b hb howner => (hown b hb howner).1)⟩
  exact ⟨hw, hlayout.isInode_iff.mpr h.root, fun n inode hn hread => (hfile n inode hn hread).1,
    fun n inode hn hread => (hfile n inode hn hread).2⟩

/-! ### Creating a file -/

/-- A new inode has no bytes. -/
theorem Tidy.newInode (h : v.Tidy owner) (hnew : v.NewInode u g i mode inode) : u.Tidy owner := by
  refine h.of_touches hnew.touches hnew.laid (Set.Subset.refl _) (fun b hb _ => ⟨?_, ?_, rfl⟩) ?_
  · intro hmem
    rw [Set.mem_singleton_iff.mp hmem] at hb
    exact hb.notMeta (.inl ⟨.inodes, g, hnew.group, rfl⟩)
  · exact (hnew.touches.allocated_iff h.laid fun _ => hnew.notMem_touched h.laid).mpr hb.allocated
  · rintro n hn hinode inode' hread
    rw [Set.mem_singleton_iff.mp hn] at hread hinode ⊢
    obtain rfl := mem_unique hnew.empty.read hread
    have hlayout := hnew.touches.record.toSameLayout
    exact ⟨ownedFile_of_empty owner (hlayout.isInode_iff.mpr hinode) hread hnew.empty.size,
      wellNamed_of_empty u hnew.empty.size⟩

/-- A new directory has its two entries, if the records behind them are unused. -/
theorem Tidy.newDirectory (h : u.Tidy owner) (hnew : u.NewDirectory d n p b mode inode)
    (hn : u.IsInode n) (hp : u.IsInode p) {qs : List ℕ}
    (hunused : UnusedRecords (u.blockBytes b) u.blockSize qs) :
    d.Tidy (Function.update owner b n) := by
  have hlayout := hnew.touches.record.toSameLayout
  have hbs := h.laid.sound.le_blockSize
  have hfree : ∀ c, u.DataBlock c → c ≠ b := fun c hc heq =>
    hnew.first.free.not_allocated (heq ▸ hc.allocated)
  refine h.of_touches hnew.touches hnew.laid (Set.Subset.refl _) (fun c hc _ => ⟨?_, ?_, ?_⟩) ?_
  · rintro (hmap | hmem)
    · exact hc.notMeta (IsMap.isMeta hmap)
    · exact hfree c hc hmem
  · exact (hnew.allocated c).mpr (.inl hc.allocated)
  · exact Function.update_of_ne (hfree c hc) _ _
  · rintro m hm - inode' hread
    rw [Set.mem_singleton_iff.mp hm] at hread ⊢
    obtain rfl := mem_unique hnew.file.read hread
    have hsize : iSize inode = d.blockSize := by
      rw [hnew.size, hlayout.blockSize]
    refine ⟨ownedFile_of_one hnew.laid.sound hnew.file hsize ?_ hnew.others, fun _ => ?_⟩
    · rw [hnew.block]
      exact Function.update_self _ _ _
    · have hlists := (lists_dotEntries_iff (Nat.ne_of_gt hn.pos) hn.lt (Nat.ne_of_gt hp.pos) hp.lt
        hbs).mpr ⟨qs, hunused⟩
      rw [hnew.size]
      refine ⟨_, hlists.congr hnew.content, fun e he => hlayout.isInode_iff.mpr ?_, ?_⟩
      · rcases mem_cons.mp he with rfl | he
        · exact hn
        · rw [mem_singleton.mp he]
          exact hp
      · exact show [dotName, dotDotName].Nodup by decide

/-- **A directory is written**: its own blocks are touched, and it has new entries. -/
theorem Tidy.of_holds (h : v.Tidy owner) (hp : v.IsInode p) (hread : v.readInode p = some inode)
    (ht : Touches v w {b | v.IsData inode b} ∅) (hw : w.Laid) (hnames : w.WellNamed inode) :
    w.Tidy owner := by
  have hfile := h.file p inode hp hread
  have hall : ∀ b, v.DataBlock b → w.Allocated b := fun b hb =>
    (ht.allocated_iff h.laid fun c hmap hmem =>
      (hfile.dataBlock hmem).notMeta hmap.isMeta).mpr hb.allocated
  refine @Tidy.of_touches v w owner owner _ _ h ht hw {p} (Set.empty_subset _)
    (fun b hb howner => ⟨?_, hall b hb, rfl⟩) ?_
  · rintro ⟨j, hj, rfl⟩
    exact howner (hfile.owned j hj).leaves_stagesBlock.2
  · rintro n hn - inode' hread'
    rw [Set.mem_singleton_iff.mp hn] at hread' ⊢
    rw [ht.readInode p (Set.notMem_empty p) hp] at hread'
    obtain rfl := mem_unique hread hread'
    refine ⟨(hfile.of_touches h.laid.sound ht (Set.notMem_empty p) fun b hb howner => ?_).1, hnames⟩
    exact ⟨Classical.em _, hall b hb, howner⟩

/-- **An entry with a new name is added.** -/
theorem Tidy.createDirectoryEntry (h : v.Tidy owner) (hp : v.IsInode p)
    (hread : v.readInode p = some inode) (hmode : IsDir inode) (hchild : v.IsInode child)
    (hfresh : ∀ entries, Lists (v.fileBytes inode) (iSize inode) entries →
      storedName name ∉ entries.map LiveEntry.name)
    (hrun : v.createDirectoryEntry p child name type = some (w, code)) : w.Tidy owner := by
  have hfile := h.file p inode hp hread
  have hsize := inodeSize_lt inode
  obtain ⟨hfull, hroom⟩ := hfile.createDirectoryEntry_eq h.laid hmode child name type
  by_cases hnone : v.NoRoom inode name
  · obtain ⟨rfl, -⟩ := some_inj ((hfull hnone).symm.trans hrun)
    exact h
  obtain ⟨-, ht, hw, B, G, hB, hG, hF⟩ := hroom hnone w code hrun
  refine h.of_holds hp hread ht hw fun _ => ?_
  obtain ⟨entries, hlists, hinodes, hnodup⟩ := h.names p inode hp hread hmode
  have hpos : 0 < iSize inode := Nat.pos_of_ne_zero fun hzero =>
    hnone (.inl hzero)
  refine ⟨_, ((hlists.congr hB).insertEntry hsize hpos (Nat.ne_of_gt hchild.pos) hchild.lt hG).congr
    hF, fun e he => ht.record.toSameLayout.isInode_iff.mpr ?_, ?_⟩
  · rcases mem_append.mp he with he | he
    · exact hinodes e he
    · rw [mem_singleton.mp he]
      exact hchild
  · rw [map_append, nodup_append]
    refine ⟨hnodup, nodup_singleton _, fun x hx y hy heq => hfresh entries hlists ?_⟩
    rw [map_singleton, mem_singleton] at hy
    rwa [heq, hy] at hx

/-! ### Paths lead to inodes -/

/-- What a directory is read as: its bytes, or a failure. -/
theorem DataFile.readWhole (h : v.DataFile n inode) (hv : v.Laid) :
    v.readInodeBytes n v.fresh (iSize inode) 0 =
        (blit v.fresh 0 (v.fileBytes inode) 0 (iSize inode), iSize inode) ∧
      iSize inode ≤ 12 * v.blockSize ∨
    (v.readInodeBytes n v.fresh (iSize inode) 0).2 = readFailed := by
  have hread := hv.sound.readWhole h.read (h.exclusive hv).noHole v.fresh
  rcases Nat.lt_or_ge (12 * v.blockSize) (iSize inode) with hlt | hle
  · exact .inr (hread.2 hlt)
  · exact .inl ⟨hread.1 hle, hle⟩

theorem Tidy.inodeFromPathAndParent (h : v.Tidy owner) (hn : v.IsInode n)
    (hfound : v.inodeFromPathAndParent n name = some m) : m = 0 ∨ v.IsInode m := by
  have hone : v.IsInode 1 := ⟨by decide, by decide, by
    rw [Nat.zero_div]
    exact h.laid.registered.groups_pos⟩
  obtain ⟨inode, hread⟩ := h.laid.sound.exists_readInode n
  simp only [Volume.inodeFromPathAndParent, hread] at hfound
  by_cases hmode : IsDir inode
  swap
  · rw [if_neg hmode] at hfound
    exact .inl (Option.some.inj hfound).symm
  obtain ⟨entries, hlists, hinodes, -⟩ := h.names n inode hn hread hmode
  have hsize := inodeSize_lt inode
  split_ifs at hfound with hnull hshort hfailed
  · exact .inr (Option.some.inj hfound ▸ hone)
  · exact .inr (Option.some.inj hfound ▸ hone)
  · rcases (h.file n inode hn hread).readWhole h.laid with ⟨hwhole, -⟩ | hfailed'
    · rw [hwhole] at hfound
      refine ((hlists.congr (sameOn_blit_buffer v.fresh _ _)).searchEntries_mem hsize
        hfound).imp_right
        ?_
      rintro ⟨e, he, rfl⟩
      exact hinodes e he
    · exact absurd hfailed' hfailed

/-- **Paths** that lead to an inode in `u` lead there in `v` if the searches on the way do. -/
theorem pathToInode_of_searches {P : ℕ → Prop} (hroot : P ext2RootInoIndex)
    (hsearch : ∀ n name k, P n → u.inodeFromPathAndParent n name = some k → k ≠ 0 →
      v.inodeFromPathAndParent n name = some k ∧ P k)
    (hm : m ≠ 0) (hfound : u.pathToInode path = some m) :
    v.pathToInode path = some m ∧ P m := by
  have hwalk : ∀ fuel n first, P n → u.walkTokens fuel n first = some m →
      v.walkTokens fuel n first = some m ∧ P m := by
    intro fuel
    induction fuel with
    | zero => exact fun _ _ _ hfound => absurd hfound nofun
    | succ fuel ih =>
      rintro n ⟨_ | token, rest⟩ hn hfound
      · exact ⟨hfound, Option.some.inj hfound ▸ hn⟩
      · rw [Volume.walkTokens] at hfound ⊢
        obtain ⟨k, hk, hfound⟩ := bind_eq_some_iff.mp hfound
        split_ifs at hfound with hzero
        · exact absurd (Option.some.inj hfound).symm hm
        obtain ⟨hk, hPk⟩ := hsearch n token k hn hk hzero
        obtain ⟨next, hnext, hfound⟩ := bind_eq_some_iff.mp hfound
        rw [hk, bind_some, if_neg hzero, hnext]
        exact ih k next hPk hfound
  rw [Volume.pathToInode] at hfound ⊢
  obtain ⟨first, hfirst, hfound⟩ := bind_eq_some_iff.mp hfound
  rw [hfirst]
  exact hwalk _ _ first hroot hfound

theorem Tidy.pathToInode (h : v.Tidy owner) (hm : m ≠ 0) (hfound : v.pathToInode path = some m) :
    v.IsInode m :=
  (pathToInode_of_searches h.root (fun _ _ _ hn hk hzero =>
    ⟨hk, (h.inodeFromPathAndParent hn hk).resolve_left hzero⟩) hm hfound).2

/-- A directory that is kept is searched as before. -/
theorem DataFile.inodeFromPathAndParent_congr (h : v.DataFile n inode) (hv : v.Laid)
    (h' : w.DataFile n inode) (hw : w.Laid) (hrecord : SameRecord v w)
    (hsame : SameOn (v.fileBytes inode) (w.fileBytes inode) 0 (iSize inode))
    (name : Text) : w.inodeFromPathAndParent n name = v.inodeFromPathAndParent n name := by
  have hbs := hrecord.toSameLayout.blockSize
  have hread := hv.sound.readWhole h.read (h.exclusive hv).noHole v.fresh
  have hread' := hw.sound.readWhole h'.read (h'.exclusive hw).noHole w.fresh
  simp only [Volume.inodeFromPathAndParent, h.read, h'.read, hbs]
  rcases Nat.lt_or_ge (12 * v.blockSize) (iSize inode) with hlt | hle
  · rw [hbs] at hread'
    simp only [hread.2 hlt, hread'.2 hlt, if_true]
  · have hwhole := hread'.1 (hbs.symm ▸ hle)
    rw [hrecord.fresh, blit_congr _ _ hsame] at hwhole
    simp only [hrecord.fresh, hread.1 hle, hwhole]

/-! ### The calls -/

/-- **A file can be created**: its name, as it is stored, is not in the directory, the next inode of
the bitmap is an inode, but not that of the directory, and the next block, which a new directory
gets, goes on with unused records behind the two entries. -/
def CreateSafe (v : Volume) (path : Text) (type : ℕ) : Prop :=
  ∀ parentPath name p inode, pathToParentAndName path = some (parentPath, name) →
    v.pathToInode parentPath = some p → p ≠ 0 → v.readInode p = some inode → IsDir inode →
    (∀ entries, Lists (v.fileBytes inode) (iSize inode) entries →
      ∀ name' ∈ name, storedName name' ∉ entries.map LiveEntry.name) ∧
    (∀ g i, v.NextInode g i → 0 < v.gdGet g .freeInodesCount → v.IsInode (i + 1) ∧ i + 1 ≠ p) ∧
    (type = fileTypeDirectory → ∀ b, v.NextBlock b →
      ∃ qs, UnusedRecords (v.blockBytes b) v.blockSize qs)

/-- **A file can be deleted**: the first record with its inode in the directory follows another one,
it has a byte for the name, and the two lengths have a sum of 16 bits. -/
def DeleteSafe (v : Volume) (path : Text) : Prop :=
  ∀ parentPath name p inode t before r after,
    pathToParentAndName path = some (parentPath, name) → v.pathToInode parentPath = some p →
    p ≠ 0 → v.readInode p = some inode → IsDir inode → v.pathToInode path = some t → t ≠ 0 →
    DirRecords (v.fileBytes inode) (iSize inode) (before ++ r :: after) →
    entryInode (v.fileBytes inode) r = t →
    (∀ q ∈ before, entryInode (v.fileBytes inode) q ≠ t) →
    ∃ q ∈ before.getLast?, 9 ≤ recLen (v.fileBytes inode) r ∧
      recLen (v.fileBytes inode) q + recLen (v.fileBytes inode) r < 65536

/-- A call that does not come to an inode changes nothing. -/
theorem createFile_cases
    (hrun : v.createFile epoch uniqueId path type permissions = some (w, code)) :
    w = v ∨ ∃ parentPath name p inode dentryType inodeType,
      pathToParentAndName path = some (parentPath, name) ∧ v.pathToInode parentPath = some p ∧
      p ≠ 0 ∧ v.readInode p = some inode ∧ IsDir inode ∧
      fileTypeTranslator[type]? = some (dentryType, inodeType) := by
  rw [createFile] at hrun
  obtain ⟨⟨dentryType, inodeType⟩, htype, hrun⟩ := bind_eq_some_iff.mp hrun
  cases hpath : pathToParentAndName path with
  | none =>
    simp only [hpath] at hrun
    exact .inl (some_inj hrun).1.symm
  | some parts =>
    obtain ⟨parentPath, name⟩ := parts
    simp only [hpath] at hrun
    obtain ⟨p, hlookup, hrun⟩ := bind_eq_some_iff.mp hrun
    by_cases hp : p = 0
    · rw [if_pos hp] at hrun
      exact .inl (some_inj hrun).1.symm
    rw [if_neg hp] at hrun
    obtain ⟨inode, hread, hrun⟩ := bind_eq_some_iff.mp hrun
    by_cases hmode : inodeDescriptor.get inode 0 .mode &&& inodeTypeDir = 0
    · rw [if_pos hmode] at hrun
      exact .inl (some_inj hrun).1.symm
    · exact .inr ⟨parentPath, name, p, inode, dentryType, inodeType, rfl, hlookup, hp, hread, hmode,
        htype⟩

/-- A file that has the same bytes has the same entries. -/
theorem sameOn_of_hasBlock (h : ∀ x, v.HasBlock inode (x / v.blockSize) →
    w.fileBytes inode x = v.fileBytes inode x) :
    SameOn (v.fileBytes inode) (w.fileBytes inode) 0 (iSize inode) := by
  intro x _ hx
  have := Nat.div_mul_le_self x v.blockSize
  exact h x (by rw [HasBlock]; omega)

/-- The end of `ext2_create_file`. -/
theorem Tidy.addEntry (h : v.Tidy owner) (hp : v.IsInode p) (hread : v.readInode p = some inode)
    (hmode : IsDir inode) (hchild : v.IsInode child) {name : Option Text}
    (hfresh : ∀ entries, Lists (v.fileBytes inode) (iSize inode) entries → ∀
      name' ∈ name, storedName name' ∉ entries.map LiveEntry.name)
    (hrun : ((name.bind fun name => v.createDirectoryEntry p child name type).bind fun e => if e.2
      ≠ 0 then some (e.1, ext2ResultError) else (e.1.listDentry path).map fun _ => (e.1,
      ext2ResultOk)) = some (w, code)) :
    w.Tidy owner := by
  obtain ⟨⟨x, c⟩, hentry, hrun⟩ := bind_eq_some_iff.mp hrun
  obtain ⟨name', hname, hentry⟩ := bind_eq_some_iff.mp hentry
  have hx := h.createDirectoryEntry hp hread hmode hchild (fun entries hlists =>
    hfresh entries hlists name' hname) hentry
  have hw : w = x := by
    split_ifs at hrun
    · exact (some_inj hrun).1.symm
    · obtain ⟨-, -, heq⟩ := map_eq_some_iff.mp hrun
      exact (Prod.mk.inj heq).1.symm
  exact hw ▸ hx

/-- **`ext2_create_file`** with a new name keeps a tidy volume. -/
theorem Tidy.createFile (h : v.Tidy owner) (hsafe : v.CreateSafe path type)
    (hrun : v.createFile epoch uniqueId path type permissions = some (w, code)) :
    ∃ owner', w.Tidy owner' := by
  rcases createFile_cases hrun with
    rfl | ⟨parentPath, name, p, inode, dentryType, inodeType, hpath, hlookup, hp,
      hread, hmode, htype⟩
  · exact ⟨owner, h⟩
  obtain ⟨hfresh, hnext, hunused⟩ := hsafe parentPath name p inode hpath hlookup hp hread hmode
  have hinode := h.pathToInode hp hlookup
  rcases h.laid.createFile_eq htype hpath hlookup hp hread hmode epoch uniqueId permissions with
    heq | ⟨g, i, hnextInode, hpos, hnew⟩
  · obtain ⟨rfl, -⟩ := some_inj (heq.symm.trans hrun)
    exact ⟨owner, h⟩
  obtain ⟨hchild, hne⟩ := hnext g i hnextInode hpos
  obtain ⟨u, inode', hnew, heq⟩ := hnew hchild
  rw [heq, addFile] at hrun
  -- the inode has been taken, and the directory is as it was
  have hu := h.newInode hnew
  have hlayout := hnew.touches.record.toSameLayout
  obtain ⟨hfile, -, hbytes⟩ := hnew.dataFile h.laid (h.file p inode hinode hread).toDataFile hne
  have hsame := sameOn_of_hasBlock hbytes
  by_cases hdir : type = fileTypeDirectory
  · rw [if_pos hdir] at hrun
    rcases hu.laid.makeDirectory (hlayout.isInode_iff.mpr hchild) hnew.empty p with
      ⟨-, hfail⟩ | ⟨b, d, inode'', hmade, hmake⟩
    · rw [hfail] at hrun
      obtain ⟨rfl, -⟩ := some_inj hrun
      exact ⟨owner, hu⟩
    -- the directory has its block
    rw [hmade, bind_some] at hrun
    have hfirst := (hnew.nextBlock_iff h.laid).mp hmake.first
    obtain ⟨qs, hqs⟩ := hunused hdir b hfirst
    have hbs := h.laid.sound.le_blockSize
    have hqs' := hqs.congr ((hnew.sameOn_blockBytes h.laid hfirst.free).mono (Nat.zero_le _)
      (show 1024 + (v.blockSize - 1024) ≤ 0 + v.blockSize by omega))
    rw [← hlayout.blockSize] at hqs'
    have hd := hu.newDirectory hmake (hlayout.isInode_iff.mpr hchild)
      (hlayout.isInode_iff.mpr hinode) hqs'
    have hlayout' := hmake.touches.record.toSameLayout
    obtain ⟨hfile', -, hbytes'⟩ := hmake.dataFile hu.laid hfile hne
    have hsame' := hsame.trans (sameOn_of_hasBlock hbytes')
    exact ⟨_, hd.addEntry hfile'.isInode hfile'.read hmode
      (hlayout'.isInode_iff.mpr (hlayout.isInode_iff.mpr hchild))
      (fun entries hlists => hfresh entries (hlists.congr hsame'.symm)) hrun⟩
  · rw [if_neg hdir, bind_some] at hrun
    exact ⟨_, hu.addEntry hfile.isInode hfile.read hmode (hlayout.isInode_iff.mpr hchild)
      (fun entries hlists => hfresh entries (hlists.congr hsame.symm)) hrun⟩

/-- A call that does not come to a record changes nothing. -/
theorem deleteDentry_cases (hrun : v.deleteDentry path = some (w, code)) :
    w = v ∨ ∃ parentPath name p inode t previous r,
      pathToParentAndName path = some (parentPath, name) ∧ v.pathToInode parentPath = some p ∧
      p ≠ 0 ∧ v.readInode p = some inode ∧ IsDir inode ∧ v.pathToInode path = some t ∧
      t ≠ 0 ∧ (v.readInodeBytes p v.fresh (iSize inode) 0).2 ≠ readFailed ∧
      findEntry (v.readInodeBytes p v.fresh (iSize inode) 0).1
        (iSize inode) t (2 ^ 32) 0 none = some (some (previous, r)) ∧
      (v.writeInodeBytes p (clearEntry (v.readInodeBytes p v.fresh
        (iSize inode) 0).1 previous r) (iSize inode) 0).map Prod.fst = some w := by
  rw [deleteDentry] at hrun
  cases hpath : pathToParentAndName path with
  | none =>
    simp only [hpath] at hrun
    exact .inl (some_inj hrun).1.symm
  | some parts =>
    obtain ⟨parentPath, name⟩ := parts
    simp only [hpath] at hrun
    obtain ⟨p, hlookup, hrun⟩ := bind_eq_some_iff.mp hrun
    by_cases hp : p = 0
    · rw [if_pos hp] at hrun
      exact .inl (some_inj hrun).1.symm
    rw [if_neg hp] at hrun
    cases hread : v.readInode p with
    | none =>
      simp only [hread] at hrun
      exact .inl (some_inj hrun).1.symm
    | some inode =>
      simp only [hread] at hrun
      obtain ⟨t, htarget, hrun⟩ := bind_eq_some_iff.mp hrun
      split_ifs at hrun with hzero hmode hnull hshort hfailed
      · exact .inl (some_inj hrun).1.symm
      · exact .inl (some_inj hrun).1.symm
      · exact .inl (some_inj hrun).1.symm
      · obtain ⟨_ | ⟨previous, r⟩, hfind, hrun⟩ := bind_eq_some_iff.mp hrun
        · exact .inl (some_inj hrun).1.symm
        · obtain ⟨x, hwrite, heq⟩ := map_eq_some_iff.mp hrun
          refine .inr ⟨parentPath, name, p, inode, t, previous, r, rfl, hlookup, hp, hread, hmode,
            htarget, hzero, hfailed, hfind, ?_⟩
          rw [hwrite, map_some, (Prod.mk.inj heq).1]
      · exact .inl (some_inj hrun).1.symm

/-- **`ext2_delete_dentry`** keeps a tidy volume if the record follows another one. -/
theorem Tidy.deleteDentry (h : v.Tidy owner) (hsafe : v.DeleteSafe path)
    (hrun : v.deleteDentry path = some (w, code)) : w.Tidy owner := by
  rcases deleteDentry_cases hrun with rfl | ⟨parentPath, name, p, inode, t, previous, r, hpath,
    hlookup, hp, hread, hmode, htarget, ht, hfailed, hfind, hwrite⟩
  · exact h
  have hinode := h.pathToInode hp hlookup
  have hfile := h.file p inode hinode hread
  have hsize := inodeSize_lt inode
  obtain ⟨entries, ⟨ps, hrecords, haligned, rfl⟩, hinodes, hnodup⟩ :=
    h.names p inode hinode hread hmode
  rcases hfile.readWhole h.laid with ⟨hwhole, hle⟩ | hfailed'
  swap
  · exact absurd hfailed' hfailed
  have hB := sameOn_blit_buffer v.fresh (v.fileBytes inode) (iSize inode)
  rw [hwhole] at hfind hwrite
  generalize blit v.fresh 0 (v.fileBytes inode) 0 (iSize inode) = B at *
  obtain ⟨hcopy, hlive⟩ := hrecords.congr hB
  have hget := hrecords.get_congr hB
  -- the record that is found is the first one with the inode
  obtain ⟨before, r', after, rfl, hr, hfirst⟩ : ∃ before r' after, ps = before ++ r' :: after ∧
      entryInode B r' = t ∧ ∀ q ∈ before, entryInode B q ≠ t := by
    cases hsome : ps.find? fun q => entryInode B q = t with
    | none =>
      rw [findEntry_eq_none hcopy.tiles (fun q => hcopy.nextEntry_eq hsize) (fun q hq heq =>
        find?_eq_none.mp hsome q hq (decide_eq_true heq)) (by omega)] at hfind
      exact absurd (Option.some.inj hfind) nofun
    | some r' =>
      obtain ⟨hr, before, after, hps, hfirst⟩ := find?_eq_some_iff_append.mp hsome
      exact ⟨before, r', after, hps, of_decide_eq_true hr, fun q hq => by simpa using hfirst q hq⟩
  rw [findEntry_eq hcopy.tiles (fun q hq => hcopy.nextEntry_eq hsize (by simp [hq])) hfirst hr
    (by omega)] at hfind
  obtain ⟨rfl, rfl⟩ := some_inj (Option.some.inj hfind)
  obtain ⟨q, hq, hlen, hsum⟩ := hsafe parentPath name p inode t before r' after hpath
    hlookup hp hread
    hmode htarget ht hrecords ((hget r' (by simp) .inode).symm.trans hr) fun q hq => by
      rw [entryInode, ← hget q (by simp [hq])]
      exact hfirst q hq
  obtain ⟨before, rfl⟩ := getLast?_eq_some_iff.mp hq
  rw [foldl_concat] at hwrite
  simp only [append_assoc, singleton_append] at *
  rw [← show recLen B r' = recLen (v.fileBytes inode) r' from hget r' (by simp) .recLen]
    at hlen hsum
  rw [← show recLen B q = recLen (v.fileBytes inode) q from hget q (by simp) .recLen] at hsum
  have hpos : 0 < iSize inode := by
    have := hrecords.tiles.mem (p := r') (by simp)
    omega
  -- it is written
  obtain ⟨-, d, hwritten, hd⟩ := (hfile.exclusive h.laid).writeWhole
    (clearEntry B (some q) r') hpos hle
  rw [hwritten] at hwrite
  obtain rfl : v.withBytes d = w := Option.some.inj hwrite
  obtain ⟨htouches, hlaid⟩ := hfile.touches_of_holds h.laid hd
  refine h.of_holds hinode hread htouches hlaid fun _ => ?_
  obtain ⟨entries, hlists, hsub⟩ := hcopy.lists_clearEntry
    (hrecords.aligned_congr hB haligned) hlen hsum
  rw [hlive] at hsub
  refine ⟨entries, hlists.congr (hd.sameOn_fileBytes (hfile.exclusive h.laid) (Nat.le_refl _)),
    fun e he => htouches.record.toSameLayout.isInode_iff.mpr (hinodes e (hsub.subset he)), ?_⟩
  exact hnodup.sublist (hsub.map _)

theorem Tidy.flushPartition (h : v.Tidy owner) : v.flushPartition.Tidy owner := by
  obtain ⟨hlaid, htouches⟩ := h.laid.flushPartition
  refine @Tidy.of_touches v v.flushPartition owner owner _ _ h htouches hlaid ∅ (Set.Subset.refl _)
    (fun b hb _ => ⟨Set.notMem_empty b, ?_, rfl⟩) fun n hn => absurd hn (Set.notMem_empty n)
  exact (htouches.allocated_iff h.laid fun c _ => Set.notMem_empty c).mpr hb.allocated

/-- The volume `u` after the inode `t` of `v` has been deleted with its blocks. -/
structure InodeDeleted (v u : Volume) (t : ℕ) : Prop where
  laid : u.Laid
  touches : Touches v u {c | v.IsMeta c} {t}
  allocated : ∀ inode, v.readInode t = some inode → ∀ b, v.Allocated b → ¬ v.IsData inode b →
    u.Allocated b
  gone : ∃ inode, u.readInode t = some inode ∧ iSize inode = 0 ∧
    inodeDescriptor.get inode 0 .mode = 0

/-- **`ext2_delete_file`** up to the entry: nothing has changed, or the inode is deleted. -/
theorem Tidy.deleteFile_cases (h : v.Tidy owner) (hrun : v.deleteFile epoch path = some (w, code)) :
    w = v ∨ ∃ t u, v.IsInode t ∧ v.InodeDeleted u t ∧ ∃ x c, u.deleteDentry path = some (x, c) ∧
      (w = x ∨ w = x.flushPartition) := by
  rw [deleteFile] at hrun
  obtain ⟨t, htarget, hrun⟩ := bind_eq_some_iff.mp hrun
  by_cases hzero : t = 0
  · rw [if_pos hzero] at hrun
    exact .inl (some_inj hrun).1.symm
  rw [if_neg hzero] at hrun
  have ht := h.pathToInode hzero htarget
  obtain ⟨inode, hread⟩ := h.laid.sound.exists_readInode t
  have hfile := h.file t inode ht hread
  rcases hfile.deleteFileBlocks h.laid with hfail | ⟨x, hblocks, hx, hxt, hxall⟩
  · rw [hfail] at hrun
    exact .inl (some_inj hrun).1.symm
  rw [hblocks, bind_some] at hrun
  have hlayout := hxt.record.toSameLayout
  rcases hx.deleteInode (hlayout.isInode_iff.mpr ht) epoch with
    hnone | ⟨u, inode', hdelete, hu, hut, huall, hgone⟩
  · rw [hnone] at hrun
    exact absurd hrun nofun
  rw [hdelete] at hrun
  obtain ⟨⟨y, c⟩, hentry, hrun⟩ := map_eq_some_iff.mp hrun
  refine .inr ⟨t, u, ht, ⟨hu, (hxt.trans hut).mono (fun b hb => ?_) (by simp), ?_,
    inode', hgone⟩, y, c, hentry, ?_⟩
  · rcases hb with hb | hb
    · exact IsMap.isMeta hb
    · exact IsMap.isMeta (hlayout.isMap_iff.mp hb)
  · intro inode'' hread' b hb hdata
    obtain rfl := mem_unique hread hread'
    exact (huall b).mpr ((hxall b).mpr ⟨hb, hdata⟩)
  · split_ifs at hrun
    · exact .inl (Prod.mk.inj hrun).1.symm
    · exact .inr (Prod.mk.inj hrun).1.symm

section Deleted

variable {t : ℕ} (h : v.Tidy owner) (ht : v.IsInode t) (hu : v.InodeDeleted u t)

include h ht hu

theorem InodeDeleted.tidy : u.Tidy owner := by
  obtain ⟨inode, hread⟩ := h.laid.sound.exists_readInode t
  have hfile := h.file t inode ht hread
  refine h.of_touches hu.touches hu.laid (Set.Subset.refl _)
    (fun b hb howner => ⟨hb.notMeta, hu.allocated inode hread b hb.allocated ?_, rfl⟩) ?_
  · rintro ⟨j, hj, rfl⟩
    exact howner (hfile.owned j hj).leaves_stagesBlock.2
  · rintro n hn - inode' hread'
    obtain ⟨inode'', hgone, hsize, -⟩ := hu.gone
    rw [Set.mem_singleton_iff.mp hn] at hread' ⊢
    obtain rfl := mem_unique hgone hread'
    exact ⟨ownedFile_of_empty owner
      (hu.touches.record.toSameLayout.isInode_iff.mpr ht) hread' hsize, wellNamed_of_empty u hsize⟩

/-- Other directories are kept. -/
theorem InodeDeleted.kept (hn : v.IsInode n) (hne : n ≠ t) (hread : v.readInode n = some inode) :
    u.DataFile n inode ∧ SameOn (v.fileBytes inode) (u.fileBytes inode) 0 (iSize inode) := by
  obtain ⟨deleted, hdeleted⟩ := h.laid.sound.exists_readInode t
  have hold := h.file n inode hn hread
  have hnot : n ∉ ({t} : Set ℕ) := fun hmem => hne (Set.mem_singleton_iff.mp hmem)
  obtain ⟨hnew, hblock⟩ := @OwnedFile.of_touches v u owner owner n inode _ _ hold h.laid.sound
    hu.touches hnot fun b hb howner =>
      ⟨.inr hb.notMeta, hu.allocated deleted hdeleted b hb.allocated (by
        rintro ⟨j, hj, rfl⟩
        have hown := ((h.file t deleted ht hdeleted).owned j hj).leaves_stagesBlock.2
        exact hne (howner.symm.trans hown)), howner⟩
  exact ⟨hnew.toDataFile, hold.sameOn_of_touches h.laid.sound hu.touches hblock fun b hb _ =>
    hb.notMeta⟩

/-- Paths that lead somewhere when the inode is gone led there before. -/
theorem InodeDeleted.pathToInode (hm : m ≠ 0) (hfound : u.pathToInode path = some m) :
    v.pathToInode path = some m := by
  refine (pathToInode_of_searches h.root (fun n name k hn hk hzero => ?_) hm hfound).1
  have hne : n ≠ t := by
    rintro rfl
    obtain ⟨inode, hread, -, hmode⟩ := hu.gone
    simp only [Volume.inodeFromPathAndParent, hread, IsDir, hmode] at hk
    exact hzero (Option.some.inj hk).symm
  obtain ⟨inode, hread⟩ := h.laid.sound.exists_readInode n
  obtain ⟨hfile, hsame⟩ := hu.kept h ht hn hne hread
  rw [(h.file n inode hn hread).inodeFromPathAndParent_congr h.laid hfile hu.laid
    hu.touches.record hsame name] at hk
  exact ⟨hk, (h.inodeFromPathAndParent hn hk).resolve_left hzero⟩

/-- What can be deleted can still be deleted when the inode is gone. -/
theorem InodeDeleted.deleteSafe (hsafe : v.DeleteSafe path) : u.DeleteSafe path := by
  intro parentPath name p inode t' before r after hpath hlookup hp hread hmode htarget
    ht' hrecords hr
    hfirst
  have hlookup := hu.pathToInode h ht hp hlookup
  have htarget := hu.pathToInode h ht ht' htarget
  have hinode := h.pathToInode hp hlookup
  -- the directory is not the inode that is gone
  have hne : p ≠ t := by
    rintro rfl
    obtain ⟨inode', hread', -, hmode'⟩ := hu.gone
    obtain rfl := mem_unique hread hread'
    rw [IsDir, hmode'] at hmode
    exact hmode rfl
  rw [hu.touches.readInode p (fun hmem => hne (Set.mem_singleton_iff.mp hmem)) hinode] at hread
  have hsame := (hu.kept h ht hinode hne hread).2.symm
  have hget := hrecords.get_congr hsame
  obtain ⟨q, hq, hlen, hsum⟩ := hsafe parentPath name p inode t' before r after hpath
    hlookup hp hread
    hmode htarget ht' (hrecords.congr hsame).1 ((hget r (by simp) .inode).trans hr) fun q hq => by
      rw [entryInode, hget q (by simp [hq])]
      exact hfirst q hq
  have hmem : q ∈ before ++ r :: after := mem_append_left _ (mem_of_getLast? hq)
  have hrecLen : ∀ o ∈ before ++ r :: after, recLen (v.fileBytes inode) o =
      recLen (u.fileBytes inode) o := fun o ho => hget o ho .recLen
  rw [hrecLen r (by simp)] at hlen hsum
  rw [hrecLen q hmem] at hsum
  exact ⟨q, hq, hlen, hsum⟩

end Deleted

/-- **`ext2_delete_file`** keeps a tidy volume if the record follows another one. -/
theorem Tidy.deleteFile (h : v.Tidy owner) (hsafe : v.DeleteSafe path)
    (hrun : v.deleteFile epoch path = some (w, code)) : w.Tidy owner := by
  rcases h.deleteFile_cases hrun with rfl | ⟨t, u, ht, hu, x, c, hentry, hw⟩
  · exact h
  have hx := (hu.tidy h ht).deleteDentry (hu.deleteSafe h ht hsafe) hentry
  rcases hw with rfl | rfl
  · exact hx
  · exact hx.flushPartition

/-! ### Runs -/

/-- A call on files. -/
inductive FileCall where
  | create (epoch uniqueId : ℕ) (path : Text) (type permissions : ℕ)
  | delete (epoch : ℕ) (path : Text)

/-- What the call does. -/
def runCall (v : Volume) : FileCall → Option (Volume × ℕ)
  | .create epoch uniqueId path type permissions =>
    v.createFile epoch uniqueId path type permissions
  | .delete epoch path => v.deleteFile epoch path

/-- The call meets its condition. -/
def CallSafe (v : Volume) : FileCall → Prop
  | .create _ _ path type _ => v.CreateSafe path type
  | .delete _ path => v.DeleteSafe path

/-- One call, whatever it returns, that meets its condition. -/
def SafeCall (v w : Volume) : Prop := ∃ call code, v.CallSafe call ∧ v.runCall call = some (w, code)

theorem Tidy.safeCall (h : v.Tidy owner) (hcall : v.SafeCall w) : ∃ owner', w.Tidy owner' := by
  obtain ⟨call, code, hsafe, hrun⟩ := hcall
  cases call with
  | create epoch uniqueId path type permissions => exact h.createFile hsafe hrun
  | delete epoch path => exact ⟨owner, h.deleteFile hsafe hrun⟩

/-- **Names stay distinct** in every run of calls that meet their conditions. -/
theorem distinctNames_run (h : v.Consistent owner) (hnames : v.DistinctNames)
    (hrun : Relation.ReflTransGen SafeCall v w) : w.DistinctNames := by
  have htidy : ∃ owner', w.Tidy owner' := by
    induction hrun with
    | refl => exact ⟨owner, h.tidy hnames⟩
    | tail _ hcall ih =>
      obtain ⟨owner', htidy⟩ := ih
      exact htidy.safeCall hcall
  obtain ⟨owner', htidy⟩ := htidy
  exact htidy.distinctNames

/-! ### On the volume with two directories -/

namespace oneDirectory

/-- The blocks of the two directories. -/
def ownerOf (b : ℕ) : ℕ := if b = 6 then 2 else 3

/-- What the directory with an inode lists. -/
def listed (n : ℕ) : List LiveEntry := if n = 2 then [⟨3, [0x64#8], 2⟩] else [⟨3, [0x2e#8], 2⟩]

/-- Other inodes are unused. -/
theorem unused : ∀ n ∈ [1, 4, 5, 6, 7, 8], ∃ inode,
    (oneDirectory 0 7).readInode n = some inode ∧ iSize inode = 0 ∧ ¬ IsDir inode := by
  decide +kernel

/-- Each of the two directories has a block with one record. -/
theorem directories : ∀ n ∈ [2, 3], ∃ inode, (oneDirectory 0 7).readInode n = some inode ∧
    iSize inode = 1024 ∧ (∀ k < 15, iBlock inode k = if k = 0 then n + 4 else 0) ∧
    DirRecords ((oneDirectory 0 7).fileBytes inode) 1024 [0] ∧
    RecordsAligned ((oneDirectory 0 7).fileBytes inode) [0] ∧
    liveEntries ((oneDirectory 0 7).fileBytes inode) [0] = listed n := by
  decide +kernel

variable {n : ℕ} {inode : Bytes}

theorem laid : (oneDirectory 0 7).Laid :=
  (smallVolume.formatted (by decide) (by decide) (by decide)).toLaid

theorem isInode_cases (hn : (oneDirectory 0 7).IsInode n) :
    n ∈ [1, 4, 5, 6, 7, 8] ∨ n ∈ [2, 3] := by
  have := smallVolume.isInode_iff.mp hn
  simp only [mem_cons]
  omega

theorem ownedFile (hn : (oneDirectory 0 7).IsInode n)
    (hread : (oneDirectory 0 7).readInode n = some inode) :
    (oneDirectory 0 7).OwnedFile ownerOf n inode := by
  rcases isInode_cases hn with hmem | hmem
  · obtain ⟨_, hread', hsize, -⟩ := unused n hmem
    obtain rfl := mem_unique hread hread'
    exact ownedFile_of_empty _ hn hread hsize
  · obtain ⟨_, hread', hsize, hblock, -⟩ := directories n hmem
    obtain rfl := mem_unique hread hread'
    have hzero : iBlock inode 0 = n + 4 := hblock 0 (by decide)
    have hbounds : n = 2 ∨ n = 3 := by simpa using hmem
    have hbs : (oneDirectory 0 7).blockSize = 1024 := smallVolume.blockSize_eq (by decide)
    refine ownedFile_of_one laid.sound (dataFile_of_le hn hread (by rw [hsize, hbs]) ?_)
      (by rw [hsize, hbs]) ?_ fun k hk hne => (hblock k hk).trans (if_neg hne)
    · rw [hzero]
      refine ⟨(smallVolume.allocated_iff (by decide) (by decide)).mpr (by omega),
        fun hmeta => ?_, smallVolume.flushSpares (by decide) (by omega)⟩
      have := smallVolume.isMeta (by decide) hmeta
      omega
    · rw [hzero]
      rcases hbounds with rfl | rfl <;> rfl

/-- What a directory lists. -/
theorem lists (hn : (oneDirectory 0 7).IsInode n)
    (hread : (oneDirectory 0 7).readInode n = some inode) (hmode : IsDir inode) :
    n ∈ [2, 3] ∧ Lists ((oneDirectory 0 7).fileBytes inode) (iSize inode) (listed n) := by
  rcases isInode_cases hn with hmem | hmem
  · obtain ⟨_, hread', -, hnot⟩ := unused n hmem
    obtain rfl := mem_unique hread hread'
    exact absurd hmode hnot
  · obtain ⟨_, hread', hsize, -, hlists⟩ := directories n hmem
    obtain rfl := mem_unique hread hread'
    rw [hsize]
    exact ⟨hmem, _, hlists⟩

theorem consistent : (oneDirectory 0 7).Consistent ownerOf where
  laid := laid
  root := smallVolume.isInode_iff.mpr (by decide)
  file := fun _ _ => ownedFile
  directory := fun n inode hn hread hmode => by
    obtain ⟨hmem, hlists⟩ := lists hn hread hmode
    refine ⟨listed n, hlists, fun e he => smallVolume.isInode_iff.mpr ?_⟩
    have hthree : ∀ n ∈ [2, 3], ∀ e ∈ listed n, e.inode = 3 := by decide
    rw [hthree n hmem e he]
    decide

theorem distinctNames : (oneDirectory 0 7).DistinctNames := by
  intro n inode entries hn hread hmode hlists
  obtain ⟨hmem, hlists'⟩ := lists hn hread hmode
  rw [hlists.unique hlists']
  have hnodup : ∀ n ∈ [2, 3], ((listed n).map LiveEntry.name).Nodup := by decide
  exact hnodup n hmem

/-- A regular file can be created in the directory. -/
theorem createSafe : (oneDirectory 0 7).CreateSafe filePath fileTypeRegular := by
  intro parentPath name p inode hpath hlookup hp hread hmode
  obtain ⟨rfl, rfl⟩ := some_inj (filePath_eq.symm.trans hpath)
  have hfound : (oneDirectory 0 7).pathToInode dirPath = some 3 := by decide +kernel
  obtain rfl := mem_unique hfound hlookup
  have hn : (oneDirectory 0 7).IsInode 3 := smallVolume.isInode_iff.mpr (by decide)
  refine ⟨fun entries hlists name hname => ?_, fun g i hnext _ => ?_, fun h => absurd h (by decide)⟩
  · rw [hlists.unique (lists hn hread hmode).2, ← Option.some.inj hname]
    decide
  · obtain ⟨rfl, rfl⟩ := (nextInode (by decide)).unique
      (smallVolume.formatted (by decide) (by decide) (by decide)) hnext
    exact ⟨smallVolume.isInode_iff.mpr (by decide), by decide⟩

end oneDirectory

open oneDirectory

/-- The run creates a file in the directory. -/
theorem distinctNames_oneDirectory : ∃ w, (oneDirectory 0 7).SafeCall w ∧ w.DistinctNames := by
  obtain ⟨⟨w, code⟩, hw, -⟩ : ∃ r,
      (oneDirectory 0 7).createFile 0 0 filePath fileTypeRegular 0x1ed = some r ∧ True := by
    decide +kernel
  have hcall : (oneDirectory 0 7).SafeCall w :=
    ⟨.create 0 0 filePath fileTypeRegular 0x1ed, code, createSafe, hw⟩
  exact ⟨w, hcall, distinctNames_run consistent distinctNames
    (.single hcall)⟩

/-- **A file can be created twice**: then the directory has two entries with its name. -/
theorem not_distinctNames_twice : ∃ u w, (oneDirectory 0 7).Consistent ownerOf ∧
    (oneDirectory 0 7).DistinctNames ∧
    (oneDirectory 0 7).createFile 0 0 filePath fileTypeRegular 0x1ed = some (u, ext2ResultOk) ∧
    u.createFile 0 0 filePath fileTypeRegular 0x1ed = some (w, ext2ResultOk) ∧
    ¬ w.DistinctNames := by
  obtain ⟨⟨u, _⟩, hu, ⟨w, _⟩, hw, inode, hread, rfl, rfl, hgroup, hmode, hsize, hrecords, haligned,
      hlive⟩ :
      ∃ r, (oneDirectory 0 7).createFile 0 0 filePath fileTypeRegular 0x1ed = some r ∧
      ∃ s, r.1.createFile 0 0 filePath fileTypeRegular 0x1ed = some s ∧
      ∃ inode, s.1.readInode 3 = some inode ∧ r.2 = ext2ResultOk ∧ s.2 = ext2ResultOk ∧
      (3 - 1) / s.1.sbGet .inodesPerGroup < s.1.groupNumber ∧ IsDir inode ∧ iSize inode = 1024 ∧
      DirRecords (s.1.fileBytes inode) 1024 [0, 12, 24] ∧
      RecordsAligned (s.1.fileBytes inode) [0, 12, 24] ∧
      liveEntries (s.1.fileBytes inode) [0, 12, 24] =
        [⟨3, [0x2e#8], 2⟩, ⟨4, [0x78#8], 1⟩, ⟨5, [0x78#8], 1⟩] := by
    decide +kernel
  refine ⟨u, w, consistent, distinctNames, hu, hw, fun hnames => ?_⟩
  have hnodup := hnames 3 inode _ ⟨by decide, by decide, hgroup⟩ hread hmode
    (by rw [hsize]; exact ⟨_, hrecords, haligned, hlive⟩)
  exact absurd hnodup (by decide)

end Volume

end Bloodmoon
