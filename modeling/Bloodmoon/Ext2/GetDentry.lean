import Bloodmoon.Ext2.DeleteEntry
import Bloodmoon.Ext2.Files

/-!
# Looking up a directory entry

`ext2_get_dentry` splits the path at its last slash, looks the parent up with `ext2_path_to_inode`,
and goes through the first `LIST_MAX` records of the parent itself. Its answer and the one of
`ext2_path_to_inode` for the whole path come from two searches of the same directory, with different
ideas of which records count (`dentryAgrees_iff`). The entry it should return is copied from the
record to the record: a local variable has the name of the argument. So
`ext2_compat_prepare_remove` takes what was on the stack for the entry (`preparesRemove_iff`).
-/

namespace Bloodmoon

open Machine List Option

/-- `LIST_MAX`. -/
def listMax : ℕ := 16

/-- The loop of `ext2_dentry_get_dentry`, with the rounds that are left of `LIST_MAX`: whether an
entry is found. -/
def searchDentry (buffer : Bytes) (size : ℕ) (name : Text) : ℕ → ℕ → Bool
  | 0, _ => false
  | rounds + 1, parsedBytes =>
    if parsedBytes < size then
      if entryInode buffer parsedBytes ≠ 0 ∧
          strncmp (entryName buffer parsedBytes) name (nameLen buffer parsedBytes) = 0 then true
      else searchDentry buffer size name rounds (nextEntry buffer parsedBytes)
    else false

/-- `is_directory`. -/
def isDirectory (dentry : Bytes) : Bool := directoryEntry.get dentry 0 .fileType = 2

namespace Volume

/-- `ext2_dentry_get_dentry`: what `*entry` is, and the code. The `memcpy` in the loop copies the
record that is found to itself, since `entry` is the record there. -/
def dentryGetDentry (v : Volume) (parentPath name : Text) (entry : Bytes) : Option (Bytes × ℕ) :=
  (v.pathToInode parentPath).bind fun inodeNumber =>
    if inodeNumber = 0 then some (entry, 1)
    else
      match v.readInode inodeNumber with
      | none => some (entry, 1)
      | some rootInode =>
        let size := iSize rootInode
        if IsDir rootInode then
          if wrap32 (size + v.blockSize) = 0 then some (entry, 1)
          else if wrap32 (size + v.blockSize) < size then none
          else
            let r := v.readInodeBytes inodeNumber v.fresh size 0
            if r.2 = readFailed then some (entry, 1)
            else some (entry, if searchDentry r.1 size name listMax 0 then 0 else 1)
        else some (entry, 1)

/-- `ext2_get_dentry`. The copies of the parent and the name have `strlen(path) + 1` bytes, of which
the last one is for the zero. -/
def getDentry (v : Volume) (path : Text) (dentry : Bytes) : Option (Bytes × ℕ) :=
  match splitIntoPathAndName path with
  | none => some (dentry, ext2ResultError)
  | some (parentPath, name) =>
    if strMaxSize < name.length ∨ strMaxSize + name.length + 1 < path.length then none
    else (v.dentryGetDentry parentPath name dentry).map fun r =>
      (r.1, if r.2 = 0 then ext2ResultOk else ext2ResultError)

/-- `ext2_read_directory`: the count and the code. -/
def readDirectory (v : Volume) (path : Text) : Option (ℕ × ℕ) :=
  (v.getAllDirs path).map fun entries => (entries.length, ext2ResultOk)

/-- `ext2_compat_prepare_remove` on a partition that is there. `entry` is what the stack holds where
the entry is declared. -/
def prepareRemove (v : Volume) (path : Text) (entry : Bytes) : Option ℕ :=
  (v.getDentry path entry).bind fun r =>
    if r.2 ≠ ext2ResultOk then some 0
    else if isDirectory r.1 then (v.readDirectory path).map fun count =>
      if count.2 ≠ ext2ResultOk then 0 else if count.1 = 0 then 1 else 0
    else some 1

end Volume

/-! ### Looking up any path -/

variable {p b : Text}
variable {bytes : Bytes}

namespace Volume

variable {v : Volume}

/-- What `ext2_path_to_inode` has room for of the name. -/
def keptName (p b : Text) : Text := b.take (strMaxSize - (p.length + 1))

/-- The components of a path, as far as there is room for it. -/
theorem tokens_take (hb : 0x2f#8 ∉ b) (hp : p.length ≤ strMaxSize) :
    tokens 0x2f#8 ((p ++ 0x2f#8 :: b).take strMaxSize) =
        tokens 0x2f#8 p ++ (if keptName p b = [] then [] else [keptName p b]) ∧
      (keptName p b ≠ [] → ¬ Overruns 0x2f#8 ((p ++ 0x2f#8 :: b).take strMaxSize)) := by
  have hslash : 0x2f#8 ∉ keptName p b := fun h => hb (mem_of_mem_take h)
  rcases Nat.lt_or_eq_of_le hp with hlt | heq
  · have htake : (p ++ 0x2f#8 :: b).take strMaxSize = p ++ 0x2f#8 :: keptName p b := by
      obtain ⟨k, hk⟩ := Nat.exists_eq_add_of_lt hlt
      rw [hk, Nat.add_assoc, take_length_add_append, take_succ_cons]
      congr 3
      omega
    rw [htake, tokens_append]
    split_ifs with hkept
    · rw [hkept]
      exact ⟨rfl, fun h => absurd rfl h⟩
    · have hnot := not_overruns_of_notMem hkept hslash (p ++ [0x2f#8])
      rw [append_assoc] at hnot
      rw [tokens_of_notMem hkept hslash]
      exact ⟨rfl, fun _ => hnot⟩
  · have hkept : keptName p b = [] := by
      rw [keptName, heq, Nat.sub_eq_zero_of_le (Nat.le_succ _), take_zero]
    rw [← heq, take_left, hkept, if_pos rfl, append_nil]
    exact ⟨rfl, fun h => absurd rfl h⟩

/-- **`ext2_path_to_inode`** searches the directory of the parent for the name. -/
theorem pathToInode_concat (hb : 0x2f#8 ∉ b) (hp : p.length ≤ strMaxSize) :
    v.pathToInode (p ++ 0x2f#8 :: b) =
      (v.chain ext2RootInoIndex (tokens 0x2f#8 p)).bind fun n =>
        if n = 0 then some 0
        else if keptName p b = [] then
          if Overruns 0x2f#8 ((p ++ 0x2f#8 :: b).take strMaxSize) then none else some n
        else v.inodeFromPathAndParent n (keptName p b) := by
  obtain ⟨hcomponents, hoff⟩ := tokens_take hb hp
  rw [pathToInode_text, hcomponents]
  by_cases hkept : keptName p b = []
  · rw [if_pos hkept, append_nil]
    refine Option.bind_congr fun n _ => ?_
    by_cases hn : n = 0
    · rw [if_neg fun h => h.1 hn, if_pos hn, hn]
    · rw [if_neg hn, if_pos hkept]
      exact if_congr (and_iff_right hn) rfl rfl
  · rw [if_neg hkept, chain_concat v _ (by decide), bind_assoc]
    refine Option.bind_congr fun n _ => ?_
    have hnot := hoff hkept
    by_cases hn : n = 0
    · rw [if_pos hn, if_pos hn, bind_some, if_neg fun h => hnot h.2]
    · rw [if_neg hn, if_neg hn, if_neg hkept]
      cases v.inodeFromPathAndParent n (keptName p b) with
      | none => rfl
      | some m => rw [bind_some, if_neg fun h => hnot h.2]

end Volume

/-! ### The other search -/

/-- The search of `ext2_get_dentry` finds the name: a record with an inode that is taken for it is
among the first. -/
def DentryListed (es : List DirEntry) (name : Text) : Prop :=
  ∃ e ∈ es.take listMax, e.inode ≠ 0 ∧ e.Matches name

instance (es : List DirEntry) (name : Text) : Decidable (DentryListed es name) :=
  inferInstanceAs (Decidable (∃ e ∈ es.take listMax, _))

theorem Entries.searchDentry_iff {size pos : ℕ} {es : List DirEntry}
    (h : Entries bytes size pos es) (hsize : size < 2 ^ 32) {name : Text} (hname : 0#8 ∉ name)
    (rounds : ℕ) :
    searchDentry bytes size name rounds pos = true ↔
      ∃ e ∈ es.take rounds, e.inode ≠ 0 ∧ e.Matches name := by
  induction h generalizing rounds with
  | nil =>
    cases rounds with
    | zero => simp [searchDentry]
    | succ rounds => simp [searchDentry]
  | @cons pos es hlen hend hrest ih =>
    cases rounds with
    | zero => simp [searchDentry]
    | succ rounds =>
      have hcmp := strncmp_eq_zero_iff_of_right (s := entryName bytes pos) hname
      rw [length_entryName] at hcmp
      have hnext : nextEntry bytes pos = pos + recLen bytes pos :=
        wrap32_of_lt (by omega)
      rw [searchDentry, if_pos (by omega), hnext, take_succ_cons, exists_mem_cons_iff]
      split_ifs with hfound
      · exact iff_of_true rfl (.inl ⟨hfound.1, hcmp.1 hfound.2⟩)
      · rw [ih rounds]
        exact (or_iff_right fun h => hfound ⟨h.1, hcmp.2 h.2⟩).symm

/-- The walk of `ext2_get_all_dirs` finds nothing when no entry has an inode. -/
theorem Entries.walkRecords_nil_iff {size pos : ℕ} {es : List DirEntry}
    (h : Entries bytes size pos es) (hsize : size < 2 ^ 32) (fuel : ℕ) (hfuel : size < pos + fuel)
    (found : List LiveEntry) :
    ∃ all, walkRecords (nextEntry bytes) size (addLive bytes) fuel pos found = some (size, all) ∧
      (all = [] ↔ found = [] ∧ ∀ e ∈ es, e.inode = 0) := by
  induction h generalizing fuel found with
  | nil =>
    obtain _ | fuel := fuel
    · omega
    rw [walkRecords, if_neg (Nat.lt_irrefl _)]
    exact ⟨found, rfl, by simp⟩
  | @cons pos es hlen hend hrest ih =>
    obtain _ | fuel := fuel
    · omega
    have hnext : nextEntry bytes pos = pos + recLen bytes pos :=
      wrap32_of_lt (by omega)
    rw [walkRecords, if_pos (by omega), hnext]
    obtain ⟨all, hwalk, hiff⟩ := ih fuel (by omega) (addLive bytes found pos)
    refine ⟨all, hwalk, hiff.trans ?_⟩
    rw [addLive]
    split_ifs with hinode
    · simp [hinode]
    · simp [not_not.1 hinode]

namespace Volume

variable {v : Volume} {n : ℕ} {inode out : Bytes} {es : List DirEntry} {parentPath name : Text}
variable {path : Text}

/-- **`ext2_dentry_get_dentry`** on a directory with entries. -/
theorem Sound.dentryGetDentry_eq (h : v.Sound) (hparent : v.pathToInode parentPath = some n)
    (hn : n ≠ 0) (hread : v.readInode n = some inode) (hmode : IsDir inode) (hhole : v.NoHole inode)
    (hentries : Entries (v.fileBytes inode) (iSize inode) 0 es) (hname : 0#8 ∉ name) :
    v.dentryGetDentry parentPath name out =
      if 2 ^ 32 < iSize inode + v.blockSize then none
      else some (out, if v.Readable inode ∧ DentryListed es name then 0 else 1) := by
  obtain ⟨B, hbuffer, hopen⟩ := h.openDirectory hread hhole rfl hentries (out, 1) fun B =>
    some (out, if searchDentry B (iSize inode) name listMax 0 then 0 else 1)
  have hsearch := hbuffer.searchDentry_iff (inodeSize_lt inode) hname listMax
  simp only [dentryGetDentry, hparent, bind_some, if_neg hn, hread]
  rw [if_pos hmode, hopen]
  refine ite_congr rfl (fun _ => rfl) fun _ => ?_
  by_cases hreadable : v.Readable inode
  · rw [if_pos hreadable]
    exact congrArg (fun code => some (out, code))
      (if_congr (hsearch.trans (and_iff_right hreadable).symm) rfl rfl)
  · rw [if_neg hreadable, if_neg fun hand => hreadable hand.1]

/-- `ext2_get_dentry` on a path with a slash. -/
theorem getDentry_eq (hb : 0x2f#8 ∉ b) :
    v.getDentry (p ++ 0x2f#8 :: b) out =
      if strMaxSize < b.length ∨ strMaxSize < p.length then none
      else (v.dentryGetDentry (parentText p) b out).map fun r =>
        (r.1, if r.2 = 0 then ext2ResultOk else ext2ResultError) := by
  rw [getDentry, splitIntoPathAndName_slash hb]
  have hlen : strMaxSize + b.length + 1 < (p ++ 0x2f#8 :: b).length ↔ strMaxSize < p.length := by
    rw [length_append, length_cons]
    omega
  simp only [hlen]
  split_ifs with hlong
  · rfl
  · have hshort : (parentText p).length ≤ strMaxSize := by
      rw [parentText]
      split_ifs
      · decide
      · omega
    rw [take_of_length_le hshort]

/-- Nothing is stored in `*entry`. -/
theorem dentryGetDentry_out {r : Bytes × ℕ} (h : v.dentryGetDentry parentPath name out = some r) :
    r.1 = out := by
  obtain ⟨n, -, h⟩ := bind_eq_some_iff.1 h
  split_ifs at h
  · exact congrArg Prod.fst (Option.some.inj h).symm
  · split at h
    · exact congrArg Prod.fst (Option.some.inj h).symm
    · dsimp only at h
      split_ifs at h <;> exact congrArg Prod.fst (Option.some.inj h).symm

theorem getDentry_out {out' : Bytes} {code : ℕ} (h : v.getDentry path out = some (out', code)) :
    out' = out := by
  rw [getDentry] at h
  split at h
  · exact congrArg Prod.fst (Option.some.inj h).symm
  · split_ifs at h
    obtain ⟨r, hr, heq⟩ := map_eq_some_iff.1 h
    obtain rfl : r.1 = out' := congrArg Prod.fst heq
    exact dentryGetDentry_out hr

/-! ### Both lookups -/

/-- The last component of a path. -/
def lastComponent (path : Text) : Text := (tokens 0x2f#8 path).getLastD []

/-- The structure is the entry with the inode and the name. -/
def IsEntry (out : Bytes) (n : ℕ) (name : Text) : Prop :=
  entryInode out 0 = n ∧ entryName out 0 = name

/-- `ext2_get_dentry` finds the path exactly when `ext2_path_to_inode` does, and then `*out` is the
entry with the inode and the last component of the path. -/
def DentryAgrees (v : Volume) (path : Text) (out : Bytes) : Prop :=
  ∃ out' code n, v.getDentry path out = some (out', code) ∧ v.pathToInode path = some n ∧
    (code = ext2ResultOk ↔ n ≠ 0) ∧ (n ≠ 0 → IsEntry out' n (lastComponent path))

/-- The two searches of the directory `inode` with the number `n` and the entries `es` give the same
answer, and `*out` was the entry before. -/
def SearchesAgree (v : Volume) (p b : Text) (n : ℕ) (inode : Bytes) (es : List DirEntry)
    (out : Bytes) : Prop :=
  -- the path of the parent is looked up
  ¬ Overruns 0x2f#8 (parentText p) ∧
    if keptName p b = [] then
      -- `ext2_path_to_inode` stops at the parent
      ¬ Overruns 0x2f#8 ((p ++ 0x2f#8 :: b).take strMaxSize) ∧ IsDir inode ∧ v.Readable inode ∧
        DentryListed es b ∧ IsEntry out n (lastComponent (p ++ 0x2f#8 :: b))
    else
      IsDir inode → v.Readable inode ∧
          if matchingEntry es (keptName p b) = 0 then ¬ DentryListed es b
          else DentryListed es b ∧
            IsEntry out (matchingEntry es (keptName p b)) (lastComponent (p ++ 0x2f#8 :: b))

/-- The lookup of the parent. -/
theorem pathToInode_parentText (hp : p.length ≤ strMaxSize) :
    v.pathToInode (parentText p) =
      (v.chain ext2RootInoIndex (tokens 0x2f#8 p)).bind fun m =>
        if m ≠ 0 ∧ Overruns 0x2f#8 (parentText p) then none else some m := by
  have hshort : (parentText p).length ≤ strMaxSize := by
    rw [parentText]
    split_ifs
    · decide
    · exact hp
  rw [pathToInode_text, take_of_length_le hshort, tokens_parentText]

/-- The code of `ext2_get_dentry` says whether the name was found. -/
theorem dentryAgrees_of_code {found : Prop} [Decidable found] {m : ℕ}
    (hget : v.getDentry path out = some (out, if (if found then 0 else 1) = 0 then ext2ResultOk
      else ext2ResultError)) (hinode : v.pathToInode path = some m) :
    v.DentryAgrees path out ↔
      if m = 0 then ¬ found else found ∧ IsEntry out m (lastComponent path) := by
  have hcode : (if (if found then 0 else 1) = 0 then ext2ResultOk else ext2ResultError) =
      ext2ResultOk ↔ found := by
    by_cases hfound : found
    · rw [if_pos hfound]
      exact iff_of_true rfl hfound
    · rw [if_neg hfound]
      exact iff_of_false (by decide) hfound
  have hagrees : v.DentryAgrees path out ↔
      (found ↔ m ≠ 0) ∧ (m ≠ 0 → IsEntry out m (lastComponent path)) := by
    constructor
    · rintro ⟨out', code, n, hget', hinode', hiff, hentry⟩
      obtain ⟨rfl, rfl⟩ := some_inj (hget.symm.trans hget')
      obtain rfl := mem_unique hinode hinode'
      exact ⟨hcode.symm.trans hiff, hentry⟩
    · rintro ⟨hiff, hentry⟩
      exact ⟨_, _, _, hget, hinode, hcode.trans hiff, hentry⟩
  rw [hagrees]
  split_ifs with hm
  · simp [hm]
  · simp [hm]

theorem not_dentryAgrees_of_getDentry (h : v.getDentry path out = none) :
    ¬ v.DentryAgrees path out := by
  rintro ⟨out', code, n, hget, -⟩
  exact nomatch h.symm.trans hget

theorem not_dentryAgrees_of_pathToInode (h : v.pathToInode path = none) :
    ¬ v.DentryAgrees path out := by
  rintro ⟨out', code, n, -, hinode, -⟩
  exact nomatch h.symm.trans hinode

/-- A parent that exists is searched twice. -/
theorem Sound.dentryAgrees_of_parent (h : v.Sound) (hb : 0x2f#8 ∉ b) (hzero : 0#8 ∉ b)
    (hp : p.length ≤ strMaxSize) (hroom : b.length ≤ strMaxSize)
    (hchain : v.chain ext2RootInoIndex (tokens 0x2f#8 p) = some n) (hn : n ≠ 0)
    (hread : v.readInode n = some inode)
    (hdir : IsDir inode → v.NoHole inode ∧ Entries (v.fileBytes inode) (iSize inode) 0 es) :
    v.DentryAgrees (p ++ 0x2f#8 :: b) out ↔ v.SearchesAgree p b n inode es out := by
  have hget := @getDentry_eq p b v out hb
  rw [if_neg (by omega)] at hget
  have hinode := @pathToInode_concat p b v hb hp
  rw [hchain, bind_some, if_neg hn] at hinode
  have hparent := @pathToInode_parentText p v hp
  rw [hchain, bind_some] at hparent
  by_cases hoff : Overruns 0x2f#8 (parentText p)
  · rw [if_pos ⟨hn, hoff⟩] at hparent
    refine iff_of_false (not_dentryAgrees_of_getDentry ?_) fun hagree => hagree.1 hoff
    rw [hget, dentryGetDentry, hparent]
    rfl
  · rw [if_neg fun hand => hoff hand.2] at hparent
    rw [SearchesAgree, and_iff_right hoff]
    by_cases hmode : IsDir inode
    · obtain ⟨hhole, hentries⟩ := hdir hmode
      have hkept : 0#8 ∉ keptName p b := fun hmem => hzero (mem_of_mem_take hmem)
      rw [h.dentryGetDentry_eq hparent hn hread hmode hhole hentries hzero] at hget
      rw [h.inodeFromPathAndParent_eq hread hmode hhole hentries hkept] at hinode
      by_cases hsum : 2 ^ 32 < iSize inode + v.blockSize
      · -- there is no buffer for the directory
        rw [if_pos hsum] at hget
        have hreadable : ¬ v.Readable inode := fun hand => Nat.lt_asymm hand.2 hsum
        refine iff_of_false (not_dentryAgrees_of_getDentry hget) fun hagree => ?_
        by_cases hnil : keptName p b = []
        · rw [if_pos hnil] at hagree
          exact hreadable hagree.2.2.1
        · rw [if_neg hnil] at hagree
          exact hreadable (hagree hmode).1
      · rw [if_neg hsum] at hget hinode
        have hagrees := fun m => @dentryAgrees_of_code v out _ _ _ m hget
        by_cases hnil : keptName p b = []
        · rw [if_pos hnil] at hinode
          rw [if_pos hnil]
          by_cases hend : Overruns 0x2f#8 ((p ++ 0x2f#8 :: b).take strMaxSize)
          · rw [if_pos hend] at hinode
            exact iff_of_false (not_dentryAgrees_of_pathToInode hinode) fun hagree => hagree.1 hend
          · rw [if_neg hend] at hinode
            rw [hagrees n hinode, if_neg hn, and_iff_right hend, and_iff_right hmode, and_assoc]
        · rw [if_neg hnil] at hinode
          rw [if_neg hnil]
          by_cases hreadable : v.Readable inode
          · rw [if_pos hreadable] at hinode
            rw [hagrees _ hinode]
            simp only [hmode, hreadable, ne_eq, not_false_eq_true, true_and, true_implies]
          · rw [if_neg hreadable] at hinode
            rw [hagrees 1 hinode]
            exact iff_of_false (fun hand => hreadable hand.1.1) fun hagree =>
              hreadable (hagree hmode).1
    · -- the parent is not a directory
      have hcode : v.getDentry (p ++ 0x2f#8 :: b) out =
          some (out, if (if False then 0 else 1) = 0 then ext2ResultOk else ext2ResultError) := by
        rw [hget, dentryGetDentry, hparent, bind_some, if_neg hn, hread]
        simp only [if_neg hmode]
        rfl
      by_cases hnil : keptName p b = []
      · rw [if_pos hnil] at hinode ⊢
        refine iff_of_false (fun hagree => ?_) fun hagree => hmode hagree.2.1
        split_ifs at hinode with hend
        · exact not_dentryAgrees_of_pathToInode hinode hagree
        · rw [dentryAgrees_of_code hcode hinode, if_neg hn] at hagree
          exact hagree.1
      · rw [if_neg hnil] at hinode ⊢
        have hnone : v.inodeFromPathAndParent n (keptName p b) = some 0 := by
          simp only [inodeFromPathAndParent, hread, if_neg hmode]
        rw [dentryAgrees_of_code hcode (hinode.trans hnone)]
        exact iff_of_true not_false fun hdirectory => absurd hdirectory hmode

/-- A parent that cannot be read is taken for the inode 1 by one lookup, and is an error for the
other. -/
theorem not_dentryAgrees_of_readInode (hb : 0x2f#8 ∉ b) (hp : p.length ≤ strMaxSize)
    (hroom : b.length ≤ strMaxSize)
    (hchain : v.chain ext2RootInoIndex (tokens 0x2f#8 p) = some n) (hn : n ≠ 0)
    (hread : v.readInode n = none) : ¬ v.DentryAgrees (p ++ 0x2f#8 :: b) out := by
  have hget := @getDentry_eq p b v out hb
  have hinode := @pathToInode_concat p b v hb hp
  have hparent := @pathToInode_parentText p v hp
  have hone : v.inodeFromPathAndParent n (keptName p b) = some 1 := by
    simp only [inodeFromPathAndParent, hread]
  rw [if_neg (by omega), dentryGetDentry] at hget
  rw [hchain, bind_some, if_neg hn, hone] at hinode
  rw [hchain, bind_some] at hparent
  by_cases hoff : Overruns 0x2f#8 (parentText p)
  · rw [if_pos ⟨hn, hoff⟩] at hparent
    rw [hparent] at hget
    exact not_dentryAgrees_of_getDentry hget
  · rw [if_neg fun hand => hoff hand.2] at hparent
    rw [hparent, bind_some, if_neg hn, hread] at hget
    have hagrees := fun m => @dentryAgrees_of_code v out _ False _ m hget
    split_ifs at hinode with hnil hend
    · exact not_dentryAgrees_of_pathToInode hinode
    · rw [hagrees n hinode, if_neg hn]
      exact fun hand => hand.1
    · rw [hagrees 1 hinode]
      exact fun hand => hand.1

/-- **When the two lookups agree**: the parent and the name fit into the buffers, and the parent
does not exist, or the two searches of it agree and `*out` was the entry before. -/
theorem dentryAgrees_iff (h : v.Sound) (hb : 0x2f#8 ∉ b) (hzero : 0#8 ∉ b)
    (hdir : ∀ n inode, v.chain ext2RootInoIndex (tokens 0x2f#8 p) = some n → n ≠ 0 →
      v.readInode n = some inode → IsDir inode →
      v.NoHole inode ∧ Entries (v.fileBytes inode) (iSize inode) 0 es) :
    v.DentryAgrees (p ++ 0x2f#8 :: b) out ↔
      p.length ≤ strMaxSize ∧ b.length ≤ strMaxSize ∧
        ∃ n, v.chain ext2RootInoIndex (tokens 0x2f#8 p) = some n ∧
          (n ≠ 0 → ∃ inode, v.readInode n = some inode ∧ v.SearchesAgree p b n inode es out) := by
  have hget := @getDentry_eq p b v out hb
  by_cases hlong : strMaxSize < b.length ∨ strMaxSize < p.length
  · rw [if_pos hlong] at hget
    exact iff_of_false (not_dentryAgrees_of_getDentry hget) fun hand => by omega
  · have hp : p.length ≤ strMaxSize := by omega
    have hroom : b.length ≤ strMaxSize := by omega
    have hinode := @pathToInode_concat p b v hb hp
    have hparent := @pathToInode_parentText p v hp
    rw [if_neg hlong] at hget
    rw [and_iff_right hp, and_iff_right hroom]
    cases hchain : v.chain ext2RootInoIndex (tokens 0x2f#8 p) with
    | none =>
      rw [hchain] at hinode
      exact iff_of_false (not_dentryAgrees_of_pathToInode hinode) fun ⟨_, hnone, _⟩ => nomatch hnone
    | some n =>
      rw [hchain, bind_some] at hinode hparent
      simp only [Option.some.injEq, exists_eq_left']
      by_cases hn : n = 0
      · -- neither finds the parent
        rw [if_pos hn] at hinode
        rw [if_neg fun hand => hand.1 hn] at hparent
        have hcode : v.getDentry (p ++ 0x2f#8 :: b) out =
            some (out, if (if False then 0 else 1) = 0 then ext2ResultOk else ext2ResultError) := by
          rw [hget, dentryGetDentry, hparent, bind_some, if_pos hn]
          rfl
        rw [dentryAgrees_of_code hcode hinode]
        exact iff_of_true not_false fun hne => absurd hn hne
      · rw [imp_iff_right hn]
        cases hread : v.readInode n with
        | none =>
          refine iff_of_false ?_ fun ⟨_, hnone, _⟩ => nomatch hnone
          exact not_dentryAgrees_of_readInode hb hp hroom hchain hn hread
        | some inode =>
          simp only [Option.some.injEq, exists_eq_left']
          exact h.dentryAgrees_of_parent hb hzero hp hroom hchain hn hread
            (hdir n inode hchain hn hread)

namespace hardLinks

/-- The entries of the directory. -/
def dirEntries : List DirEntry := [⟨3, [0x2e#8]⟩, ⟨12, [0x62#8]⟩, ⟨12, [0x61#8, 0x62#8]⟩]

theorem chain_dirPath : hardLinks.chain ext2RootInoIndex (tokens 0x2f#8 dirPath) = some 3 := by
  decide +kernel

theorem entries : Entries (hardLinks.fileBytes dirInode) (iSize dirInode) 0 dirEntries := by
  have heq : dirEntries = [0, 12, 24].map (dirEntry (hardLinks.fileBytes dirInode)) := by
    decide +kernel
  rw [heq]
  exact entries_of_tiles records.tiles records.names

/-- The directory is the parent of what the path names. -/
theorem parent_dirPath (n : ℕ) (inode : Bytes)
    (hchain : hardLinks.chain ext2RootInoIndex (tokens 0x2f#8 dirPath) = some n)
    (hread : hardLinks.readInode n = some inode) :
    hardLinks.NoHole inode ∧ Entries (hardLinks.fileBytes inode) (iSize inode) 0 dirEntries := by
  obtain rfl := mem_unique chain_dirPath hchain
  obtain rfl := mem_unique exclusive.readInode hread
  exact ⟨exclusive.noHole, entries⟩

/-- The entry `b`. -/
def entryB : Bytes :=
  storeLE (directoryEntry.set (directoryEntry.set (fun _ => 0) 0 .inode 12) 0 .nameLen 1) 8 1 0x62

end hardLinks

open hardLinks

/-- The path `/d/b` is found by both lookups, and `*out` is right if it was before. -/
theorem dentryAgrees_hardLinks : hardLinks.DentryAgrees (dirPath ++ [0x2f#8, 0x62#8]) entryB := by
  have hsound := exclusive.sound
  refine (@dentryAgrees_iff dirPath [0x62#8] hardLinks _ dirEntries hsound
    (by decide) (by decide)
    fun n inode hchain _ hread _ => parent_dirPath n inode hchain hread).2
    ⟨by decide, by decide, 3, chain_dirPath, fun _ =>
      ⟨dirInode, exclusive.readInode, by decide, ?_⟩⟩
  refine fun _ => ⟨readable, ?_⟩
  exact ⟨by decide, by decide, by decide⟩

/-- The path `/d/b` is found by both lookups, but nothing is stored in `*out`. -/
theorem not_dentryAgrees_hardLinks :
    (hardLinks.getDentry (dirPath ++ [0x2f#8, 0x62#8]) (fun _ => 0)).map Prod.snd =
        some ext2ResultOk ∧
      hardLinks.pathToInode (dirPath ++ [0x2f#8, 0x62#8]) = some 12 ∧
      ¬ hardLinks.DentryAgrees (dirPath ++ [0x2f#8, 0x62#8]) (fun _ => 0) := by
  have hinode : hardLinks.pathToInode (dirPath ++ [0x2f#8, 0x62#8]) = some 12 := by
    decide +kernel
  refine ⟨by decide +kernel, hinode, ?_⟩
  rintro ⟨out, code, n, hget, hinode', -, hentry⟩
  obtain rfl := getDentry_out hget
  obtain rfl := mem_unique hinode hinode'
  exact absurd (hentry (by decide)).1 (by decide)

/-! ### Before a file is removed -/

/-- The file may be removed: it is no directory, or a directory with no entries but `.` and `..`. -/
def MayRemove (inode : Bytes) (es : List DirEntry) : Prop :=
  inodeDescriptor.get inode 0 .mode &&& 0xf000 = inodeTypeDir →
    ∀ e ∈ es, e.inode ≠ 0 → e.name ∈ [[0x2e#8], [0x2e#8, 0x2e#8]]

instance (inode : Bytes) (es : List DirEntry) : Decidable (MayRemove inode es) :=
  inferInstanceAs (Decidable (_ → _))

/-- What is listed of a directory; nothing is when it cannot be read. -/
theorem Sound.readDirectory_eq (h : v.Sound) (hpath : v.pathToInode path = some n) (hn : n ≠ 0)
    (hread : v.readInode n = some inode) (hmode : IsDir inode) (hhole : v.NoHole inode)
    (hentries : Entries (v.fileBytes inode) (iSize inode) 0 es) :
    ∃ count, (count = 0 ↔ (v.Readable inode → ∀ e ∈ es, e.inode = 0)) ∧
      v.readDirectory path =
        if 2 ^ 32 < iSize inode + v.blockSize then none
        else some (count, ext2ResultOk) := by
  have hsize := inodeSize_lt inode
  obtain ⟨B, hbuffer, hopen⟩ := h.openDirectory hread hhole rfl hentries [] fun B =>
    (walkRecords (nextEntry B) (iSize inode) (addLive B) (2 ^ 32) 0 []).map Prod.snd
  obtain ⟨all, hwalk, hnil⟩ := hbuffer.walkRecords_nil_iff hsize (2 ^ 32) (by omega) []
  refine ⟨if v.Readable inode then all.length else 0, ?_, ?_⟩
  · split_ifs with hreadable
    · simp [hreadable, hnil]
    · simp [hreadable]
  · simp only [readDirectory, getAllDirs, hpath, bind_some, if_neg hn, hread]
    rw [hopen, hwalk]
    split_ifs
    · rfl
    · rfl
    · rfl

/-- **When `ext2_compat_prepare_remove` is right** about a path that exists: `ext2_get_dentry` finds
it, and what was on the stack is not taken for a directory just when the file may be removed. -/
theorem preparesRemove_iff (h : v.Sound) (hpath : v.pathToInode path = some n) (hn : n ≠ 0)
    (hread : v.readInode n = some inode)
    (hdir : IsDir inode → v.NoHole inode ∧ Entries (v.fileBytes inode) (iSize inode) 0 es) :
    v.prepareRemove path out = some (if MayRemove inode es then 1 else 0) ↔
      ∃ code, (v.getDentry path out).map Prod.snd = some code ∧
        if code ≠ ext2ResultOk then ¬ MayRemove inode es
        else if isDirectory out ∧ IsDir inode then
          iSize inode + v.blockSize ≤ 2 ^ 32 ∧
            (MayRemove inode es ↔ (v.Readable inode → ∀ e ∈ es, e.inode = 0))
        else MayRemove inode es := by
  have hzero : some 0 = some (if MayRemove inode es then 1 else 0) ↔ ¬ MayRemove inode es := by
    split_ifs with hmay <;> simp [hmay]
  have hone : some 1 = some (if MayRemove inode es then 1 else 0) ↔ MayRemove inode es := by
    split_ifs with hmay <;> simp [hmay]
  rw [prepareRemove]
  cases hget : v.getDentry path out with
  | none => exact iff_of_false nofun nofun
  | some r =>
    obtain ⟨out', code⟩ := r
    obtain rfl := getDentry_out hget
    simp only [bind_some, map_some, Option.some.injEq, exists_eq_left']
    by_cases hcode : code ≠ ext2ResultOk
    · rwa [if_pos hcode, if_pos hcode]
    rw [if_neg hcode, if_neg hcode]
    by_cases hentry : isDirectory out'
    · rw [if_pos hentry]
      by_cases hmode : IsDir inode
      · obtain ⟨hhole, hentries⟩ := hdir hmode
        obtain ⟨count, hcount, hlist⟩ := h.readDirectory_eq hpath hn hread hmode hhole hentries
        rw [hlist, if_pos (And.intro hentry hmode), ← hcount]
        by_cases hsum : 2 ^ 32 < iSize inode + v.blockSize
        · rw [if_pos hsum]
          exact iff_of_false nofun fun hand => absurd hsum (Nat.not_lt.2 hand.1)
        · rw [if_neg hsum, and_iff_right (Nat.not_lt.1 hsum), map_some, if_neg (not_not.2 rfl)]
          by_cases hnone : count = 0
          · rw [if_pos hnone, hone, iff_true_right hnone]
          · rw [if_neg hnone, hzero, iff_false_right hnone]
      · simp only [readDirectory, getAllDirs, hpath, bind_some, if_neg hn, hread, if_neg hmode]
        rw [if_neg (not_and_of_not_right _ hmode)]
        exact hone
    · rwa [if_neg hentry, if_neg (not_and_of_not_left _ hentry)]

/-- The path `/d/.` of the directory. -/
def hardLinks.dotPath : Text := dirPath ++ [0x2f#8, 0x2e#8]

theorem hardLinks.pathToInode_dotPath : hardLinks.pathToInode dotPath = some 3 := by decide +kernel

/-- The directory is kept if the entry on the stack has the type of a directory. -/
theorem prepareRemove_hardLinks : hardLinks.prepareRemove dotPath
    (directoryEntry.set (fun _ => 0) 0 .fileType 2) =
      some (if MayRemove dirInode dirEntries then 1 else 0) :=
  (preparesRemove_iff exclusive.sound pathToInode_dotPath (by decide)
    exclusive.readInode fun _ => ⟨exclusive.noHole, entries⟩).2
    ⟨ext2ResultOk, by decide +kernel, by decide +kernel⟩

/-- The directory has the entries `b` and `ab`, and may be removed if the stack is clear. -/
theorem not_prepareRemove_hardLinks :
    hardLinks.pathToInode dotPath = some 3 ∧
      hardLinks.readInode 3 = some dirInode ∧
      Entries (hardLinks.fileBytes dirInode) (iSize dirInode) 0 dirEntries ∧
      ¬ MayRemove dirInode dirEntries ∧
      hardLinks.prepareRemove dotPath (fun _ => 0) = some 1 :=
  ⟨pathToInode_dotPath, exclusive.readInode, entries, by decide +kernel, by decide +kernel⟩

end Volume

end Bloodmoon
