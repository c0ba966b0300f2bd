import Bloodmoon.Ext2.Read
import Bloodmoon.Ext2.Tokens

/-!
# Which inode a path leads to

A name is compared with a component up to the length of the name in the entry, so that an entry
whose name is the beginning of the component is taken for it, and an entry with an empty name for
anything. The inode number of an entry that was deleted is not looked at. A directory of more than
twelve blocks cannot be read (`readInodeBytes_iff`), and then the code of the failure is taken for
an inode.
-/

namespace Bloodmoon

open Machine List Option

/-! ### Components -/

/-- A component of a path. -/
structure IsComponent (c : Text) : Prop where
  ne_nil : c ≠ []
  no_zero : 0#8 ∉ c
  no_slash : 0x2f#8 ∉ c

/-- The absolute path with the given components. -/
def absolutePath (cs : List Text) : Text := cs.flatMap (0x2f#8 :: ·)

theorem absolutePath_cons (c : Text) (cs : List Text) :
    absolutePath (c :: cs) = 0x2f#8 :: (c ++ absolutePath cs) := rfl

/-- What is kept of a path when only `n` characters are copied, as components. -/
def keptComponents : ℕ → List Text → List Text
  | _, [] => []
  | n, c :: cs =>
    if n ≤ 1 then []
    else if c.length + 1 ≤ n then c :: keptComponents (n - (c.length + 1)) cs
    else [c.take (n - 1)]

/-- A path that is short enough is kept. -/
theorem keptComponents_of_le {n : ℕ} {cs : List Text} (hcs : ∀ c ∈ cs, IsComponent c)
    (h : (absolutePath cs).length ≤ n) : keptComponents n cs = cs := by
  induction cs generalizing n with
  | nil => rfl
  | cons c cs ih =>
    rw [absolutePath_cons, length_cons, length_append] at h
    have hpos := length_pos_iff.2 (hcs c mem_cons_self).ne_nil
    rw [keptComponents, if_neg (by omega), if_pos (by omega),
      ih (forall_mem_cons.1 hcs).2 (by omega)]

/-- The first characters of a path are the components that are kept, and perhaps a last slash. -/
theorem take_absolutePath (n : ℕ) (cs : List Text) (hcs : ∀ c ∈ cs, IsComponent c) :
    ∃ tail, (tail = [] ∨ tail = [0x2f#8]) ∧
      (absolutePath cs).take n = absolutePath (keptComponents n cs) ++ tail := by
  induction cs generalizing n with
  | nil => exact ⟨[], .inl rfl, by rw [keptComponents, absolutePath]; simp⟩
  | cons c cs ih =>
    rw [keptComponents]
    split_ifs with hshort hfits
    · rcases Nat.le_one_iff_eq_zero_or_eq_one.1 hshort with rfl | rfl
      · exact ⟨[], .inl rfl, by simp [absolutePath]⟩
      · exact ⟨[0x2f#8], .inr rfl, by simp [absolutePath]⟩
    · obtain ⟨tail, htail, hrest⟩ := ih (n - (c.length + 1)) (forall_mem_cons.1 hcs).2
      refine ⟨tail, htail, ?_⟩
      rw [absolutePath_cons, absolutePath_cons, cons_append, append_assoc, ← hrest]
      obtain ⟨k, rfl⟩ := Nat.exists_eq_add_of_le hfits
      rw [show c.length + 1 + k = c.length + k + 1 by omega, take_succ_cons,
        take_length_add_append, show c.length + k + 1 - (c.length + 1) = k by omega]
    · refine ⟨[], .inl rfl, ?_⟩
      obtain ⟨k, rfl⟩ := Nat.exists_eq_add_of_le (Nat.lt_of_not_le hshort)
      rw [absolutePath_cons, show 1 + 1 + k = k + 1 + 1 by omega,
        take_succ_cons, take_append_of_le_length (by omega)]
      simp [absolutePath]

/-- Only the last component that is kept can have been cut. -/
theorem take_keptComponents {n k : ℕ} {cs : List Text} (hk : k < (keptComponents n cs).length) :
    (keptComponents n cs).take k = cs.take k ∧ k < cs.length := by
  induction cs generalizing n k with
  | nil => exact absurd hk (Nat.not_lt_zero k)
  | cons c cs ih =>
    cases k with
    | zero => exact ⟨rfl, Nat.succ_pos _⟩
    | succ k =>
      rw [keptComponents] at hk ⊢
      split_ifs at hk ⊢ with hshort hfits
      · exact absurd hk (Nat.not_lt_zero _)
      · obtain ⟨htake, hlt⟩ := ih (Nat.lt_of_succ_lt_succ hk)
        exact ⟨congrArg (c :: ·) htake, Nat.succ_lt_succ hlt⟩
      · exact absurd (Nat.lt_of_succ_lt_succ hk) (Nat.not_lt_zero k)

/-- A path that is kept is short. -/
theorem length_keptComponents_le (n : ℕ) {cs : List Text} (hcs : ∀ c ∈ cs, IsComponent c) (k : ℕ) :
    (absolutePath ((keptComponents n cs).take k)).length ≤ n := by
  obtain ⟨tail, -, htake⟩ := take_absolutePath n cs hcs
  have hle := length_take_le n (absolutePath cs)
  have happend := congrArg (fun l => (absolutePath l).length)
    (take_append_drop k (keptComponents n cs))
  simp only [absolutePath, flatMap_append, length_append] at happend
  rw [htake, length_append] at hle
  simp only [absolutePath] at hle ⊢
  omega

/-- What is kept are components. -/
theorem isComponent_kept {n : ℕ} {cs : List Text} (hcs : ∀ c ∈ cs, IsComponent c) :
    ∀ c ∈ keptComponents n cs, IsComponent c := by
  induction cs generalizing n with
  | nil => exact fun _ h => absurd h not_mem_nil
  | cons c cs ih =>
    obtain ⟨hne, hzero, hslash⟩ := hcs c mem_cons_self
    intro d hd
    rw [keptComponents] at hd
    split_ifs at hd with hshort hfits
    · exact absurd hd not_mem_nil
    · rcases mem_cons.1 hd with rfl | hd
      · exact ⟨hne, hzero, hslash⟩
      · exact ih (forall_mem_cons.1 hcs).2 d hd
    · obtain rfl := mem_singleton.1 hd
      refine ⟨?_, fun h => hzero (mem_of_mem_take h), fun h => hslash (mem_of_mem_take h)⟩
      refine length_pos_iff.1 ?_
      rw [length_take]
      omega

/-! ### The walk -/

namespace Volume

variable {v : Volume}

/-- What follows a component begins with a slash, if there is anything. -/
theorem head?_absolutePath {cs : List Text} {tail : Text} (htail : tail = [] ∨ tail = [0x2f#8]) :
    ∀ d ∈ (absolutePath cs ++ tail).head?, d = 0x2f#8 := by
  cases cs with
  | nil =>
    rcases htail with rfl | rfl
    · exact fun d hd => absurd hd (not_mem_none _)
    · exact fun d hd => (Option.some.inj hd).symm
  | cons c cs => exact fun d hd => (Option.some.inj hd).symm

/-- The components of an absolute path are found in it, with a slash behind them or without. -/
theorem tokens_absolutePath {cs : List Text} {tail : Text}
    (hcs : ∀ c ∈ cs, IsComponent c) (htail : tail = [] ∨ tail = [0x2f#8])
    (hne : cs = [] → tail = []) :
    tokens 0x2f#8 (absolutePath cs ++ tail) = cs ∧ ¬ Overruns 0x2f#8 (absolutePath cs ++ tail) := by
  -- behind the first slash, which the induction passes over with the component
  have hrest : ∀ cs : List Text, (∀ c ∈ cs, IsComponent c) →
      tokens 0x2f#8 ((absolutePath cs ++ tail).drop 1) = cs ∧
        ¬ Overruns 0x2f#8 ((absolutePath cs ++ tail).drop 1) := by
    intro cs hcs
    induction cs with
    | nil =>
      have hnil : (absolutePath [] ++ tail).drop 1 = [] := by
        rcases htail with rfl | rfl <;> rfl
      rw [hnil]
      exact ⟨tokens_nil, by decide⟩
    | cons c cs ih =>
      obtain ⟨hcomponents, hoff⟩ := tokens_token 0 (hcs c mem_cons_self).ne_nil
        (hcs c mem_cons_self).no_slash (@head?_absolutePath cs _ htail)
      obtain ⟨ih, hnot⟩ := ih (forall_mem_cons.1 hcs).2
      rw [absolutePath_cons, cons_append, drop_succ_cons, append_assoc]
      exact ⟨hcomponents.trans (congrArg (c :: ·) ih), mt hoff.1 hnot⟩
  cases cs with
  | nil =>
    rw [hne rfl]
    exact ⟨tokens_nil, by decide⟩
  | cons c cs =>
    obtain ⟨hcomponents, hoff⟩ := tokens_token 1 (hcs c mem_cons_self).ne_nil
      (hcs c mem_cons_self).no_slash (@head?_absolutePath cs _ htail)
    obtain ⟨hlater, hnot⟩ := hrest cs (forall_mem_cons.1 hcs).2
    rw [absolutePath_cons, cons_append, append_assoc]
    exact ⟨hcomponents.trans (congrArg (c :: ·) hlater), mt hoff.1 hnot⟩

/-- **`ext2_path_to_inode`** follows the components that are kept of the path. -/
theorem pathToInode_absolutePath {cs : List Text} (hcs : ∀ c ∈ cs, IsComponent c) :
    v.pathToInode (absolutePath cs) = v.chain ext2RootInoIndex (keptComponents strMaxSize cs) := by
  obtain ⟨tail, htail, htake⟩ := take_absolutePath strMaxSize cs hcs
  have hne : keptComponents strMaxSize cs = [] → tail = [] := by
    intro hnone
    -- there is no component, and so no slash
    cases cs with
    | nil => exact htake.symm
    | cons c cs =>
      rw [keptComponents, if_neg (by decide)] at hnone
      split_ifs at hnone
  obtain ⟨hcomponents, hoff⟩ := tokens_absolutePath (isComponent_kept hcs) htail hne
  rw [pathToInode_text, htake, hcomponents]
  exact (Option.bind_congr fun m _ => if_neg fun h => hoff h.2).trans (bind_fun_some _)

end Volume

/-! ### Directories -/

/-- An entry of a directory. -/
structure DirEntry where
  inode : ℕ
  name : Text
  deriving DecidableEq

/-- The bytes from `pos` to `size` are a sequence of entries. -/
inductive Entries (bytes : Bytes) (size : ℕ) : ℕ → List DirEntry → Prop
  | nil : Entries bytes size size []
  | cons {pos : ℕ} {es : List DirEntry}
      (hname : 8 + nameLen bytes pos ≤ recLen bytes pos)
      (hend : pos + recLen bytes pos ≤ size)
      (hrest : Entries bytes size (pos + recLen bytes pos) es) :
      Entries bytes size pos
        (⟨entryInode bytes pos, entryName bytes pos⟩ :: es)

/-- The entry at a position. -/
def dirEntry (bytes : Bytes) (p : ℕ) : DirEntry := ⟨entryInode bytes p, entryName bytes p⟩

/-- Records one behind the other are a sequence of entries. -/
theorem entries_of_tiles {a size : ℕ} {ps : List ℕ} (h : Tiles (recLen bytes) a ps size)
    (hnames : ∀ p ∈ ps, 8 + nameLen bytes p ≤ recLen bytes p) :
    Entries bytes size a (ps.map (dirEntry bytes)) := by
  induction ps generalizing a with
  | nil =>
    obtain rfl : a = size := h
    exact .nil
  | cons p ps ih =>
    obtain ⟨rfl, -, hrest⟩ := h
    exact .cons (hnames p mem_cons_self) hrest.le
      (ih hrest (forall_mem_cons.1 hnames).2)

/-- The entry with the name, unless it was deleted. -/
def exactEntry (es : List DirEntry) (name : Text) : ℕ :=
  ((es.find? fun e => e.name = name ∧ e.inode ≠ 0).map DirEntry.inode).getD 0

/-- The comparison of the code takes the entry for the name: its name is the beginning of the name,
or holds it with a zero behind it. -/
def DirEntry.Matches (e : DirEntry) (name : Text) : Prop :=
  e.name <+: name ∨ name ++ [0#8] <+: e.name

instance (e : DirEntry) (name : Text) : Decidable (e.Matches name) :=
  inferInstanceAs (Decidable (_ ∨ _))

/-- The first entry that is taken for the name is the right one, or has the same inode. -/
def Unambiguous (es : List DirEntry) (name : Text) : Prop :=
  ∀ before e after, es = before ++ e :: after → (∀ d ∈ before, ¬ d.Matches name) →
    e.Matches name → e.inode = exactEntry es name

/-- The entry that the code finds. -/
def matchingEntry (es : List DirEntry) (name : Text) : ℕ :=
  ((es.find? fun e => e.Matches name).map DirEntry.inode).getD 0

theorem matchingEntry_cons (e : DirEntry) (es : List DirEntry) (name : Text) :
    matchingEntry (e :: es) name =
      if e.Matches name then e.inode else matchingEntry es name := by
  rw [matchingEntry, find?_cons]
  by_cases hmatch : e.Matches name
  · rw [if_pos hmatch, decide_eq_true hmatch]
    rfl
  · rw [if_neg hmatch, decide_eq_false hmatch]
    rfl

theorem matchingEntry_eq_iff {es : List DirEntry} {name : Text} :
    matchingEntry es name = exactEntry es name ↔ Unambiguous es name := by
  unfold Unambiguous matchingEntry
  cases hfind : es.find? fun e => e.Matches name with
  | none =>
    -- the right entry would be taken as well
    have hnone : ∀ e ∈ es, ¬ e.Matches name := by simpa using hfind
    refine iff_of_true ?_ fun before e after heq _ hmatch =>
      absurd hmatch (hnone e (by rw [heq]; simp))
    have hexact : es.find? (fun e => e.name = name ∧ e.inode ≠ 0) = none := by
      rw [find?_eq_none]
      intro e he hname
      have hname := (of_decide_eq_true hname).1
      exact hnone e he (.inl (hname ▸ prefix_rfl))
    rw [exactEntry, hexact]
  | some e =>
    obtain ⟨hmatch, before, after, heq, hbefore⟩ := find?_eq_some_iff_append.1 hfind
    have hbefore' : ∀ d ∈ before, ¬ d.Matches name := by simpa using hbefore
    constructor
    · intro hright before₁ e₁ after₁ heq₁ hbefore₁ hmatch₁
      have hfind₁ : es.find? (fun e => e.Matches name) = some e₁ :=
        find?_eq_some_iff_append.2 ⟨decide_eq_true hmatch₁, before₁, after₁, heq₁, by
          simpa using hbefore₁⟩
      obtain rfl := mem_unique hfind hfind₁
      exact hright
    · intro hclear
      exact hclear before e after heq hbefore' (of_decide_eq_true hmatch)

theorem length_entryName (bytes : Bytes) (a : ℕ) :
    (entryName bytes a).length = nameLen bytes a := by
  rw [entryName, length_map, length_range]

/-- A name is read from its bytes. -/
theorem entryName_congr {bytes bytes' : Bytes} {a : ℕ} (hlen : nameLen bytes' a = nameLen bytes a)
    (h : SameOn bytes bytes' (a + 8) (nameLen bytes a)) :
    entryName bytes' a = entryName bytes a := by
  rw [entryName, hlen]
  refine map_congr_left fun i hi => h _ (Nat.le_add_right _ _) ?_
  have hi' : i < nameLen bytes a := mem_range.mp hi
  omega

/-- **A record is read from the bytes of its header and its name.** -/
theorem record_congr {bytes bytes' : Bytes} {p : ℕ}
    (h : SameOn bytes bytes' p (8 + nameLen bytes p)) :
    (∀ f, directoryEntry.get bytes' p f = directoryEntry.get bytes p f) ∧
      liveEntry bytes' p = liveEntry bytes p := by
  have hget : ∀ f, directoryEntry.get bytes' p f = directoryEntry.get bytes p f :=
    Layout.get_congr (h.mono (Nat.le_refl p) (by change p + 8 ≤ _; omega))
  refine ⟨hget, ?_⟩
  rw [liveEntry, liveEntry, entryInode, hget, hget,
    entryName_congr (hget .nameLen) (h.mono (Nat.le_add_right p 8) (by omega))]

/-- Entries are read where they are, and nothing else. -/
theorem Entries.congr {bytes bytes' : Bytes} {size pos : ℕ} {es : List DirEntry}
    (h : Entries bytes size pos es) (hsame : SameOn bytes bytes' 0 size) :
    Entries bytes' size pos es := by
  induction h with
  | nil => exact .nil
  | @cons pos es hname hend hrest ih =>
    obtain ⟨hget, hlive⟩ := record_congr (hsame.mono (Nat.zero_le pos) (by omega))
    have hinode : entryInode bytes' pos = entryInode bytes pos := hget .inode
    have hentry : entryName bytes' pos = entryName bytes pos := congrArg LiveEntry.name hlive
    have hlen : recLen bytes' pos = recLen bytes pos := hget .recLen
    rw [← hinode, ← hentry]
    refine .cons ?_ ?_ ?_
    · rw [hlen, nameLen, hget]
      exact hname
    · rwa [hlen]
    · rwa [hlen]

/-- **The search** finds the first entry that is taken for the name. -/
theorem Entries.searchEntries_eq {bytes : Bytes} {size pos : ℕ} {es : List DirEntry}
    (h : Entries bytes size pos es) (hsize : size < 2 ^ 32) {name : Text} (hname : 0#8 ∉ name)
    {fuel : ℕ} (hfuel : size < pos + fuel) :
    searchEntries bytes size name fuel pos = some (matchingEntry es name) := by
  induction h generalizing fuel with
  | nil =>
    obtain _ | fuel := fuel
    · omega
    rw [searchEntries, if_neg (Nat.lt_irrefl _)]
    rfl
  | @cons pos es hlen hend hrest ih =>
    obtain _ | fuel := fuel
    · omega
    have hcmp := strncmp_eq_zero_iff_of_right (s := entryName bytes pos) hname
    rw [length_entryName] at hcmp
    rw [searchEntries, if_pos (by omega)]
    rw [matchingEntry_cons, wrap32_of_lt (by omega), ih (by omega), apply_ite some]
    exact if_congr hcmp rfl rfl

namespace Volume

variable {v : Volume} {n : ℕ} {inode : Bytes} {es : List DirEntry} {name : Text}

/-- The directory `n` has the entries `es`. -/
structure Directory (v : Volume) (n : ℕ) (inode : Bytes) (es : List DirEntry) : Prop where
  readInode : v.readInode n = some inode
  mode : inodeDescriptor.get inode 0 .mode &&& 0xf000 = inodeTypeDir
  noHole : v.NoHole inode
  entries : Entries (v.fileBytes inode) (iSize inode) 0 es

/-- The directory can be read: it has at most twelve blocks, and there is a buffer for it. -/
def Readable (v : Volume) (inode : Bytes) : Prop :=
  iSize inode ≤ 12 * v.blockSize ∧ iSize inode + v.blockSize < 2 ^ 32

instance (v : Volume) (inode : Bytes) : Decidable (v.Readable inode) :=
  inferInstanceAs (Decidable (_ ∧ _))

/-- The name is found as it should be: the directory can be read and the name is not taken for
another one, or the code of the failure happens to be the inode. -/
def FindsExact (v : Volume) (inode : Bytes) (es : List DirEntry) (name : Text) : Prop :=
  iSize inode + v.blockSize ≤ 2 ^ 32 ∧
    if v.Readable inode then Unambiguous es name else exactEntry es name = 1

/-- Of a directory the first twelve blocks can be read. -/
theorem readExtent_zero {size count : ℕ} (hsize : 0 < size) (hcount : 0 < count) :
    (count ≤ 12 * size → readExtent size count 0 = (count, true)) ∧
      (12 * size < count → (readExtent size count 0).2 = false) := by
  refine ⟨fun hle => (readExtent_eq_iff hcount hsize).2
    (.inl ⟨by omega, .inl (Nat.zero_mod _)⟩), fun hlt => ?_⟩
  obtain ⟨q, c, rfl, hc, hcs, hup⟩ := exists_divideRoundedUp hcount hsize
  have hq : 12 ≤ q := by
    by_contra hq
    have := region_le size (Nat.not_le.1 hq)
    omega
  simp only [readExtent, Nat.zero_mod, Nat.zero_div, hup, ne_eq, not_true_eq_false, false_and,
    if_false, if_true, Nat.add_sub_cancel]
  rw [if_neg (by decide : ¬ 12 ≤ 0), if_neg (by omega), if_neg (by omega), if_neg (by omega)]

/-- A directory with nothing in it is read without anything. -/
theorem readInodeBytes_zero (v : Volume) (n : ℕ) (buffer : Bytes) :
    v.readInodeBytes n buffer 0 0 = (buffer, 0) := by
  have hdone : ¬ Remains 0 0 := by decide
  have hmiddle : ∀ t : ReadProgress, t.bytes = 0 → v.readMiddle n 0 t = .ok t := fun t ht => by
    rw [readMiddle, ht, if_neg hdone]
  have htail : ∀ t : ReadProgress, t.bytes = 0 → v.readTail n 0 t = .ok t := fun t ht => by
    rw [readTail, ht, if_neg hdone]
  simp only [readInodeBytes, readHead, Nat.zero_mod, if_true, Except.bind, bind, hmiddle, htail]

/-- What is read of a whole file. -/
theorem Sound.readWhole (h : v.Sound) (hread : v.readInode n = some inode) (hfile : v.NoHole inode)
    (buffer : Bytes) :
    (iSize inode ≤ 12 * v.blockSize → v.readInodeBytes n buffer (iSize inode) 0 =
        (blit buffer 0 (v.fileBytes inode) 0 (iSize inode), iSize inode)) ∧
      (12 * v.blockSize < iSize inode →
        (v.readInodeBytes n buffer (iSize inode) 0).2 = readFailed) := by
  obtain ⟨m, hm, hbs⟩ := h.exists_blockSize
  rcases Nat.eq_zero_or_pos (iSize inode) with hzero | hpos
  · rw [hzero, readInodeBytes_zero]
    exact ⟨fun _ => rfl, fun hlt => absurd hlt (by omega)⟩
  · obtain ⟨hshort, hlong⟩ := readExtent_zero (show 0 < v.blockSize by omega) hpos
    rw [h.readInodeBytes_eq hread hfile hpos (Nat.le_of_eq (Nat.zero_add _))]
    refine ⟨fun hle => ?_, fun hlt => ?_⟩
    · rw [hshort hle]
      rfl
    · simp only [hlong hlt]
      rfl

/-- The test of the code holds for directories. -/
theorem and_inodeTypeDir_ne {mode : ℕ} (h : mode &&& 0xf000 = inodeTypeDir) :
    mode &&& inodeTypeDir ≠ 0 := by
  have hbit : mode.testBit 14 = true := by
    have hand := congrArg (Nat.testBit · 14) h
    simp only [Nat.testBit_and] at hand
    rwa [show Nat.testBit 0xf000 14 = true by decide, Bool.and_true] at hand
  intro hzero
  have hand := congrArg (Nat.testBit · 14) hzero
  simp only [Nat.testBit_and, hbit] at hand
  exact absurd hand (by decide)

/-- A directory with entries is read into a buffer, whose size is a sum with 32 bits. What is read
has the same entries. -/
theorem Sound.openDirectory {α : Type*} (h : v.Sound) (hread : v.readInode n = some inode)
    (hhole : v.NoHole inode) {size : ℕ} (hsize : iSize inode = size)
    (hentries : Entries (v.fileBytes inode) size 0 es) (failed : α) (search : Bytes → Option α) :
    ∃ B, Entries B size 0 es ∧
      (if wrap32 (size + v.blockSize) = 0 then some failed
        else if wrap32 (size + v.blockSize) < size then none
        else if (v.readInodeBytes n v.fresh size 0).2 = readFailed then some failed
        else search (v.readInodeBytes n v.fresh size 0).1) =
      if 2 ^ 32 < size + v.blockSize then none
      else if v.Readable inode then search B else some failed := by
  have hlt := inodeSize_lt inode
  have hbs := v.blockSize_lt
  obtain ⟨m, hm, hbs'⟩ := h.exists_blockSize
  obtain ⟨hshort, hlong⟩ := h.readWhole hread hhole v.fresh
  have hreadable : v.Readable inode ↔ _ ∧ _ := Iff.rfl
  rw [hsize] at hlt hshort hlong hreadable
  rcases Nat.lt_trichotomy (size + v.blockSize) (2 ^ 32) with hsum | hsum | hsum
  · rw [wrap32_of_lt hsum, if_neg (by omega), if_neg (by omega)]
    simp only [if_neg (Nat.lt_asymm hsum)]
    by_cases hle : size ≤ 12 * v.blockSize
    · refine ⟨_, hentries.congr (sameOn_blit_buffer v.fresh _ _), ?_⟩
      rw [hshort hle, if_neg (by unfold readFailed; omega), if_pos (hreadable.2 ⟨hle, hsum⟩)]
    · refine ⟨_, hentries, ?_⟩
      rw [if_pos (hlong (Nat.lt_of_not_le hle)), if_neg fun hand => hle (hreadable.1 hand).1]
  · -- there is no buffer
    have hwrap : wrap32 (2 ^ 32) = 0 := Nat.mod_self _
    refine ⟨_, hentries, ?_⟩
    rw [hsum, if_pos hwrap, if_neg (Nat.lt_irrefl _), if_neg fun hand => absurd hsum
      (Nat.ne_of_lt (hreadable.1 hand).2)]
  · -- the buffer is smaller than the directory
    have hwrap : wrap32 (size + v.blockSize) = size + v.blockSize - 2 ^ 32 := by
      rw [wrap32]
      omega
    refine ⟨_, hentries, ?_⟩
    rw [if_neg (by omega), if_pos (by omega), if_pos hsum]

/-- **`ext2_inode_from_path_and_parent`** on a directory with entries: the inode of the first one
that is taken for the name, and 1 when the directory cannot be read. -/
theorem Sound.inodeFromPathAndParent_eq (h : v.Sound) (hread : v.readInode n = some inode)
    (hmode : IsDir inode) (hhole : v.NoHole inode)
    (hentries : Entries (v.fileBytes inode) (iSize inode) 0 es) (hname : 0#8 ∉ name) :
    v.inodeFromPathAndParent n name =
      if 2 ^ 32 < iSize inode + v.blockSize then none
      else if v.Readable inode then some (matchingEntry es name) else some 1 := by
  have hsize := inodeSize_lt inode
  obtain ⟨B, hbuffer, hopen⟩ := h.openDirectory hread hhole rfl hentries 1 fun B =>
    searchEntries B (iSize inode) name (2 ^ 32) 0
  simp only [inodeFromPathAndParent, hread]
  rw [if_pos hmode, hopen, hbuffer.searchEntries_eq hsize hname (by omega)]

/-- **A name is looked up** in a directory as it should be in exactly these cases. -/
theorem Directory.inodeFromPathAndParent_iff (h : v.Sound) (hdir : v.Directory n inode es)
    (hname : 0#8 ∉ name) :
    v.inodeFromPathAndParent n name = some (exactEntry es name) ↔ v.FindsExact inode es name := by
  rw [h.inodeFromPathAndParent_eq hdir.readInode (and_inodeTypeDir_ne hdir.mode) hdir.noHole
    hdir.entries hname, FindsExact]
  by_cases hsum : 2 ^ 32 < iSize inode + v.blockSize
  · rw [if_pos hsum]
    exact iff_of_false (some_ne_none _).symm fun hand => absurd hand.1 (Nat.not_le.2 hsum)
  · rw [and_iff_right (Nat.le_of_not_lt hsum)]
    split_ifs
    · rw [Option.some_inj, matchingEntry_eq_iff]
    · rw [Option.some_inj]
      exact eq_comm

/-- The inode of a path, by the names of the entries: 0 as soon as there is no entry. -/
def exactPath (entries : ℕ → List DirEntry) (cs : List Text) : ℕ :=
  cs.foldl (fun n c => if n = 0 then 0 else exactEntry (entries n) c) ext2RootInoIndex

theorem exactPath_concat (entries : ℕ → List DirEntry) (cs : List Text) (c : Text) :
    exactPath entries (cs ++ [c]) =
      if exactPath entries cs = 0 then 0 else exactEntry (entries (exactPath entries cs)) c := by
  rw [exactPath, foldl_append]
  rfl

/-- The inodes that the code goes through are the right ones. -/
def ChainExact (v : Volume) (entries : ℕ → List DirEntry) (cs : List Text) : Prop :=
  ∀ k ≤ cs.length, v.chain ext2RootInoIndex (cs.take k) = some (exactPath entries (cs.take k))

/-- **The walk** is right at every component exactly when every component is found as it should
be. -/
theorem chainExact_iff (h : v.Sound) {entries : ℕ → List DirEntry} {inodes : ℕ → Bytes}
    {cs : List Text} (hcs : ∀ c ∈ cs, IsComponent c)
    (hdirs : ∀ k < cs.length, exactPath entries (cs.take k) ≠ 0 →
      v.Directory (exactPath entries (cs.take k)) (inodes (exactPath entries (cs.take k)))
        (entries (exactPath entries (cs.take k)))) :
    v.ChainExact entries cs ↔
      ∀ k (hk : k < cs.length), exactPath entries (cs.take k) ≠ 0 →
        v.FindsExact (inodes (exactPath entries (cs.take k)))
          (entries (exactPath entries (cs.take k))) (cs.get ⟨k, hk⟩) := by
  have hstep : ∀ k (hk : k < cs.length),
      v.chain ext2RootInoIndex (cs.take k) = some (exactPath entries (cs.take k)) →
      (v.chain ext2RootInoIndex (cs.take (k + 1)) = some (exactPath entries (cs.take (k + 1))) ↔
        (exactPath entries (cs.take k) ≠ 0 → v.FindsExact (inodes (exactPath entries (cs.take k)))
          (entries (exactPath entries (cs.take k))) (cs.get ⟨k, hk⟩))) := by
    intro k hk hbefore
    have htake : cs.take (k + 1) = cs.take k ++ [cs.get ⟨k, hk⟩] := by
      rw [take_succ_eq_append_getElem hk]
      rfl
    rw [htake, chain_concat v _ (by decide), hbefore, bind_some, exactPath_concat]
    by_cases hzero : exactPath entries (cs.take k) = 0
    · rw [if_pos hzero, if_pos hzero]
      exact iff_of_true rfl fun hne => absurd hzero hne
    · rw [if_neg hzero, if_neg hzero, (hdirs k hk hzero).inodeFromPathAndParent_iff h
        (hcs _ (List.get_mem _ _)).no_zero]
      exact (imp_iff_right hzero).symm
  constructor
  · intro hchain k hk
    exact (hstep k hk (hchain k (Nat.le_of_lt hk))).1 (hchain (k + 1) hk)
  · intro hfinds k hk
    induction k with
    | zero => rfl
    | succ k ih => exact (hstep k hk (ih (Nat.le_of_succ_le hk))).2 (hfinds k hk)

/-- The path, and every beginning of it that the code has room for, is looked up by the names of its
components. -/
def LooksUp (v : Volume) (entries : ℕ → List DirEntry) (cs : List Text) : Prop :=
  (∀ k ≤ (keptComponents strMaxSize cs).length,
    v.pathToInode (absolutePath ((keptComponents strMaxSize cs).take k)) =
      some (exactPath entries ((keptComponents strMaxSize cs).take k))) ∧
    v.pathToInode (absolutePath cs) = some (exactPath entries cs)

/-- **Looking up a path** by its directories leads to the inode of the entry whose name is the
component, at every component, exactly when each of them is found as it should be; a path that is
too long must lead to the same inode after it is cut. -/
theorem looksUp_iff (h : v.Sound) {entries : ℕ → List DirEntry} {inodes : ℕ → Bytes}
    {cs : List Text} (hcs : ∀ c ∈ cs, IsComponent c)
    (hdirs : ∀ k < cs.length, exactPath entries (cs.take k) ≠ 0 →
      v.Directory (exactPath entries (cs.take k)) (inodes (exactPath entries (cs.take k)))
        (entries (exactPath entries (cs.take k)))) :
    v.LooksUp entries cs ↔
      (∀ k (hk : k < (keptComponents strMaxSize cs).length), exactPath entries (cs.take k) ≠ 0 →
        v.FindsExact (inodes (exactPath entries (cs.take k)))
          (entries (exactPath entries (cs.take k)))
          ((keptComponents strMaxSize cs).get ⟨k, hk⟩)) ∧
      exactPath entries (keptComponents strMaxSize cs) = exactPath entries cs := by
  have hkept : ∀ c ∈ keptComponents strMaxSize cs, IsComponent c := isComponent_kept hcs
  have hpath : ∀ k, v.pathToInode (absolutePath ((keptComponents strMaxSize cs).take k)) =
      v.chain ext2RootInoIndex ((keptComponents strMaxSize cs).take k) := by
    intro k
    have hcomponents : ∀ c ∈ (keptComponents strMaxSize cs).take k, IsComponent c :=
      fun c hc => hkept c (mem_of_mem_take hc)
    rw [pathToInode_absolutePath hcomponents,
      keptComponents_of_le hcomponents (length_keptComponents_le _ hcs k)]
  have hchain := @chainExact_iff v h entries inodes _ hkept fun k hk hne => by
    obtain ⟨htake, hlt⟩ := take_keptComponents hk
    rw [htake] at hne ⊢
    exact hdirs k hlt hne
  have hfinds : v.ChainExact entries (keptComponents strMaxSize cs) ↔
      ∀ k (hk : k < (keptComponents strMaxSize cs).length), exactPath entries (cs.take k) ≠ 0 →
        v.FindsExact (inodes (exactPath entries (cs.take k)))
          (entries (exactPath entries (cs.take k)))
          ((keptComponents strMaxSize cs).get ⟨k, hk⟩) := by
    rw [hchain]
    exact forall₂_congr fun k hk => by rw [(take_keptComponents hk).1]
  rw [LooksUp, ← hfinds, pathToInode_absolutePath hcs]
  simp only [hpath]
  refine and_congr_right fun hexact => ?_
  have hwhole := hexact _ (Nat.le_refl _)
  rw [take_length] at hwhole
  rw [hwhole, Option.some_inj]

/-- A volume like `oneFile` whose root directory, in block 6, has an entry `a` for inode 11 and an
entry `ab` for inode 12. -/
def twoNames : Volume :=
  { oneFile with
    disk :=
      { oneFile.disk with
        bytes := fun x => ([(5249, 0x41#8), (5253, 4#8), (5288, 6#8), (6144, 11#8), (6148, 12#8),
          (6150, 1#8), (6152, 0x61#8), (6156, 12#8), (6160, 0xf4#8), (6161, 3#8), (6162, 2#8),
          (6164, 0x61#8), (6165, 0x62#8)].lookup x).getD 0#8 } }

/-- The inode of the root directory. -/
def twoNamesRoot : Bytes :=
  blit oneFile.fresh 0 (blit oneFile.fresh 0 twoNames.disk.bytes 5120 1024) 128 128

/-- The entries of the directories. -/
def twoNamesEntries (n : ℕ) : List DirEntry :=
  if n = ext2RootInoIndex then [⟨11, [0x61#8]⟩, ⟨12, [0x61#8, 0x62#8]⟩] else []

theorem twoNames_sound : twoNames.Sound := ⟨⟨fun _ _ => rfl, fun _ _ => rfl⟩, rfl, rfl, by decide⟩

theorem twoNames_directory :
    twoNames.Directory ext2RootInoIndex twoNamesRoot (twoNamesEntries ext2RootInoIndex) := by
  have hsize : iSize twoNamesRoot = 1024 := by decide +kernel
  refine ⟨rfl, by decide +kernel, fun j hj => ?_, ?_⟩
  · have hbs : twoNames.blockSize = 1024 := oneFile_blockSize
    rw [hbs] at hj
    obtain rfl : j = 0 := by omega
    change twoNames.InRange (iBlock twoNamesRoot 0)
    exact ⟨by decide, by decide, by decide⟩
  · have hentries : twoNamesEntries ext2RootInoIndex =
        [0, 12].map (dirEntry (twoNames.fileBytes twoNamesRoot)) := by decide +kernel
    rw [hentries]
    exact entries_of_tiles (by decide +kernel) (by decide +kernel)

/-- Both paths have one component, which is looked up in the root directory. -/
theorem twoNames_directories (c : Text) : ∀ k < [c].length,
    exactPath twoNamesEntries ([c].take k) ≠ 0 →
      twoNames.Directory (exactPath twoNamesEntries ([c].take k)) twoNamesRoot
        (twoNamesEntries (exactPath twoNamesEntries ([c].take k))) := by
  intro k hk _
  obtain rfl : k = 0 := Nat.lt_one_iff.1 hk
  exact twoNames_directory

/-- The path `/a` leads to inode 11. -/
theorem looksUp_twoNames : twoNames.Sound ∧ (∀ c ∈ [[0x61#8]], IsComponent c) ∧
    twoNames.LooksUp twoNamesEntries [[0x61#8]] := by
  have hcs : ∀ c ∈ [[0x61#8]], IsComponent c := by
    intro c hc
    obtain rfl := mem_singleton.1 hc
    exact ⟨by decide, by decide, by decide⟩
  refine ⟨twoNames_sound, hcs, (@looksUp_iff twoNames twoNames_sound twoNamesEntries
    (fun _ => twoNamesRoot) _ hcs (twoNames_directories _)).2 ?_⟩
  refine ⟨fun k hk _ => ?_, rfl⟩
  obtain rfl : k = 0 := Nat.lt_one_iff.1 hk
  rw [FindsExact, ← matchingEntry_eq_iff]
  have hmatch : matchingEntry (twoNamesEntries ext2RootInoIndex) [0x61#8] =
      exactEntry (twoNamesEntries ext2RootInoIndex) [0x61#8] := by decide
  exact ⟨by decide, hmatch⟩

/-- The path `/ab` leads to inode 11 as well, though the entry `ab` is inode 12. -/
theorem looksUp_twoNames_longer : twoNames.Sound ∧
    twoNames.Directory ext2RootInoIndex twoNamesRoot (twoNamesEntries ext2RootInoIndex) ∧
    exactPath twoNamesEntries [[0x61#8, 0x62#8]] = 12 ∧
    twoNames.pathToInode (absolutePath [[0x61#8, 0x62#8]]) = some 11 ∧
    ¬ twoNames.LooksUp twoNamesEntries [[0x61#8, 0x62#8]] := by
  have hexact : exactPath twoNamesEntries [[0x61#8, 0x62#8]] = 12 := by decide +kernel
  have hcode : twoNames.pathToInode (absolutePath [[0x61#8, 0x62#8]]) = some 11 := by
    decide +kernel
  refine ⟨twoNames_sound, twoNames_directory, hexact, hcode, fun hlooks => ?_⟩
  have hright := hlooks.2
  exact absurd hright (by decide)

end Volume

end Bloodmoon
