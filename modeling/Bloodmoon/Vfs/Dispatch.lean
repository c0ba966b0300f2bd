import Bloodmoon.Machine.Outcome
import Bloodmoon.Vfs.FullPath
import Bloodmoon.Vfs.Interface

/-!
# Which mount a file is looked up in

A path goes to the first mount of the list whose name it begins with. That is the mount the path
names when no mount before it has a name that is a prefix of its name; `hdap1` is in the way of
`hdap10`. A descriptor keeps the name of the mount and the path in it, and each call puts the two
together and chooses again.
-/

namespace Bloodmoon

open Machine Relation FileDescriptorEntry List Option

variable {name rest s : Text} {b major : ℕ}

/-! ### Names of mounts -/

/-- What all names of mounts have in common: they are short and hold no slash. -/
structure MountName (name : Text) : Prop where
  ne_nil : name ≠ []
  no_zero : 0#8 ∉ name
  no_slash : 0x2f#8 ∉ name
  length_le : name.length ≤ 31

/-- A character that occurs in names. -/
def NameChar (c : BitVec 8) : Prop := c ≠ 0#8 ∧ c ≠ 0x2f#8

instance : DecidablePred NameChar := fun _ => inferInstanceAs (Decidable (_ ∧ _))

theorem numeral_nameChar (hpos : 0 < b) (hbase : b ≤ 16) (n : ℕ) : ∀ c ∈ numeral b n, NameChar c :=
  mem_digits hpos (fun _ hd => digit_ne (Nat.lt_of_lt_of_le hd hbase)) (fun _ hc => nomatch hc)

theorem length_numeral_le {n k : ℕ} (hn : n < b ^ k) (hk : 0 < k) : (numeral b n).length ≤ k := by
  have hle := @length_digits_le b 32 n k [] hn hk
  rwa [length_nil, Nat.zero_add] at hle

/-- An identifier is short and holds letters only. -/
theorem deviceIdentifiers_spec (h : deviceIdentifiers major = some name) :
    name ≠ [] ∧ name.length ≤ 6 ∧ ∀ c ∈ name, NameChar c := by
  unfold deviceIdentifiers at h
  split at h
  -- the last case is the rest of the table
  case h_13 =>
    split_ifs at h
    cases h
    decide
  all_goals
    cases h
    decide

theorem partitionNumeral_spec (index : ℕ) :
    (partitionNumeral index).length ≤ 11 ∧ ∀ c ∈ partitionNumeral index, NameChar c := by
  have hchars := fun n => numeral_nameChar (b := 10) (by decide) (by decide) n
  rw [partitionNumeral]
  split_ifs with hsign
  · have hlen := length_numeral_le (b := 10) (k := 10)
      (show index % 2 ^ 32 < 10 ^ 10 by omega) (by decide)
    exact ⟨by omega, hchars _⟩
  · have hlen := length_numeral_le (b := 10) (k := 10)
      (show 2 ^ 32 - index % 2 ^ 32 < 10 ^ 10 by omega) (by decide)
    refine ⟨Nat.succ_le_succ hlen, fun c hc => ?_⟩
    rcases mem_cons.1 hc with rfl | hc
    · decide
    · exact hchars _ c hc

/-- The mount points of partitions are names of mounts. -/
theorem mountName_mountpoint {minor index : ℕ} {device : Text}
    (h : deviceName major minor = some device) : MountName (mountpoint device index) := by
  obtain ⟨name, hname, rfl⟩ := map_eq_some_iff.1 h
  obtain ⟨hne, hlen, hchars⟩ := deviceIdentifiers_spec hname
  obtain ⟨hlen', hchars'⟩ := partitionNumeral_spec index
  have hminor := length_numeral_le (b := 16) (k := 3)
    (show minor % 256 + 0xa < 16 ^ 3 by omega) (by decide)
  have hlength : (name ++ numeral 16 (minor % 256 + 0xa) ++
      0x70#8 :: partitionNumeral index).length ≤ 21 := by
    rw [length_append, length_append, length_cons]
    omega
  have hall : ∀ c ∈ name ++ numeral 16 (minor % 256 + 0xa) ++ 0x70#8 :: partitionNumeral index,
      NameChar c := by
    intro c hc
    rcases mem_append.1 hc with hc | hc
    · rcases mem_append.1 hc with hc | hc
      · exact hchars c hc
      · exact numeral_nameChar (by decide) (by decide) _ c hc
    · rcases mem_cons.1 hc with rfl | hc
      · decide
      · exact hchars' c hc
  rw [mountpoint, take_of_length_le (by omega)]
  refine ⟨?_, fun hzero => (hall _ hzero).1 rfl, fun hslash => (hall _ hslash).2 rfl, by omega⟩
  simp

/-- A mount table as `detect_partition_fs` builds it, in one call or in several. -/
def BuiltTable (mounts : List Mount) : Prop :=
  ∀ m ∈ mounts, ∃ major minor index device,
    deviceName major minor = some device ∧ m.name = mountpoint device index

theorem builtTable_detectPartitionFs {vfsRoot : List DevMap}
    (hroot : ∀ d ∈ vfsRoot, ∃ major minor, deviceName major minor = some d.dev)
    (mountFs : DevMap → ℕ → Option FsType) : BuiltTable (detectPartitionFs vfsRoot mountFs) := by
  intro m hm
  obtain ⟨d, hd, hm⟩ := mem_flatMap.1 hm
  obtain ⟨index, -, hm⟩ := mem_filterMap.1 hm
  obtain ⟨fs, -, rfl⟩ := map_eq_some_iff.1 hm
  obtain ⟨major, minor, hname⟩ := hroot d hd
  exact ⟨major, minor, index, d.dev, hname, rfl⟩

theorem BuiltTable.mountName {mounts : List Mount} (h : BuiltTable mounts) {m : Mount}
    (hm : m ∈ mounts) : MountName m.name := by
  obtain ⟨major, minor, index, device, hdevice, hname⟩ := h m hm
  rw [hname]
  exact mountName_mountpoint hdevice

theorem MountName.head?_ne (h : MountName name) : (name ++ rest).head? ≠ some 0x2f#8 := by
  obtain ⟨c, name, rfl⟩ := exists_cons_of_ne_nil h.ne_nil
  intro hhead
  exact h.no_slash (Option.some.inj hhead ▸ mem_cons_self)

/-! ### Prefixes -/

/-- A name without a slash that a path begins with is part of what stands before the slash. -/
theorem prefix_append_slash_iff (h : 0x2f#8 ∉ name) :
    name <+: s ++ 0x2f#8 :: rest ↔ name <+: s := by
  induction name generalizing s with
  | nil => exact iff_of_true nil_prefix nil_prefix
  | cons c name ih =>
    obtain ⟨hc, hname⟩ := not_or.1 (mt mem_cons.2 h)
    cases s with
    | nil =>
      rw [nil_append, cons_prefix_cons]
      exact iff_of_false (fun hand => hc hand.1.symm) (by simp)
    | cons d s => rw [cons_append, cons_prefix_cons, cons_prefix_cons, ih hname]

/-- The first component of a path. -/
def component (path : Text) : Text := path.takeWhile (· ≠ 0x2f#8)

/-- What follows a component is nothing, or begins with a slash. -/
def IsRest (rest : Text) : Prop := rest = [] ∨ ∃ tail, rest = 0x2f#8 :: tail

theorem component_append (path : Text) : ∃ rest, path = component path ++ rest ∧ IsRest rest := by
  induction path with
  | nil => exact ⟨[], rfl, .inl rfl⟩
  | cons c path ih =>
    by_cases hc : c = 0x2f#8
    · exact ⟨c :: path, by simp [component, hc], .inr ⟨path, by rw [hc]⟩⟩
    · obtain ⟨rest, hrest, hisRest⟩ := ih
      refine ⟨rest, ?_, hisRest⟩
      rw [component, takeWhile_cons_of_pos (by simpa using hc), cons_append]
      exact congrArg (c :: ·) hrest

/-- Only what stands before the first slash decides which names a path begins with. -/
theorem prefix_append_rest_iff (h : 0x2f#8 ∉ name) (hrest : IsRest rest) :
    name <+: s ++ rest ↔ name <+: s := by
  rcases hrest with rfl | ⟨tail, rfl⟩
  · rw [append_nil]
  · exact prefix_append_slash_iff h

namespace Vfs

variable {v w : Vfs} {path : Text} {i fd : ℕ} {m : Mount}
variable {mount native : Text} {flags mode : ℕ} {t u : Slots FileDescriptorEntry} {r : ℤ}

/-! ### The choice of a mount -/

/-- The mount that is found is the first one whose name the path begins with. -/
theorem findMount_eq_some_iff (hbuilt : BuiltTable v.mounts) :
    v.findMount path = some i ↔ (∃ m, v.mounts[i]? = some m ∧ m.name <+: path) ∧
      ∀ j < i, ∀ m, v.mounts[j]? = some m → ¬ m.name <+: path := by
  have hcmp : ∀ {j : ℕ} {m : Mount}, v.mounts[j]? = some m →
      (strncmp m.name path m.name.length = 0 ↔ m.name <+: path) := fun hm =>
    strncmp_eq_zero_iff (hbuilt.mountName (mem_of_getElem? hm)).no_zero
  rw [findMount, findIdx?_eq_some_iff_getElem]
  constructor
  · rintro ⟨hi, hfound, hbefore⟩
    have hget := getElem?_eq_getElem hi
    refine ⟨⟨_, hget, (hcmp hget).1 (of_decide_eq_true hfound)⟩, fun j hj m hm hpre => ?_⟩
    obtain ⟨hlt, rfl⟩ := List.getElem?_eq_some_iff.1 hm
    exact hbefore j hj (decide_eq_true ((hcmp hm).2 hpre))
  · rintro ⟨⟨m, hm, hpre⟩, hbefore⟩
    obtain ⟨hi, rfl⟩ := List.getElem?_eq_some_iff.1 hm
    refine ⟨hi, decide_eq_true ((hcmp hm).2 hpre), fun j hj hfound => ?_⟩
    have hget := getElem?_eq_getElem (Nat.lt_trans hj hi)
    exact hbefore j hj _ hget ((hcmp hget).1 (of_decide_eq_true hfound))

/-- A path that is not absolute is looked up in the list. -/
theorem getMountFromPath_of_relative (h : path.head? ≠ some 0x2f#8) :
    v.getMountFromPath path = (v.findMount path).bind fun i =>
      v.mounts[i]?.map fun m => (i, (path.take strMaxSize).drop m.name.length) :=
  if_neg fun hand => h hand.1

theorem map_getMountFromPath (hbuilt : BuiltTable v.mounts) (h : path.head? ≠ some 0x2f#8) :
    (v.getMountFromPath path).map Prod.fst = v.findMount path := by
  rw [getMountFromPath_of_relative h]
  cases hfind : v.findMount path with
  | none => rfl
  | some i =>
    obtain ⟨⟨m, hm, -⟩, -⟩ := (findMount_eq_some_iff hbuilt).1 hfind
    rw [bind_some, hm]
    rfl

/-! ### Descriptors -/

/-- The path of a descriptor is the name of the mount and the path in it, perhaps with the name once
more. -/
theorem fill_fullPath (hpath : 0#8 ∉ path) (hmount : MountName mount) (hlen : path.length ≤ 256)
    (hisRest : IsRest path) (flags mode : ℕ) (e : FileDescriptorEntry) :
    ∃ rest, (fill path mount flags mode e).mount ++
      (fill path mount flags mode e).name = mount ++ rest ∧
        IsRest rest := by
  have hmountLen : mount.length ≤ 256 := Nat.le_trans hmount.length_le (by decide)
  rw [mount_fill hmount.no_zero hmountLen, name_fill hpath hlen hmount.no_zero hmountLen]
  split_ifs with hshort
  · exact ⟨path, rfl, hisRest⟩
  · refine ⟨path ++ mount, rfl, ?_⟩
    rcases hisRest with rfl | ⟨tail, rfl⟩
    · exact absurd (by decide) hshort
    · exact .inr ⟨tail ++ mount, rfl⟩

/-- A call of `get_fd` that succeeds fills a free slot of the table. -/
theorem getFd_cases (h : getFd t path mount flags mode = some (r, u)) :
    (r = -1 ∧ ∃ c, u = { t with cursor := c }) ∨
      ∃ i : ℕ, r = i ∧ path.length ≤ 256 ∧ (t.slot i).loaded = false ∧
        u = ⟨Function.update t.slot i (.fill path mount flags mode (t.slot i)), i + 1⟩ := by
  rcases Slots.get_cases (by decide) h with ⟨hr, c, hu, -⟩ | ⟨i, -, hr, hlong, hfree, hu⟩
  · exact .inl ⟨hr, c, hu⟩
  · exact .inr ⟨i, hr, Nat.not_lt.1 (not_or.1 hlong).1, hfree, hu⟩

/-- A file system hands out a descriptor for the path and its own name, or none. -/
theorem fileOpen_cases (h : m.fileOpen t path flags mode = some (r, u)) :
    (r = -1 ∧ u = t) ∨ getFd t path m.ownName flags mode = some (r, u) := by
  have hnone : some (-1, t) = some (r, u) → r = -1 ∧ u = t := fun heq =>
    (some_inj heq).imp Eq.symm Eq.symm
  unfold Mount.fileOpen at h
  split at h
  · exact .inl (hnone h)
  · exact .inr h
  · split_ifs at h
    · exact .inr h
    · exact .inl (hnone h)
  · split_ifs at h
    · exact .inr h
    · exact .inl (hnone h)

/-- A file that is opened has a slot with its path and the name of its mount. -/
theorem vfsFileOpen_cases (h : v.vfsFileOpen path flags mode = some (r, w)) :
    (r = -1 ∧ ∃ c, w = { v with files := { v.files with cursor := c } }) ∨
      ∃ i m native, ∃ k : ℕ, r = k ∧ v.getMountFromPath path = some (i, native) ∧
        v.mounts[i]? = some m ∧ native.length ≤ 256 ∧ (v.files.slot k).loaded = false ∧
        w = { v with files := ⟨Function.update v.files.slot k
          (.fill native m.ownName flags mode (v.files.slot k)), k + 1⟩ } := by
  have hfail : some (-1, v) = some (r, w) →
      r = -1 ∧ ∃ c, w = { v with files := { v.files with cursor := c } } := by
    intro heq
    cases heq
    exact ⟨rfl, v.files.cursor, rfl⟩
  rw [vfsFileOpen] at h
  split at h
  · exact .inl (hfail h)
  · rename_i i native hget
    split at h
    · exact .inl (hfail h)
    · rename_i m hm
      obtain ⟨⟨r', u⟩, hopen, heq⟩ := map_eq_some_iff.1 h
      cases heq
      rcases fileOpen_cases hopen with ⟨rfl, rfl⟩ | hopen
      · exact .inl ⟨rfl, _, rfl⟩
      rcases getFd_cases hopen with ⟨rfl, c, rfl⟩ | ⟨k, rfl, hlen, hfree, rfl⟩
      · exact .inl ⟨rfl, c, rfl⟩
      · exact .inr ⟨i, m, native, k, rfl, hget, hm, hlen, hfree, rfl⟩

/-! ### Runs in which a descriptor stays open -/

/-- What may happen while the descriptor `fd` stays open: files are opened and others are closed,
offsets and the current root change. -/
inductive Other (fd : ℕ) : Vfs → Vfs → Prop
  | opens {v w : Vfs} {path : Text} {flags mode : ℕ} {r : ℤ}
      (hopen : v.vfsFileOpen path flags mode = some (r, w)) : Other fd v w
  | close {v : Vfs} {fd' : ℕ} {r : ℤ} {t : Slots FileDescriptorEntry} (hne : fd' ≠ fd)
      (hclose : releaseFd v.files fd' = some (r, t)) : Other fd v { v with files := t }
  | seek (v : Vfs) (fd' offset : ℕ) : Other fd v { v with files := v.files.setOffset fd' offset }
  | setVfsRoot (v : Vfs) (root : ℕ) : Other fd v { v with currentRoot := some root }

/-- The mounts and the descriptor are as they were. -/
structure Keeps (fd : ℕ) (v w : Vfs) : Prop where
  mounts : w.mounts = v.mounts
  loaded : (w.files.slot fd).loaded = (v.files.slot fd).loaded
  text : (w.files.slot fd).text = (v.files.slot fd).text

theorem Keeps.of_slot (hmounts : w.mounts = v.mounts) (hslot : w.files.slot fd = v.files.slot fd) :
    Keeps fd v w :=
  ⟨hmounts, by rw [hslot], by rw [hslot]⟩

theorem Other.keeps (h : Other fd v w) (hopen : (v.files.slot fd).loaded = true) :
    Keeps fd v w := by
  cases h with
  | opens hopen' =>
    rcases vfsFileOpen_cases hopen' with ⟨-, c, rfl⟩ | ⟨i, m, native, k, -, -, -, -, hfree, rfl⟩
    · exact ⟨rfl, rfl, rfl⟩
    · have hne : fd ≠ k := by
        rintro rfl
        exact Bool.noConfusion (hopen.symm.trans hfree)
      exact .of_slot rfl (Function.update_of_ne hne _ _)
  | close hne hclose =>
    rename_i fd' r t
    rw [releaseFd, Slots.release] at hclose
    split_ifs at hclose with hout hneg
    · cases hclose
      exact ⟨rfl, rfl, rfl⟩
    · cases hclose
      exact .of_slot rfl (Function.update_of_ne (Ne.symm hne) _ _)
  | seek fd' offset =>
    have hslot := Slots.slot_setOffset v.files fd' offset fd
    split_ifs at hslot with heq
    · exact ⟨rfl, by rw [hslot, heq], by rw [hslot, heq]⟩
    · exact .of_slot rfl hslot
  | setVfsRoot root => exact ⟨rfl, rfl, rfl⟩

/-- A run keeps the mounts and the descriptor. -/
theorem keeps_run (hopen : (v.files.slot fd).loaded = true) (hrun : ReflTransGen (Other fd) v w) :
    Keeps fd v w := by
  induction hrun with
  | refl => exact ⟨rfl, rfl, rfl⟩
  | tail _ hstep ih =>
    have hkeeps := hstep.keeps (ih.loaded.trans hopen)
    exact ⟨hkeeps.mounts.trans ih.mounts, hkeeps.loaded.trans ih.loaded, hkeeps.text.trans ih.text⟩

/-! ### Dispatch -/

/-- Paths that begin with the same names go to the same mount. -/
theorem findMount_congr {p q : Text} (hbuilt : BuiltTable v.mounts) (hmounts : w.mounts = v.mounts)
    (h : ∀ m ∈ v.mounts, m.name <+: p ↔ m.name <+: q) : w.findMount p = v.findMount q := by
  refine Option.ext fun i => ?_
  have hget : ∀ {j : ℕ} {m : Mount}, v.mounts[j]? = some m → (m.name <+: p ↔ m.name <+: q) :=
    fun hm => h _ (mem_of_getElem? hm)
  rw [findMount_eq_some_iff (hmounts ▸ hbuilt), findMount_eq_some_iff hbuilt, hmounts]
  refine and_congr ?_ (forall₄_congr fun j _ m hm => not_congr (hget hm))
  exact exists_congr fun m => and_congr_right hget

theorem ownName_eq (h : MountName m.name) : m.ownName = m.name := take_of_length_le h.length_le

/-- The later calls on a descriptor go where the name of its mount goes. -/
theorem fdMount_run {u : Vfs} {k : ℕ} (hbuilt : BuiltTable v.mounts) (hm : v.mounts[i]? = some m)
    (hzero : 0#8 ∉ native) (hlen : native.length ≤ 256) (hrest : IsRest native)
    (hu : u = { v with files := ⟨Function.update v.files.slot k (.fill native m.ownName flags mode
      (v.files.slot k)), k + 1⟩ }) (hrun : ReflTransGen (Other k) u w) :
    w.fdMount k = v.findMount m.name := by
  subst hu
  have hname := hbuilt.mountName (mem_of_getElem? hm)
  have hself : Function.update v.files.slot k
      (.fill native m.ownName flags mode (v.files.slot k)) k =
        .fill native m.ownName flags mode (v.files.slot k) := Function.update_self _ _ _
  have hkeeps := keeps_run (congrArg loaded hself) hrun
  have htext : (w.files.slot k).text =
      (fill native m.name flags mode (v.files.slot k)).text := by
    rw [← ownName_eq hname]
    exact hkeeps.text.trans (congrArg text hself)
  obtain ⟨rest, hfull, hrest⟩ := fill_fullPath hzero hname hlen hrest flags mode (v.files.slot k)
  have hpath : w.getFullPathFromFd k = m.name ++ rest := by
    rw [← hfull, getFullPathFromFd, mount, name, htext]
    rfl
  rw [fdMount, hpath, map_getMountFromPath (hkeeps.mounts ▸ hbuilt) hname.head?_ne]
  refine findMount_congr hbuilt hkeeps.mounts fun m' hm' => ?_
  exact prefix_append_rest_iff (hbuilt.mountName hm').no_slash hrest

/-- The mount that a path names: the current root for an absolute path, and else the one whose name
is the whole first component. -/
def Names (v : Vfs) (path : Text) (i : ℕ) : Prop :=
  if path.head? = some 0x2f#8 then v.currentRoot = some i
  else ∃ m, v.mounts[i]? = some m ∧ m.name = component path

/-- The file goes to the mount that its path names, and so do all later calls on its descriptor. -/
def Dispatched (v : Vfs) (path : Text) (w : Vfs) (fd : ℕ) : Prop :=
  ∃ i native, v.getMountFromPath path = some (i, native) ∧ v.Names path i ∧
    ∀ u, ReflTransGen (Other fd) w u → u.fdMount fd = some i

/-- No other mount is in the way: for an absolute path, no mount before the current root has a name
that is a prefix of the name of the current root; for others, every mount whose name the path begins
with is at or behind one whose name is the whole first component. -/
def Unobstructed (v : Vfs) (path : Text) : Prop :=
  if path.head? = some 0x2f#8 then
    ∀ (r : ℕ) (m : Mount), v.currentRoot = some r → v.mounts[r]? = some m →
      ∀ j < r, ∀ m' : Mount, v.mounts[j]? = some m' → ¬ m'.name <+: m.name
  else
    ∀ (i : ℕ) (m : Mount), v.mounts[i]? = some m → m.name <+: path →
      ∃ j ≤ i, ∃ m' : Mount, v.mounts[j]? = some m' ∧ m'.name = component path

/-- The mount that is found for a path which is not absolute is the one it names when nothing is in
the way. -/
theorem names_iff_of_relative (hbuilt : BuiltTable v.mounts) (hrel : path.head? ≠ some 0x2f#8)
    (hfind : v.findMount path = some i) : v.Names path i ↔ v.Unobstructed path := by
  obtain ⟨⟨m, hm, hpre⟩, hbefore⟩ := (findMount_eq_some_iff hbuilt).1 hfind
  rw [Names, Unobstructed, if_neg hrel, if_neg hrel]
  constructor
  · intro hnames i' m' hm' hpre'
    exact ⟨i, Nat.not_lt.1 fun hlt => hbefore i' hlt m' hm' hpre', hnames⟩
  · intro hclear
    obtain ⟨j, hj, m', hm', hcomp⟩ := hclear i m hm hpre
    -- the mount of the first component is found no later than any other
    have hpre' : m'.name <+: path := by
      obtain ⟨rest, hpath, -⟩ := component_append path
      exact ⟨rest, by rw [hcomp, ← hpath]⟩
    obtain rfl : j = i := Nat.le_antisymm hj (Nat.not_lt.1 fun hlt => hbefore j hlt m' hm' hpre')
    exact ⟨m', hm', hcomp⟩

/-- The current root is found again from its own name when no mount before it has a name that is a
prefix of its name. -/
theorem findMount_root_iff (hbuilt : BuiltTable v.mounts) (habs : path.head? = some 0x2f#8)
    (hroot : v.currentRoot = some i) (hm : v.mounts[i]? = some m) :
    v.findMount m.name = some i ↔ v.Unobstructed path := by
  rw [findMount_eq_some_iff hbuilt, Unobstructed, if_pos habs]
  constructor
  · rintro ⟨-, hbefore⟩ r m' hr hm'
    obtain rfl : i = r := mem_unique hroot hr
    obtain rfl : m = m' := mem_unique hm hm'
    exact hbefore
  · intro hclear
    exact ⟨⟨m, hm, prefix_rfl⟩, hclear i m hroot hm⟩

/-- The path in a mount that a path names, as long as a descriptor has room for it. -/
theorem native_of_names {inner : Text} (hbuilt : BuiltTable v.mounts)
    (hrel : path.head? ≠ some 0x2f#8) (hget : v.getMountFromPath path = some (i, inner))
    (hm : v.mounts[i]? = some m) (hlen : inner.length ≤ 256) (hnames : v.Names path i) :
    path = m.name ++ inner ∧ IsRest inner := by
  have hname := (hbuilt.mountName (mem_of_getElem? hm)).length_le
  rw [getMountFromPath_of_relative hrel] at hget
  obtain ⟨i', -, hget⟩ := bind_eq_some_iff.1 hget
  obtain ⟨m', hm', heq⟩ := map_eq_some_iff.1 hget
  obtain ⟨rfl, rfl⟩ := Prod.mk.inj heq
  obtain rfl : m = m' := mem_unique hm hm'
  -- a path that was cut off would leave more than a descriptor has room for
  have hshort : path.length ≤ strMaxSize := by
    rw [length_drop, length_take, strMaxSize] at hlen
    rw [strMaxSize]
    omega
  rw [Names, if_neg hrel] at hnames
  obtain ⟨m', hm', hcomp⟩ := hnames
  obtain rfl : m = m' := mem_unique hm hm'
  obtain ⟨rest, hpath, hrest⟩ := component_append path
  have hnative : (path.take strMaxSize).drop m.name.length = rest := by
    rw [take_of_length_le hshort, hcomp]
    exact (congrArg (List.drop _) hpath).trans drop_left
  rw [hnative, hcomp]
  exact ⟨hpath, hrest⟩

theorem isRest_of_absolute (habs : path.head? = some 0x2f#8) : IsRest path := by
  cases path with
  | nil => exact .inl rfl
  | cons c tail => exact .inr ⟨tail, by rw [Option.some.inj habs]⟩

/-- The path in the current root is the whole path. -/
theorem native_of_absolute (hbuilt : BuiltTable v.mounts) (habs : path.head? = some 0x2f#8)
    (hget : v.getMountFromPath path = some (i, native)) (hlen : native.length ≤ 256) :
    v.currentRoot = some i ∧ path = native := by
  rw [getMountFromPath] at hget
  split_ifs at hget with hroot
  · obtain ⟨r, hr, heq⟩ := map_eq_some_iff.1 hget
    obtain ⟨rfl, rfl⟩ := Prod.mk.inj heq
    refine ⟨hr, (take_of_length_le ?_).symm⟩
    rw [length_take, strMaxSize] at hlen
    rw [strMaxSize]
    omega
  · -- no name begins with a slash, so that nothing is found without a root
    obtain ⟨i', hfind, -⟩ := bind_eq_some_iff.1 hget
    obtain ⟨⟨m, hm, rest, rfl⟩, -⟩ := (findMount_eq_some_iff hbuilt).1 hfind
    exact absurd habs (hbuilt.mountName (mem_of_getElem? hm)).head?_ne

/-- **Dispatch.** A file that is opened goes to the mount that its path names, and all later calls
on its descriptor go there while it stays open, exactly when no other mount is in the way. -/
theorem dispatched_iff (hbuilt : BuiltTable v.mounts) (hpath : 0#8 ∉ path) {flags mode : ℕ}
    (hopen : v.vfsFileOpen path flags mode = some ((fd : ℤ), w)) :
    v.Dispatched path w fd ↔ v.Unobstructed path := by
  rcases vfsFileOpen_cases hopen with ⟨hneg, -⟩ | ⟨i, m, native, k, hk, hget, hm, hlen, -, hw⟩
  · exact absurd hneg (by omega)
  obtain rfl : fd = k := Int.ofNat_inj.1 hk
  by_cases habs : path.head? = some 0x2f#8
  · obtain ⟨hroot, rfl⟩ := native_of_absolute hbuilt habs hget hlen
    rw [← findMount_root_iff hbuilt habs hroot hm]
    have hlater := fun u (hrun : ReflTransGen (Other fd) w u) =>
      fdMount_run hbuilt hm hpath hlen (isRest_of_absolute habs) hw hrun
    constructor
    · rintro ⟨i', native', hget', -, hdispatch⟩
      obtain ⟨rfl, -⟩ := some_inj (hget.symm.trans hget')
      exact (hlater _ .refl).symm.trans (hdispatch _ .refl)
    · intro hfind
      refine ⟨i, path, hget, ?_, fun u hrun => (hlater u hrun).trans hfind⟩
      rw [Names, if_pos habs]
      exact hroot
  · have hfind : v.findMount path = some i := by
      rw [← map_getMountFromPath hbuilt habs, hget]
      rfl
    rw [← names_iff_of_relative hbuilt habs hfind]
    constructor
    · rintro ⟨i', native', hget', hnames, -⟩
      obtain ⟨rfl, -⟩ := some_inj (hget.symm.trans hget')
      exact hnames
    · intro hnames
      obtain ⟨rfl, hrest⟩ := native_of_names hbuilt habs hget hm hlen hnames
      have hzero : 0#8 ∉ native := fun h => hpath (mem_append_right _ h)
      refine ⟨i, native, hget, hnames, fun u hrun => ?_⟩
      rw [fdMount_run hbuilt hm hzero hlen hrest hw hrun, ← hfind]
      -- the path begins with the same names as the name of its mount
      refine findMount_congr hbuilt rfl fun m' hm' => ?_
      exact (prefix_append_rest_iff (hbuilt.mountName hm').no_slash hrest).symm

/-- The disk `hda` with partitions that all hold an ext2 file system, and no file open. -/
def mounted (partitionNo : ℕ) : Vfs where
  mounts := detectPartitionFs [⟨[0x68#8, 0x64#8, 0x61#8], partitionNo⟩] fun _ _ => some .ext2
  currentRoot := none
  files := ⟨fun _ => ⟨fun _ => 0#8, 0, 0, false⟩, 0⟩

theorem builtTable_mounted (partitionNo : ℕ) : BuiltTable (mounted partitionNo).mounts :=
  builtTable_detectPartitionFs (fun _ hd => ⟨8, 0, by rw [mem_singleton.1 hd]; rfl⟩) _

/-- The path `hdap0/x`. -/
def pathInFirst : Text := [0x68#8, 0x64#8, 0x61#8, 0x70#8, 0x30#8, 0x2f#8, 0x78#8]

/-- The path `hdap1/x`. -/
def pathInSecond : Text := [0x68#8, 0x64#8, 0x61#8, 0x70#8, 0x31#8, 0x2f#8, 0x78#8]

/-- The path `hdap10/x`. -/
def pathInEleventh : Text := [0x68#8, 0x64#8, 0x61#8, 0x70#8, 0x31#8, 0x30#8, 0x2f#8, 0x78#8]

/-- With eleven partitions, `hdap1/x` is opened in `hdap1`, although there is `hdap10`. -/
theorem dispatched_hdap1 :
    ∃ w, (mounted 11).vfsFileOpen pathInSecond 0 0 = some (((0 : ℕ) : ℤ), w) ∧
      (mounted 11).Dispatched pathInSecond w 0 := by
  refine ⟨_, rfl, (dispatched_iff (builtTable_mounted 11) (by decide) rfl).2 ?_⟩
  intro i m hm hprefix
  refine ⟨1, Nat.pos_of_ne_zero ?_, _, rfl, by decide⟩
  rintro rfl
  obtain rfl := Option.some.inj hm
  exact absurd hprefix (by decide)

/-- With eleven partitions, `hdap10/x` is opened in `hdap1`. -/
theorem dispatched_hdap10 :
    (∃ w, (mounted 11).vfsFileOpen pathInEleventh 0 0 = some (((0 : ℕ) : ℤ), w)) ∧
      (mounted 11).getMountFromPath pathInEleventh = some (1, [0x30#8, 0x2f#8, 0x78#8]) ∧
      ∀ w fd, ¬ (mounted 11).Dispatched pathInEleventh w fd := by
  have hget : (mounted 11).getMountFromPath pathInEleventh =
      some (1, [0x30#8, 0x2f#8, 0x78#8]) := by decide
  refine ⟨⟨_, rfl⟩, hget, ?_⟩
  rintro w fd ⟨i, native, hget', hnames, -⟩
  obtain ⟨rfl, -⟩ := some_inj (hget.symm.trans hget')
  obtain ⟨m, hm, hcomp⟩ := hnames
  have hname : ((mounted 11).mounts[1]?).map Mount.name ≠ some (component pathInEleventh) := by
    decide
  exact hname (by rw [hm, ← hcomp]; rfl)

end Vfs

end Bloodmoon
