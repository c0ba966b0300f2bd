import Bloodmoon.Vfs.Dispatch

/-!
# Removing an open file

`vfs_remove` refuses a path that `is_open` finds in the tables. The answer of `is_open` is a slot,
of which slot 0 is taken for "not open", and it is the first slot with the path, in whatever mount.
What each slot was opened for is kept beside the tables (`Recorded`): a path that fills its array
shows the mount behind it, so that `is_open` does not find it.
-/

namespace Bloodmoon

open Machine Descriptors FileDescriptorEntry

section Search

variable {E : Type} (K : SlotKind E) (entry : E → FileDescriptorEntry) (t : Slots E) (path : Text)

/-- The slot is open and has the path; `strcmp` returns 0 on equal strings only. -/
def HasName (i : ℕ) : Prop := K.loaded (t.slot i) = true ∧ (entry (t.slot i)).name = path

instance (i : ℕ) : Decidable (HasName K entry t path i) := inferInstanceAs (Decidable (_ ∧ _))

/-- The loop of `is_open` over one of the tables. -/
def findOpen : Option ℕ := (List.range K.size).find? fun i => HasName K entry t path i

/-- The loop of `force_release` over one of the tables. -/
def releaseNamed : Slots E :=
  { t with slot := fun i =>
      if i < K.size ∧ HasName K entry t path i then K.unload (t.slot i) else t.slot i }

end Search

/-! ### What the slots were opened for -/

/-- The string that a slot shows as its path, when it was opened for a path and a mount. -/
def shown (r : Text × Text) : Text := if r.1.length < 256 then r.1 else r.1 ++ r.2

section Records

variable {E : Type} (K : SlotKind E) (entry : E → FileDescriptorEntry) (t : Slots E)
  (records : ℕ → Text × Text)

/-- Each open slot has what `get_fd` writes for the path and the mount it was opened for. -/
def Recorded : Prop :=
  ∀ i < K.size, K.loaded (t.slot i) = true →
    0#8 ∉ (records i).1 ∧ 0#8 ∉ (records i).2 ∧ ¬ Slots.TooLong (records i).1 (records i).2 ∧
      ∃ flags mode e, (entry (t.slot i)).text = (fill (records i).1 (records i).2 flags mode e).text

/-- A slot is open and was opened for the path and the mount. -/
def OpenedFor (path mount : Text) : Prop :=
  ∃ i < K.size, K.loaded (t.slot i) = true ∧ records i = (path, mount)

/-- The slot is open and shows the path. -/
def ShowsPath (path : Text) (i : ℕ) : Prop :=
  i < K.size ∧ K.loaded (t.slot i) = true ∧ shown (records i) = path

variable {K entry t records} {u : Slots E} {path mount : Text}

/-- `get_fd` and `get_dirfd` write what is recorded. -/
theorem Recorded.get (h : Recorded K entry t records) (hsize : 0 < K.size) {fd flags mode : ℕ}
    {fill : E → E} (hfill : ∀ e, entry (fill e) = (entry e).fill path mount flags mode)
    (hpath : 0#8 ∉ path) (hmount : 0#8 ∉ mount)
    (hget : t.get K fill path mount = some ((fd : ℤ), u)) :
    Recorded K entry u (Function.update records fd (path, mount)) := by
  rcases Slots.get_cases hsize hget with ⟨hr, -⟩ | ⟨i, -, hi, hlong, -, rfl⟩
  · exact absurd hr (by omega)
  obtain rfl : fd = i := Int.ofNat_inj.1 hi
  intro j hj
  by_cases hfd : j = fd
  · subst hfd
    simp only [Function.update_self]
    exact fun _ => ⟨hpath, hmount, hlong, flags, mode, _, by rw [hfill]⟩
  · simp only [Function.update_of_ne hfd]
    exact h j hj

section Find

variable (h : Recorded K entry t records) {i : ℕ}

include h

/-- The path that `strcmp` compares is the one that is shown. -/
theorem Recorded.hasName_iff (hi : i < K.size) :
    HasName K entry t path i ↔ ShowsPath K t records path i := by
  rw [HasName, ShowsPath, and_iff_right hi]
  refine and_congr_right fun hloaded => ?_
  obtain ⟨hpath, hmount, hlong, flags, mode, e, htext⟩ := h i hi hloaded
  obtain ⟨hlen, hlen'⟩ := not_or.1 hlong
  rw [FileDescriptorEntry.name, htext]
  exact Eq.congr_left (name_fill hpath (Nat.not_lt.1 hlen) hmount (Nat.not_lt.1 hlen'))

theorem Recorded.findOpen_eq_none_iff :
    findOpen K entry t path = none ↔ ¬ ∃ i, ShowsPath K t records path i := by
  rw [findOpen, List.find?_range_eq_none, not_exists]
  refine forall_congr' fun i => ⟨fun hi hshows => ?_, fun hshows hi => ?_⟩
  · simpa [(h.hasName_iff hshows.1).2 hshows] using hi hshows.1
  · simpa using mt (h.hasName_iff hi).1 hshows

/-- The first slot that shows the path. -/
theorem Recorded.findOpen_eq_some (hfind : findOpen K entry t path = some i) :
    (∃ i, ShowsPath K t records path i) ∧ (0 < i ↔ ¬ ShowsPath K t records path 0) := by
  obtain ⟨hname, hi, hfirst⟩ := List.find?_range_eq_some.1 hfind
  have hi := List.mem_range.1 hi
  have hname := (h.hasName_iff hi).1 (of_decide_eq_true hname)
  refine ⟨⟨i, hname⟩, fun hpos hzero => ?_, fun hzero => ?_⟩
  · exact absurd ((h.hasName_iff hzero.1).2 hzero) (by simpa using hfirst 0 hpos)
  · exact Nat.pos_of_ne_zero fun heq => hzero (heq ▸ hname)

end Find

end Records

namespace Descriptors

variable (d : Descriptors) (path : Text)

/-- `is_open`. -/
def isOpen : ℤ :=
  match findOpen fileSlots id d.files path with
  | some i => i
  | none =>
    match findOpen dirSlots Dir.fd d.dirs path with
    | some i => i
    | none => -1

/-- `force_release`, without the number of changes. -/
def forceRelease : Descriptors :=
  ⟨releaseNamed fileSlots id d.files path, releaseNamed dirSlots Dir.fd d.dirs path⟩

/-- `is_safe_for_removing`. -/
def isSafeForRemoving (force : ℕ) : Bool × Descriptors :=
  if 0 < d.isOpen path then
    if force = 0 then (false, d) else (true, d.forceRelease path)
  else (true, d)

variable {d path} {records dirRecords : ℕ → Text × Text}

/-- The first slot that shows the path is not slot 0. -/
theorem isOpen_pos_iff (hfiles : Recorded fileSlots id d.files records)
    (hdirs : Recorded dirSlots Dir.fd d.dirs dirRecords) :
    0 < d.isOpen path ↔
      (∃ i, ShowsPath fileSlots d.files records path i) ∧
        ¬ ShowsPath fileSlots d.files records path 0 ∨
      (¬ ∃ i, ShowsPath fileSlots d.files records path i) ∧
        (∃ i, ShowsPath dirSlots d.dirs dirRecords path i) ∧
          ¬ ShowsPath dirSlots d.dirs dirRecords path 0 := by
  unfold isOpen
  split
  next i hfound =>
    obtain ⟨hsome, hpos⟩ := hfiles.findOpen_eq_some hfound
    rw [or_iff_left fun h => h.1 hsome, and_iff_right hsome, ← hpos]
    exact Int.natCast_pos
  next hfound =>
    have hnone := hfiles.findOpen_eq_none_iff.1 hfound
    rw [or_iff_right fun h => hnone h.1, and_iff_right hnone]
    split
    next i hfound =>
      obtain ⟨hsome, hpos⟩ := hdirs.findOpen_eq_some hfound
      rw [and_iff_right hsome, ← hpos]
      exact Int.natCast_pos
    next hfound => exact iff_of_false (by decide) fun h => hdirs.findOpen_eq_none_iff.1 hfound h.1

end Descriptors

/-- How `vfs_remove` ends: without a mount, without the consent of the file system, refused as open,
or with the function `remove` of the file system. -/
inductive RemoveResult where
  | noMount
  | notPrepared
  | isOpen
  | removed
  deriving DecidableEq

namespace Vfs

/-- `vfs_remove`. -/
def vfsRemove (v : Vfs) (dirs : Slots Dir) (prepareRemove : Mount → Text → Bool) (path : Text)
    (force : ℕ) : RemoveResult × Descriptors :=
  let d : Descriptors := ⟨v.files, dirs⟩
  match v.getMountFromPath path with
  | none => (.noMount, d)
  | some (i, native) =>
    match v.mounts[i]? with
    | none => (.noMount, d)
    | some m =>
      if prepareRemove m native = false then (.notPrepared, d)
      else
        let safe := d.isSafeForRemoving native force
        (if safe.1 = false then .isOpen else .removed, safe.2)

/-- The file is not removed while it is open, and is not refused as open while it is not. -/
def RemovesRightly (v : Vfs) (dirs : Slots Dir) (prepareRemove : Mount → Text → Bool) (path : Text)
    (isOpen : Prop) : Prop :=
  (isOpen → (v.vfsRemove dirs prepareRemove path 0).1 ≠ .removed) ∧
    (¬ isOpen → (v.vfsRemove dirs prepareRemove path 0).1 ≠ .isOpen)

/-- What the slots that show the path are like, for a path that is open or not: `files` and `dirs`
are the slots of the two tables that show it. -/
inductive RightlyFound (files dirs : ℕ → Prop) (isOpen : Prop) : Prop
  /-- It is open, and a file but not that in slot 0 shows it. -/
  | file (hopen : isOpen) (hfile : ∃ i, files i) (hzero : ¬ files 0)
  /-- It is open, no file shows it, and a directory but not that in slot 0 does. -/
  | dir (hopen : isOpen) (hfile : ¬ ∃ i, files i) (hdir : ∃ i, dirs i) (hzero : ¬ dirs 0)
  /-- It is not open, and the file in slot 0 shows it. -/
  | fileZero (hclosed : ¬ isOpen) (hzero : files 0)
  /-- It is not open, no file shows it, and the directory in slot 0 does. -/
  | dirZero (hclosed : ¬ isOpen) (hfile : ¬ ∃ i, files i) (hzero : dirs 0)
  /-- It is not open, and no slot shows it. -/
  | absent (hclosed : ¬ isOpen) (hfile : ¬ ∃ i, files i) (hdir : ¬ ∃ i, dirs i)

theorem rightlyFound_iff {files dirs : ℕ → Prop} {isOpen : Prop} :
    RightlyFound files dirs isOpen ↔ (isOpen ↔ (∃ i, files i) ∧ ¬ files 0 ∨
      (¬ ∃ i, files i) ∧ (∃ i, dirs i) ∧ ¬ dirs 0) := by
  constructor
  · intro h
    cases h with
    | file hopen hfile hzero => exact iff_of_true hopen (.inl ⟨hfile, hzero⟩)
    | dir hopen hfile hdir hzero => exact iff_of_true hopen (.inr ⟨hfile, hdir, hzero⟩)
    | fileZero hclosed hzero =>
      exact iff_of_false hclosed fun h => h.elim (fun h => h.2 hzero) fun h => h.1 ⟨0, hzero⟩
    | dirZero hclosed hfile hzero =>
      exact iff_of_false hclosed fun h => h.elim (fun h => hfile h.1) fun h => h.2.2 hzero
    | absent hclosed hfile hdir =>
      exact iff_of_false hclosed fun h => h.elim (fun h => hfile h.1) fun h => hdir h.2.1
  · intro h
    by_cases hopen : isOpen
    · rcases h.1 hopen with ⟨hfile, hzero⟩ | ⟨hfile, hdir, hzero⟩
      · exact .file hopen hfile hzero
      · exact .dir hopen hfile hdir hzero
    · obtain ⟨hfile, hdir⟩ := not_or.1 (mt h.2 hopen)
      by_cases hany : ∃ i, files i
      · exact .fileZero hopen (not_not.1 fun hzero => hfile ⟨hany, hzero⟩)
      by_cases hdirs : ∃ i, dirs i
      · exact .dirZero hopen hany (not_not.1 fun hzero => hdir ⟨hany, hdirs, hzero⟩)
      · exact .absent hopen hany hdirs

variable {v : Vfs} {dirs : Slots Dir} {prepareRemove : Mount → Text → Bool} {path native : Text}
  {i : ℕ} {m : Mount} {records dirRecords : ℕ → Text × Text}

/-- **Removing a file** is right exactly when the file system refuses it, or the slots that show its
path are as they have to be, for a path that a slot was opened for and for any other one. -/
theorem removesRightly_iff (hpath : v.getMountFromPath path = some (i, native))
    (hm : v.mounts[i]? = some m) (hfiles : Recorded fileSlots id v.files records)
    (hdirs : Recorded dirSlots Dir.fd dirs dirRecords) :
    v.RemovesRightly dirs prepareRemove path (OpenedFor fileSlots v.files records native m.ownName ∨
        OpenedFor dirSlots dirs dirRecords native m.ownName) ↔
      (prepareRemove m native = true →
        RightlyFound (ShowsPath fileSlots v.files records native)
          (ShowsPath dirSlots dirs dirRecords native)
          (OpenedFor fileSlots v.files records native m.ownName ∨
            OpenedFor dirSlots dirs dirRecords native m.ownName)) := by
  rw [rightlyFound_iff, ← isOpen_pos_iff (d := ⟨v.files, dirs⟩) hfiles hdirs]
  generalize (OpenedFor fileSlots v.files records native m.ownName ∨ _) = opened
  simp only [RemovesRightly, vfsRemove, hpath, hm, isSafeForRemoving]
  by_cases hprepared : prepareRemove m native = true
  · by_cases hopen : 0 < isOpen ⟨v.files, dirs⟩ native
    · simp [hprepared, hopen]
    · simp [hprepared, hopen]
  · simp [hprepared]

/-- The name `hdap0`. -/
def hdap0 : Text := [0x68#8, 0x64#8, 0x61#8, 0x70#8, 0x30#8]

theorem recorded_mounted (n : ℕ) : Recorded fileSlots id (mounted n).files fun _ => ([], []) :=
  fun _ _ h => absurd h (by simp [mounted, fileSlots])

theorem recorded_zeroed : Recorded dirSlots Dir.fd zeroed.dirs fun _ => ([], []) :=
  fun _ _ h => absurd h (by simp [zeroed, dirSlots])

/-- The file `hdap0/x` is the second one that is opened, and is not removed. -/
theorem removesRightly_second : ∃ w records, ((mounted 1).vfsFileOpen (pathInFirst ++ [0x79#8]) 0
      0).bind (fun r => r.2.vfsFileOpen pathInFirst 0 0) = some (1, w) ∧
    Recorded fileSlots id w.files records ∧ records 1 = ([0x2f#8, 0x78#8], hdap0) ∧
    w.RemovesRightly zeroed.dirs (fun _ _ => true) pathInFirst
      (OpenedFor fileSlots w.files records [0x2f#8, 0x78#8] hdap0 ∨
        OpenedFor dirSlots zeroed.dirs (fun _ => ([], [])) [0x2f#8, 0x78#8] hdap0) := by
  have hfirst := (recorded_mounted 1).get (by decide) (fun _ => rfl) (by decide) (by decide)
    (show getFd (mounted 1).files [0x2f#8, 0x78#8, 0x79#8] hdap0 0 0 = some (((0 : ℕ) : ℤ), _)
      from rfl)
  have hrecorded := hfirst.get (by decide) (fun _ => rfl) (by decide) (by decide)
    (show getFd _ [0x2f#8, 0x78#8] hdap0 0 0 = some (((1 : ℕ) : ℤ), _) from rfl)
  refine ⟨_, _, rfl, hrecorded, rfl, (removesRightly_iff (m := ⟨hdap0, .ext2⟩)
    (show getMountFromPath _ pathInFirst = some (0, [0x2f#8, 0x78#8]) from rfl) rfl hrecorded
    recorded_zeroed).2 fun _ => .file (.inl ⟨1, by decide, rfl, rfl⟩) ⟨1, by decide, rfl, rfl⟩ ?_⟩
  exact fun h => absurd h.2.2 (by decide)

/-- The file `hdap0/x` is the first one that is opened, and is removed. -/
theorem not_removesRightly_first : ∃ w, (mounted 1).vfsFileOpen pathInFirst 0 0 = some (0, w) ∧
    Recorded fileSlots id w.files (Function.update (fun _ => ([], [])) 0
      ([0x2f#8, 0x78#8], hdap0)) ∧
    (w.vfsRemove zeroed.dirs (fun _ _ => true) pathInFirst 0).1 = .removed := by
  have hfirst : getFd (mounted 1).files [0x2f#8, 0x78#8] hdap0 0 0 = some (((0 : ℕ) : ℤ), _) := rfl
  refine ⟨_, rfl, (recorded_mounted 1).get (by decide) (fun _ => rfl) (by decide)
    (by decide) hfirst, ?_⟩
  decide +kernel

end Vfs

end Bloodmoon
