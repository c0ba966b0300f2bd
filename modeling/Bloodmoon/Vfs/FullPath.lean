import Bloodmoon.Vfs.Descriptors

/-!
# The path of a descriptor

A descriptor keeps the path and the mount in two arrays, and `get_full_path_from_fdentry` puts the
two strings together again. A path of 256 characters is accepted and fills its array: its terminator
goes to the first byte of the mount, where the copy of the mount then writes, so that the path runs
on into the mount.
-/

namespace Bloodmoon

open Machine Relation

namespace FileDescriptorEntry

variable {path mount : Text} {flags mode : ℕ} {e : FileDescriptorEntry}

theorem mount_fill (hmount : 0#8 ∉ mount) (hlen : mount.length ≤ 256) :
    (fill path mount flags mode e).mount = mount :=
  loadString_storeString hmount (Nat.le_trans hlen (by decide))

/-- A path that fills its array runs into the mount. -/
theorem name_fill (hpath : 0#8 ∉ path) (hlen : path.length ≤ 256) (hmount : 0#8 ∉ mount)
    (hmountLen : mount.length ≤ 256) : (fill path mount flags mode e).name =
      if path.length < 256 then path else path ++ mount := by
  have hbelow : ∀ x < 256, (fill path mount flags mode e).text x =
      storeString (storeLE e.text 512 4 flags) 0 path x := fun x hx =>
    storeString_apply_of_outside (.inl hx)
  have hchars : ∀ i (hi : i < path.length),
      (fill path mount flags mode e).text (0 + i) = path.get ⟨i, hi⟩ := fun i hi => by
    rw [hbelow _ (by omega), storeString_apply_of_lt hi]
  split_ifs with hshort
  · refine loadString_eq hpath hchars ?_ (Nat.le_trans hlen (by decide))
    rw [hbelow _ (by omega), storeString_apply_length]
  · have heq : path.length = 256 := Nat.le_antisymm hlen (Nat.not_lt.1 hshort)
    have happend := loadString_append (n := 65280) hpath hchars
    rwa [heq, show loadString (fill path mount flags mode e).text (0 + 256) 65280 = mount from
      loadString_storeString hmount (Nat.le_trans hmountLen (by decide))] at happend

/-- `get_full_path_from_fdentry`. -/
def getFullPathFromFdentry (e : FileDescriptorEntry) : Text := e.mount ++ e.name

end FileDescriptorEntry

open FileDescriptorEntry

section Tables

variable {E : Type} {K : SlotKind E} {entry : E → FileDescriptorEntry} {fd : ℕ} {t u : Slots E}

/-- A call that does not hand out the slot `fd` again: another slot is handed out, one is given
back, or something is written to an entry behind its strings. -/
inductive Later (K : SlotKind E) (entry : E → FileDescriptorEntry) (fd : ℕ) (t : Slots E) :
    Slots E → Prop
  | get {fill : E → E} {path mount : Text} {r : ℤ} {u : Slots E}
      (hget : t.get K fill path mount = some (r, u)) (hr : r ≠ fd) : Later K entry fd t u
  | release {i r : ℤ} {u : Slots E} (hrelease : t.release K i = some (r, u)) : Later K entry fd t u
  | write (i : ℕ) {e : E} (htext : (entry e).text = (entry (t.slot i)).text) :
      Later K entry fd t { t with slot := Function.update t.slot i e }

/-- The path of the descriptor is the mount and the path, until the slot is handed out again. -/
def KeepsFullPath (K : SlotKind E) (entry : E → FileDescriptorEntry) (fd : ℕ) (path mount : Text)
    (t : Slots E) : Prop :=
  ∀ u, ReflTransGen (Later K entry fd) t u →
    getFullPathFromFdentry (entry (u.slot fd)) = mount ++ path

/-- A call on another slot, or one that only marks a slot as free, keeps the strings. -/
theorem Later.text_eq (hunload : ∀ e, (entry (K.unload e)).text = (entry e).text)
    (hsize : 0 < K.size) (h : Later K entry fd t u) :
    (entry (u.slot fd)).text = (entry (t.slot fd)).text := by
  have hwrite : ∀ i e, (entry e).text = (entry (t.slot i)).text →
      (entry (Function.update t.slot i e fd)).text = (entry (t.slot fd)).text := by
    intro i e htext
    by_cases hi : fd = i
    · rw [hi, Function.update_self, htext]
    · rw [Function.update_of_ne hi]
  cases h with
  | get hget hr =>
    rcases Slots.get_cases hsize hget with ⟨-, c, rfl, -⟩ | ⟨i, -, rfl, -, -, rfl⟩
    · rfl
    · exact congrArg (fun e => (entry e).text)
        (Function.update_of_ne (fun hfd => hr (congrArg _ hfd.symm)) _ _)
  | release hrelease =>
    rw [Slots.release] at hrelease
    split_ifs at hrelease <;> cases hrelease
    · rfl
    · exact hwrite _ _ (hunload _)
  | write i htext => exact hwrite i _ htext

/-- The two strings are read back if the terminator of the path stays. -/
theorem keepsFullPath_iff (hunload : ∀ e, (entry (K.unload e)).text = (entry e).text)
    (hsize : 0 < K.size) {fill : E → E} {path mount : Text} {flags mode : ℕ}
    (hfill : ∀ e, entry (fill e) = (entry e).fill path mount flags mode)
    (hpath : 0#8 ∉ path) (hmount : 0#8 ∉ mount)
    (hget : t.get K fill path mount = some ((fd : ℤ), u)) :
    KeepsFullPath K entry fd path mount u ↔ path.length < 256 ∨ mount = [] := by
  rcases Slots.get_cases hsize hget with ⟨hr, -⟩ | ⟨i, -, hi, hlong, -, rfl⟩
  · exact absurd hr (by omega)
  obtain rfl : fd = i := Int.ofNat_inj.1 hi
  obtain ⟨hlen, hmountLen⟩ := not_or.1 hlong
  have hself : Function.update t.slot fd (fill (t.slot fd)) fd = fill (t.slot fd) :=
    Function.update_self _ _ _
  have hnow : getFullPathFromFdentry (entry (fill (t.slot fd))) =
      mount ++ if path.length < 256 then path else path ++ mount := by
    rw [getFullPathFromFdentry, hfill, mount_fill hmount (Nat.not_lt.1 hmountLen),
      name_fill hpath (Nat.not_lt.1 hlen) hmount (Nat.not_lt.1 hmountLen)]
  constructor
  · intro hkeeps
    have hfirst := (congrArg (fun e => getFullPathFromFdentry (entry e)) hself).symm.trans
      (hkeeps _ .refl)
    rw [hnow] at hfirst
    refine or_iff_not_imp_left.2 fun hfull => ?_
    rw [if_neg hfull] at hfirst
    exact List.append_right_eq_self.1 (List.append_cancel_left hfirst)
  · intro hfits w hrun
    have htext : (entry (w.slot fd)).text = (entry (fill (t.slot fd))).text := by
      induction hrun with
      | refl => exact congrArg (fun e => (entry e).text) hself
      | tail _ hlast ih => exact (hlast.text_eq hunload hsize).trans ih
    refine Eq.trans (?_ : _ = getFullPathFromFdentry (entry (fill (t.slot fd)))) (hnow.trans ?_)
    · rw [getFullPathFromFdentry, getFullPathFromFdentry, FileDescriptorEntry.mount,
        FileDescriptorEntry.name, htext]
      rfl
    · rcases hfits with hshort | rfl
      · rw [if_pos hshort]
      · split_ifs
        · rfl
        · rw [List.append_nil]

end Tables

/-- **The path of a descriptor is what it was opened for** exactly when the path leaves room for its
terminator or there is nothing in the mount that could overwrite it. -/
theorem fullPath_iff {path mount : Text} (hpath : 0#8 ∉ path) (hmount : 0#8 ∉ mount)
    (flags mode fd : ℕ) :
    (∀ t u, getFd t path mount flags mode = some ((fd : ℤ), u) →
        (KeepsFullPath fileSlots id fd path mount u ↔ path.length < 256 ∨ mount = [])) ∧
      ∀ t u, getDirfd t path mount flags mode = some ((fd : ℤ), u) →
        (KeepsFullPath dirSlots Dir.fd fd path mount u ↔ path.length < 256 ∨ mount = []) :=
  ⟨fun _ _ hget => keepsFullPath_iff (fun _ => rfl) (by decide) (fun _ => rfl) hpath hmount hget,
    fun _ _ hget => keepsFullPath_iff (fun _ => rfl) (by decide) (fun _ => rfl) hpath hmount hget⟩

/-- The first file that is opened, `/a` on `hda`. -/
theorem fullPath_zeroed : ∃ u, getFd Descriptors.zeroed.files [0x2f#8, 0x61#8]
      [0x68#8, 0x64#8, 0x61#8] 0 0 = some (0, u) ∧
    KeepsFullPath fileSlots id 0 [0x2f#8, 0x61#8] [0x68#8, 0x64#8, 0x61#8] u := by
  have hget : getFd Descriptors.zeroed.files [0x2f#8, 0x61#8] [0x68#8, 0x64#8, 0x61#8] 0 0 = _ :=
    Slots.get_of_free (by decide) (by decide) rfl
  exact ⟨_, hget, ((fullPath_iff (by decide) (by decide) 0 0 0).1 _ _ hget).2 (.inl (by decide))⟩

/-- A path of 256 characters on `hda` is accepted, and the mount appears behind it once more. -/
theorem not_fullPath_zeroed : ∃ u, getFd Descriptors.zeroed.files (List.replicate 256 0x61#8)
      [0x68#8, 0x64#8, 0x61#8] 0 0 = some (0, u) ∧
    getFullPathFromFdentry (u.slot 0) = [0x68#8, 0x64#8, 0x61#8] ++
      (List.replicate 256 0x61#8 ++ [0x68#8, 0x64#8, 0x61#8]) := by
  have hget : getFd Descriptors.zeroed.files (List.replicate 256 0x61#8) [0x68#8, 0x64#8, 0x61#8]
      0 0 = _ :=
    Slots.get_of_free (by decide +kernel) (by decide) rfl
  refine ⟨_, hget, ?_⟩
  change getFullPathFromFdentry (fill _ _ 0 0 _) = _
  rw [getFullPathFromFdentry, mount_fill (by decide) (by decide),
    name_fill (by decide +kernel) (by decide +kernel) (by decide) (by decide),
    if_neg (by decide +kernel)]

end Bloodmoon
