import Bloodmoon.Machine.CString

/-!
# The file descriptors of the virtual file system

The model of the two tables in `vfs_compat.c`. The functions for files and the functions for
directories differ in the table and in what they write to a slot, which `SlotKind` and the argument
`fill` stand for.

The first bytes of an entry are kept as memory, with the name at 0, the mount at 256 and the flags
at 512, since `get_fd` accepts names that fill their arrays and writes the terminator behind them.
-/

namespace Bloodmoon

open Machine

/-- `VFS_FDE_NAME_MAX_LEN`. -/
def vfsFdeNameMaxLen : ℕ := 256

/-- `STR_MAX_SIZE`, the largest length that `strlen` returns. -/
def strMaxSize : ℕ := 65536

/-- `struct file_descriptor_entry`. -/
structure FileDescriptorEntry where
  text : Bytes
  mode : ℕ
  offset : ℕ
  loaded : Bool

namespace FileDescriptorEntry

/-- The string in the field `name`. -/
def name (e : FileDescriptorEntry) : Text := loadString e.text 0 strMaxSize

/-- The string in the field `mount`. -/
def mount (e : FileDescriptorEntry) : Text := loadString e.text vfsFdeNameMaxLen strMaxSize

/-- What `get_fd` writes to the slot that it takes. -/
def fill (path mount : Text) (flags mode : ℕ) (e : FileDescriptorEntry) : FileDescriptorEntry where
  text := storeString (storeString (storeLE e.text 512 4 flags) 0 path) vfsFdeNameMaxLen mount
  mode := mode
  offset := 0
  loaded := true

end FileDescriptorEntry

/-- `struct dir`. -/
structure Dir where
  fd : FileDescriptorEntry
  number : ℕ
  index : ℕ

/-- What `get_dirfd` writes to the slot that it takes. -/
def Dir.fill (path mount : Text) (flags mode : ℕ) (d : Dir) : Dir where
  fd := d.fd.fill path mount flags mode
  number := 0
  index := 0

/-- A kind of table: its size, and how its slots are marked as open. -/
structure SlotKind (E : Type) where
  size : ℕ
  loaded : E → Bool
  unload : E → E

/-- `open_file_table`. -/
def fileSlots : SlotKind FileDescriptorEntry where
  size := 65536
  loaded := (·.loaded)
  unload e := { e with loaded := false }

/-- `open_directory_table`. -/
def dirSlots : SlotKind Dir where
  size := 4096
  loaded := (·.fd.loaded)
  unload d := { d with fd := { d.fd with loaded := false } }

/-- A table of descriptors, with the static variable at which the search for a free slot starts. -/
structure Slots (E : Type) where
  slot : ℕ → E
  cursor : ℕ

namespace Slots

variable {E : Type}

/-- The loop of `get_fd` and `get_dirfd`; there is no value if a slot outside the table is used. -/
def search (K : SlotKind E) (fill : E → E) : ℕ → Slots E → Option (ℤ × Slots E)
  | 0, t => some (-1, t)
  | k + 1, t =>
    if K.size ≤ t.cursor then none
    else if K.loaded (t.slot t.cursor) = false then
      some (t.cursor, ⟨Function.update t.slot t.cursor (fill (t.slot t.cursor)), t.cursor + 1⟩)
    else search K fill k { t with cursor := if K.size ≤ t.cursor + 1 then 0 else t.cursor + 1 }

/-- A descriptor for a path and a mount. -/
def get (K : SlotKind E) (fill : E → E) (path mount : Text) (t : Slots E) : Option (ℤ × Slots E) :=
  if vfsFdeNameMaxLen < path.length then some (-1, t)
  else if vfsFdeNameMaxLen < mount.length then some (-1, t)
  else t.search K fill K.size

/-- The descriptor is given back. -/
def release (K : SlotKind E) (fd : ℤ) (t : Slots E) : Option (ℤ × Slots E) :=
  if K.size ≤ fd then some (-1, t)
  else if fd < 0 then none
  else some (0, { t with slot := Function.update t.slot fd.toNat (K.unload (t.slot fd.toNat)) })

end Slots

/-- `get_fd`. -/
def getFd (t : Slots FileDescriptorEntry) (path mount : Text) (flags mode : ℕ) :
    Option (ℤ × Slots FileDescriptorEntry) :=
  t.get fileSlots (.fill path mount flags mode) path mount

/-- `release_fd`. -/
def releaseFd (t : Slots FileDescriptorEntry) (fd : ℤ) : Option (ℤ × Slots FileDescriptorEntry) :=
  t.release fileSlots fd

/-- The table after a write to the field `offset` of an entry. -/
def Slots.setOffset (t : Slots FileDescriptorEntry) (fd offset : ℕ) : Slots FileDescriptorEntry :=
  { t with slot := Function.update t.slot fd { t.slot fd with offset := offset } }

/-- `get_dirfd`. -/
def getDirfd (t : Slots Dir) (path mount : Text) (flags mode : ℕ) : Option (ℤ × Slots Dir) :=
  t.get dirSlots (.fill path mount flags mode) path mount

/-- `release_dirfd`. -/
def releaseDirfd (t : Slots Dir) (fd : ℤ) : Option (ℤ × Slots Dir) := t.release dirSlots fd

end Bloodmoon
