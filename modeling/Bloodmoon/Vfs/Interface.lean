import Bloodmoon.Vfs.Model

/-!
# Mounts and paths

The model of the mount table in `vfs.c` and of how the functions of `vfs_interface.c` choose a
mount. Names of devices are those that `device_create` makes. Which file system takes a partition is
what `mount_fs` finds on the disk, and is an argument here. Each file system keeps a name of its
own, of at most 31 characters, for what it has mounted, and writes that name to the descriptors.
-/

namespace Bloodmoon

open Machine

/-- `device_identifiers`; the gaps of the array are null. -/
def deviceIdentifiers : ℕ → Option Text
  | 0x8 => some [0x68#8, 0x64#8]
  | 0x9 => some [0x63#8, 0x64#8]
  | 0xa => some [0x73#8, 0x65#8, 0x6d#8, 0x62#8]
  | 0xb => some [0x70#8, 0x6d#8]
  | 0xc => some [0x73#8, 0x64#8]
  | 0xe => some [0x74#8, 0x74#8, 0x79#8]
  | 0x10 => some [0x6d#8, 0x6f#8, 0x75#8, 0x73#8, 0x65#8]
  | 0x11 => some [0x6e#8, 0x65#8, 0x74#8]
  | 0x12 => some [0x66#8, 0x62#8]
  | 0x8d => some [0x73#8, 0x65#8, 0x72#8, 0x69#8, 0x61#8, 0x6c#8]
  | 0x8e => some [0x66#8, 0x69#8, 0x66#8, 0x6f#8]
  | 0x8f => some [0x6b#8, 0x62#8, 0x64#8]
  | major => if major ≤ 0x13 then some [0x6e#8, 0x6f#8, 0x6e#8, 0x65#8] else none

/-- The name that `device_create` makes, with the format `%s%x`; the minor number is of type
`uint8_t`. -/
def deviceName (major minor : ℕ) : Option Text :=
  (deviceIdentifiers major).map (· ++ numeral 16 (minor % 256 + 0xa))

/-- A partition number in the format `%d`. -/
def partitionNumeral (index : ℕ) : Text :=
  if index % 2 ^ 32 < 2 ^ 31 then numeral 10 (index % 2 ^ 32)
  else 0x2d#8 :: numeral 10 (2 ^ 32 - index % 2 ^ 32)

/-- The mount point of a partition, with the format `%sp%d` and room for 48 characters. -/
def mountpoint (device : Text) (index : ℕ) : Text :=
  (device ++ 0x70#8 :: partitionNumeral index).take 47

/-- The file systems that are registered. -/
inductive FsType where
  | fat32
  | ext2
  | tty
  | fifo
  deriving DecidableEq

/-- `struct vfs_mount`: the name of the partition and the file system. -/
structure Mount where
  name : Text
  fs : FsType

/-- The name that the file system keeps, in an array of 32 characters. -/
def Mount.ownName (m : Mount) : Text := m.name.take 31

/-- `struct vfs_devmap`. -/
structure DevMap where
  dev : Text
  partitionNo : ℕ

/-- `detect_partition_fs`: the mounts that are added, in the order of devices and partitions. -/
def detectPartitionFs (vfsRoot : List DevMap) (mountFs : DevMap → ℕ → Option FsType) : List Mount :=
  vfsRoot.flatMap fun d =>
    (List.range d.partitionNo).filterMap fun index =>
      (mountFs d index).map fun fs => ⟨mountpoint d.dev index, fs⟩

/-- The mount list, the current root and the open files. -/
structure Vfs where
  mounts : List Mount
  currentRoot : Option ℕ
  files : Slots FileDescriptorEntry

namespace Vfs

/-- The loop of `get_mount_from_path`. -/
def findMount (v : Vfs) (path : Text) : Option ℕ :=
  v.mounts.findIdx? fun m => strncmp m.name path m.name.length = 0

/-- `get_mount_from_path`: the mount, and the path in it. -/
def getMountFromPath (v : Vfs) (path : Text) : Option (ℕ × Text) :=
  if path.head? = some 0x2f#8 ∧ v.currentRoot.isSome then
    v.currentRoot.map fun root => (root, path.take strMaxSize)
  else
    (v.findMount path).bind fun i =>
      v.mounts[i]?.map fun m => (i, (path.take strMaxSize).drop m.name.length)

/-- `get_full_path_from_fd` for a descriptor of the table. -/
def getFullPathFromFd (v : Vfs) (fd : ℕ) : Text := (v.files.slot fd).mount ++ (v.files.slot fd).name

/-- The mount that `vfs_file_read`, `vfs_file_write`, `vfs_file_seek`, `vfs_file_tell` and
`vfs_file_close` choose for a descriptor; they all begin in the same way. -/
def fdMount (v : Vfs) (fd : ℕ) : Option ℕ :=
  (v.getMountFromPath (v.getFullPathFromFd fd)).map Prod.fst

end Vfs

/-- The functions `file_open` of the file systems. -/
def Mount.fileOpen (m : Mount) (t : Slots FileDescriptorEntry) (path : Text) (flags mode : ℕ) :
    Option (ℤ × Slots FileDescriptorEntry) :=
  match m.fs with
  | .fat32 => some (-1, t)
  | .ext2 => getFd t path m.ownName flags mode
  | .tty => if path = [0x2f#8] then getFd t path m.ownName flags mode else some (-1, t)
  | .fifo => if path = [0x2f#8] then getFd t path m.ownName flags mode else some (-1, t)

namespace Vfs

/-- `vfs_file_open`. -/
def vfsFileOpen (v : Vfs) (path : Text) (flags mode : ℕ) : Option (ℤ × Vfs) :=
  match v.getMountFromPath path with
  | none => some (-1, v)
  | some (i, native) =>
    match v.mounts[i]? with
    | none => some (-1, v)
    | some m => (m.fileOpen v.files native flags mode).map fun r => (r.1, { v with files := r.2 })

end Vfs

end Bloodmoon
