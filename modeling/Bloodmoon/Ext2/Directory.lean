import Bloodmoon.Ext2.Lookup
import Bloodmoon.Machine.Records

/-!
# Directories

The model of `ext2_dentry.c` with `ext2_path_to_parent_and_name`. A directory is read to a buffer as
a whole, the records in it are looked at one after the other, and what has been changed is written
back as a whole. `EXT2_NAME_LEN` is the length of the array for the name, so that a record without a
name has eight bytes.

There is no value where the code reads or writes outside a buffer or does not end. The heap returns
no memory for zero bytes.
-/

namespace Bloodmoon

open Machine

/-! ### Names -/

/-- The index of the last slash of a path, 0 when there is none. -/
def lastSlash (source : Text) : ℕ :=
  source.zipIdx.foldl (fun last c => if c.1 = 0x2f#8 then c.2 else last) 0

/-- `ext2_path_to_parent_and_name`: the path of the parent and the name, nothing when the path is
empty. `strlen` counts no further than `STR_MAX_SIZE`; of a path that is longer, the name is copied
without its end, so that there is no name. The copy of a name behind the first character is one
character longer than it has to be, and still has its end when the path is one too long. -/
def pathToParentAndName (source : Text) : Option (Text × Option Text) :=
  let path := source.take strMaxSize
  if path.length = 0 then none
  else if lastSlash path = 0 then
    some ([0x2f#8], if source.length ≤ strMaxSize + 1 then some (source.drop 1) else none)
  else
    some (path.take (lastSlash path),
      if source.length ≤ strMaxSize then some (source.drop (lastSlash path + 1)) else none)

/-! ### Records -/

/-- `(x + 3) & ~3`. -/
def align4 (x : ℕ) : ℕ := wrap32 (x + 3) / 4 * 4

/-- The size of a record with a name: `sizeof(struct ext2_directory_entry) + name_len -
EXT2_NAME_LEN`. -/
def entrySize (nameLen : ℕ) : ℕ := 263 + nameLen - 255

/-- The header of a record as a structure of its own. -/
def entryHeader (inode recLen nameLen fileType : ℕ) : Bytes :=
  let entry := directoryEntry.set (fun _ => 0) 0 .inode inode
  let entry := directoryEntry.set entry 0 .recLen recLen
  let entry := directoryEntry.set entry 0 .nameLen nameLen
  directoryEntry.set entry 0 .fileType fileType

/-- The bytes of a name. -/
def nameBytes (name : Text) : Bytes := fun i => name.getD i 0

/-- What `parsed_bytes` is after a record. -/
def nextEntry (buffer : Bytes) (parsedBytes : ℕ) : ℕ :=
  wrap32 (parsedBytes + recLen buffer parsedBytes)

/-- An entry as it is returned from a directory. -/
structure LiveEntry where
  inode : ℕ
  name : Text
  fileType : ℕ
  deriving DecidableEq

/-- The entry at a position. -/
def liveEntry (buffer : Bytes) (p : ℕ) : LiveEntry :=
  ⟨entryInode buffer p, entryName buffer p, directoryEntry.get buffer p .fileType⟩

/-- A round of the loop of `ext2_get_all_dirs`. -/
def addLive (buffer : Bytes) (entries : List LiveEntry) (p : ℕ) : List LiveEntry :=
  if entryInode buffer p ≠ 0 then entries ++ [liveEntry buffer p] else entries

/-! ### Adding an entry -/

/-- The loop of `ext2_create_directory_entry`: the last record, and where it ends. The buffer has
just the bytes of the directory. -/
def lastEntry (buffer : Bytes) (size : ℕ) : ℕ → ℕ → Option ℕ → Option (Option ℕ × ℕ)
  | 0, _, _ => none
  | fuel + 1, parsedBytes, entry =>
    if parsedBytes < size then
      if size < parsedBytes + 6 then none
      else lastEntry buffer size fuel (nextEntry buffer parsedBytes) (some parsedBytes)
    else some (entry, parsedBytes)

/-- The buffer after the record at `entry` has been split at `entrySizeAligned`, and the new entry
has been stored in the rest. -/
def splitEntry (buffer : Bytes) (entry start entrySizeAligned childInode type : ℕ) (name : Text) :
    Bytes :=
  let originalRecLen := recLen buffer entry
  let size := entrySize (nameLen buffer entry)
  let buffer := directoryEntry.set buffer entry .recLen entrySizeAligned
  let buffer := blit buffer start buffer entry size
  let buffer := blit buffer (start + entrySizeAligned)
    (entryHeader childInode (originalRecLen - entrySizeAligned) name.length type) 0 8
  blit buffer (start + entrySizeAligned + 8) (nameBytes name) 0 (name.length % 256)

/-- `ext2_create_directory_entry` on the buffer with the directory: the new content, nothing inside
when there is no room. -/
def insertEntry (buffer : Bytes) (size childInode : ℕ) (name : Text) (type : ℕ) :
    Option (Option Bytes) :=
  (lastEntry buffer size (2 ^ 32) 0 none).bind fun
    | (none, _) => some none
    | (some entry, parsedBytes) =>
      if size < entry + 7 then none
      else
        let originalRecLen := recLen buffer entry
        let aligned := align4 (entrySize (nameLen buffer entry))
        if originalRecLen < aligned + align4 (entrySize (name.length % 256)) then some none
        else if parsedBytes < originalRecLen ∨
            size < parsedBytes - originalRecLen + aligned + 8 + name.length % 256 then none
        else some (some (splitEntry buffer entry (parsedBytes - originalRecLen) aligned childInode
          type name))

/-! ### Removing an entry -/

/-- The loop of `ext2_delete_dentry`: the record before the one with the inode, if there is one, and
that record. -/
def findEntry (buffer : Bytes) (size target : ℕ) : ℕ → ℕ → Option ℕ → Option (Option (Option ℕ × ℕ))
  | 0, _, _ => none
  | fuel + 1, parsedBytes, previous =>
    if parsedBytes < size then
      if entryInode buffer parsedBytes = target then some (some (previous, parsedBytes))
      else findEntry buffer size target fuel (nextEntry buffer parsedBytes) (some parsedBytes)
    else some none

/-- The buffer after the record at `entry` has been cleared, and its length added to the record
before it. -/
def clearEntry (buffer : Bytes) (previous : Option ℕ) (entry : ℕ) : Bytes :=
  let buffer := directoryEntry.set buffer entry .inode 0
  let buffer := directoryEntry.set buffer entry .nameLen 0
  let buffer := directoryEntry.set buffer entry .fileType 0
  let buffer := storeLE buffer (entry + 8) 1 0
  let buffer := match previous with
    | none => buffer
    | some p => directoryEntry.set buffer p .recLen
        (recLen buffer p + recLen buffer entry)
  directoryEntry.set buffer entry .recLen 0

namespace Volume

variable (v : Volume)

/-! ### The calls -/

/-- `ext2_create_directory_entry`. -/
def createDirectoryEntry (inodeNumber childInode : ℕ) (name : Text) (type : ℕ) :
    Option (Volume × ℕ) :=
  match v.readInode inodeNumber with
  | none => some (v, 1)
  | some rootInode =>
    let size := iSize rootInode
    if IsDir rootInode then
      if size = 0 then some (v, 1)
      else
        let r := v.readInodeBytes inodeNumber v.fresh size 0
        if r.2 = readFailed then some (v, 1)
        else
          (insertEntry r.1 size childInode name type).bind fun
            | none => some (v, 1)
            | some buffer => (v.writeInodeBytes inodeNumber buffer size 0).map fun w =>
              (w.1, if w.2 = writeFailed then 1 else 0)
    else some (v, 1)

/-- `ext2_initialize_directory`. -/
def initializeDirectory (inodeNumber parentInodeNumber : ℕ) : Option (Volume × ℕ) :=
  match v.readInode inodeNumber with
  | none => some (v, 1)
  | some rootInode =>
    let size := iSize rootInode
    let recLen := align4 (entrySize 1)
    let first := blit (entryHeader inodeNumber recLen 1 2) 8 (nameBytes [0x2e#8]) 0 255
    let second := blit (entryHeader parentInodeNumber (1024 - recLen) 2 2) 8
      (nameBytes [0x2e#8, 0x2e#8]) 0 255
    let r := v.readInodeBytes inodeNumber (fun _ => 0) size 0
    -- the buffer has one block
    if v.blockSize < size then none
    else if r.2 = readFailed then some (v, 1)
    else
      let buffer := blit r.1 0 first 0 (entrySize 1)
      let buffer := blit buffer recLen second 0 (entrySize 2)
      (v.writeInodeBytes inodeNumber buffer size 0).map fun w =>
        (w.1, if w.2 = writeFailed then 1 else 0)

/-- `ext2_get_all_dirs`: the entries that are returned. -/
def getAllDirs (parentPath : Text) : Option (List LiveEntry) :=
  (v.pathToInode parentPath).bind fun inodeNumber =>
    if inodeNumber = 0 then some []
    else
      match v.readInode inodeNumber with
      | none => some []
      | some rootInode =>
        let size := iSize rootInode
        if IsDir rootInode then
          if wrap32 (size + v.blockSize) = 0 then some []
          else if wrap32 (size + v.blockSize) < size then none
          else
            let r := v.readInodeBytes inodeNumber v.fresh size 0
            if r.2 = readFailed then some []
            else
              (walkRecords (nextEntry r.1) size (addLive r.1) (2 ^ 32) 0 []).map Prod.snd
        else some []

/-- `ext2_delete_dentry`. -/
def deleteDentry (path : Text) : Option (Volume × ℕ) :=
  match pathToParentAndName path with
  | none => some (v, 1)
  | some (parentPath, _) =>
    (v.pathToInode parentPath).bind fun parentInodeNumber =>
      if parentInodeNumber = 0 then some (v, 1)
      else
        match v.readInode parentInodeNumber with
        | none => some (v, 1)
        | some parentInode =>
          (v.pathToInode path).bind fun target =>
            let size := iSize parentInode
            if target = 0 then some (v, 1)
            else if IsDir parentInode then
              if wrap32 (size + v.blockSize) = 0 then some (v, 1)
              else if wrap32 (size + v.blockSize) < size then none
              else
                let r := v.readInodeBytes parentInodeNumber v.fresh size 0
                if r.2 = readFailed then some (v, 1)
                else
                  (findEntry r.1 size target (2 ^ 32) 0 none).bind fun
                    | none => some (v, 1)
                    | some (previous, entry) =>
                      (v.writeInodeBytes parentInodeNumber (clearEntry r.1 previous entry) size
                        0).map fun w => (w.1, if w.2 = writeFailed then 1 else 0)
            else some (v, 1)

end Volume

end Bloodmoon
