import Bloodmoon.Ext2.Directory
import Bloodmoon.Ext2.Resize

/-!
# Files

The model of the calls of `ext2.c` on files: `ext2_create_file`, `ext2_write_file` and
`ext2_delete_file`, with `ext2_initialize_inode` and `ext2_delete_file_blocks`. The time and the
counter of `ext2_get_unique_id` are arguments. Users and groups are always 0. What
`ext2_list_directory` prints is left out.

There is no value where the behaviour is undefined. That is so when a null pointer is followed: the
callers of `ext2_read_inode` and `ext2_initialize_inode` do not look at what these return.
-/

namespace Bloodmoon

open Machine

/-- `EXT2_FILE_TYPE_REGULAR`. -/
def fileTypeRegular : ℕ := 1

/-- `EXT2_FILE_TYPE_DIRECTORY`. -/
def fileTypeDirectory : ℕ := 2

/-- `file_type_translator`: the types of entries and of inodes. -/
def fileTypeTranslator : List (ℕ × ℕ) :=
  [(0, 0), (1, 0x8000), (2, 0x4000), (3, 0x2000), (4, 0x6000), (5, 0x1000),
    (6, 0xC000), (7, 0xA000)]

/-- `ext2_get_unique_id`, from the value of the counter. -/
def getUniqueId (uniqueId : ℕ) : ℕ := if uniqueId = 0xFFFFFFFF then 0x00CAFE00 else uniqueId + 1

/-- The fields of an inode that is initialized. -/
def newInode (inode : Bytes) (type permissions epoch uniqueValue : ℕ) : Bytes :=
  let inode := inodeDescriptor.set inode 0 .mode (type ||| permissions)
  let inode := inodeDescriptor.set inode 0 .uid 0
  let inode := inodeDescriptor.set inode 0 .size 0
  let inode := inodeDescriptor.set inode 0 .atime epoch
  let inode := inodeDescriptor.set inode 0 .ctime epoch
  let inode := inodeDescriptor.set inode 0 .mtime epoch
  let inode := inodeDescriptor.set inode 0 .dtime 0
  let inode := inodeDescriptor.set inode 0 .gid 0
  let inode := inodeDescriptor.set inode 0 .linksCount 1
  let inode := inodeDescriptor.set inode 0 .sectors 0
  let inode := inodeDescriptor.set inode 0 .flags 0
  let inode := inodeDescriptor.set inode 0 .osd1 0
  let inode := blit inode 40 (fun _ => 0) 0 60
  let inode := inodeDescriptor.set inode 0 .generation uniqueValue
  let inode := inodeDescriptor.set inode 0 .fileAcl 0
  let inode := inodeDescriptor.set inode 0 .dirAcl 0
  inodeDescriptor.set inode 0 .faddr 0

namespace Volume

variable (v : Volume)

/-! ### Creating -/

/-- `ext2_initialize_inode`: the inode, or the null pointer. -/
def initializeInode (epoch uniqueId inodeNumber type permissions : ℕ) : Option Bytes :=
  (v.readInode inodeNumber).bind fun inode =>
    if getUniqueId uniqueId = 0 then none
    else some (newInode inode type permissions epoch (getUniqueId uniqueId))

/-- `ext2_list_dentry`, which prints the first records of a directory. -/
def listDentry (path : Text) : Option Unit :=
  (v.pathToInode path).bind fun inodeNumber =>
    if inodeNumber = 0 then some ()
    else
      match v.readInode inodeNumber with
      | none => some ()
      | some rootInode =>
        let size := iSize rootInode
        if IsDir rootInode ∧
            wrap32 (size + v.blockSize) ≠ 0 ∧ wrap32 (size + v.blockSize) < size then none
        else some ()

/-- The part of `ext2_create_file` for directories: the new directory gets a block with its first
two entries. -/
def makeDirectory (inodeNumber parentInodeNumber : ℕ) : Option (Volume × ℕ) :=
  (v.resizeFile inodeNumber v.blockSize).bind fun r =>
    if r.2 ≠ ext2ResultOk then some (r.1, 1)
    else r.1.flushPartition.initializeDirectory inodeNumber parentInodeNumber

/-- `ext2_create_file`. -/
def createFile (epoch uniqueId : ℕ) (path : Text) (type permissions : ℕ) :
    Option (Volume × ℕ) :=
  fileTypeTranslator[type]?.bind fun (dentryType, inodeType) =>
    match pathToParentAndName path with
    | none => some (v, ext2ResultError)
    | some (parentPath, name) =>
      (v.pathToInode parentPath).bind fun parentInodeIndex =>
        if parentInodeIndex = 0 then some (v, ext2ResultError)
        else
          (v.readInode parentInodeIndex).bind fun parentInode =>
            if inodeDescriptor.get parentInode 0 .mode &&& inodeTypeDir = 0 then
              some (v, ext2ResultError)
            else
              let a := v.allocateInode
              if a.2 = 0 then some (a.1, ext2ResultError)
              else
                (a.1.initializeInode epoch uniqueId a.2 inodeType permissions).bind fun inode =>
                  match a.1.writeInode a.2 inode with
                  | none => some (a.1, ext2ResultError)
                  | some w =>
                    (if type = fileTypeDirectory then w.makeDirectory a.2 parentInodeIndex
                      else some (w, 0)).bind fun d =>
                        if d.2 ≠ 0 then some (d.1, ext2ResultError)
                        else
                          (name.bind fun name =>
                            d.1.createDirectoryEntry parentInodeIndex a.2 name dentryType).bind
                            fun e =>
                              if e.2 ≠ 0 then some (e.1, ext2ResultError)
                              else (e.1.listDentry path).map fun _ => (e.1, ext2ResultOk)

/-! ### Writing -/

/-- `ext2_write_file`. The new size is an argument of 32 bits. -/
def writeFile (path : Text) (source : Bytes) (size skip : ℕ) : Option (Volume × ℕ) :=
  (v.pathToInode path).bind fun inodeIndex =>
    if inodeIndex = 0 then some (v, ext2ResultError)
    else
      (v.readInode inodeIndex).bind fun inode =>
        if IsDir inode then some (v, ext2ResultError)
        else
          (if iSize inode < wrap (size + skip) then
              v.resizeFile inodeIndex (wrap32 (size + skip))
            else some (v, ext2ResultOk)).bind fun r =>
              if r.2 ≠ ext2ResultOk then some (r.1, ext2ResultError)
              else
                (r.1.writeInodeBytes inodeIndex source size skip).map fun w =>
                  (w.1, if w.2 = writeFailed ∨ w.2 ≤ 0 then ext2ResultError else ext2ResultOk)

/-! ### Deleting -/

/-- `ext2_delete_file_blocks`. -/
def deleteFileBlocks (inodeNumber : ℕ) : Option (Volume × ℕ) :=
  match v.readInode inodeNumber with
  | none => some (v, 1)
  | some inode =>
    (v.loadBlockList inodeNumber).bind fun
      | none => some (v, 1)
      | some blocks =>
        let blockNumber := divideRoundedUp32 (iSize inode) v.blockSize
        let r := v.deallocateBlocks blocks blockNumber
        some (r.1, if r.2 ≠ blockNumber then 1 else 0)

/-- `ext2_delete_file`. -/
def deleteFile (epoch : ℕ) (path : Text) : Option (Volume × ℕ) :=
  (v.pathToInode path).bind fun inodeIndex =>
    if inodeIndex = 0 then some (v, ext2ResultError)
    else
      (v.deleteFileBlocks inodeIndex).bind fun r =>
        if r.2 ≠ 0 then some (r.1, ext2ResultError)
        else
          (r.1.deleteInode epoch inodeIndex).bind fun r =>
            if r.2 ≠ 0 then some (r.1, ext2ResultError)
            else
              (r.1.deleteDentry path).map fun r =>
                if r.2 ≠ 0 then (r.1, ext2ResultError) else (r.1.flushPartition, ext2ResultOk)

end Volume

end Bloodmoon
