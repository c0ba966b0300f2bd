import Bloodmoon.Ext2.Blocks
import Bloodmoon.Vfs.Model

/-!
# Looking up a path

The model of `ext2_path_to_inode` with `strtok`. A path is cut into components, and each of them is
searched in the directory that the ones before it have led to. The code that stands for "not found"
is 0, and for a directory that cannot be read it is 1.

There is no value where the code reads or writes outside a buffer or does not end. `strtok` is
modelled for a separator of one character; it is only used so.
-/

namespace Bloodmoon

open Machine

/-- The loop of `strtok`: the token so far, and the characters from `lastToken` on. After a
separator in front of a token the next character is looked at in the inner loop, by which a zero is
passed over (`again`). -/
def strtokLoop (delim : BitVec 8) : Text → Bool → Text → Option (Option Text × Text)
  | _, true, [] => none
  | token, false, [] => some (if token.isEmpty then none else some token, [])
  | token, _, c :: rest =>
    if c = delim then
      if token.isEmpty then strtokLoop delim [] true rest else some (some token, rest)
    else strtokLoop delim (token ++ [c]) false rest

/-- `strtok`: the next token, and what the next call goes on with. -/
def strtok (delim : BitVec 8) (s : Text) : Option (Option Text × Text) :=
  strtokLoop delim [] false s

/-- `INODE_TYPE_DIR`. -/
def inodeTypeDir : ℕ := 0x4000

/-- The inode is one of a directory. -/
abbrev IsDir (inode : Bytes) : Prop := inodeDescriptor.get inode 0 .mode &&& inodeTypeDir ≠ 0

/-- `EXT2_ROOT_INO_INDEX`. -/
def ext2RootInoIndex : ℕ := 2

/-- The name of the directory entry at `a`. -/
def entryName (buffer : Bytes) (a : ℕ) : Text :=
  (List.range (nameLen buffer a)).map fun i => buffer (a + 8 + i)

/-- The loop of `ext2_inode_from_path_and_parent`, with bounded fuel. -/
def searchEntries (buffer : Bytes) (size : ℕ) (path : Text) : ℕ → ℕ → Option ℕ
  | 0, _ => none
  | fuel + 1, parsedBytes =>
    if parsedBytes < size then
      if strncmp (entryName buffer parsedBytes) path
          (nameLen buffer parsedBytes) = 0 then
        some (entryInode buffer parsedBytes)
      else searchEntries buffer size path fuel
        (wrap32 (parsedBytes + recLen buffer parsedBytes))
    else some 0

namespace Volume

/-- `ext2_inode_from_path_and_parent`. As `parsed_bytes` has 32 bits, a search that takes more than
`2 ^ 32` rounds does not end. -/
def inodeFromPathAndParent (v : Volume) (parentInode : ℕ) (path : Text) : Option ℕ :=
  match v.readInode parentInode with
  | none => some 1
  | some rootInode =>
    let size := iSize rootInode
    if IsDir rootInode then
      -- nothing is allocated if the sum wraps to zero, and else the buffer is smaller than the
      -- directory
      if wrap32 (size + v.blockSize) = 0 then some 1
      else if wrap32 (size + v.blockSize) < size then none
      else if (v.readInodeBytes parentInode v.fresh size 0).2 = readFailed then some 1
      else searchEntries (v.readInodeBytes parentInode v.fresh size 0).1 size path (2 ^ 32) 0
    else some 0

/-- The loop of `ext2_path_to_inode` over the tokens. -/
def walkTokens (v : Volume) : ℕ → ℕ → Option Text × Text → Option ℕ
  | 0, _, _ => none
  | _ + 1, inodeIndex, (none, _) => some inodeIndex
  | fuel + 1, inodeIndex, (some token, rest) =>
    (v.inodeFromPathAndParent inodeIndex token).bind fun inodeIndex =>
      if inodeIndex = 0 then some 0
      else (strtok 0x2f#8 rest).bind fun next => v.walkTokens fuel inodeIndex next

/-- `ext2_path_to_inode`. The copy of the path has at most `STR_MAX_SIZE` characters, so that it has
fewer tokens than there are rounds. -/
def pathToInode (v : Volume) (path : Text) : Option ℕ :=
  (strtok 0x2f#8 (path.take strMaxSize)).bind fun first =>
    v.walkTokens (strMaxSize + 1) ext2RootInoIndex first

end Volume

end Bloodmoon
