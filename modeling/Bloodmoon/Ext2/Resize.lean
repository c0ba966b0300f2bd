import Bloodmoon.Ext2.AllocateBlock
import Bloodmoon.Ext2.AllocateInode
import Bloodmoon.Ext2.Partition

/-!
# Resizing a file

The model of `ext2_resize_file`, with `ext2_allocate_blocks`, which gives a file more blocks, and
`ext2_load_block_list` and `ext2_deallocate_blocks`, which take blocks away. A table of block
numbers is made in a buffer from the heap, of which only the entries that are used are written, and
the buffer is then written to the disk as a whole.

`ext2_load_block_list` stores the blocks in a list with room for as many as the size of the file
says. When the tables have more of them, it stores behind the list, and its behaviour is undefined.
-/

namespace Bloodmoon

open Machine

/-- `EXT2_RESULT_OK`. -/
def ext2ResultOk : ℕ := 1

/-- `EXT2_RESULT_ERROR`. -/
def ext2ResultError : ℕ := 0

/-- `INODE_BLOCK_END`. -/
def inodeBlockEnd : ℕ := 0xFFFFFFFF

/-- The inode after `i_block[i]` is written. -/
def setIBlock (inode : Bytes) (i block : ℕ) : Bytes := storeLE inode (40 + 4 * i) 4 block

namespace Volume

variable (v : Volume)

/-! ### Growing -/

/-- The loop of `ext2_allocate_indirect_block` from entry `j` on, with `left` entries to go: the
table and the number of blocks in it, or nothing when there is no block. -/
def fillIndirect (blocksToAllocate : ℕ) : ℕ → ℕ → Volume → Bytes → ℕ → Volume × Option (Bytes × ℕ)
  | 0, _, v, buffer, written => (v, some (buffer, written))
  | left + 1, j, v, buffer, written =>
    if written = blocksToAllocate then (v, some (buffer, written))
    else
      let r := v.allocateBlock
      if r.2 = 0 then (r.1, none)
      else fillIndirect blocksToAllocate left (j + 1) r.1 (storeLE buffer (4 * j) 4 r.2)
        (written + 1)

/-- `ext2_allocate_indirect_block`: the volume, the block stored at `target_block`, and the number
of blocks written. -/
def allocateIndirectBlock (blocksToAllocate : ℕ) : Volume × ℕ × ℕ :=
  let r := v.allocateBlock
  if r.2 = 0 then (r.1, 0, 0)
  else
    match fillIndirect blocksToAllocate (v.blockSize / 4) 0 r.1 v.fresh 0 with
    | (w, none) => (w, r.2, 0)
    | (w, some (buffer, written)) =>
      let u := w.writeBlock r.2 buffer 0
      if u.2 ≤ 0 then (u.1, r.2, 0) else (u.1, r.2, written)

/-- The loop of the functions for deeper tables, which go on when the function for an entry fails.
-/
def fillTable (allocate : Volume → ℕ → Volume × ℕ × ℕ) (blocksToAllocate : ℕ) :
    ℕ → ℕ → Volume → Bytes → ℕ → Volume × Bytes × ℕ
  | 0, _, v, buffer, written => (v, buffer, written)
  | left + 1, j, v, buffer, written =>
    if written = blocksToAllocate then (v, buffer, written)
    else
      let r := allocate v (blocksToAllocate - written)
      fillTable allocate blocksToAllocate left (j + 1) r.1 (storeLE buffer (4 * j) 4 r.2.1)
        (written + r.2.2)

/-- The functions for deeper tables; `allocate` is the function for their entries. -/
def allocateTable (allocate : Volume → ℕ → Volume × ℕ × ℕ) (v : Volume) (blocksToAllocate : ℕ) :
    Volume × ℕ × ℕ :=
  let r := v.allocateBlock
  if r.2 = 0 then (r.1, 0, 0)
  else
    let t := fillTable allocate blocksToAllocate (v.blockSize / 4) 0 r.1 v.fresh 0
    let u := t.1.writeBlock r.2 t.2.1 0
    if u.2 ≤ 0 then (u.1, r.2, 0) else (u.1, r.2, t.2.2)

/-- `ext2_allocate_double_indirect_block`. -/
def allocateDoubleIndirectBlock : Volume → ℕ → Volume × ℕ × ℕ := allocateTable allocateIndirectBlock

/-- `ext2_allocate_triple_indirect_block`. -/
def allocateTripleIndirectBlock : Volume → ℕ → Volume × ℕ × ℕ :=
  allocateTable allocateDoubleIndirectBlock

/-- The loop of `ext2_allocate_blocks` over the direct blocks from `i` on, with `left` to go: the
volume, the inode and the number of blocks allocated, and whether it goes on. -/
def allocateDirect (blocksToAllocate : ℕ) : ℕ → ℕ → Volume → Bytes → ℕ → Volume × Bytes × ℕ × Bool
  | 0, _, v, inode, allocated => (v, inode, allocated, true)
  | left + 1, i, v, inode, allocated =>
    if allocated = blocksToAllocate then (v, inode, allocated, true)
    else if iBlock inode i = 0 then
      let r := v.allocateBlock
      if r.2 = 0 then (r.1, setIBlock inode i 0, allocated, false)
      else allocateDirect blocksToAllocate left (i + 1) r.1 (setIBlock inode i r.2) (allocated + 1)
    else allocateDirect blocksToAllocate left (i + 1) v inode allocated

/-- The indirect blocks of `ext2_allocate_blocks`, each with the index of its number in the inode
and its function, until all blocks are allocated. -/
def allocateStages (blocksToAllocate : ℕ) :
    List (ℕ × (Volume → ℕ → Volume × ℕ × ℕ)) → Volume → Bytes → ℕ → Volume × Bytes × ℕ
  | [], v, inode, allocated => (v, inode, allocated)
  | (i, allocate) :: rest, v, inode, allocated =>
    if allocated = blocksToAllocate then (v, inode, allocated)
    else
      let r := allocate v (blocksToAllocate - allocated)
      allocateStages blocksToAllocate rest r.1 (setIBlock inode i r.2.1) (allocated + r.2.2)

/-- `ext2_allocate_blocks`: the volume, the inode, and the code, which is 0 when all blocks have
been allocated. -/
def allocateBlocks (inode : Bytes) (blocksToAllocate : ℕ) : Volume × Bytes × ℕ :=
  let d := allocateDirect blocksToAllocate 12 0 v inode 0
  if d.2.2.2 = false then (d.1, d.2.1, 1)
  else
    let r := allocateStages blocksToAllocate [(12, allocateIndirectBlock),
      (13, allocateDoubleIndirectBlock), (14, allocateTripleIndirectBlock)] d.1 d.2.1 d.2.2.1
    (r.1, r.2.1, if r.2.2 = blocksToAllocate then 0 else 1)

/-! ### Shrinking -/

/-- The loop of `ext2_load_indirect_block_list` and the functions for deeper tables over the entries
from `i` on, with `left` to go; `load` is the function for an entry. -/
def loadEntries (load : ℕ → Option (List ℕ)) (entry : ℕ → ℕ) : ℕ → ℕ → Option (List ℕ)
  | 0, _ => some []
  | left + 1, i =>
    if entry i = 0 ∨ entry i = inodeBlockEnd then some []
    else do
      let blocks ← load (entry i)
      let rest ← loadEntries load entry left (i + 1)
      some (blocks ++ rest)

/-- The functions that load the blocks below a table; nothing when the table cannot be read. The
table of block 0 is the content of a buffer that has not been written. -/
def loadTable (load : Volume → ℕ → Option (List ℕ)) (v : Volume) (block : ℕ) : Option (List ℕ) :=
  let r := v.readBlock block v.fresh 0
  if r.2 = readFailed then none
  else loadEntries (load v) (fun i => loadLE r.1 (4 * i) 4) (v.blockSize / 4) 0

/-- `ext2_load_indirect_block_list`. -/
def loadIndirectBlockList : Volume → ℕ → Option (List ℕ) := loadTable fun _ block => some [block]

/-- `ext2_load_double_indirect_block_list`. -/
def loadDoubleIndirectBlockList : Volume → ℕ → Option (List ℕ) := loadTable loadIndirectBlockList

/-- `ext2_load_triple_indirect_block_list`. -/
def loadTripleIndirectBlockList : Volume → ℕ → Option (List ℕ) :=
  loadTable loadDoubleIndirectBlockList

/-- The direct blocks that `ext2_load_block_list` stores. -/
def directBlockList (inode : Bytes) (blockNumber : ℕ) : List ℕ :=
  (((List.range 12).map (iBlock inode)).filter (0 < ·)).take blockNumber

/-- The stages of `ext2_load_block_list` after the direct blocks: the next table is loaded as long
as blocks are missing. -/
def loadStages (v : Volume) (blockNumber : ℕ) :
    List (ℕ × (Volume → ℕ → Option (List ℕ))) → List ℕ → Option (List ℕ)
  | [], blocks => some blocks
  | (block, load) :: rest, blocks =>
    if blocks.length < blockNumber then do
      let more ← load v block
      v.loadStages blockNumber rest (blocks ++ more)
    else v.loadStages blockNumber rest blocks

/-- `ext2_load_block_list`: the list, or the null pointer; nothing when more is stored than the list
has room for. The heap returns no memory for a list of zero bytes. -/
def loadBlockList (inodeNumber : ℕ) : Option (Option (List ℕ)) :=
  match v.readInode inodeNumber with
  | none => some none
  | some inode =>
    let blockNumber := divideRoundedUp32 (iSize inode) v.blockSize
    if blockNumber = 0 then some none
    else
      match v.loadStages blockNumber [(iBlock inode 12, loadIndirectBlockList),
        (iBlock inode 13, loadDoubleIndirectBlockList),
        (iBlock inode 14, loadTripleIndirectBlockList)] (directBlockList inode blockNumber) with
      | none => some none
      | some blocks =>
        if blockNumber < blocks.length then none
        else if blocks.length ≠ blockNumber then some none
        else some (some blocks)

/-- The loop of `ext2_deallocate_blocks` over the first blocks of a list, from the last of them
down. -/
def deallocateFrom (blocks : List ℕ) : ℕ → Volume → Volume × Bool
  | 0, v => (v, true)
  | k + 1, v =>
    let r := v.deallocateBlock (blocks.getD k 0)
    if r.2 = 0 then (r.1, false) else deallocateFrom blocks k r.1

/-- `ext2_deallocate_blocks`. -/
def deallocateBlocks (blocks : List ℕ) (blockNumber : ℕ) : Volume × ℕ :=
  let r := deallocateFrom blocks blockNumber v
  if r.2 then (r.1.requireFlush, blockNumber) else (r.1, 0)

/-! ### Resizing -/

/-- The end of `ext2_resize_file`: the inode is stored with its new size. -/
def storeResized (inodeIndex : ℕ) (inode : Bytes) (newSize : ℕ) : Volume × ℕ :=
  let inode := inodeDescriptor.set inode 0 .size newSize
  let inode := inodeDescriptor.set inode 0 .sectors (divideRoundedUp32 newSize v.sectorSize)
  match v.writeInode inodeIndex inode with
  | none => (v, ext2ResultError)
  | some w => (w.flushPartition, ext2ResultOk)

/-- `ext2_resize_file`; nothing when its behaviour is undefined. -/
def resizeFile (inodeIndex newSize : ℕ) : Option (Volume × ℕ) :=
  match v.readInode inodeIndex with
  | none => some (v, ext2ResultError)
  | some inode =>
    let size := iSize inode
    if size = newSize then some (v, ext2ResultOk)
    else if newSize < size then
      let blocksToDeallocate := (size - newSize) / v.blockSize
      match v.loadBlockList inodeIndex with
      | none => none
      | some none => some (v, ext2ResultError)
      | some (some blocks) =>
        let r := v.deallocateBlocks blocks blocksToDeallocate
        if r.2 ≠ blocksToDeallocate then some (r.1, ext2ResultError)
        else some (r.1.storeResized inodeIndex inode newSize)
    else
      let blocksToAllocate := (newSize - size) / v.blockSize +
        if (newSize - size) % v.blockSize ≠ 0 then 1 else 0
      let r := v.allocateBlocks inode blocksToAllocate
      if r.2.2 ≠ 0 then some (r.1, ext2ResultError)
      else some (r.1.storeResized inodeIndex r.2.1 newSize)

end Volume

end Bloodmoon
