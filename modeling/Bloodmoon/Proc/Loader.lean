import Bloodmoon.Heap.Model
import Bloodmoon.Paging.Model

/-!
# Loading an executable

The model of `elf_load_elf` in `loader.c`, with the pages that `create_task` maps. The state is the
tables, and the bytes of the physical pages that hold no tables. A store to the identity map of the
kernel goes to the physical page that the current address space has there.

The image is a buffer of bytes, and its headers are read where the source reads them. The file of
the dynamic linker is an argument: nothing if it cannot be opened. So is what `create_task` leaves
in the pages it maps for the heap and the stack of the task (headers of the heap, arguments,
environment). The buffers of `kmalloc` are bytes of their own, and pages that the kernel heap and
the kernel stacks take are not in the list that `request_page` has here.
-/

namespace Bloodmoon

open Machine

/-! ### Headers -/

/-- The fields of `Elf64_Ehdr` that are used. -/
inductive ElfHeaderField where
  | eiClass
  | type
  | phoff
  | phnum
  deriving DecidableEq

/-- `Elf64_Ehdr`. -/
def elfHeader : Layout ElfHeaderField where
  offset
    | .eiClass => 4
    | .type => 16
    | .phoff => 32
    | .phnum => 56
  width
    | .eiClass => 1
    | .phoff => 8
    | _ => 2
  size := 64

/-- The fields of `Elf64_Phdr` that are used. -/
inductive ProgramHeaderField where
  | type
  | flags
  | offset
  | vaddr
  | filesz
  | memsz
  deriving DecidableEq

/-- `Elf64_Phdr`. -/
def programHeader : Layout ProgramHeaderField where
  offset
    | .type => 0
    | .flags => 4
    | .offset => 8
    | .vaddr => 16
    | .filesz => 32
    | .memsz => 40
  width
    | .type => 4
    | .flags => 4
    | _ => 8
  size := 56

/-- A program header that has been read. -/
structure ProgramHeader where
  type : ℕ
  flags : ℕ
  offset : ℕ
  vaddr : ℕ
  filesz : ℕ
  memsz : ℕ
  deriving DecidableEq

/-- `program_header[i]`. -/
def programHeaderAt (buffer : Bytes) (i : ℕ) : ProgramHeader :=
  let a := elfHeader.get buffer 0 .phoff + programHeader.size * i
  { type := programHeader.get buffer a .type
    flags := programHeader.get buffer a .flags
    offset := programHeader.get buffer a .offset
    vaddr := programHeader.get buffer a .vaddr
    filesz := programHeader.get buffer a .filesz
    memsz := programHeader.get buffer a .memsz }

/-- `e_phnum`. -/
def phnum (buffer : Bytes) : ℕ := elfHeader.get buffer 0 .phnum

/-- `ELFCLASS32`. -/
def elfclass32 : ℕ := 1

/-- `ET_EXEC`. -/
def etExec : ℕ := 2

/-- `ET_DYN`. -/
def etDyn : ℕ := 3

/-- `PT_LOAD`. -/
def ptLoad : ℕ := 1

/-- `PT_INTERP`. -/
def ptInterp : ℕ := 3

/-- `PAGE_NX_BIT`. -/
def pageNxBit : ℕ := 4

/-- `DYNAMIC_LINKER_BASE_ADDRESS`. -/
def dynamicLinkerBaseAddress : ℕ := 0x40000000

/-- `USERLAND_END`. -/
def userlandEnd : ℕ := 0x0000800000000000

/-- `TO_KERNEL_MAP`. -/
def toKernelMap (vaddr : ℕ) : ℕ := wrap (vaddr + identityMapStart)

/-- `parse_elf_file`. -/
def parseElfFile (buffer : Bytes) : Bool :=
  buffer 0 = 0x7f#8 ∧ buffer 1 = 0x45#8 ∧ buffer 2 = 0x4c#8 ∧ buffer 3 = 0x46#8

/-! ### Segments -/

/-- The tables, and the contents of the other physical pages. -/
structure LoaderState where
  paging : PagingState
  memory : Bytes

namespace LoaderState

/-- A copy of at most a page to the beginning of a page of the current address space. -/
def store (s : LoaderState) (virtual : ℕ) (src : Bytes) (b n : ℕ) : Outcome LoaderState :=
  let physical := s.paging.virtualToPhysical s.paging.cr3 virtual
  if physical = 0 then kpanic "Page Fault Detected"
  else .ok { s with memory := blit s.memory physical src b n }

/-- A round of the loop of `allocate_segment`: a new page at `virtual`, with the bytes of `src` from
`b` on. That the page is cleared first makes no difference. -/
def allocatePage (s : LoaderState) (pd virtual perms : ℕ) (src : Bytes) (b : ℕ) :
    Outcome LoaderState := do
  let (paging, page) ← s.paging.requestPage
  let partialBuffer := toKernelMap page
  let physical := paging.virtualToPhysical paging.cr3 partialBuffer
  let paging ← paging.mapMemory pd virtual physical perms
  { s with paging := paging }.store partialBuffer src b pageSize

/-- The permissions of the pages of a segment. -/
def segmentPerms (flags : ℕ) : ℕ :=
  (if flags.testBit 1 then pageUserBit ||| pageWriteBit else pageUserBit) |||
    (if flags.testBit 0 then 0 else pageNxBit)

/-- The number of pages of a segment. -/
def segmentPages (h : ProgramHeader) : ℕ :=
  let totalSize := wrap (h.memsz + h.vaddr % pageSize)
  totalSize / pageSize + if totalSize % pageSize ≠ 0 then 1 else 0

/-- `complete_buffer`: the bytes of the file, from where the segment begins in its first page. -/
def completeBuffer (h : ProgramHeader) (buffer : Bytes) : Bytes :=
  blit (fun _ => 0#8) (h.vaddr % pageSize) buffer h.offset h.filesz

/-- `allocate_segment`. -/
def allocateSegment (s : LoaderState) (pd : ℕ) (h : ProgramHeader) (buffer : Bytes) (base : ℕ) :
    Outcome LoaderState :=
  if h.type ≠ ptLoad then .ok s
  else
    let vaddr := wrap (h.vaddr - h.vaddr % pageSize + base)
    (List.range (segmentPages h)).foldlM (fun s i =>
      s.allocatePage pd (wrap (vaddr + i * pageSize)) (segmentPerms h.flags)
        (completeBuffer h buffer) (i * pageSize)) s

/-- The loop of `elf_load_elf` over program headers, with `ld_path`; nothing when it gives up. -/
def loadHeaders (buffer : Bytes) (pd : ℕ) : List ProgramHeader → LoaderState → Option ℕ →
    Outcome (Option (LoaderState × Option ℕ))
  | [], s, ldPath => .ok (some (s, ldPath))
  | h :: hs, s, ldPath =>
    if h.type = ptLoad then do
      let s ← s.allocateSegment pd h buffer 0
      loadHeaders buffer pd hs s ldPath
    else if h.type = ptInterp then
      if ldPath.isSome then .ok none
      else if 0x1000 < h.filesz then .ok none
      else do
        let (paging, page) ← s.paging.requestPage
        let s ← { s with paging := paging }.store (toKernelMap page) buffer h.offset h.filesz
        loadHeaders buffer pd hs s (some (toKernelMap page))
    else loadHeaders buffer pd hs s ldPath

/-- The program headers of an image. -/
def programHeaders (buffer : Bytes) : List ProgramHeader :=
  (List.range (phnum buffer)).map (programHeaderAt buffer)

/-- The segments of the dynamic linker. The class is looked up in the header of the executable. -/
def loadLinker (s : LoaderState) (pd : ℕ) (buffer ldBuffer : Bytes) :
    Outcome (Option LoaderState) :=
  if !parseElfFile ldBuffer then .ok none
  else if elfHeader.get buffer 0 .eiClass = elfclass32 then .ok none
  else if elfHeader.get ldBuffer 0 .type ≠ etDyn then .ok none
  else do
    let s ← (programHeaders ldBuffer).foldlM (fun s h =>
      if h.type = ptLoad then s.allocateSegment pd h ldBuffer dynamicLinkerBaseAddress
      else .ok s) s
    .ok (some s)

/-! ### The task -/

/-- `PAGE_WRITE_BIT | PAGE_USER_BIT`. -/
def userPerms : ℕ := pageWriteBit ||| pageUserBit

/-- `cheap->heapEnd` in `_initHeap`, for `userHeapEndAddress`. -/
def userHeapPage : ℕ := 0x00007fff6ffff000 - pageSize

/-- `cheap->lastStack` in `_initHeap`, for `userStackEndAddress`. -/
def userStackPage : ℕ := 0x00007fff7ffff000 - pageSize

/-- The pages that `create_user_heap` maps, in the current address space and in the new one. -/
def createUserHeap (s : PagingState) (pd : ℕ) : Outcome PagingState := do
  let (s, _) ← s.requestCurrentPageAt userHeapPage userPerms
  let (s, _) ← s.requestCurrentPageAt userStackPage userPerms
  if pd ≠ s.cr3 then do
    let s ← s.mapMemory pd userHeapPage (s.virtualToPhysical s.cr3 userHeapPage) userPerms
    s.mapMemory pd userStackPage (s.virtualToPhysical s.cr3 userStackPage) userPerms
  else .ok s

/-- The pages of the stack of a task: `USER_STACK_SIZE` is four pages. -/
def userStack : List ℕ := (List.range 4).map fun i => userStackPage - (i + 1) * pageSize

/-- The pages that `ustackalloc` maps. -/
def ustackalloc (s : PagingState) (pd : ℕ) : Outcome PagingState :=
  userStack.foldlM (fun s lastStack => do
    let (s, _) ← s.requestCurrentPageAt lastStack userPerms
    if pd ≠ s.cr3 then s.mapMemory pd lastStack (s.virtualToPhysical s.cr3 lastStack) userPerms
    else .ok s) s

/-- The pages that are mapped for the heap and the stack of a task. -/
def taskPages : List ℕ := userHeapPage :: userStackPage :: userStack

/-- The pages of the task in `create_task`, for a user task with an address space. What is in them
at the end, by virtual address, is `fill`. -/
def createTask (s : LoaderState) (pd : ℕ) (fill : Bytes) : Outcome LoaderState := do
  -- the structure of the heap has a page that is not mapped for the task
  let (paging, _) ← s.paging.requestPage
  let paging ← createUserHeap paging pd
  let paging ← ustackalloc paging pd
  .ok ⟨paging, taskPages.foldl (fun memory v =>
    blit memory (paging.virtualToPhysical paging.cr3 v) fill v pageSize) s.memory⟩

/-- `elf_load_elf`: the state, and the address space of the task; nothing when there is no task. -/
def elfLoadElf (s : LoaderState) (buffer : Bytes) (ldFile : Option Bytes) (fill : Bytes) :
    Outcome (Option (LoaderState × ℕ)) :=
  if !parseElfFile buffer then .ok none
  else if elfHeader.get buffer 0 .eiClass = elfclass32 then .ok none
  else if elfHeader.get buffer 0 .type = etDyn then .ok none
  else if elfHeader.get buffer 0 .type ≠ etExec then .ok none
  else do
    let (paging, pd) ← s.paging.duplicateCurrentKernelPml4
    match ← loadHeaders buffer pd (programHeaders buffer) { s with paging := paging } none with
    | none => .ok none
    | some (s, none) => do
      let s ← s.createTask pd fill
      .ok (some (s, pd))
    | some (s, some _) =>
      match ldFile with
      | none => .ok none
      | some ldBuffer => do
        match ← s.loadLinker pd buffer ldBuffer with
        | none => .ok none
        | some s => do
          let s ← s.createTask pd fill
          .ok (some (s, pd))

/-- The byte at an address of an address space. -/
def byteAt (s : LoaderState) (pd a : ℕ) : Option (BitVec 8) :=
  let physical := s.paging.virtualToPhysical pd a
  if physical = 0 then none else some (s.memory (physical + a % pageSize))

end LoaderState

end Bloodmoon
