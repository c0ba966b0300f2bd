import Bloodmoon.Machine.PointerForest
import Bloodmoon.Memory.PageAllocator

/-!
# Paging

The model of `paging.c`: four levels of tables, each a page of 512 entries, that translate virtual
addresses. Tables are named by their physical addresses; that the code reaches them at that
address or, with `TO_KERNEL_MAP`, in the identity map of the kernel is a matter of which virtual
address is used, and the two variants of a function (`set_page_perms` and `set_page_perms_hh`) are
one here.

`request_page` is the page allocator; here it is the list of the pages it will hand out. The bits
of an entry that no function reads are left out, and with them the difference between entries of
directories and of page tables.
-/

namespace Bloodmoon

open Machine

/-- `struct page_directory_entry` and `struct page_table_entry`. -/
structure PageEntry where
  present : Bool
  writeable : Bool
  userAccess : Bool
  cacheDisabled : Bool
  pagePpn : ℕ
  executionDisabled : Bool
  deriving DecidableEq

namespace PageEntry

variable (e : PageEntry)

/-- An entry of a page that is cleared. -/
def blank : PageEntry := ⟨false, false, false, false, 0, false⟩

/-- The page an entry leads to. -/
def page : ℕ := e.pagePpn <<< 12

/-- The entry with another page; its field has 28 bits. -/
def withPage (address : ℕ) : PageEntry :=
  { e with pagePpn := (address >>> 12) % 2 ^ 28 }

/-- The entry with other permissions: bit 0 for writing, bit 1 for access by users, bit 2 against
execution, bit 3 against caching. -/
def withPerms (permissions : ℕ) : PageEntry :=
  { e with
    writeable := permissions.testBit 0
    userAccess := permissions.testBit 1
    executionDisabled := permissions.testBit 2
    cacheDisabled := permissions.testBit 3 }

/-- The permissions of an entry, as a byte. -/
def perms : ℕ :=
  e.writeable.toNat ||| e.userAccess.toNat <<< 1 ||| e.executionDisabled.toNat <<< 2 |||
    e.cacheDisabled.toNat <<< 3

/-- The table a present entry leads to. -/
def next : Option ℕ := if e.present then some e.page else none

end PageEntry

/-- `struct page_map_index`. -/
structure PageMapIndex where
  pdpI : Fin 512
  pdI : Fin 512
  ptI : Fin 512
  pI : Fin 512
  deriving DecidableEq

/-- `address_to_map`. -/
def addressToMap (address : ℕ) : PageMapIndex where
  pI := Fin.ofNat 512 (address >>> 12)
  ptI := Fin.ofNat 512 (address >>> 12 >>> 9)
  pdI := Fin.ofNat 512 (address >>> 12 >>> 9 >>> 9)
  pdpI := Fin.ofNat 512 (address >>> 12 >>> 9 >>> 9 >>> 9)

/-- The tables in physical memory, the pages that `request_page` will return, and the register
that holds the directory in use. -/
structure PagingState where
  tables : ℕ → Fin 512 → PageEntry
  pool : List ℕ
  cr3 : ℕ

/-- `IDENTITY_MAP_START`. -/
def identityMapStart : ℕ := 0xffffA00000000000

/-- `FROM_KERNEL_MAP`. -/
def fromKernelMap (vaddr : ℕ) : ℕ := wsub vaddr identityMapStart

namespace PagingState

variable (s : PagingState)

/-- `request_page`. -/
def requestPage : Outcome (PagingState × ℕ) :=
  match s.pool with
  | [] => kpanic "No free pages available!"
  | page :: pool => .ok ({ s with pool := pool }, page)

/-- The state after an entry is written. -/
def setEntry (table : ℕ) (i : Fin 512) (e : PageEntry) : PagingState :=
  { s with tables := setAt s.tables table i e }

/-- The state after a table is cleared. -/
def clearTable (table : ℕ) : PagingState :=
  { s with tables := clearAt s.tables table .blank }

/-- The state after the table `src` is copied to `dst`. -/
def copyTable (dst src : ℕ) : PagingState :=
  { s with tables := copyAt s.tables dst src }

/-- `virtual_to_physical`; the null pointer is zero. -/
def virtualToPhysical (pml4 virtual : ℕ) : ℕ :=
  let map := addressToMap virtual
  let pde := s.tables pml4 map.pdpI
  if !pde.present then 0
  else
    let pde := s.tables pde.page map.pdI
    if !pde.present then 0
    else
      let pde := s.tables pde.page map.ptI
      if !pde.present then 0
      else
        let pte := s.tables pde.page map.pI
        if !pte.present then 0 else pte.page

/-- One level of `map_memory_hh`: the table that entry `i` leads to, which is made if there is
none. -/
def ensureTable (table : ℕ) (i : Fin 512) (msg : String) :
    Outcome (PagingState × ℕ) :=
  let pde := s.tables table i
  if !pde.present then do
    let (s, page) ← s.requestPage
    -- the pointer that is compared with null is `TO_KERNEL_MAP` of the page
    if page = fromKernelMap 0 then kpanic msg
    else
      let s := s.clearTable page
      let pde := { pde.withPage page with present := true, writeable := true, userAccess := true }
      .ok (s.setEntry table i pde, page)
  else .ok (s, pde.page)

/-- `map_memory_hh`. -/
def mapMemoryHh (pml4 virtualMemory physicalMemory flags : ℕ) :
    Outcome PagingState :=
  if virtualMemory % pageSize ≠ 0 then
    kpanic "map_memory: virtual_memory must be aligned to 0x1000"
  else if physicalMemory % pageSize ≠ 0 then
    kpanic "map_memory: physical_memory must be aligned to 0x1000"
  else do
    let map := addressToMap virtualMemory
    let (s, pdp) ← s.ensureTable pml4 map.pdpI "ERROR: Could not allocate page for new PDP\n"
    let (s, pd) ← s.ensureTable pdp map.pdI "ERROR: Could not allocate page for new PD\n"
    let (s, pt) ← s.ensureTable pd map.ptI "ERROR: Could not allocate page for new PT\n"
    let pte := s.tables pt map.pI
    .ok (s.setEntry pt map.pI
      { (pte.withPage physicalMemory).withPerms flags with present := true })

/-- `map_memory`. -/
def mapMemory (pml4 virtualMemory physicalMemory flags : ℕ) :
    Outcome PagingState :=
  s.mapMemoryHh pml4 virtualMemory physicalMemory flags

/-- `map_current_memory`. -/
def mapCurrentMemory (virtualMemory physicalMemory flags : ℕ) :
    Outcome PagingState :=
  s.mapMemoryHh s.cr3 virtualMemory physicalMemory flags

/-- `_unmap_memory`. -/
def unmapMemory (pml4 virtualAddress : ℕ) : PagingState :=
  let map := addressToMap virtualAddress
  let pde := s.tables pml4 map.pdpI
  if !pde.present then s
  else
    let pde := s.tables pde.page map.pdI
    if !pde.present then s
    else
      let pde := s.tables pde.page map.ptI
      if !pde.present then s
      else
        let pte := s.tables pde.page map.pI
        s.setEntry pde.page map.pI { pte with present := false }

/-- The page table that `set_page_perms` and `get_page_perms` arrive at. They do not look whether
the entries on the way are present. -/
def pageTableOf (pml4 address : ℕ) : ℕ :=
  let map := addressToMap address
  let pde := s.tables pml4 map.pdpI
  let pde := s.tables pde.page map.pdI
  let pde := s.tables pde.page map.ptI
  pde.page

/-- `set_page_perms`. -/
def setPagePerms (pml4 address permissions : ℕ) : PagingState :=
  let pt := s.pageTableOf pml4 address
  let i := (addressToMap address).pI
  s.setEntry pt i ((s.tables pt i).withPerms permissions)

/-- `get_page_perms`. -/
def getPagePerms (pml4 address : ℕ) : ℕ :=
  (s.tables (s.pageTableOf pml4 address) (addressToMap address).pI).perms

/-- The loop of `mprotect` over `n` pages from `i` up. -/
def protectPages (s : PagingState) (pml4 permissions : ℕ) : ℕ → ℕ → PagingState
  | _, 0 => s
  | i, n + 1 => (s.setPagePerms pml4 i permissions).protectPages pml4 permissions (i + pageSize) n

/-- `mprotect`. Both ends are rounded to pages, so that the loop makes as many rounds as there are
pages between them. -/
def mprotect (pml4 address size permissions : ℕ) : PagingState :=
  let start := address
  let stop := wrap (start + size)
  let start := start - start % pageSize
  let stop := wrap (stop + 0xfff) - wrap (stop + 0xfff) % pageSize
  s.protectPages pml4 permissions start ((stop - start) / pageSize)

/-- `request_page_at`. -/
def requestPageAt (pml4 vaddr flags : ℕ) : Outcome (PagingState × ℕ) := do
  let (s, result) ← s.requestPage
  if result = 0 then kpanic "ERROR: Could not allocate page for mapping\n"
  else do
    let s ← s.mapMemoryHh pml4 vaddr result flags
    .ok (s, vaddr)

/-- `request_current_page_at`. -/
def requestCurrentPageAt (vaddr flags : ℕ) : Outcome (PagingState × ℕ) :=
  s.requestPageAt s.cr3 vaddr flags

/-! ### Copies of address spaces -/

/-- The innermost loop of `_duplicate_pd`, over the entries of a copy. -/
def copyPresent (dst src : ℕ) : PagingState :=
  (List.finRange 512).foldl (fun s k =>
    if (s.tables src k).present then s.setEntry dst k (s.tables src k) else s) s

/-- The second loop of `_duplicate_pd`: entry `j` of the copy `newPd` of `pd` gets a table of its
own. -/
def duplicateEntry (pd newPd : ℕ) (s : PagingState) (j : Fin 512) : Outcome PagingState :=
  let pde := s.tables pd j
  if pde.present then do
    let (s, newPt) ← s.requestPage
    if newPt = 0 then kpanic "ERROR: Could not allocate page for new PT\n"
    else
      let s := s.copyTable newPt pde.page
      let s := s.setEntry newPd j (pde.withPage newPt)
      .ok (s.copyPresent newPt pde.page)
  else .ok s

/-- The outer loop of `_duplicate_pd`: entry `i` of the new directory. -/
def duplicateDirectory (father pml : ℕ) (s : PagingState) (i : Fin 512) : Outcome PagingState :=
  let pde := s.tables father i
  if pde.present then do
    let (s, newPd) ← s.requestPage
    if newPd = 0 then kpanic "ERROR: Could not allocate page for new PD\n"
    else
      let s := s.copyTable newPd pde.page
      let s := s.setEntry pml i (pde.withPage newPd)
      (List.finRange 512).foldlM (duplicateEntry pde.page newPd) s
  else .ok s

/-- `_duplicate_pd`, for the entries from `start` to `stop`. -/
def duplicatePd (father start stop : ℕ) : Outcome (PagingState × ℕ) := do
  let (s, pml) ← s.requestPage
  if pml = 0 then kpanic "ERROR: Could not allocate page for new PML4\n"
  else do
    let s := s.clearTable pml
    let range := (List.finRange 512).filter fun i => start ≤ i.val ∧ i.val < stop
    let s ← range.foldlM (duplicateDirectory father pml) s
    .ok (s, pml)

/-- `duplicate_current_pml4`. -/
def duplicateCurrentPml4 : Outcome (PagingState × ℕ) := s.duplicatePd s.cr3 0 512

/-- `duplicate_current_kernel_pml4`. -/
def duplicateCurrentKernelPml4 : Outcome (PagingState × ℕ) :=
  s.duplicatePd s.cr3 256 512

end PagingState

end Bloodmoon
