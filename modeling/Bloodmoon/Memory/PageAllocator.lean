import Bloodmoon.Machine.BitArray
import Bloodmoon.Machine.Outcome
import Bloodmoon.Machine.Word

/-!
# The physical page allocator

The model of `memory.c`: one bit per physical page in `memory->bitfield`, three byte counters
beside it, and two next-fit searches, `requestPage` and `requestContiguousPages`, each with a
cursor of its own that is a `static` of the C function.

The bitfield is a total function on byte indices. `init_memory` clears only the bytes the
managed pages need; the bytes after them keep what its self test and the machine left there,
and the searches do read one bit past the last managed page. Every `panic` of the source is an
outcome of the model, with its message; 64-bit arithmetic wraps.

The functions below follow the source one by one; each is followed by the equation that says
when it returns and what it returns then, and no later proof unfolds it again.
-/

namespace Bloodmoon

open Machine BitArray

/-- `PAGESIZE`. -/
def pageSize : ℕ := 0x1000

/-- `ADDR_TO_PAGE`. -/
def addrToPage (address : ℕ) : ℕ := address >>> 12

/-- `struct system_memory`; `bitfield` is the array the pointer of that name points to. -/
structure SystemMemory where
  totalAvailablePages : ℕ
  firstAvailablePageAddr : ℕ
  lastAvailablePageAddress : ℕ
  totalMemory : ℕ
  totalPages : ℕ
  bitfield : Bytes
  freeMemory : ℕ
  lockedMemory : ℕ
  reservedMemory : ℕ

namespace SystemMemory

variable {m m' : SystemMemory} {address x : ℕ}

/-- `SET_PAGE_BIT`. -/
def rawSetPageBit (m : SystemMemory) (x : ℕ) : SystemMemory :=
  { m with bitfield := BitArray.set m.bitfield x }

/-- `CLEAR_PAGE_BIT`. -/
def rawClearPageBit (m : SystemMemory) (x : ℕ) : SystemMemory :=
  { m with bitfield := clear m.bitfield x }

/-- `GET_PAGE_BIT`. -/
def rawGetPageBit (m : SystemMemory) (x : ℕ) : BitVec 8 := BitArray.get m.bitfield x

/-- The page with index `i` is taken. -/
def taken (m : SystemMemory) (i : ℕ) : Bool := test m.bitfield i

@[simp]
theorem rawGetPageBit_eq_one_iff : m.rawGetPageBit x = 1#8 ↔ m.taken x = true := get_eq_one_iff

@[simp]
theorem rawGetPageBit_eq_zero_iff : m.rawGetPageBit x = 0#8 ↔ m.taken x = false := get_eq_zero_iff

@[simp]
theorem taken_rawSetPageBit (m : SystemMemory) (x i : ℕ) :
    (m.rawSetPageBit x).taken i = (decide (i = x) || m.taken i) := test_set _ _ _

/-! ### One page -/

/-- `set_page_bit`. -/
def setPageBit (m : SystemMemory) (address : ℕ) : Outcome SystemMemory :=
  if addrToPage address > m.totalAvailablePages then
    kpanic "set_page_bit: address out of bounds"
  else
    let m := m.rawSetPageBit (addrToPage address)
    if m.rawGetPageBit (addrToPage address) ≠ 1#8 then kpanic "set_page_bit: bit not set"
    else .ok m

/-- `clear_page_bit`. -/
def clearPageBit (m : SystemMemory) (address : ℕ) : Outcome SystemMemory :=
  if addrToPage address > m.totalAvailablePages then
    kpanic "clear_page_bit: address out of bounds"
  else .ok (m.rawClearPageBit (addrToPage address))

/-- `get_page_bit`. -/
def getPageBit (m : SystemMemory) (address : ℕ) : Outcome (BitVec 8) :=
  if addrToPage address > m.totalAvailablePages then
    kpanic "get_page_bit: address out of bounds"
  else .ok (m.rawGetPageBit (addrToPage address))

theorem setPageBit_eq (m : SystemMemory) (address : ℕ) :
    m.setPageBit address =
      if addrToPage address > m.totalAvailablePages then
        kpanic "set_page_bit: address out of bounds"
      else .ok (m.rawSetPageBit (addrToPage address)) := by
  simp [setPageBit]

/-- The common body of `reserve_page` and `lock_page`: take a page that is free, then move one
page of bytes from `free_memory` to the counter `charge` adds to. -/
def claimPage (msg : String) (charge : SystemMemory → SystemMemory) (m : SystemMemory)
    (address : ℕ) : Outcome SystemMemory := do
  let bit ← m.getPageBit address
  if bit = 1#8 then kpanic msg
  else
    let m ← m.setPageBit address
    .ok (charge { m with freeMemory := wsub m.freeMemory pageSize })

/-- `reserve_page`. -/
def reservePage : SystemMemory → ℕ → Outcome SystemMemory :=
  claimPage "Page already reserved!" fun m =>
    { m with reservedMemory := wrap (m.reservedMemory + pageSize) }

/-- `lock_page`. -/
def lockPage : SystemMemory → ℕ → Outcome SystemMemory :=
  claimPage "Page already locked!" fun m =>
    { m with lockedMemory := wrap (m.lockedMemory + pageSize) }

/-- `unreserve_page`. -/
def unreservePage (m : SystemMemory) (address : ℕ) : Outcome SystemMemory := do
  let bit ← m.getPageBit address
  if bit = 0#8 then kpanic "Page not reserved!"
  else
    let m ← m.clearPageBit address
    .ok { m with freeMemory := wrap (m.freeMemory + pageSize)
                 reservedMemory := wsub m.reservedMemory pageSize }

/-- `unlock_page`. Where `unreserve_page` gives the page's bytes back to `free_memory`, this
function takes them from it a second time, and adds them to `locked_memory` again. -/
def unlockPage (m : SystemMemory) (address : ℕ) : Outcome SystemMemory := do
  let bit ← m.getPageBit address
  if bit = 0#8 then kpanic "Page not locked!"
  else
    let m ← m.clearPageBit address
    .ok { m with freeMemory := wsub m.freeMemory pageSize
                 lockedMemory := wrap (m.lockedMemory + pageSize) }

/-- The memory after page `i` is reserved. -/
def withReserved (m : SystemMemory) (i : ℕ) : SystemMemory :=
  { m.rawSetPageBit i with
    freeMemory := wsub m.freeMemory pageSize
    reservedMemory := wrap (m.reservedMemory + pageSize) }

/-- The memory after page `i` is locked. -/
def withLocked (m : SystemMemory) (i : ℕ) : SystemMemory :=
  { m.rawSetPageBit i with
    freeMemory := wsub m.freeMemory pageSize
    lockedMemory := wrap (m.lockedMemory + pageSize) }

/-- The memory after page `i` is unlocked. -/
def withUnlocked (m : SystemMemory) (i : ℕ) : SystemMemory :=
  { m.rawClearPageBit i with
    freeMemory := wsub m.freeMemory pageSize
    lockedMemory := wrap (m.lockedMemory + pageSize) }

/-- The memory after page `i` is given back by `unreserve_page`. -/
def withUnreserved (m : SystemMemory) (i : ℕ) : SystemMemory :=
  { m.rawClearPageBit i with
    freeMemory := wrap (m.freeMemory + pageSize)
    reservedMemory := wsub m.reservedMemory pageSize }

@[simp]
theorem taken_withLocked (m : SystemMemory) (x i : ℕ) :
    (m.withLocked x).taken i = (decide (i = x) || m.taken i) := test_set _ _ _

@[simp]
theorem taken_withUnlocked (m : SystemMemory) (x i : ℕ) :
    (m.withUnlocked x).taken i = (!decide (i = x) && m.taken i) := test_clear _ _ _

/-- A page can be claimed exactly when it is in range and free. -/
private theorem claimPage_eq_ok_iff {msg : String} {charge : SystemMemory → SystemMemory} :
    claimPage msg charge m address = .ok m' ↔
      addrToPage address ≤ m.totalAvailablePages ∧ m.taken (addrToPage address) = false ∧
        m' = charge { m.rawSetPageBit (addrToPage address) with
          freeMemory := wsub m.freeMemory pageSize } := by
  by_cases hb : addrToPage address > m.totalAvailablePages
  · simp [claimPage, getPageBit, kpanic, hb, Nat.not_le.mpr hb]
  · cases ht : m.taken (addrToPage address) with
    | true => simp [claimPage, getPageBit, hb, ht]
    | false =>
      simp only [claimPage, getPageBit, setPageBit_eq, if_neg hb, ok_bind,
        rawGetPageBit_eq_one_iff, ht]
      simp only [Bool.false_eq_true, if_false, Except.ok.injEq, true_and, Nat.not_lt.mp hb]
      exact eq_comm

theorem reservePage_eq_ok_iff :
    m.reservePage address = .ok m' ↔
      addrToPage address ≤ m.totalAvailablePages ∧ m.taken (addrToPage address) = false ∧
        m' = m.withReserved (addrToPage address) := claimPage_eq_ok_iff

theorem lockPage_eq_ok_iff :
    m.lockPage address = .ok m' ↔
      addrToPage address ≤ m.totalAvailablePages ∧ m.taken (addrToPage address) = false ∧
        m' = m.withLocked (addrToPage address) := claimPage_eq_ok_iff

/-- A page can be given back exactly when it is in range and taken. -/
private theorem releasePage_eq_ok_iff {msg : String} {credit : SystemMemory → SystemMemory} :
    (m.getPageBit address >>= fun bit => if bit = 0#8 then kpanic msg else
        m.clearPageBit address >>= fun m => .ok (credit m)) = .ok m' ↔
      addrToPage address ≤ m.totalAvailablePages ∧ m.taken (addrToPage address) = true ∧
        m' = credit (m.rawClearPageBit (addrToPage address)) := by
  by_cases hb : addrToPage address > m.totalAvailablePages
  · simp [getPageBit, kpanic, hb, Nat.not_le.mpr hb]
  · cases ht : m.taken (addrToPage address) with
    | false => simp [getPageBit, hb, ht]
    | true =>
      simp only [getPageBit, clearPageBit, if_neg hb, ok_bind, rawGetPageBit_eq_zero_iff, ht]
      simp only [Bool.true_eq_false, if_false, Except.ok.injEq, true_and, Nat.not_lt.mp hb]
      exact eq_comm

theorem unlockPage_eq_ok_iff :
    m.unlockPage address = .ok m' ↔
      addrToPage address ≤ m.totalAvailablePages ∧ m.taken (addrToPage address) = true ∧
        m' = m.withUnlocked (addrToPage address) := releasePage_eq_ok_iff

theorem unreservePage_eq_ok_iff :
    m.unreservePage address = .ok m' ↔
      addrToPage address ≤ m.totalAvailablePages ∧ m.taken (addrToPage address) = true ∧
        m' = m.withUnreserved (addrToPage address) := releasePage_eq_ok_iff

/-! ### Ranges of pages -/

/-- The common loop of the four functions on `pages` pages from `address` on. -/
def eachPage (op : SystemMemory → ℕ → Outcome SystemMemory) (m : SystemMemory)
    (address pages : ℕ) : Outcome SystemMemory :=
  (List.range pages).foldlM (fun m i => op m (wrap (address + wrap (i <<< 12)))) m

/-- `reserve_pages`. The address is refused when it is negative as a signed number. -/
def reservePages (m : SystemMemory) (address pages : ℕ) : Outcome SystemMemory :=
  if 2 ^ 63 ≤ address then kpanic "NEGATIVE" else eachPage reservePage m address pages

/-- `unreserve_pages`. -/
def unreservePages : SystemMemory → ℕ → ℕ → Outcome SystemMemory := eachPage unreservePage

/-- `lock_pages`. -/
def lockPages : SystemMemory → ℕ → ℕ → Outcome SystemMemory := eachPage lockPage

/-- `unlock_pages`. -/
def unlockPages : SystemMemory → ℕ → ℕ → Outcome SystemMemory := eachPage unlockPage

/-- The last page of a range is handled after the others. -/
theorem eachPage_succ (op : SystemMemory → ℕ → Outcome SystemMemory) (m : SystemMemory)
    (address pages : ℕ) :
    eachPage op m address (pages + 1) =
      eachPage op m address pages >>= fun m => op m (wrap (address + wrap (pages <<< 12))) := by
  simp [eachPage, List.range_succ]

/-- What every call on one page keeps, a range of calls keeps. -/
theorem eachPage_keeps {α : Type} {f : SystemMemory → α}
    {op : SystemMemory → ℕ → Outcome SystemMemory}
    (hop : ∀ {m m' address}, op m address = .ok m' → f m' = f m) {pages : ℕ}
    (h : eachPage op m address pages = .ok m') : f m' = f m := by
  induction pages generalizing m' with
  | zero => rw [show m' = m from (Except.ok.inj h).symm]
  | succ pages ih =>
    rw [eachPage_succ, bind_eq_ok] at h
    obtain ⟨m₁, h₁, h⟩ := h
    rw [hop h, ih h₁]

end SystemMemory

/-! ### The two searches -/

/-- The allocator: the shared `memory` and the two `static` cursors `last_requested`, one of
`request_page` and one of `request_contiguous_pages`. -/
structure PageAllocator where
  memory : SystemMemory
  lastRequested : ℕ
  lastContiguous : ℕ

namespace PageAllocator

/-- One round of the `while` loop of the two searches, at the index `last`. -/
def searchBody (m : SystemMemory) (first last : ℕ) : Outcome (ℕ ⊕ ℕ) :=
  if m.rawGetPageBit last = 1#8 then
    let last := if last ≥ m.totalAvailablePages then 0 else last
    if last = first then kpanic "No free pages available!"
    else .ok (.inl (wrap (last + 1)))
  else .ok (.inr last)

/-- The `while` loop of the two searches: the index it stops at. -/
def search (m : SystemMemory) (first fuel last : ℕ) : Outcome ℕ :=
  loop (searchBody m first) fuel last

/-- `request_page`. -/
def requestPage (s : PageAllocator) (fuel : ℕ) : Outcome (PageAllocator × ℕ) := do
  let first := wsub s.lastRequested 1
  let last ← search s.memory first fuel s.lastRequested
  let m ← s.memory.lockPage (wrap (last <<< 12))
  if m.rawGetPageBit last = 0#8 then kpanic "Page not reserved!"
  else .ok ({ s with memory := m, lastRequested := last },
    wrap (m.firstAvailablePageAddr + wrap (last <<< 12)))

/-- `free_page`. -/
def freePage (s : PageAllocator) (addr : ℕ) : Outcome PageAllocator := do
  let normalicedAddress := wsub addr s.memory.firstAvailablePageAddr
  if addr < s.memory.firstAvailablePageAddr then kpanic "Page below active range"
  else if s.memory.rawGetPageBit (normalicedAddress >>> 12) = 0#8 then
    kpanic "page was not locked"
  else
    let m ← s.memory.unlockPage normalicedAddress
    if m.rawGetPageBit (normalicedAddress >>> 12) = 1#8 then kpanic "Page not freed!"
    else .ok { s with memory := m }

/-- The `for` loop of `request_contiguous_pages`: lock `num` pages from index `last` on. The
result has the index after the last one locked. -/
def lockRun (m : SystemMemory) (last : ℕ) : ℕ → Outcome (SystemMemory × ℕ)
  | 0 => .ok (m, last)
  | num + 1 =>
    if m.rawGetPageBit last = 1#8 then kpanic "Page already reserved!"
    else do
      let m ← m.lockPage (wrap (last <<< 12))
      lockRun m (wrap (last + 1)) num

/-- `request_contiguous_pages`. The address returned is computed from the cursor the call began
with. -/
def requestContiguousPages (s : PageAllocator) (num fuel : ℕ) :
    Outcome (PageAllocator × ℕ) := do
  let first := wsub s.lastContiguous 1
  let last := wsub s.lastContiguous 1
  let start ← search s.memory first fuel s.lastContiguous
  let (m, next) ← lockRun s.memory start num
  .ok ({ s with memory := m, lastContiguous := next },
    wrap (m.firstAvailablePageAddr + wrap (last <<< 12)))

/-- The `for` loop of `free_contiguous_pages`, from the `i`-th page on. -/
def unlockRun (m : SystemMemory) (normalicedAddress i : ℕ) : ℕ → Outcome SystemMemory
  | 0 => .ok m
  | num + 1 =>
    if m.rawGetPageBit (wrap ((normalicedAddress >>> 12) + i)) = 0#8 then
      kpanic "Page was not locked!"
    else do
      let m ← m.unlockPage (wrap (normalicedAddress + wrap (i <<< 12)))
      unlockRun m normalicedAddress (i + 1) num

/-- `free_contiguous_pages`. -/
def freeContiguousPages (s : PageAllocator) (address num : ℕ) : Outcome PageAllocator := do
  let normalicedAddress := wsub address s.memory.firstAvailablePageAddr
  if address < s.memory.firstAvailablePageAddr then kpanic "Page below active range!"
  else
    let m ← unlockRun s.memory normalicedAddress 0 num
    if m.rawGetPageBit (normalicedAddress >>> 12) = 1#8 then kpanic "Page not freed"
    else .ok { s with memory := m }

end PageAllocator

/-! ### Setting the allocator up -/

/-- An entry of the boot loader's memory map. -/
structure MemmapEntry where
  base : UInt64
  length : UInt64
  type : UInt64

/-- `MEMMAP_USABLE`. -/
def memmapUsable : UInt64 := 0

/-- `struct chunk_data`. -/
structure ChunkData where
  addr : ℕ
  size : ℕ

/-- `iterate_memory`: the callback on every entry of the map, in order. -/
def iterateMemory {α : Type} (callback : α → MemmapEntry → α) (map : List MemmapEntry)
    (global : α) : α := map.foldl callback global

/-- `get_total_memory_cb`. -/
def getTotalMemoryCb (total : ℕ) (e : MemmapEntry) : ℕ := wrap (total + e.length.toNat)

/-- `init_memory_cb`: keep the longest usable entry, the first one of several. -/
def initMemoryCb (chunk : ChunkData) (e : MemmapEntry) : ChunkData :=
  if e.type = memmapUsable then
    if e.length.toNat > chunk.size then { size := e.length.toNat, addr := e.base.toNat }
    else chunk
  else chunk

/-- `get_total_memory`. -/
def getTotalMemory (map : List MemmapEntry) : ℕ := iterateMemory getTotalMemoryCb map 0

/-- `ALIGN_ADDR`. -/
def alignAddr (x : ℕ) : ℕ :=
  if x % pageSize ≠ 0 then wrap (x + pageSize) / pageSize * pageSize else x

/-- `IS_ALIGNED`. -/
def isAligned (x : ℕ) : Bool := x % pageSize = 0

/-- `sizeof(struct system_memory)`, nine packed words. -/
def sizeofSystemMemory : ℕ := 72

/-- `sizeof(struct system_memory*)`. -/
def sizeofPointer : ℕ := 8

/-- The self test of `init_memory` on the pattern `0x55` in the first hundred bytes: every even
bit reads one, every odd bit zero. -/
def selfTest (b : Bytes) : Bool :=
  (List.range 100).all fun i => (List.range 8).all fun j =>
    if j % 2 = 1 then BitArray.get b (i * 8 + j) ≠ 1#8 else BitArray.get b (i * 8 + j) ≠ 0#8

/-- The pages `init_memory` reserves for its own data. -/
def usedSpace (availablePages : ℕ) : ℕ :=
  let bitfieldEntries :=
    if availablePages % 8 = 0 then availablePages >>> 3 else (availablePages >>> 3) + 1
  (bitfieldEntries + sizeofSystemMemory + (3 <<< 12)) >>> 12

/-- `init_memory`, on its first call. `junk` is what the machine left in the memory that becomes
the bitfield. -/
def initMemory (map : List MemmapEntry) (junk : Bytes) : Outcome PageAllocator := do
  let totalMemory := getTotalMemory map
  let totalPages := totalMemory >>> 12
  let chunk := iterateMemory initMemoryCb map { addr := 0, size := 0 }
  let firstAvailableAddress := alignAddr chunk.addr
  let lastAvailableAddress := alignAddr (wrap (chunk.addr + chunk.size))
  let availablePages := wsub lastAvailableAddress firstAvailableAddress >>> 12
  let bitfieldEntries :=
    if availablePages % 8 = 0 then availablePages >>> 3 else (availablePages >>> 3) + 1
  if chunk.size < bitfieldEntries + sizeofSystemMemory + (3 <<< 12) then
    kpanic "init_memory: not enough memory for memory bitfield"
  else
    let bitfieldAddress := alignAddr (wrap (firstAvailableAddress + sizeofPointer))
    let bitfield := junk.fill 0x55#8 100
    if !selfTest bitfield then kpanic "init_memory: GET_PAGE_BIT failed"
    else
      let bitfield := bitfield.fill 0#8 bitfieldEntries
      let memory : SystemMemory :=
        { totalAvailablePages := availablePages
          firstAvailablePageAddr := firstAvailableAddress
          lastAvailablePageAddress := lastAvailableAddress
          totalMemory := totalMemory
          totalPages := totalPages
          bitfield := bitfield
          freeMemory := wsub lastAvailableAddress firstAvailableAddress
          lockedMemory := 0
          reservedMemory := 0 }
      if !isAligned firstAvailableAddress || !isAligned bitfieldAddress then
        kpanic "Memory alignment error!"
      else do
        let memory ← memory.reservePages 0 (usedSpace availablePages)
        .ok { memory := memory, lastRequested := 0, lastContiguous := 0 }

end Bloodmoon
