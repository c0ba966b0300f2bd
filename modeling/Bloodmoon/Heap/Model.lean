import Bloodmoon.Machine.ByteMemory
import Bloodmoon.Memory.PageAllocator

/-!
# The heap

The model of `heap.c`: a heap that grows downwards, with a header before every block, all headers
in one doubly linked list. `next` leads to lower addresses and `last` to higher ones; the list
begins at `mainSegment`, an empty segment at the top that is never free, and ends at
`lastSegment`.

The memory is bytes, and a header is six fields in them (`segmentHeader`), so that a write to a
block that reached into a header would be seen. A page that is mapped holds whatever its frame
held before: `fresh` is that content, by virtual address. The address space of the model is the
current one; the second mapping that `_initHeap` and `expand_heap` make when the heap belongs to
another one does not change it. The spinlocks of `struct heap` belong to the callers and are left
out.
-/

namespace Bloodmoon

open Machine

/-- The fields of `struct heap_segment_header`. -/
inductive SegmentField where
  | free
  | length
  | next
  | last
  | isStack
  | signature
  deriving DecidableEq

/-- `struct heap_segment_header`, with its alignment to sixteen bytes. -/
def segmentHeader : Layout SegmentField where
  offset
    | .free => 0
    | .length => 8
    | .next => 16
    | .last => 24
    | .isStack => 32
    | .signature => 36
  width
    | .free => 1
    | .length => 8
    | .next => 8
    | .last => 8
    | .isStack => 1
    | .signature => 4
  size := 48

/-- `sizeof(struct heap_segment_header)`. -/
def sizeofHeader : ℕ := 48

/-- `HEAP_SIGNATURE`. -/
def heapSignature : ℕ := 0xcafebabe

/-- `PAGE_WRITE_BIT`. -/
def pageWriteBit : ℕ := 1

/-- `PAGE_USER_BIT`. -/
def pageUserBit : ℕ := 2

/-- `struct heap`. -/
structure Heap where
  heapEnd : ℕ
  lastStack : ℕ
  lastSegment : ℕ
  mainSegment : ℕ
  totalSize : ℕ
  usedSize : ℕ
  freeSize : ℕ
  isKernel : Bool
  ready : Bool

/-- A heap with the memory it lives in and the pages mapped for it, each with its flags. -/
structure HeapState extends Heap where
  mem : Bytes
  mapped : List (ℕ × ℕ)

namespace HeapState

variable (h : HeapState)

/-- A field of the header at `segment`. -/
def get (segment : ℕ) (f : SegmentField) : ℕ := segmentHeader.get h.mem segment f

/-- The state after a write to a field of the header at `segment`. -/
def set (segment : ℕ) (f : SegmentField) (v : ℕ) : HeapState :=
  { h with mem := segmentHeader.set h.mem segment f v }

/-- The state after the header at `segment` is cleared. -/
def clearHeader (segment : ℕ) : HeapState :=
  { h with mem := memset h.mem segment 0#8 sizeofHeader }

/-- A page request followed by `map_current_memory` of the page at `address`. -/
def mapPage (fresh : Bytes) (address flags : ℕ) : Outcome HeapState :=
  if address % pageSize ≠ 0 then
    kpanic "map_memory: virtual_memory must be aligned to 0x1000"
  else
    .ok { h with
      mem := fun x => if address ≤ x ∧ x < address + pageSize then fresh x else h.mem x
      mapped := (address, flags) :: h.mapped }

/-- `_initHeap`. -/
def initHeap (fresh : Bytes) (heapEnd stackEnd : ℕ) (user : Bool) :
    Outcome HeapState := do
  let perms := if user then pageWriteBit ||| pageUserBit else pageWriteBit
  let h := { h with heapEnd := wsub heapEnd pageSize }
  let h ← h.mapPage fresh h.heapEnd perms
  let h := { h with lastStack := wsub stackEnd pageSize }
  let h ← h.mapPage fresh h.lastStack perms
  let main := wrap (h.heapEnd + (pageSize - sizeofHeader))
  let h := { h with mainSegment := main }
  let h := h.set main .length 0
  let h := h.set main .free 0
  let h := h.set main .isStack 0
  let h := h.set main .last 0
  let h := h.set main .signature heapSignature
  let h := h.set main .next (wrap (wsub main pageSize + sizeofHeader))
  let next := h.get main .next
  let h := h.set next .free 1
  let h := h.set next .isStack 0
  let h := h.set next .length (pageSize - sizeofHeader - sizeofHeader)
  let h := h.set next .last main
  let h := h.set next .next 0
  let h := h.set next .signature heapSignature
  .ok { h with
    lastSegment := next
    totalSize := wrap (h.totalSize + pageSize)
    freeSize := wrap (h.freeSize + pageSize)
    isKernel := !user
    ready := true }

/-- `splitSegment`: cut `size` bytes with a header off the high end of the segment. -/
def splitSegment (segment size : ℕ) : Outcome (HeapState × ℕ) :=
  if h.get segment .length ≤ wrap (size + sizeofHeader) then .ok (h, 0)
  else if h.get segment .signature ≠ heapSignature then
    kpanic "Invalid heap segment signature split"
  else
    let newSegment := wsub (wrap (segment + h.get segment .length)) size
    let h := h.clearHeader newSegment
    let h := h.set newSegment .free 1
    let h := h.set newSegment .length size
    let h := h.set newSegment .isStack 0
    let h := h.set newSegment .next segment
    let h := h.set newSegment .signature heapSignature
    let h := h.set newSegment .last (h.get segment .last)
    let h := if h.get segment .next = 0 then { h with lastSegment := segment } else h
    let h := if h.get segment .last ≠ 0 then h.set (h.get segment .last) .next newSegment else h
    let h := h.set segment .last newSegment
    let h := h.set segment .length (wsub (h.get segment .length) (wrap (size + sizeofHeader)))
    .ok (h, newSegment)

/-- What `_malloc` does with a segment it has found: mark it used, and count it. -/
def claimSegment (segment : ℕ) : HeapState × ℕ :=
  let h := h.set segment .free 0
  let h := { h with
    usedSize := wrap (h.usedSize + wrap (h.get segment .length + sizeofHeader))
    freeSize := wsub h.freeSize (wrap (h.get segment .length + sizeofHeader)) }
  (h, wrap (segment + sizeofHeader))

/-- One round of the `while` loop of `_malloc`, at the segment `current`. The loop is left with
the state and the address to return, or with nothing at the end of the list. -/
def mallocBody (size current : ℕ) : Outcome (ℕ ⊕ Option (HeapState × ℕ)) :=
  let walkOn : Outcome (ℕ ⊕ Option (HeapState × ℕ)) :=
    if h.get current .next = 0 then .ok (.inr none)
    else if h.get current .next = current then kpanic "Current segment cycle\n"
    else .ok (.inl (h.get current .next))
  if h.get current .signature ≠ heapSignature then
    kpanic "Invalid heap segment signature malloc"
  else if h.get current .free ≠ 0 then
    if h.get current .length > wrap (size + sizeofHeader) then do
      let (h, segment) ← h.splitSegment current size
      .ok (.inr (some (h.claimSegment segment)))
    else if h.get current .length = size then .ok (.inr (some (h.claimSegment current)))
    else walkOn
  else walkOn

/-- The loop of `expand_heap` over its pages. -/
def growPages (h : HeapState) (fresh : Bytes) (perms : ℕ) : ℕ → Outcome HeapState
  | 0 => .ok h
  | pages + 1 => do
    let h := { h with heapEnd := wsub h.heapEnd pageSize }
    let h ← h.mapPage fresh h.heapEnd perms
    if h.heapEnd = 0 then kpanic "Failed to expand heap" else h.growPages fresh perms pages

/-- The number of bytes `expand_heap` adds for a request of `length` bytes. -/
def expandLength (length : ℕ) : ℕ :=
  let length := wrap (length + sizeofHeader)
  if length % pageSize ≠ 0 then wrap (length - length % pageSize + pageSize) else length

/-- `expand_heap` after its pages are mapped: the header of the new segment, at `heapEnd`, and its
links. A free segment at the end of the list is merged into the new one; the header it had is
subtracted although the new header has taken its place in the sum. -/
def linkNewSegment (length : ℕ) : HeapState :=
  let newSegment := h.heapEnd
  let last := h.lastSegment
  let h :=
    if last ≠ 0 ∧ h.get last .free ≠ 0 ∧ h.get last .last ≠ 0 then
      let size := wrap (h.get last .length + length)
      let h := h.set newSegment .length (wsub size sizeofHeader)
      let h := h.set newSegment .free 1
      let h := h.set newSegment .isStack 0
      let h := h.set newSegment .signature heapSignature
      let h := h.set newSegment .last (h.get last .last)
      let h := h.set (h.get newSegment .last) .next newSegment
      let h := h.set newSegment .next 0
      { h with lastSegment := newSegment }
    else
      let h := h.set newSegment .length (wsub length sizeofHeader)
      let h := h.set newSegment .free 1
      let h := h.set newSegment .isStack 0
      let h := h.set newSegment .signature heapSignature
      let h := h.set newSegment .last last
      let h := h.set newSegment .next 0
      let h := if last ≠ 0 then h.set last .next newSegment else h
      { h with lastSegment := newSegment }
  { h with
    totalSize := wrap (h.totalSize + wrap (length + sizeofHeader))
    freeSize := wrap (h.freeSize + wrap (length + sizeofHeader)) }

/-- `expand_heap`. -/
def expandHeap (fresh : Bytes) (length : ℕ) : Outcome HeapState := do
  let length := expandLength length
  let pages := length / pageSize + if length % pageSize ≠ 0 then 1 else 0
  let perms := if h.isKernel then pageWriteBit else pageWriteBit ||| pageUserBit
  let h ← h.growPages fresh perms pages
  .ok (h.linkNewSegment length)

/-- The loop of `_stackalloc` over its pages. -/
def stackPages (h : HeapState) (fresh : Bytes) (perms : ℕ) : ℕ → Outcome HeapState
  | 0 => .ok h
  | pages + 1 => do
    let h := { h with lastStack := wsub h.lastStack pageSize }
    let h ← h.mapPage fresh h.lastStack perms
    if h.lastStack = 0 then kpanic "Out of memory" else h.stackPages fresh perms pages

/-- `_stackalloc`. The page below the stack is left out. -/
def stackalloc (fresh : Bytes) (length : ℕ) : Outcome (HeapState × ℕ) := do
  let pages := length / pageSize + if length % pageSize ≠ 0 then 1 else 0
  let perms := if h.isKernel then pageWriteBit else pageWriteBit ||| pageUserBit
  let h ← h.stackPages fresh perms pages
  .ok ({ h with lastStack := wsub h.lastStack pageSize }, h.lastStack)

/-- `size` rounded up to a multiple of sixteen, as `_malloc` does it. -/
def roundSize (size : ℕ) : ℕ := if size % 0x10 > 0 then wrap (size - size % 0x10 + 0x10) else size

/-- `_malloc`. The fuel bounds both the walk over the list and the calls of itself after the
heap has been expanded. -/
def malloc (h : HeapState) (fresh : Bytes) (size : ℕ) : ℕ → Outcome (HeapState × ℕ)
  | 0 => .error .timeout
  | fuel + 1 =>
    if !h.ready then .ok (h, 0)
    else if size = 0 then .ok (h, 0)
    else do
      let size := roundSize size
      match ← loop (h.mallocBody size) (fuel + 1) h.mainSegment with
      | some r => .ok r
      | none =>
        let h ← h.expandHeap fresh size
        h.malloc fresh size fuel

/-- `_calloc`. -/
def calloc (fresh : Bytes) (num size fuel : ℕ) : Outcome (HeapState × ℕ) :=
  if !h.ready then .ok (h, 0)
  else do
    let (h, ptr) ← h.malloc fresh (wrap (num * size)) fuel
    .ok ({ h with mem := memset h.mem ptr 0#8 (wrap (num * size)) }, ptr)

/-- `MergeThisToNext`. -/
def mergeThisToNext (header : ℕ) : HeapState :=
  let next := h.get header .next
  let h := h.set next .length
    (wrap (h.get next .length + wrap (h.get header .length + sizeofHeader)))
  let h := h.set next .last (h.get header .last)
  let h := h.set (h.get header .last) .next next
  h.clearHeader header

/-- `MergeLastToThis`. -/
def mergeLastToThis (header : ℕ) : HeapState :=
  let last := h.get header .last
  let h := h.set header .length
    (wrap (h.get header .length + wrap (h.get last .length + sizeofHeader)))
  let h := h.set header .last (h.get last .last)
  let h := h.set (h.get header .last) .next header
  h.clearHeader last

/-- `MergeLastAndThisToNext`. -/
def mergeLastAndThisToNext (header : ℕ) : HeapState :=
  (h.mergeLastToThis header).mergeThisToNext header

/-- `_free`. -/
def free (address : ℕ) : Outcome HeapState :=
  if !h.ready then .ok h
  else if address = 0 then .ok h
  else
    let header := wsub address sizeofHeader
    if h.get header .signature ≠ heapSignature then kpanic "Invalid free, signature"
    else if h.get header .free ≠ 0 then kpanic "Invalid free, double free"
    else
      let h := h.set header .free 1
      let h := { h with
        freeSize := wrap (h.freeSize + wrap (h.get header .length + sizeofHeader))
        usedSize := wsub h.usedSize (wrap (h.get header .length + sizeofHeader)) }
      let next := h.get header .next
      let last := h.get header .last
      if (next ≠ 0 ∧ last ≠ 0) ∧ h.get next .free ≠ 0 ∧ h.get last .free ≠ 0 then
        .ok (h.mergeLastAndThisToNext header)
      else if last ≠ 0 ∧ h.get last .free ≠ 0 then .ok (h.mergeLastToThis header)
      else if next ≠ 0 ∧ h.get next .free ≠ 0 then .ok (h.mergeThisToNext header)
      else .ok h

/-- `_realloc`. -/
def realloc (fresh : Bytes) (buffer size fuel : ℕ) : Outcome (HeapState × ℕ) :=
  if !h.ready then .ok (h, 0)
  else do
    let (h, newBuffer) ← h.malloc fresh size fuel
    if newBuffer = 0 then .ok (h, 0)
    else if buffer = 0 then .ok (h, newBuffer)
    else
      let oldSize := h.get (wsub buffer sizeofHeader) .length
      let oldSize := if size < oldSize then size else oldSize
      let h := { h with mem := memcpy h.mem newBuffer buffer oldSize }
      let h ← h.free buffer
      .ok (h, newBuffer)

end HeapState

end Bloodmoon
