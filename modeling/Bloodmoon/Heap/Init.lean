import Bloodmoon.Heap.Invariant

/-!
# The heap after `_initHeap`

`_initHeap` maps one page below `heapEnd` and puts two headers into it: the main segment at its
end and a free segment over the rest. The invariant holds from there on, unless the page is the
one at address zero, where the first segment would be at the null address.
-/

namespace Bloodmoon

open Machine Machine.Segment List

variable {e heapEnd stackEnd : ℕ} {h h' : HeapState} {fresh : Bytes} {user : Bool}

/-- The memory after the two headers are written into the page at `e`. -/
def initMem (m : Bytes) (main e : ℕ) : Bytes :=
  let m := segmentHeader.set m main .length 0
  let m := segmentHeader.set m main .free 0
  let m := segmentHeader.set m main .isStack 0
  let m := segmentHeader.set m main .last 0
  let m := segmentHeader.set m main .signature heapSignature
  let m := segmentHeader.set m main .next e
  let m := segmentHeader.set m e .free 1
  let m := segmentHeader.set m e .isStack 0
  let m := segmentHeader.set m e .length (pageSize - sizeofHeader - sizeofHeader)
  let m := segmentHeader.set m e .last main
  let m := segmentHeader.set m e .next 0
  segmentHeader.set m e .signature heapSignature

/-- The segments of a new heap. -/
def initList (main e : ℕ) : List Segment :=
  [⟨main, 0, false⟩, ⟨e, pageSize - sizeofHeader - sizeofHeader, true⟩]

theorem holdsList_initMem {m : Bytes} {main : ℕ} (hmain : main < 2 ^ 64)
    (hroom : e + sizeofHeader ≤ main) : HoldsList (initMem m main e) (initList main e) := by
  have he : e < 2 ^ 64 := by omega
  have hapart : segmentHeader.Apart e main := .inl hroom
  refine ⟨⟨?_, ?_, ?_, ?_, ?_⟩, ⟨?_, ?_, ?_, ?_, ?_⟩, trivial⟩
  all_goals simp (disch := first | assumption | decide) only [initMem,
    Layout.get_set_of_apart _ hapart, get_set_word, get_set_free, get_set_signature,
    Layout.get_set_of_ne, firstAddr_cons, Bool.toNat_false, Bool.toNat_true]
  all_goals rfl

theorem mapPage_eq_ok_iff {address flags : ℕ} :
    h.mapPage fresh address flags = .ok h' ↔
      address % pageSize = 0 ∧ h' = { h with
        mem := fun x => if address ≤ x ∧ x < address + pageSize then fresh x else h.mem x
        mapped := (address, flags) :: h.mapped } := by
  rw [HeapState.mapPage]
  split_ifs with halign
  · exact iff_of_false kpanic_ne_ok fun hc => halign hc.1
  · rw [Except.ok.injEq, eq_comm]
    exact ⟨fun heq => ⟨not_not.mp halign, heq⟩, fun hc => hc.2⟩

/-- The state after `_initHeap`: the page of the heap at `e`, with the main segment at `main`, and
the page of the stack at `stack`. -/
def initState (h : HeapState) (m : Bytes) (main e stack : ℕ) (user : Bool) : HeapState where
  heapEnd := e
  lastStack := stack
  lastSegment := e
  mainSegment := main
  totalSize := wrap (h.totalSize + pageSize)
  usedSize := h.usedSize
  freeSize := wrap (h.freeSize + pageSize)
  isKernel := !user
  ready := true
  mem := initMem m main e
  mapped :=
    let perms := if user then pageWriteBit ||| pageUserBit else pageWriteBit
    (stack, perms) :: (e, perms) :: h.mapped

/-- **What `_initHeap` leaves behind**, if it returns. -/
theorem initHeap_eq_ok (he : wsub heapEnd pageSize = e) (hpos : e ≠ 0)
    (hok : h.initHeap fresh heapEnd stackEnd user = .ok h') :
    e % pageSize = 0 ∧ wsub stackEnd pageSize % pageSize = 0 ∧ ∃ main m,
      main + sizeofHeader = e + pageSize ∧
      h' = initState h m main e (wsub stackEnd pageSize) user := by
  rw [HeapState.initHeap, he] at hok
  obtain ⟨h₁, hheap, hok⟩ := bind_eq_ok.mp hok
  obtain ⟨h₂, hstack, hok⟩ := bind_eq_ok.mp hok
  obtain ⟨halign, rfl⟩ := mapPage_eq_ok_iff.mp hheap
  obtain ⟨hstackAlign, rfl⟩ := mapPage_eq_ok_iff.mp hstack
  have hlt : e < 2 ^ 64 := he ▸ wsub_lt _ _
  -- the main segment is the last header of the page, and the free segment begins the page
  obtain ⟨main, hmain, hsum, hnext, hmainlt⟩ : ∃ main, wrap (e + (pageSize - sizeofHeader)) = main ∧
      main + sizeofHeader = e + pageSize ∧ wrap (wsub main pageSize + sizeofHeader) = e ∧
      main < 2 ^ 64 := by
    have h48 : sizeofHeader = 48 := rfl
    simp only [pageSize_eq, h48] at *
    refine ⟨e + 4048, wrap_of_lt (by omega), rfl, ?_, by omega⟩
    rw [wsub_of_le (by omega) (by omega), wrap_of_lt (by omega)]
    omega
  simp only [HeapState.set, HeapState.get, hmain, hnext, get_set_word (f := .next) rfl hlt,
    Except.ok.injEq]
    at hok
  exact ⟨halign, hstackAlign, main, _, hsum, hok.symm⟩

/-- The first page is not the one at address zero. -/
theorem wsub_pageSize_ne_zero (hlt : heapEnd < 2 ^ 64) (hne : heapEnd ≠ pageSize) :
    wsub heapEnd pageSize ≠ 0 := by
  rw [pageSize_eq] at hne ⊢
  unfold wsub
  omega

/-- **A new heap has the invariant**, and one page. -/
theorem HeapInv.init (hlt : heapEnd < 2 ^ 64) (hne : heapEnd ≠ pageSize)
    (hok : h.initHeap fresh heapEnd stackEnd user = .ok h') :
    HeapInv h' (initList h'.mainSegment h'.heapEnd) ∧
      h'.mainSegment + sizeofHeader = h'.heapEnd + pageSize := by
  obtain ⟨e, he⟩ : ∃ e, wsub heapEnd pageSize = e := ⟨_, rfl⟩
  have hpos : e ≠ 0 := he ▸ wsub_pageSize_ne_zero hlt hne
  obtain ⟨halign, -, main, m, hmain, rfl⟩ := initHeap_eq_ok he hpos hok
  have helt : e < 2 ^ 64 := he ▸ wsub_lt _ _
  have h4096 := pageSize_eq
  have he4096 : e % 4096 = 0 := halign
  have hlen : pageSize - sizeofHeader - sizeofHeader = 4000 := rfl
  change HeapInv _ (initList main e) ∧ _
  refine ⟨⟨⟨?_, ?_, ⟨_, cons_ne_nil _ _, rfl⟩, rfl, rfl, ?_, ?_⟩, rfl, ?_, ?_, halign, ?_, ?_⟩,
    hmain⟩
  · exact holdsList_initMem (by omega) (by omega)
  · simp only [initList, isChain_cons_cons, isChain_singleton, and_true]
    change e + sizeofHeader + (pageSize - sizeofHeader - sizeofHeader) ≤ main
    omega
  · exact Nat.pos_of_ne_zero hpos
  · change main + sizeofHeader ≤ 2 ^ 64
    omega
  · simp only [initList, forall_mem_cons, not_mem_nil, false_imp_iff, implies_true, and_true]
    omega
  · simp [initList, NotBothFree]
  · change (main + sizeofHeader) % pageSize = 0
    rwa [hmain, Nat.add_mod_right]
  · intro a hle hlt
    change e ≤ a at hle
    change a < main + sizeofHeader at hlt
    obtain rfl : a / pageSize * pageSize = e := by
      rw [h4096]
      omega
    exact ⟨_, mem_cons_of_mem _ mem_cons_self⟩

end Bloodmoon
