import Bloodmoon.Heap.Run

/-!
# The length of a block against the size of its request

`_malloc` rounds the size up to a multiple of sixteen before it looks for a segment, and `_calloc`
multiplies its arguments first, both modulo `2 ^ 64`. A block is as long as the request when
neither leaves the range of a word. When one does, the block is shorter: a request for
`2 ^ 64 - 1` bytes is rounded to zero, and gets a block of zero bytes.
-/

namespace Bloodmoon

open Machine Machine.Segment HeapState

/-- The word that the call passes to `_malloc` leaves room for a header and a page once it is
rounded. The product and the rounding themselves may have overflowed. -/
def HeapOp.Rounds : HeapOp → Prop
  | .malloc size => size < 2 ^ 64 ∧ roundSize size + 4143 < 2 ^ 64
  | .calloc num size => roundSize (wrap (num * size)) + 4143 < 2 ^ 64
  | .realloc _ _ => False
  | .free _ => False
  | .write => False

/-- Rounding gives at least the size exactly when nothing overflows. -/
theorem le_roundSize_iff {size : ℕ} (hround : roundSize (wrap size) + 4143 < 2 ^ 64) :
    size ≤ roundSize (wrap size) ↔ NoOverflow size := by
  have h48 : sizeofHeader = 48 := rfl
  have h4095 : pageSize - 1 = 4095 := rfl
  constructor
  · intro hle
    unfold NoOverflow
    rw [h48, h4095, pageSize_eq]
    have hwrap : wrap size = size := wrap_of_lt (by omega)
    unfold roundSize wrap at hle hround
    split_ifs at hle hround <;> omega
  · intro hok
    have hlt := hok.lt
    rw [wrap_of_lt (by omega), hok.roundSize_eq]
    omega

namespace HeapInv

variable {h h' : HeapState} {segs : List Segment} {fresh : Bytes} {size fuel p : ℕ}

/-- **The block of a request has the rounded size.** -/
theorem blockLength_malloc (hinv : HeapInv h segs) (hround : roundSize size + 4143 < 2 ^ 64)
    (hok : h.malloc fresh size fuel = .ok (h', p)) (hp : p ≠ 0) :
    h'.blockLength p = roundSize size ∧ wsub p sizeofHeader + sizeofHeader = p := by
  have hsize : size ≠ 0 := by
    rintro rfl
    exact hp (eq_of_malloc_zero hok).2.symm
  obtain ⟨segs', r, halloc, hinv', -, rfl⟩ := hinv.malloc hsize hround hok
  cases r with
  | none => exact absurd rfl hp
  | some c =>
    have hmem : (⟨c, roundSize size, false⟩ : Segment) ∈ segs' :=
      (halloc.mem_iff rfl).mpr (.inr ⟨rfl, rfl⟩)
    have hheader := hinv'.wsub_header hmem
    have hlength := hinv'.blockLength_eq hmem
    rw [blockAddr, hheader]
    exact ⟨hlength, rfl⟩

/-- Clearing a block spares its header. -/
theorem blockLength_calloc {num : ℕ} (hinv : HeapInv h segs)
    (hround : roundSize (wrap (num * size)) + 4143 < 2 ^ 64)
    (hok : h.calloc fresh num size fuel = .ok (h', p)) (hp : p ≠ 0) :
    h'.blockLength p = roundSize (wrap (num * size)) := by
  simp only [HeapState.calloc, hinv.ready, Bool.not_true, Bool.false_eq_true, if_false] at hok
  obtain ⟨⟨h₁, q⟩, hmalloc, hok⟩ := bind_eq_ok.mp hok
  obtain ⟨rfl, rfl⟩ := ok_inj hok
  obtain ⟨hlen, hheader⟩ := hinv.blockLength_malloc hround hmalloc hp
  rw [← hlen]
  exact Layout.get_congr (sameOn_memset _ _ (.inl (Nat.le_of_eq hheader))) _

end HeapInv

/-- A block that was asked for is held. -/
theorem Call.mem_live {op : HeapOp} {σ σ' : Session} {p size : ℕ} (hcall : Call op σ σ' p)
    (hsize : size ∈ op.request) (hp : p ≠ 0) : (⟨p, size⟩ : Block) ∈ σ'.live := by
  cases hcall with
  | malloc hok =>
    obtain rfl := Option.some.inj hsize
    simp [grant, hp]
  | calloc hok =>
    obtain rfl := Option.some.inj hsize
    simp [grant, hp]
  | realloc hbuffer hok =>
    obtain rfl := Option.some.inj hsize
    simp [grant, hp]
  | free hb hok => exact absurd hsize (by simp [HeapOp.request])
  | write hb hsame => exact absurd hsize (by simp [HeapOp.request])

/-- **A block is as long as its request when no size overflows.** From a heap set up by
`_initHeap`, after any calls whose sizes do not overflow, a call that returns a block returns one
of the length that was asked for if its own size does not overflow. For `_malloc` and `_calloc`
this is exact, as long as the rounded word leaves room for a header and a page. -/
theorem blockLength_iff {h₀ h : HeapState} {fresh : Bytes} {heapEnd stackEnd : ℕ} {user : Bool}
    {σ σ' : Session} {op : HeapOp} {p size : ℕ} (hlt : heapEnd < 2 ^ 64)
    (hne : heapEnd ≠ pageSize) (hinit : h₀.initHeap fresh heapEnd stackEnd user = .ok h)
    (hrun : HeapRun (fun op _ => op.Bounded) ⟨h, []⟩ σ) (hcall : Call op σ σ' p)
    (hsize : size ∈ op.request) (hp : p ≠ 0) :
    (NoOverflow size → size ≤ σ'.heap.blockLength p) ∧
      (op.Rounds → (size ≤ σ'.heap.blockLength p ↔ NoOverflow size)) := by
  obtain ⟨segs, hσ⟩ := (Tracks.init hlt hne hinit).run (fun _ _ hok => hok) hrun
  constructor
  · intro hbounded
    have hop : op.Bounded := fun n hn => by
      obtain rfl := Option.mem_unique hsize hn
      exact hbounded
    obtain ⟨segs', -, hσ', -⟩ := hσ.call hop hcall
    obtain ⟨s, hs, -, -, haddr, hlong⟩ := hσ'.owns.held _ (hcall.mem_live hsize hp)
    have haddr : p = s.addr + sizeofHeader := haddr
    rw [haddr, hσ'.inv.blockLength_eq hs]
    exact hlong
  · intro hround
    have hinv := hσ.inv
    cases hcall with
    | malloc hok =>
      obtain rfl := Option.some.inj hsize
      obtain ⟨hword, hround⟩ := hround
      rw [(hinv.blockLength_malloc hround hok hp).1]
      rw [← wrap_of_lt hword] at hround
      have := le_roundSize_iff hround
      rwa [wrap_of_lt hword] at this
    | calloc hok =>
      obtain rfl := Option.some.inj hsize
      rw [hinv.blockLength_calloc hround hok hp]
      exact le_roundSize_iff hround
    | realloc hbuffer hok => exact hround.elim
    | free hb hok => exact hround.elim
    | write hb hsame => exact hround.elim

theorem blockLength_kernelHeap : ∃ h σ' p, kernelHeap = .ok h ∧
    Call (.calloc 10 10) ⟨h, []⟩ σ' p ∧ p ≠ 0 ∧ 100 ≤ σ'.heap.blockLength p := by
  obtain ⟨h, hinit, ⟨h₁, _⟩, hcalloc, rfl⟩ : ∃ h, kernelHeap = .ok h ∧
      ∃ r, h.calloc (fun _ => 0#8) 10 10 8 = .ok r ∧ r.2 = 0xffffffff6fffef60 := by
    decide +kernel
  have hcall : Call (.calloc 10 10) ⟨h, []⟩ _ 0xffffffff6fffef60 := .calloc hcalloc
  exact ⟨h, _, _, hinit, hcall, by decide,
    (blockLength_iff (by decide) (by decide) hinit .refl hcall rfl (by decide)).1 (by decide)⟩

/-- A request for `2 ^ 64 - 1` bytes on a new heap returns a block of zero bytes. -/
theorem blockLength_wraps_kernelHeap : ∃ h σ' p, kernelHeap = .ok h ∧
    Call (.malloc (2 ^ 64 - 1)) ⟨h, []⟩ σ' p ∧ p ≠ 0 ∧ σ'.heap.blockLength p = 0 := by
  obtain ⟨h, hinit, ⟨h₁, p⟩, hmalloc, hne, hlen⟩ : ∃ h, kernelHeap = .ok h ∧
      ∃ r, h.malloc (fun _ => 0#8) (2 ^ 64 - 1) 8 = .ok r ∧ r.2 ≠ 0 ∧
        r.1.blockLength r.2 = 0 := by
    decide +kernel
  exact ⟨h, _, _, hinit, .malloc hmalloc, hne, hlen⟩

end Bloodmoon
