import Bloodmoon.Heap.Tiling

/-!
# The contents of the blocks

The headers that the heap writes stand between the bytes of its clients. Splitting and merging
write to headers and to free segments, growing writes to new pages and to headers, so that no call
changes a block that is held, the block apart that is the call's own. `_realloc` takes the bytes of
the old block along.
-/

namespace Bloodmoon

open Machine Machine.Segment HeapState List

/-- The bytes of the segments in use are the same in both states. -/
def Untouched (segs : List Segment) (h h' : HeapState) : Prop :=
  ∀ t ∈ segs, t.free = false → SameOn h.mem h'.mem (t.addr + sizeofHeader) t.length

section Untouched

variable {h h' h'' : HeapState} {segs segs' xs ys : List Segment} {s p t : Segment}
  {fresh : Bytes} {n size fuel a : ℕ}

theorem Untouched.trans (h₁ : Untouched segs h h') (h₂ : Untouched segs' h' h'')
    (hmem : ∀ t ∈ segs, t.free = false → t ∈ segs') : Untouched segs h h'' :=
  fun t ht hused => (h₁ t ht hused).trans (h₂ t (hmem t ht hused) hused)

/-- A byte of a block is in no header. -/
theorem outside_header (habove : segs.IsChain (Above sizeofHeader)) (ht : t ∈ segs) (hs : s ∈ segs)
    {x : ℕ} (hx : t.addr + sizeofHeader ≤ x) (hlt : x < t.addr + sizeofHeader + t.length) :
    x < s.addr ∨ s.addr + sizeofHeader ≤ x := by
  rcases eq_or_apart_of_mem habove ht hs with rfl | hbelow | hover
  · exact .inr hx
  · exact .inl (Nat.lt_of_lt_of_le hlt hbelow)
  · unfold stop at hover
    exact .inr (by omega)

/-- What only writes to headers spares the blocks. -/
theorem HeaderEdit.untouched (habove : segs.IsChain (Above sizeofHeader))
    (hedit : HeaderEdit h.mem h'.mem segs segs') : Untouched segs h h' :=
  fun _ ht _ x hx hlt => hedit.outside x fun _ hs => outside_header habove ht hs hx hlt

/-- **Serving a request** writes to the headers around a free segment and into it. -/
theorem HeapInv.serve_untouched (hinv : HeapInv h (xs ++ s :: ys)) (hn : n + sizeofHeader < 2 ^ 64)
    (hfits : s.Fits sizeofHeader n) (hbody : h.mallocBody n s.addr = .ok (.inr (some (h', a)))) :
    Untouched (xs ++ s :: ys) h h' := by
  obtain ⟨hfree, hlen⟩ := hfits
  obtain ⟨ws, p, rfl⟩ := hinv.exists_above (hinv.ne_main_of_free (by simp) hfree)
  have hrep := hinv.rep
  rw [append_assoc] at hrep ⊢
  intro t ht hused x hx hlt
  have hts : x < s.addr ∨ s.addr + sizeofHeader + s.length ≤ x := by
    rcases eq_or_apart_of_mem hrep.above ht (y := s) (by simp) with rfl | hbelow | hover
    · exact absurd (hused.symm.trans hfree) (by decide)
    · exact .inl (Nat.lt_of_lt_of_le hlt hbelow)
    · unfold stop at hover
      exact .inr (by omega)
  have htp := outside_header hrep.above ht (s := p) (by simp) hx hlt
  by_cases hcut : n + sizeofHeader < s.length
  · rw [mallocBody_of_lt hrep hfree hcut] at hbody
    have hclaim := Option.some.inj (Sum.inr.inj (Except.ok.inj hbody))
    obtain rfl := (congrArg Prod.fst hclaim).symm
    -- the new header lies inside the segment that is cut
    have hc : (carved s n).addr = s.addr + s.length - n := rfl
    simp (disch := omega) only [HeapState.claimSegment, HeapState.set, Represents.splitMem,
      set_apply, memset_apply_of_outside]
  · obtain ⟨-, hnode, -⟩ := hrep.nodes [s]
    rw [mallocBody_of_eq hnode hn hfree (hlen.resolve_left hcut)] at hbody
    have hclaim := Option.some.inj (Sum.inr.inj (Except.ok.inj hbody))
    obtain rfl := (congrArg Prod.fst hclaim).symm
    simp (disch := omega) only [HeapState.claimSegment, HeapState.set, set_apply]

/-- **Growing** writes to new pages and to the headers at the end of the list. -/
theorem HeapInv.grow_untouched (hinv : HeapInv h segs) (hn : n + 4143 < 2 ^ 64)
    (hok : h.expandHeap fresh n = .ok h') : Untouched segs h h' := by
  obtain ⟨xs, p, t, rfl⟩ := hinv.rep.exists_last
  obtain ⟨e, -, hend, rfl⟩ := (hinv.rep.expandHeap_eq_ok_iff hinv.pages hn).mp hok
  intro u hu hused x hx hlt
  have hlow := (hinv.rep.bounds hu).1
  have hp := outside_header hinv.rep.above hu (s := p) (by simp) hx hlt
  have ht := outside_header hinv.rep.above hu (s := t) (by simp) hx hlt
  have hold : (grown h fresh h.perms e (expandLength n / pageSize)).mem x = h.mem x :=
    if_neg (by omega)
  rw [← hold]
  cases hfree : t.free with
  | true =>
    simp (disch := omega) only [expanded, hfree, if_true, replaceMem, set_apply]
  | false =>
    simp (disch := omega) only [expanded, hfree, Bool.false_eq_true, if_false, appendMem, set_apply]

/-- **`_malloc` spares the blocks in use.** -/
theorem HeapInv.malloc_untouched (hinv : HeapInv h segs) (hsize : size ≠ 0)
    (hn : roundSize size + 4143 < 2 ^ 64) (hok : h.malloc fresh size fuel = .ok (h', a)) :
    Untouched segs h h' := by
  have h48 : sizeofHeader = 48 := rfl
  -- the fuel goes down with each growth of the heap
  induction fuel generalizing h segs size with
  | zero => cases hok
  | succ fuel ih =>
    have hround := roundSize_roundSize size
    have hcases := hinv.malloc_cases hsize hn hok
    generalize roundSize size = n at *
    rcases hcases with ⟨xs, s, ys, rfl, -, hfits, hbody⟩ | ⟨hnone, h₁, hexp, hok⟩
    · exact hinv.serve_untouched (by omega) hfits hbody
    · have hgrow := hinv.grow_untouched hn hexp
      obtain ⟨xs, p, t, e, rfl, -, -, hinv₁⟩ := hinv.grow hn hexp
      by_cases hn0 : n = 0
      · subst hn0
        obtain ⟨rfl, -⟩ := eq_of_malloc_zero hok
        exact hgrow
      · exact hgrow.trans (ih hinv₁ hn0 (by omega) hok) fun t ht hused =>
          (mem_extend_iff hused).mpr ht

end Untouched

/-! ### Blocks across calls -/

/-- The block is held in both sessions, as long and with the same bytes. -/
structure Keeps (σ σ' : Session) (b : Block) : Prop where
  live : b ∈ σ'.live
  length : σ'.heap.blockLength b.addr = σ.heap.blockLength b.addr
  bytes : SameOn σ.heap.mem σ'.heap.mem b.addr (σ.heap.blockLength b.addr)

theorem Keeps.trans {σ σ' σ'' : Session} {b : Block} (h : Keeps σ σ' b) (h' : Keeps σ' σ'' b) :
    Keeps σ σ'' b :=
  ⟨h'.live, h'.length.trans h.length, h.bytes.trans (h.length ▸ h'.bytes)⟩

namespace Tracks

variable {h h' : HeapState} {live live' : List Block} {segs segs' : List Segment} {fresh : Bytes}
  {size fuel p : ℕ} {b c : Block}
variable {m : Bytes}

/-- A block whose segment is in both lists, with its bytes untouched, is kept. -/
private theorem keeps {σ σ' : Session} (hσ : Tracks σ segs) (hσ' : Tracks σ' segs') {s : Segment}
    (hs : s ∈ segs) (hs' : s ∈ segs') (haddr : b.addr = s.addr + sizeofHeader)
    (hb : b ∈ σ'.live)
    (hbytes : SameOn σ.heap.mem σ'.heap.mem (s.addr + sizeofHeader) s.length) :
    Keeps σ σ' b := by
  have hlen := hσ.inv.blockLength_eq hs
  refine ⟨hb, ?_, ?_⟩
  · rw [haddr, hlen, hσ'.inv.blockLength_eq hs']
  · rw [haddr, hlen]
    exact hbytes

section

variable (hσ : Tracks ⟨h, live⟩ segs)

include hσ

/-- **`_malloc` keeps every block.** -/
theorem malloc_keeps (hsize : NoOverflow size) (hok : h.malloc fresh size fuel = .ok (h', p))
    (hb : b ∈ live) :
    Keeps ⟨h, live⟩ ⟨h', grant p size live⟩ b := by
  have hlive : b ∈ grant p size live := by
    unfold grant
    split_ifs
    · exact hb
    · exact mem_cons_of_mem _ hb
  obtain ⟨segs', ⟨hnone, hserved⟩, hσ', -, -⟩ := hσ.malloc hsize hok
  obtain ⟨s, hs, hused, -, haddr, -⟩ := hσ.owns.held b hb
  by_cases hzero : size = 0
  · subst hzero
    obtain rfl := hnone rfl
    obtain ⟨rfl, rfl⟩ := eq_of_malloc_zero hok
    exact hσ.keeps hσ' hs hs haddr hlive (.refl _ _ _)
  · obtain ⟨r, halloc⟩ := hserved hzero
    have hlt := hsize.lt
    have hround := hsize.roundSize_eq
    exact hσ.keeps hσ' hs ((halloc.mem_iff hused).mpr (.inl hs)) haddr hlive
      (hσ.inv.malloc_untouched hzero (by omega) hok s hs hused)

/-- **A write to a block keeps the others.** -/
theorem write_keeps (hb : b ∈ live)
    (hsame : ∀ x, x < b.addr ∨ b.addr + b.size ≤ x → m x = h.mem x) (hc : c ∈ live)
    (hne : c.addr ≠ b.addr) : Keeps ⟨h, live⟩ ⟨{ h with mem := m }, live⟩ c := by
  obtain ⟨s, hs, -, -, hsaddr, hlong⟩ := hσ.owns.held b hb
  obtain ⟨t, ht, -, -, htaddr, -⟩ := hσ.owns.held c hc
  refine hσ.keeps (hσ.write hb hsame) ht ht htaddr hc fun x hx hlt => hsame x ?_
  rcases eq_or_apart_of_mem hσ.inv.rep.above hs ht with rfl | habove | hbelow
  · exact absurd (htaddr.trans hsaddr.symm) hne
  · unfold stop at habove
    exact .inr (by omega)
  · unfold stop at hbelow
    exact .inl (by omega)

/-- **`_free` keeps the other blocks.** -/
theorem free_keeps (hb : b ∈ live) (hok : h.free b.addr = .ok h') (hc : c ∈ live)
    (hne : c.addr ≠ b.addr) :
    Keeps ⟨h, live⟩ ⟨h', withdraw b.addr live⟩ c := by
  obtain ⟨h₁, segs', s, -, hok', hsaddr, hrel, hedit, hσ', -⟩ := hσ.free_effect hb
  obtain rfl := Except.ok.inj (hok.symm.trans hok')
  obtain ⟨t, ht, htused, -, htaddr, -⟩ := hσ.owns.held c hc
  have hts : t.addr ≠ s.addr := fun heq => hne (by rw [htaddr, hsaddr, heq])
  exact hσ.keeps hσ' ht ((hrel.mem_iff hσ.inv.rep.above htused).mpr ⟨ht, hts⟩) htaddr
    (mem_filter.mpr ⟨hc, by simpa using hne⟩) (hedit.untouched hσ.inv.rep.above t ht htused)

/-- `_malloc` followed by a write to the new block keeps every block. -/
theorem malloc_write_keeps (hsize : NoOverflow size) {h₁ : HeapState}
    (hok : h.malloc fresh size fuel = .ok (h₁, p))
    (hsame : ∀ x, x < p ∨ p + size ≤ x → m x = h₁.mem x) :
    (∃ segs', Tracks ⟨{ h₁ with mem := m }, grant p size live⟩ segs') ∧
      ∀ c ∈ live, Keeps ⟨h, live⟩ ⟨{ h₁ with mem := m }, grant p size live⟩ c := by
  obtain ⟨segs₁, -, hσ₁, -, hnull⟩ := hσ.malloc hsize hok
  have hkeeps : ∀ c ∈ live, Keeps ⟨h, live⟩ ⟨h₁, grant p size live⟩ c :=
    fun c hc => hσ.malloc_keeps hsize hok hc
  by_cases hp : p = 0
  · -- nothing was asked for, and nothing is written
    obtain rfl : m = h₁.mem := funext fun x => hsame x (by omega)
    exact ⟨⟨segs₁, hσ₁⟩, hkeeps⟩
  · have hnew : (⟨p, size⟩ : Block) ∈ grant p size live := by
      rw [grant, if_neg hp]
      exact mem_cons_self
    refine ⟨⟨segs₁, hσ₁.write hnew hsame⟩, fun c hc => (hkeeps c hc).trans ?_⟩
    exact hσ₁.write_keeps hnew hsame (hkeeps c hc).live (hσ₁.ne_addr_of_mem hp hc).symm

end

/-- The copy of `_realloc` is a write to the new block. -/
private theorem copy_outside {n : ℕ} (hn : n ≤ size) (a : ℕ) :
    ∀ x, x < p ∨ p + size ≤ x → memcpy m p a n x = m x := fun x hx =>
  sameOn_memcpy m p a (n := n) (b := x) (k := 1) (by omega) x (Nat.le_refl x) (Nat.lt_succ_self x)

/-- **`_realloc` keeps the other blocks, and takes the bytes of the old block along.** -/
theorem realloc_keeps {buffer : ℕ} (hσ : Tracks ⟨h, live⟩ segs) (hsize : NoOverflow size)
    (hbuffer : buffer = 0 ∨ ∃ b ∈ live, b.addr = buffer)
    (hok : h.realloc fresh buffer size fuel = .ok (h', p)) :
    (∀ c ∈ live, buffer ≠ c.addr → Keeps ⟨h, live⟩
        ⟨h', if p = 0 then live else grant p size (withdraw buffer live)⟩ c) ∧
      (p ≠ 0 → buffer ≠ 0 → ∀ i < min (h.blockLength buffer) size,
        h'.mem (p + i) = h.mem (buffer + i)) := by
  obtain ⟨h₁, hmalloc, hcases⟩ := realloc_cases hσ.inv.ready hok
  have hkeeps : ∀ c ∈ live, Keeps ⟨h, live⟩ ⟨h₁, grant p size live⟩ c :=
    fun c hc => hσ.malloc_keeps hsize hmalloc hc
  rcases hcases with ⟨rfl, rfl⟩ | ⟨hp, rfl, rfl⟩ | ⟨hp, hne, n, hn, hfree⟩
  · exact ⟨fun c hc _ => hkeeps c hc, (absurd rfl ·)⟩
  · rw [if_neg hp, hσ.withdraw_zero]
    exact ⟨fun c hc _ => hkeeps c hc, fun _ => (absurd rfl ·)⟩
  · obtain ⟨b, hb, rfl⟩ := hbuffer.resolve_left hne
    obtain ⟨segs₁, -, hσ₁, -, -⟩ := hσ.malloc hsize hmalloc
    have hpb := hσ₁.ne_addr_of_mem hp hb
    have hwithdraw : withdraw b.addr (grant p size live) = grant p size (withdraw b.addr live) := by
      rw [grant, if_neg hp, grant, if_neg hp]
      exact filter_cons_of_pos (by simpa using hpb)
    have hnew : (⟨p, size⟩ : Block) ∈ grant p size live := by
      rw [grant, if_neg hp]
      exact mem_cons_self
    have hlen : h₁.blockLength b.addr = h.blockLength b.addr := (hkeeps b hb).length
    replace hn : n = min size (h.blockLength b.addr) := hlen ▸ hn
    obtain ⟨⟨segs₂, hσ₂⟩, hkeeps₂⟩ :=
      hσ.malloc_write_keeps hsize hmalloc (copy_outside (n := n) (by omega) b.addr)
    have hb₂ := (hkeeps₂ b hb).live
    rw [if_neg hp, ← hwithdraw]
    refine ⟨fun c hc hne => (hkeeps₂ c hc).trans
      (hσ₂.free_keeps hb₂ hfree (hkeeps₂ c hc).live hne.symm), fun _ _ i hi => ?_⟩
    -- the new block is not overwritten when the old one is freed, and the copy does not overlap
    have hcopy := (hσ₂.free_keeps hb₂ hfree hnew hpb).bytes (p + i) (Nat.le_add_right p i)
    have hlong := hσ₂.size_le hnew
    have hlong₁ := hσ₁.size_le hnew
    have hapart := hσ₁.disjoint hnew (hkeeps b hb).live hpb
    simp only [Block.Disjoint] at hcopy hlong hlong₁ hapart
    rw [hcopy (by omega), memcpy_apply_of_disjoint h₁.mem (by omega) (by omega)]
    exact (hkeeps b hb).bytes (b.addr + i) (Nat.le_add_right _ i)
      (show b.addr + i < b.addr + h.blockLength b.addr by omega)

end Tracks

/-- The call is not on the block at the address. -/
def HeapOp.Spares (a : ℕ) : HeapOp → Prop
  | .malloc _ => True
  | .calloc _ _ => True
  | .realloc buffer _ => buffer ≠ a
  | .free address => address ≠ a
  | .write => False

/-- **A call keeps the blocks it is not on.** -/
theorem Tracks.call_keeps {σ σ' : Session} {segs : List Segment} {op : HeapOp} {p : ℕ} {b : Block}
    (hσ : Tracks σ segs) (hop : op.Bounded) (hcall : Call op σ σ' p) (hb : b ∈ σ.live)
    (hspares : op.Spares b.addr) : Keeps σ σ' b := by
  cases hcall with
  | malloc hok => exact hσ.malloc_keeps (hop _ rfl) hok hb
  | calloc hok =>
    have hlt := (hop _ rfl).lt
    obtain ⟨h₁, hmalloc, rfl⟩ := calloc_cases hσ.inv.ready (by omega) hok
    exact (hσ.malloc_write_keeps (hop _ rfl) hmalloc fun x hx =>
      memset_apply_of_outside _ _ hx).2 b hb
  | realloc hbuffer hok => exact (hσ.realloc_keeps (hop _ rfl) hbuffer hok).1 b hb hspares
  | free hc hok => exact hσ.free_keeps hc hok hb hspares.symm
  | write => exact absurd hspares id

/-- **Blocks keep their contents in every run.** A call leaves each block it is not on in place
with its bytes, and a block that `_realloc` moves begins with the bytes of the old one. -/
theorem heap_contents {h₀ h : HeapState} {fresh : Bytes} {heapEnd stackEnd : ℕ} {user : Bool}
    {σ : Session} (hlt : heapEnd < 2 ^ 64) (hne : heapEnd ≠ pageSize)
    (hinit : h₀.initHeap fresh heapEnd stackEnd user = .ok h)
    (hrun : HeapRun (fun op _ => op.Small) ⟨h, []⟩ σ) :
    (∀ op σ' p, op.Small → Call op σ σ' p → ∀ b ∈ σ.live, op.Spares b.addr → Keeps σ σ' b) ∧
      ∀ size, size < 2 ^ 63 → ∀ b ∈ σ.live, ∀ σ' p, Call (.realloc b.addr size) σ σ' p → p ≠ 0 →
        ∀ i < min (σ.heap.blockLength b.addr) size,
          σ'.heap.mem (p + i) = σ.heap.mem (b.addr + i) := by
  obtain ⟨segs, hσ⟩ := (Tracks.init hlt hne hinit).run (fun _ _ hop => hop.bounded) hrun
  refine ⟨fun op σ' p hop hcall b hb hspares => hσ.call_keeps hop.bounded hcall hb hspares, ?_⟩
  intro size hsize b hb σ' p hcall hp
  have hsmall : (HeapOp.realloc b.addr size).Small := fun n hn => Option.some.inj hn ▸ hsize
  obtain ⟨h, live⟩ := σ
  cases hcall with
  | realloc hbuffer hok =>
    exact (hσ.realloc_keeps (hsmall.bounded _ rfl) hbuffer hok).2 hp (hσ.addr_ne_zero hb)

theorem heap_contents_kernelHeap : ∃ h σ σ' r, kernelHeap = .ok h ∧
    HeapRun (fun op _ => op.Small) ⟨h, []⟩ σ ∧
    Call (.realloc 0xffffffff6fffef60 200) σ σ' r ∧ r ≠ 0 ∧
    Keeps σ σ' ⟨0xffffffff6fffeef0, 50⟩ ∧
    ∀ i < min (σ.heap.blockLength 0xffffffff6fffef60) 200,
      σ'.heap.mem (r + i) = σ.heap.mem (0xffffffff6fffef60 + i) := by
  obtain ⟨h, _, h₂, h₃, _, _, hinit, -, -, hruns, hrealloc, -⟩ := twoBlocks_kernelHeap
  have hrun := hruns HeapOp.Small (by decide) (by decide)
  have hb : (⟨0xffffffff6fffef60, 100⟩ : Block) ∈
      [(⟨0xffffffff6fffeef0, 50⟩ : Block), ⟨0xffffffff6fffef60, 100⟩] := by simp
  have hcall := Call.realloc (.inr ⟨_, hb, rfl⟩) hrealloc
  obtain ⟨hkeeps, hbytes⟩ := heap_contents (by decide) (by decide) hinit hrun
  refine ⟨h, _, _, _, hinit, hrun, hcall, by decide, ?_, ?_⟩
  · exact hkeeps _ _ _ (by decide) hcall _ mem_cons_self
      (show 0xffffffff6fffef60 ≠ 0xffffffff6fffeef0 by decide)
  · exact hbytes 200 (by decide) _ hb _ _ hcall (by decide)

end Bloodmoon
