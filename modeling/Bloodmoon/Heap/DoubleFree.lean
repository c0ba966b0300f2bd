import Bloodmoon.Heap.Tiling

/-!
# A block that is freed twice

When a block is given back, its header stays in the list as that of a free segment, or it is merged
into another one and cleared. Later calls of `_free` may merge it away in turn, but nothing brings
it back (`Stale`) until a block is handed out again: `_free` finds the flag set or the signature
gone, and panics before it has written anything.
-/

namespace Bloodmoon

open Machine Machine.Segment

namespace HeapState

/-- What `_free` does with a segment that has passed its checks. -/
def releaseSegment (h : HeapState) (header : ℕ) : HeapState :=
  let h := h.set header .free 1
  let h := { h with
    freeSize := wrap (h.freeSize + wrap (h.get header .length + sizeofHeader))
    usedSize := wsub h.usedSize (wrap (h.get header .length + sizeofHeader)) }
  let next := h.get header .next
  let last := h.get header .last
  if (next ≠ 0 ∧ last ≠ 0) ∧ h.get next .free ≠ 0 ∧ h.get last .free ≠ 0 then
    h.mergeLastAndThisToNext header
  else if last ≠ 0 ∧ h.get last .free ≠ 0 then h.mergeLastToThis header
  else if next ≠ 0 ∧ h.get next .free ≠ 0 then h.mergeThisToNext header
  else h

/-- `_free` with the heap it leaves behind when it returns or panics. -/
def freeStop (h : HeapState) (address : ℕ) : HeapState × Outcome Unit :=
  if !h.ready then (h, .ok ())
  else if address = 0 then (h, .ok ())
  else
    let header := wsub address sizeofHeader
    if h.get header .signature ≠ heapSignature then
      ({ h with ready := false }, kpanic "Invalid free, signature")
    else if h.get header .free ≠ 0 then
      ({ h with ready := false }, kpanic "Invalid free, double free")
    else (h.releaseSegment header, .ok ())

theorem free_eq_freeStop (h : HeapState) (address : ℕ) :
    h.free address = (h.freeStop address).2.map fun _ => (h.freeStop address).1 := by
  have hcut : ∀ (c : Prop) [Decidable c] (x y : HeapState),
      (if c then .ok x else .ok y : Outcome HeapState) = .ok (if c then x else y) :=
    fun c _ x y => (apply_ite Except.ok c x y).symm
  unfold free freeStop
  by_cases hready : (!h.ready) = true
  · simp only [hready, if_true, Except.map]
  by_cases haddr : address = 0
  · simp only [hready, haddr, if_true, ite_self, Except.map]
  by_cases hsig : h.get (wsub address sizeofHeader) .signature = heapSignature
  · by_cases hfree : h.get (wsub address sizeofHeader) .free = 0
    · simp only [hready, Bool.false_eq_true, haddr, hsig, hfree, ne_eq, not_true_eq_false, if_false,
        hcut, Except.map, releaseSegment]
    · simp only [hready, Bool.false_eq_true, haddr, hsig, hfree, ne_eq, not_true_eq_false,
        not_false_eq_true, if_true, if_false, kpanic, Except.map]
  · simp only [hready, Bool.false_eq_true, haddr, hsig, ne_eq, not_false_eq_true, if_true, if_false,
      kpanic, Except.map]

/-- `_free` panics at one of its checks, and has changed nothing but `ready`. -/
def RefusesFree (h : HeapState) (address : ℕ) : Prop :=
  ∃ message ∈ ["Invalid free, signature", "Invalid free, double free"],
    h.free address = kpanic message ∧
      h.freeStop address = ({ h with ready := false }, kpanic message)

end HeapState

/-- The header at `a` is that of a free segment, or it has left the list: its signature is gone,
and it lies apart from the headers of the list and from the blocks in use. -/
def Stale (h : HeapState) (segs : List Segment) (a : ℕ) : Prop :=
  (∃ s ∈ segs, s.addr = a ∧ s.free = true) ∨
    h.get a .signature ≠ heapSignature ∧ ∀ s ∈ segs, a + sizeofHeader ≤ s.addr ∨
      (if s.free then s.addr + sizeofHeader else s.stop sizeofHeader) ≤ a

section Stale

variable {h h' : HeapState} {segs segs' : List Segment} {s u : Segment} {a : ℕ}

/-- **`_free` refuses a stale header.** -/
theorem Stale.refusesFree (hstale : Stale h segs a) (hinv : HeapInv h segs) (ha : a < 2 ^ 64) :
    h.RefusesFree (a + sizeofHeader) := by
  have hheader : wsub (a + sizeofHeader) sizeofHeader = a := by
    unfold wsub sizeofHeader
    omega
  have hready : ¬ (!h.ready) = true := by simp [hinv.ready]
  have haddr : a + sizeofHeader ≠ 0 := Nat.succ_ne_zero _
  by_cases hsig : h.get a .signature = heapSignature
  · rcases hstale with ⟨s, hs, rfl, hfree⟩ | ⟨hgone, -⟩
    · obtain ⟨l, r, hnode⟩ := hinv.rep.holds.exists_node hs
      have hset : h.get s.addr .free ≠ 0 := by
        rw [HeapState.get, hnode.free, hfree]
        decide
      have hstop : h.freeStop (s.addr + sizeofHeader) =
          ({ h with ready := false }, kpanic "Invalid free, double free") := by
        rw [HeapState.freeStop, if_neg hready, if_neg haddr]
        simp only [hheader, hsig, ne_eq, not_true_eq_false, if_false, hset, not_false_eq_true,
          if_true]
      refine ⟨_, by simp, ?_, hstop⟩
      rw [HeapState.free_eq_freeStop, hstop]
      rfl
    · exact absurd hsig hgone
  · have hstop : h.freeStop (a + sizeofHeader) =
        ({ h with ready := false }, kpanic "Invalid free, signature") := by
      rw [HeapState.freeStop, if_neg hready, if_neg haddr]
      simp only [hheader, ne_eq, hsig, not_false_eq_true, if_true]
    refine ⟨_, by simp, ?_, hstop⟩
    rw [HeapState.free_eq_freeStop, hstop]
    rfl

/-- A header that a release leaves in the list only as a free one is stale afterwards. -/
private theorem stale_of_release (hinv : HeapInv h segs) (hrel : Release u segs segs')
    (hedit : HeaderEdit h.mem h'.mem segs segs') (hs : s ∈ segs)
    (hfree : ∀ t ∈ segs', t.addr = s.addr → t.free = true) : Stale h' segs' s.addr := by
  by_cases hmem : s.addr ∈ segs'.map Segment.addr
  · obtain ⟨t, ht, heq⟩ := List.mem_map.mp hmem
    exact .inl ⟨t, ht, heq, hfree t ht heq⟩
  · refine .inr ⟨?_, fun t ht => ?_⟩
    · have hzero : SameOn (memset h'.mem s.addr 0#8 sizeofHeader) h'.mem s.addr sizeofHeader :=
        fun x hle hlt => (hedit.cleared s hs hmem x hle hlt).trans (if_pos ⟨hle, hlt⟩).symm
      rw [HeapState.get, Layout.get_congr hzero]
      exact (Layout.get_memset_zero (L := segmentHeader) .signature).symm ▸ by decide
    · have hne : t.addr ≠ s.addr := fun heq => hmem (List.mem_map.mpr ⟨t, ht, heq⟩)
      obtain ⟨v, hv, heq⟩ := hedit.exists_mem ht
      have hapart := eq_or_apart_of_mem hinv.rep.above hs hv
      unfold stop at *
      cases htfree : t.free with
      | true =>
        rcases hapart with rfl | hbelow | hover
        · exact absurd heq.symm hne
        · exact .inl (by omega)
        · exact .inr (by simp only [if_true]; omega)
      | false =>
        -- a segment in use was there before
        have htold := ((hrel.mem_iff hinv.rep.above htfree).mp ht).1
        rcases eq_or_apart_of_mem hinv.rep.above hs htold with rfl | hbelow | hover
        · exact absurd rfl hne
        · unfold stop at hbelow
          exact .inl (by omega)
        · exact .inr (by exact hover)

/-- **A release makes its own header stale.** -/
theorem Stale.of_free (hinv : HeapInv h segs) (hrel : Release s segs segs')
    (hedit : HeaderEdit h.mem h'.mem segs segs') (hs : s ∈ segs) : Stale h' segs' s.addr := by
  refine stale_of_release hinv hrel hedit hs fun t ht heq => ?_
  by_contra hused
  exact ((hrel.mem_iff hinv.rep.above (Bool.eq_false_iff.mpr hused)).mp ht).2 heq

/-- **Stale headers stay stale** when another segment is released. -/
theorem Stale.release (hstale : Stale h segs a) (hinv : HeapInv h segs)
    (hrel : Release u segs segs') (hedit : HeaderEdit h.mem h'.mem segs segs') :
    Stale h' segs' a := by
  rcases hstale with ⟨s, hs, rfl, hfree⟩ | ⟨hgone, hapart⟩
  · refine stale_of_release hinv hrel hedit hs fun t ht heq => ?_
    by_contra hused
    -- a segment in use at the address would have been there before, beside the free one
    have htused : t.free = false := Bool.eq_false_iff.mpr hused
    have htold := ((hrel.mem_iff hinv.rep.above htused).mp ht).1
    rcases eq_or_apart_of_mem hinv.rep.above hs htold with rfl | hbelow | hover
    · exact hused hfree
    · unfold stop sizeofHeader at hbelow
      omega
    · unfold stop sizeofHeader at hover
      omega
  · refine .inr ⟨?_, fun t ht => ?_⟩
    · have hsame : SameOn h.mem h'.mem a sizeofHeader := fun x hle hlt =>
        hedit.outside x fun s hs => by
          have := hapart s hs
          unfold stop at this
          split_ifs at this <;> omega
      rwa [HeapState.get, Layout.get_congr hsame]
    · cases htfree : t.free with
      | true =>
        obtain ⟨v, hv, heq⟩ := hedit.exists_mem ht
        have := hapart v hv
        unfold stop at this
        simp only [if_true]
        split_ifs at this <;> omega
      | false =>
        have := hapart t ((hrel.mem_iff hinv.rep.above htfree).mp ht).1
        rwa [htfree] at this

/-- Stale headers stay stale when a client writes to a block it holds. -/
theorem Stale.write (hstale : Stale h segs a) (hs : s ∈ segs) (hused : s.free = false) {m : Bytes}
    (hsame : ∀ x, x < s.addr + sizeofHeader ∨ s.stop sizeofHeader ≤ x → m x = h.mem x) :
    Stale { h with mem := m } segs a := by
  rcases hstale with hfree | ⟨hgone, hapart⟩
  · exact .inl hfree
  · have hsig : SameOn h.mem m a sizeofHeader := fun x hle hlt => hsame x (by
      have := hapart s hs
      rw [hused, if_neg (by decide)] at this
      omega)
    exact .inr ⟨by rwa [HeapState.get, Layout.get_congr hsig], hapart⟩

end Stale

namespace Tracks

variable {σ σ' : Session} {segs : List Segment} {b : Block} {p a : ℕ}

/-- **A block that is freed leaves a stale header.** -/
theorem free_stale {h h' : HeapState} {live : List Block} (hσ : Tracks ⟨h, live⟩ segs)
    (hb : b ∈ live) (hok : h.free b.addr = .ok h') :
    ∃ segs' a, Tracks ⟨h', withdraw b.addr live⟩ segs' ∧ Stale h' segs' a ∧
      b.addr = a + sizeofHeader ∧ a < 2 ^ 64 := by
  obtain ⟨h₁, segs', s, hs, hok', haddr, hrel, hedit, hσ', -⟩ := hσ.free_effect hb
  obtain rfl := Except.ok.inj (hok.symm.trans hok')
  refine ⟨segs', s.addr, hσ', .of_free hσ.inv hrel hedit hs, haddr, ?_⟩
  have hstop := (hσ.inv.rep.bounds hs).2
  have htop := hσ.inv.rep.top
  unfold stop sizeofHeader at *
  omega

/-- **Calls that hand out nothing leave a stale header stale.** -/
theorem call_stale {op : HeapOp} (hσ : Tracks σ segs) (hstale : Stale σ.heap segs a)
    (hop : op.request = none) (hcall : Call op σ σ' p) :
    ∃ segs', Tracks σ' segs' ∧ Stale σ'.heap segs' a := by
  cases hcall with
  | malloc => exact absurd hop nofun
  | calloc => exact absurd hop nofun
  | realloc => exact absurd hop nofun
  | free hb hok =>
    obtain ⟨h₁, segs', s, -, hok', -, hrel, hedit, hσ', -⟩ := hσ.free_effect hb
    obtain rfl := Except.ok.inj (hok.symm.trans hok')
    exact ⟨segs', hσ', hstale.release hσ.inv hrel hedit⟩
  | @write h live b m hb hsame =>
    obtain ⟨s, hs, hused, -, haddr, hlong⟩ := hσ.owns.held b hb
    refine ⟨segs, hσ.write hb hsame, hstale.write hs hused fun x hx => hsame x ?_⟩
    unfold stop at hx
    omega

/-- The same for any number of such calls. -/
theorem run_stale (hσ : Tracks σ segs) (hstale : Stale σ.heap segs a)
    (hrun : HeapRun (fun op _ => op.request = none) σ σ') :
    ∃ segs', Tracks σ' segs' ∧ Stale σ'.heap segs' a := by
  induction hrun with
  | refl => exact ⟨segs, hσ, hstale⟩
  | tail _ hstep ih =>
    obtain ⟨op, p, hop, hcall⟩ := hstep
    obtain ⟨segs₁, hσ₁, hstale₁⟩ := ih
    exact hσ₁.call_stale hstale₁ hop hcall

end Tracks

/-- **A block cannot be freed twice** before another one is handed out. In every run, after a block
has been freed and then any others, with writes of the clients to their blocks in between, `_free`
of the first block panics at one of its two checks and leaves the heap as it is. -/
theorem free_twice_refused {h₀ h h₁ : HeapState} {fresh : Bytes} {heapEnd stackEnd : ℕ}
    {user : Bool} {σ σ' : Session} {b : Block} (hlt : heapEnd < 2 ^ 64) (hne : heapEnd ≠ pageSize)
    (hinit : h₀.initHeap fresh heapEnd stackEnd user = .ok h)
    (hrun : HeapRun (fun op _ => op.Small) ⟨h, []⟩ σ) (hb : b ∈ σ.live)
    (hfree : σ.heap.free b.addr = .ok h₁)
    (hrest : HeapRun (fun op _ => op.request = none) ⟨h₁, withdraw b.addr σ.live⟩ σ') :
    σ'.heap.RefusesFree b.addr := by
  obtain ⟨segs, hσ⟩ := (Tracks.init hlt hne hinit).run (fun _ _ hop => hop.bounded) hrun
  obtain ⟨segs₁, a, hσ₁, hstale, haddr, ha⟩ := hσ.free_stale hb hfree
  obtain ⟨segs', hσ', hstale'⟩ := hσ₁.run_stale hstale hrest
  rw [haddr]
  exact hstale'.refusesFree hσ'.inv ha

theorem free_twice_refused_kernelHeap : ∃ h σ h₁ σ', kernelHeap = .ok h ∧
    HeapRun (fun op _ => op.Small) ⟨h, []⟩ σ ∧ σ.heap.free 0xffffffff6fffef60 = .ok h₁ ∧
    HeapRun (fun op _ => op.request = none) ⟨h₁, withdraw 0xffffffff6fffef60 σ.live⟩ σ' ∧
    σ'.live = [] ∧ σ'.heap.RefusesFree 0xffffffff6fffef60 := by
  obtain ⟨h, _, _, _, h₃, h₄, hinit, -, -, hruns, -, hfree, hfree'⟩ := twoBlocks_kernelHeap
  have hrun := hruns HeapOp.Small (by decide) (by decide)
  have hrest : HeapRun (fun op _ => op.request = none) ⟨h₃, [⟨0xffffffff6fffeef0, 50⟩]⟩ ⟨h₄, []⟩ :=
    .single ⟨.free 0xffffffff6fffeef0, _, rfl, .free (b := ⟨_, 50⟩) List.mem_cons_self hfree'⟩
  exact ⟨h, _, _, _, hinit, hrun, hfree, hrest, rfl,
    free_twice_refused (b := ⟨0xffffffff6fffef60, 100⟩) (by decide) (by decide) hinit hrun
      (by simp) hfree hrest⟩

end Bloodmoon
