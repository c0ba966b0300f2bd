import Bloodmoon.Heap.Run

/-!
# Bytes that no segment holds

Stacked from `heapEnd` upwards without gaps, the segments reach the main segment exactly when they
tile the heap; otherwise they reach a lower address, and the difference is lost. No call changes
this level but one that has to expand the heap while the last segment is free: `expand_heap` then
replaces that segment by one that is a header too short.

A request can bring this about by itself. The segment made for it may be too long to be served as
a whole and too short to be cut; `_malloc` then expands the heap again, with that segment at the
end of the list.

Free neighbours are always merged, whether bytes are lost or not.
-/

namespace Bloodmoon

open Machine Machine.Segment HeapState List

variable {op : HeapOp}

/-! ### The level of the list -/

section Level

variable {n e len : ℕ} {segs segs' xs ys : List Segment} {s p t : Segment} {r : Option ℕ}

private theorem level_serve :
    level sizeofHeader (xs ++ (serve sizeofHeader n s ++ ys)) =
      level sizeofHeader (xs ++ s :: ys) := by
  unfold serve level
  split_ifs with hlt
  · simp only [lastAddr_append, cons_append, nil_append, lastAddr_cons, extent_append,
      extent_cons, carved, remainder]
    omega
  · simp only [lastAddr_append, cons_append, nil_append, lastAddr_cons, extent_append, extent_cons]

/-- **Growing over a free segment loses a header.** -/
private theorem level_extend (hlen : sizeofHeader ≤ len) (hend : e + len = t.addr) :
    level sizeofHeader (xs ++ extendList p t e len) + (if t.free then sizeofHeader else 0) =
      level sizeofHeader (xs ++ [p, t]) := by
  unfold extendList level
  split_ifs
  all_goals
    simp only [lastAddr_append, lastAddr_cons, lastAddr_nil, extent_append, extent_cons, extent_nil]
    omega

/-- A release loses nothing. -/
theorem Release.level_eq (h : Release s segs segs') :
    level sizeofHeader segs' = level sizeofHeader segs := by
  cases h
  all_goals simp only [level, lastAddr_append, lastAddr_cons, extent_append, extent_cons, fuse]
  all_goals omega

/-- A request for `n` bytes finds a segment that fits; or the last segment is in use, and the one
that `expand_heap` adds fits. -/
def Lossless (n : ℕ) (segs : List Segment) : Prop :=
  (∃ s ∈ segs, s.Fits sizeofHeader n) ∨
    ((∀ t ∈ segs.getLast?, t.free = false) ∧
      (⟨0, expandLength n - sizeofHeader, true⟩ : Segment).Fits sizeofHeader n)

/-- After the heap has grown below a segment in use, the new segment is the only one that may
fit. -/
private theorem lossless_extend (hnot : ∀ x ∈ xs ++ [p, t], ¬ x.Fits sizeofHeader n)
    (hused : t.free = false) :
    Lossless n (xs ++ extendList p t e (expandLength n)) ↔ Lossless n (xs ++ [p, t]) := by
  have hext : xs ++ extendList p t e (expandLength n) =
      xs ++ [p, t] ++ [⟨e, expandLength n - sizeofHeader, true⟩] := by
    rw [extendList, if_neg (by simp [hused]), append_assoc]
    rfl
  rw [hext]
  constructor
  · rintro (⟨s, hs, hfits⟩ | ⟨hlast, -⟩)
    · rcases mem_append.mp hs with hs | hs
      · exact absurd hfits (hnot s hs)
      · obtain rfl := mem_singleton.mp hs
        exact .inr ⟨by simp [hused], hfits⟩
    · exact absurd (hlast _ getLast?_concat) (by simp)
  · rintro (⟨s, hs, hfits⟩ | ⟨-, hfits⟩)
    · exact absurd hfits (hnot s hs)
    · exact .inl ⟨_, mem_append_right _ mem_cons_self, hfits⟩

/-- **A request loses nothing exactly when it is lossless.** -/
theorem Alloc.level_eq_iff (h : Alloc n segs segs' r) (hn : n ≠ 0)
    (hlt : n + 4143 < 2 ^ 64) :
    level sizeofHeader segs' ≤ level sizeofHeader segs ∧
      (level sizeofHeader segs' = level sizeofHeader segs ↔ Lossless n segs) := by
  have h48 : sizeofHeader = 48 := rfl
  have hlen := expandLength_eq hlt
  induction h with
  | @serve xs ys s hnot hfits =>
    rw [level_serve]
    exact ⟨Nat.le_refl _, iff_of_true rfl (.inl ⟨s, by simp, hfits⟩)⟩
  | @grow xs segs' p t e r hnot hend hn h ih =>
    have hlevel : level sizeofHeader (xs ++ extendList p t e (expandLength n)) +
        (if t.free then sizeofHeader else 0) = level sizeofHeader (xs ++ [p, t]) :=
      level_extend (by omega) hend
    have hlast : (xs ++ [p, t]).getLast? = some t := by simp
    cases hfree : t.free with
    | true =>
      rw [hfree, if_pos rfl] at hlevel
      refine ⟨by omega, iff_of_false (by omega) ?_⟩
      rintro (⟨s, hs, hfits⟩ | ⟨hused, -⟩)
      · exact hnot s hs hfits
      · exact absurd ((hused t hlast).symm.trans hfree) (by decide)
    | false =>
      rw [hfree, if_neg (by decide), Nat.add_zero] at hlevel
      rw [← hlevel]
      exact ⟨ih.1, ih.2.trans (lossless_extend hnot hfree)⟩
  | growNull hnot hend hzero => exact absurd hzero hn

/-- **A call loses nothing exactly when its request is lossless.** -/
theorem HeapOp.ListStep.level_eq_iff {op : HeapOp} (h : op.ListStep segs segs')
    (hop : op.Bounded) :
    level sizeofHeader segs' ≤ level sizeofHeader segs ∧
      (level sizeofHeader segs' = level sizeofHeader segs ↔
        ∀ size ∈ op.request, size ≠ 0 → Lossless (roundSize size) segs) := by
  obtain ⟨mid, hserved, hnone, hrel⟩ := h
  have hmid : level sizeofHeader segs' = level sizeofHeader mid := by
    rcases hrel with rfl | ⟨s, hrel⟩
    · rfl
    · exact hrel.level_eq
  rw [hmid]
  cases hreq : op.request with
  | none =>
    rw [hnone hreq]
    exact ⟨Nat.le_refl _, iff_of_true rfl nofun⟩
  | some size =>
    obtain ⟨hzero, hpos⟩ := hserved size hreq
    by_cases hsize : size = 0
    · rw [hzero hsize]
      exact ⟨Nat.le_refl _, iff_of_true rfl fun n hn hne =>
        absurd ((Option.some.inj hn).symm.trans hsize) hne⟩
    · obtain ⟨r, halloc⟩ := hpos hsize
      have hlt := (hop size hreq).lt
      have hround := (hop size hreq).roundSize_eq
      obtain ⟨hle, hiff⟩ := halloc.level_eq_iff (by omega) (by omega)
      refine ⟨hle, hiff.trans ⟨fun hl n hn _ => Option.some.inj hn ▸ hl, fun hl => ?_⟩⟩
      exact hl size rfl hsize

end Level

/-! ### Tiling -/

/-- **The segments tile the heap**: each ends where the one above it begins, from `heapEnd` up to
`mainSegment`. When no block is held, there is a single free segment. -/
def Tiled (σ : Session) : Prop :=
  ∃ segs, Represents σ.heap segs ∧ segs.IsChain (Touches sizeofHeader) ∧
    (σ.live = [] → ∃ len,
      segs = [⟨σ.heap.mainSegment, 0, false⟩, ⟨σ.heap.heapEnd, len, true⟩] ∧
      σ.heap.heapEnd + sizeofHeader + len = σ.heap.mainSegment)

namespace Tracks

variable {σ σ' : Session} {segs : List Segment}

/-- When no block is held, the list is the main segment and a free one. -/
theorem eq_of_live_nil (hσ : Tracks σ segs) (hlive : σ.live = []) :
    ∃ len, segs = [⟨σ.heap.mainSegment, 0, false⟩, ⟨σ.heap.heapEnd, len, true⟩] := by
  obtain ⟨rest, hne, rfl⟩ := hσ.inv.rep.main
  have habove := hσ.inv.rep.above
  have hcoalesced := hσ.inv.coalesced
  have hfree : ∀ s ∈ rest, s.free = true := by
    intro s hs
    have hbelow : s.addr + sizeofHeader + s.length ≤ σ.heap.mainSegment :=
      above_of_mem_tail habove hs
    have h48 : sizeofHeader = 48 := rfl
    by_contra hused
    obtain ⟨b, hb, -⟩ := hσ.owns.used s (mem_cons_of_mem _ hs) (by simpa using hused)
      (by omega)
    rw [hlive] at hb
    exact absurd hb not_mem_nil
  cases rest with
  | nil => exact absurd rfl hne
  | cons t rest =>
    cases rest with
    | nil =>
      have hlast : t.addr = σ.heap.heapEnd := hσ.inv.rep.lastSegment.trans hσ.inv.rep.heapEnd
      have ht : t = ⟨σ.heap.heapEnd, t.length, true⟩ := by
        rw [← hlast, ← hfree t mem_cons_self]
      exact ⟨t.length, congrArg (fun t => [_, t]) ht⟩
    | cons u rest =>
      have hboth := (isChain_cons_cons.mp (isChain_cons_cons.mp hcoalesced).2).1
      exact absurd ⟨hfree t (by simp), hfree u (by simp)⟩ hboth

/-- The segments tile the heap exactly when their level is that of the main segment. -/
theorem tiled_iff (hσ : Tracks σ segs) :
    Tiled σ ↔ level sizeofHeader segs = σ.heap.mainSegment + sizeofHeader := by
  obtain ⟨rest, -, hsegs⟩ := hσ.inv.rep.main
  have hchain : level sizeofHeader segs = σ.heap.mainSegment + sizeofHeader ↔
      segs.IsChain (Touches sizeofHeader) := by
    have habove := hσ.inv.rep.above
    rw [hsegs] at habove ⊢
    exact (level_le_stop habove).2
  rw [hchain]
  constructor
  · rintro ⟨segs', hrep, htouch, -⟩
    rwa [hσ.inv.rep.unique hrep]
  · intro htouch
    refine ⟨segs, hσ.inv.rep, htouch, fun hlive => ?_⟩
    obtain ⟨len, rfl⟩ := hσ.eq_of_live_nil hlive
    exact ⟨len, rfl, (isChain_cons_cons.mp htouch).1⟩

end Tracks

/-- The request is below `2 ^ 63` bytes. -/
def HeapOp.Small (op : HeapOp) : Prop := ∀ size ∈ op.request, size < 2 ^ 63

instance (op : HeapOp) : Decidable op.Small := inferInstanceAs (Decidable (∀ _ ∈ op.request, _))

theorem HeapOp.Small.bounded (h : op.Small) : op.Bounded := by
  intro size hsize
  have hlt := h size hsize
  have h48 : sizeofHeader = 48 := rfl
  have h4095 : pageSize - 1 = 4095 := rfl
  unfold NoOverflow
  rw [h48, h4095, pageSize_eq]
  omega

/-- The request of the call, if it has one, is lossless for the list of the heap. -/
def HeapOp.Lossless (op : HeapOp) (h : HeapState) : Prop :=
  ∀ size ∈ op.request, size ≠ 0 →
    ∃ segs, Represents h segs ∧ Bloodmoon.Lossless (roundSize size) segs

/-- A call keeps the tiling exactly when its request is lossless. -/
theorem Tracks.tiled_call_iff {σ σ' : Session} {segs : List Segment} {p : ℕ} (hσ : Tracks σ segs)
    (htiled : Tiled σ) (hop : op.Small) (hcall : Call op σ σ' p) :
    Tiled σ' ↔ op.Lossless σ.heap := by
  obtain ⟨segs', hstep, hσ', hmain⟩ := hσ.call hop.bounded hcall
  rw [hσ'.tiled_iff, hmain, ← hσ.tiled_iff.mp htiled, (hstep.level_eq_iff hop.bounded).2]
  refine forall₃_congr fun size hsize hne => ⟨fun hl => ⟨segs, hσ.inv.rep, hl⟩, ?_⟩
  rintro ⟨segs'', hrep, hl⟩
  rwa [hσ.inv.rep.unique hrep]

/-- **The heap is tiled as long as no request loses bytes**, and the first request that is not
lossless ends it. -/
theorem heap_tiled_iff {h₀ h : HeapState} {fresh : Bytes} {heapEnd stackEnd : ℕ} {user : Bool}
    {σ : Session} (hlt : heapEnd < 2 ^ 64) (hne : heapEnd ≠ pageSize)
    (hinit : h₀.initHeap fresh heapEnd stackEnd user = .ok h)
    (hrun : HeapRun (fun op σ => op.Small ∧ op.Lossless σ.heap) ⟨h, []⟩ σ) :
    Tiled σ ∧ ∀ op σ' p, op.Small → Call op σ σ' p → (Tiled σ' ↔ op.Lossless σ.heap) := by
  have hinv : ∃ segs, Tracks σ segs ∧ Tiled σ := by
    induction hrun with
    | refl =>
      have htracks := Tracks.init hlt hne hinit
      refine ⟨_, htracks, htracks.tiled_iff.mpr ?_⟩
      have hmain := (HeapInv.init hlt hne hinit).2
      have hlen : pageSize - sizeofHeader - sizeofHeader + sizeofHeader + sizeofHeader = pageSize :=
        rfl
      simp only [level, initList, lastAddr_cons, lastAddr_nil, extent_cons, extent_nil]
      omega
    | tail _ hstep ih =>
      obtain ⟨op, p, ⟨hsmall, hl⟩, hcall⟩ := hstep
      obtain ⟨segs, hσ, htiled⟩ := ih
      obtain ⟨segs', -, hσ', -⟩ := hσ.call hsmall.bounded hcall
      exact ⟨segs', hσ', (hσ.tiled_call_iff htiled hsmall hcall).mpr hl⟩
  obtain ⟨segs, hσ, htiled⟩ := hinv
  exact ⟨htiled, fun op σ' p hop hcall => hσ.tiled_call_iff htiled hop hcall⟩

theorem heap_tiled_kernelHeap : ∃ h σ, kernelHeap = .ok h ∧
    HeapRun (fun op σ => op.Small ∧ op.Lossless σ.heap) ⟨h, []⟩ σ ∧ σ.live ≠ [] ∧ Tiled σ := by
  obtain ⟨h, h₁, _, _, _, _, hinit, hmalloc, -⟩ := twoBlocks_kernelHeap
  have hrep := (HeapInv.init (by decide) (by decide) hinit).1.rep
  have hlossless : (HeapOp.malloc 100).Lossless h := fun size hsize _ => by
    obtain rfl := Option.some.inj hsize
    have hlt : roundSize 100 + sizeofHeader < pageSize - sizeofHeader - sizeofHeader := by decide
    exact ⟨_, hrep, .inl ⟨_, mem_cons_of_mem _ mem_cons_self, rfl, .inl hlt⟩⟩
  have hrun : HeapRun (fun op σ => op.Small ∧ op.Lossless σ.heap) ⟨h, []⟩
      ⟨h₁, [⟨0xffffffff6fffef60, 100⟩]⟩ :=
    .single ⟨_, _, ⟨by decide, hlossless⟩, .malloc hmalloc⟩
  exact ⟨h, _, hinit, hrun, cons_ne_nil _ _, (heap_tiled_iff (by decide) (by decide) hinit hrun).1⟩

/-- A new heap has to expand for a request of 8000 bytes, and its free segment is the last one.
Once the block is freed, the one segment of the heap ends a header below `mainSegment`. -/
theorem heap_not_tiled_kernelHeap : ∃ h σ, kernelHeap = .ok h ∧
    HeapRun (fun op _ => op.Small) ⟨h, []⟩ σ ∧ σ.live = [] ∧ ¬ Tiled σ := by
  obtain ⟨h, hinit, ⟨h₁, _⟩, hmalloc, h₂, hfree, rfl, hend, hlen, hmain⟩ :
      ∃ h, kernelHeap = .ok h ∧ ∃ r, h.malloc (fun _ => 0#8) 8000 8 = .ok r ∧
      ∃ h', r.1.free r.2 = .ok h' ∧ r.2 = 0xffffffff6fffd060 ∧ h'.heapEnd = 0xffffffff6fffc000 ∧
      h'.get h'.heapEnd .length = 12144 ∧ h'.mainSegment = 0xffffffff6fffefd0 := by
    decide +kernel
  refine ⟨h, ⟨h₂, []⟩, hinit, .tail
    (.single ⟨_, _, show (HeapOp.malloc 8000).Small by decide, .malloc hmalloc⟩)
    ⟨_, _, show (HeapOp.free 0xffffffff6fffd060).Small by decide,
      .free (b := ⟨_, 8000⟩) mem_cons_self hfree⟩, rfl, ?_⟩
  rintro ⟨segs, hrep, -, hsingle⟩
  obtain ⟨len, rfl, hspan⟩ := hsingle rfl
  obtain ⟨l, r, hnode⟩ := hrep.holds.exists_node (mem_cons_of_mem _ mem_cons_self)
  have hlen' : h₂.get h₂.heapEnd .length = len := hnode.length
  have h48 : sizeofHeader = 48 := rfl
  simp only at hspan
  omega

/-! ### Merging -/

/-- **No two neighbours are free in any run.** When all blocks have been given back, what is left
is the main segment and one free segment. -/
theorem heap_coalesced {h₀ h : HeapState} {fresh : Bytes} {heapEnd stackEnd : ℕ} {user : Bool}
    {σ : Session} (hlt : heapEnd < 2 ^ 64) (hne : heapEnd ≠ pageSize)
    (hinit : h₀.initHeap fresh heapEnd stackEnd user = .ok h)
    (hrun : HeapRun (fun op _ => op.Small) ⟨h, []⟩ σ) :
    ∃ segs, Represents σ.heap segs ∧ segs.IsChain NotBothFree ∧
      (σ.live = [] → ∃ len,
        segs = [⟨σ.heap.mainSegment, 0, false⟩, ⟨σ.heap.heapEnd, len, true⟩]) := by
  obtain ⟨segs, hσ⟩ := (Tracks.init hlt hne hinit).run (fun _ _ hop => hop.bounded) hrun
  exact ⟨segs, hσ.inv.rep, hσ.inv.coalesced, hσ.eq_of_live_nil⟩

theorem heap_coalesced_kernelHeap : ∃ h σ, kernelHeap = .ok h ∧
    HeapRun (fun op _ => op.Small) ⟨h, []⟩ σ ∧ ∃ segs len, Represents σ.heap segs ∧
      segs.IsChain NotBothFree ∧
      segs = [⟨σ.heap.mainSegment, 0, false⟩, ⟨σ.heap.heapEnd, len, true⟩] := by
  obtain ⟨h, _, _, _, _, h₅, hinit, -, -, hruns, -, hfree, hfree'⟩ := twoBlocks_kernelHeap
  have hrun : HeapRun (fun op _ => op.Small) ⟨h, []⟩ ⟨h₅, []⟩ :=
    .tail (.tail (hruns HeapOp.Small (by decide) (by decide))
      ⟨_, _, show (HeapOp.free 0xffffffff6fffef60).Small by decide,
        .free (b := ⟨_, 100⟩) (mem_cons_of_mem _ mem_cons_self) hfree⟩)
      ⟨_, _, show (HeapOp.free 0xffffffff6fffeef0).Small by decide,
        .free (b := ⟨_, 50⟩) mem_cons_self hfree'⟩
  obtain ⟨segs, hrep, hchain, hempty⟩ := heap_coalesced (by decide) (by decide) hinit hrun
  obtain ⟨len, hsegs⟩ := hempty rfl
  exact ⟨h, _, hinit, hrun, segs, len, hrep, hchain, hsegs⟩

end Bloodmoon
