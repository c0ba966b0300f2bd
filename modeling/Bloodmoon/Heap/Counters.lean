import Bloodmoon.Heap.Tiling

/-!
# The counters of the heap

A heap counts its bytes: all that are mapped for it (`totalSize`), those of the blocks that are
held with their headers (`usedSize`), and the rest (`freeSize`). `_malloc` and `_free` move the
bytes of a segment with its header between the last two. `expand_heap` adds one header more than
it maps, so that after `k` expansions the total is `k` headers too high; the other two counters
stay right (`Counted`).
-/

namespace Bloodmoon

open Machine Machine.Segment HeapState List

variable {σ : Session} {segs : List Segment}

/-! ### What the functions do to the counters -/

/-- The three counters of a heap. -/
structure Counters where
  total : ℕ
  used : ℕ
  free : ℕ

/-- The counters of a state. -/
def HeapState.counters (h : HeapState) : Counters := ⟨h.totalSize, h.usedSize, h.freeSize⟩

/-- The state with other memory and other counters. -/
def HeapState.withCounters (h : HeapState) (m : Bytes) (c : Counters) : HeapState :=
  { h with mem := m, totalSize := c.total, usedSize := c.used, freeSize := c.free }

namespace Counters

/-- A block of `n` bytes is handed out. -/
def claim (c : Counters) (n : ℕ) : Counters :=
  ⟨c.total, wrap (c.used + wrap (n + sizeofHeader)), wsub c.free (wrap (n + sizeofHeader))⟩

/-- A block of `n` bytes is given back. -/
def release (c : Counters) (n : ℕ) : Counters :=
  ⟨c.total, wsub c.used (wrap (n + sizeofHeader)), wrap (c.free + wrap (n + sizeofHeader))⟩

/-- The heap is expanded by `n` bytes. -/
def grow (n : ℕ) (c : Counters) : Counters :=
  ⟨wrap (c.total + wrap (n + sizeofHeader)), c.used, wrap (c.free + wrap (n + sizeofHeader))⟩

end Counters

/-! ### How often a request expands the heap -/

/-- The length of the segment at the end of the list, if it is free. -/
def freeTail (segs : List Segment) : ℕ :=
  match segs.getLast? with
  | some t => if t.free then t.length else 0
  | none => 0

/-- The number of expansions that a request for `n` bytes makes. The segment that the first one
makes can be too short, since it is one header shorter than its room. -/
def growths (n : ℕ) (segs : List Segment) : ℕ :=
  if ∃ s ∈ segs, s.Fits sizeofHeader n then 0
  else if Segment.Fits sizeofHeader n ⟨0, freeTail segs + expandLength n - sizeofHeader, true⟩
  then 1
  else 2

section Growths

variable {n e len : ℕ} {segs xs : List Segment} {p t : Segment}

theorem growths_eq_zero_iff : growths n segs = 0 ↔ ∃ s ∈ segs, s.Fits sizeofHeader n := by
  unfold growths
  split_ifs <;> simp_all

theorem growths_le_two (n : ℕ) (segs : List Segment) : growths n segs ≤ 2 := by
  unfold growths
  split_ifs <;> decide

theorem freeTail_concat : freeTail (xs ++ [t]) = if t.free then t.length else 0 := by
  rw [freeTail, getLast?_concat]

/-- The new segment reaches over the free one at the end of the list. -/
private theorem extendList_last (xs : List Segment) (p t : Segment) (e len : ℕ) :
    ∃ ys, xs ++ extendList p t e len =
        ys ++ [⟨e, freeTail (xs ++ [p, t]) + len - sizeofHeader, true⟩] ∧
      ∀ s ∈ ys, s ∈ xs ++ [p, t] := by
  rw [show xs ++ [p, t] = xs ++ [p] ++ [t] by simp, freeTail_concat]
  cases hfree : t.free with
  | true => exact ⟨xs ++ [p], by simp [extendList, hfree], fun s hs => mem_append_left _ hs⟩
  | false => exact ⟨xs ++ [p] ++ [t], by simp [extendList, hfree], fun s hs => hs⟩

/-- **Each expansion brings a request nearer**, and after two of them it is served. -/
theorem growths_extend (hn : n + 4143 < 2 ^ 64)
    (hnot : ∀ s ∈ xs ++ [p, t], ¬ s.Fits sizeofHeader n) :
    growths n (xs ++ [p, t]) = growths n (xs ++ extendList p t e (expandLength n)) + 1 := by
  have hlen := expandLength_eq hn
  have h48 : sizeofHeader = 48 := rfl
  obtain ⟨ys, hlist, hold⟩ := extendList_last xs p t e (expandLength n)
  obtain ⟨room, hroom⟩ : ∃ room, freeTail (xs ++ [p, t]) + expandLength n - sizeofHeader = room :=
    ⟨_, rfl⟩
  have hold' : ¬ ∃ s ∈ xs ++ [p, t], s.Fits sizeofHeader n := fun ⟨s, hs, hfits⟩ =>
    hnot s hs hfits
  have hnew : (∃ s ∈ ys ++ [⟨e, room, true⟩], s.Fits sizeofHeader n) ↔
      Segment.Fits sizeofHeader n ⟨0, room, true⟩ := by
    constructor
    · rintro ⟨s, hs, hfits⟩
      rcases mem_append.mp hs with hs | hs
      · exact absurd hfits (hnot s (hold s hs))
      · rw [mem_singleton.mp hs] at hfits
        exact hfits
    · exact fun hfits => ⟨_, mem_append_right _ mem_cons_self, hfits⟩
  have htail : freeTail (ys ++ [⟨e, room, true⟩]) = room := freeTail_concat
  have htwo : Segment.Fits sizeofHeader n ⟨0, room + expandLength n - sizeofHeader, true⟩ :=
    ⟨rfl, .inl (show n + sizeofHeader < room + expandLength n - sizeofHeader by omega)⟩
  rw [growths, growths, hlist, hroom, htail]
  simp only [hnew]
  split_ifs <;> rfl

end Growths

/-! ### What the functions do to the state -/

/-- The heap has grown by `n` bytes: its new pages are the ones below the old end. -/
structure Grew (h h' : HeapState) (n : ℕ) : Prop where
  lastStack : h'.lastStack = h.lastStack
  heapEnd : h'.heapEnd + n = h.heapEnd
  pages : ∀ page ∈ h'.mapped, page ∈ h.mapped ∨
    (h'.heapEnd ≤ page.1 ∧ page.1 + pageSize ≤ h.heapEnd)

namespace Grew

variable {h h' h'' : HeapState} {n k : ℕ}

theorem of_eq (hstack : h'.lastStack = h.lastStack) (hend : h'.heapEnd = h.heapEnd)
    (hmapped : h'.mapped = h.mapped) : Grew h h' 0 :=
  ⟨hstack, hend, fun _ hpage => .inl (hmapped ▸ hpage)⟩

theorem trans (hfst : Grew h h' n) (hsnd : Grew h' h'' k) : Grew h h'' (k + n) := by
  have hend := hfst.heapEnd
  have hend' := hsnd.heapEnd
  refine ⟨hsnd.lastStack.trans hfst.lastStack, by omega, fun page hpage => ?_⟩
  rcases hsnd.pages page hpage with hold | hnew
  · rcases hfst.pages page hold with hold | hnew
    · exact .inl hold
    · exact .inr (by omega)
  · exact .inr (by omega)

/-- The state after the pages of an expansion are mapped. -/
theorem expanded {fresh : Bytes} {p t : Segment} {e : ℕ} (hend : e + n = h.heapEnd) :
    Grew h (expanded h fresh p t e n) n := by
  refine ⟨rfl, hend, fun page hpage => ?_⟩
  rcases mem_append.mp hpage with hnew | hold
  · obtain ⟨i, hi, rfl⟩ := mem_map.mp hnew
    have hle := region_le pageSize (mem_range.mp hi)
    have hdiv := Nat.div_mul_le_self n pageSize
    exact .inr ⟨Nat.le_add_right e _, show e + i * pageSize + pageSize ≤ h.heapEnd by omega⟩
  · exact .inl hold

end Grew

section Functions

variable {h h' : HeapState} {segs ws xs ys : List Segment} {s p t : Segment} {n size fuel a : ℕ}
  {fresh : Bytes}

/-- A segment that is claimed counts with the length in its header. -/
private theorem claimSegment_eq {m : Bytes}
    (hlen : segmentHeader.get (segmentHeader.set m a .free 0) a .length = n) :
    (claimSegment { h with mem := m } a).1 =
      h.withCounters (segmentHeader.set m a .free 0) (h.counters.claim n) := by
  simp only [claimSegment, counters, withCounters, HeapState.set,
    HeapState.get, Counters.claim, hlen]

/-- **Serving a request** moves its bytes from the free ones to the used ones. -/
theorem HeapInv.serve_eq (hinv : HeapInv h (xs ++ s :: ys)) (hn : n + sizeofHeader < 2 ^ 64)
    (hfits : s.Fits sizeofHeader n) (hbody : h.mallocBody n s.addr = .ok (.inr (some (h', a)))) :
    ∃ m, h' = h.withCounters m (h.counters.claim n) := by
  obtain ⟨hfree, hlen⟩ := hfits
  obtain ⟨ws, p, rfl⟩ := hinv.exists_above (hinv.ne_main_of_free (by simp) hfree)
  have hrep := hinv.rep
  rw [append_assoc] at hrep
  by_cases hlt : n + sizeofHeader < s.length
  · rw [mallocBody_of_lt hrep hfree hlt] at hbody
    have hclaim := Option.some.inj (Sum.inr.inj (Except.ok.inj hbody))
    obtain ⟨-, hcarved, -⟩ := (hrep.split hlt).nodes [carved s n, remainder sizeofHeader s n]
    exact ⟨_, (congrArg Prod.fst hclaim).symm.trans (claimSegment_eq hcarved.length)⟩
  · have heq : s.length = n := hlen.resolve_left hlt
    obtain ⟨-, hnode, -⟩ := hrep.nodes [s]
    rw [mallocBody_of_eq hnode hn hfree heq] at hbody
    have hclaim := Option.some.inj (Sum.inr.inj (Except.ok.inj hbody))
    obtain ⟨-, hserved, -⟩ := (hrep.setFree false).nodes [{ s with free := false }]
    exact ⟨_, (congrArg Prod.fst hclaim).symm.trans (claimSegment_eq (hserved.length.trans heq))⟩

/-- **An expansion** adds its bytes and a header to the total. -/
theorem HeapInv.grow_counters (hinv : HeapInv h segs) (hn : n + 4143 < 2 ^ 64)
    (hok : h.expandHeap fresh n = .ok h') :
    h'.counters = h.counters.grow (expandLength n) ∧ Grew h h' (expandLength n) := by
  obtain ⟨xs, p, t, rfl⟩ := hinv.rep.exists_last
  obtain ⟨e, -, hend, rfl⟩ := (hinv.rep.expandHeap_eq_ok_iff hinv.pages hn).mp hok
  exact ⟨rfl, .expanded hend⟩

/-- **`_malloc` expands the heap** as often as the list says, and then claims a segment. -/
theorem HeapInv.malloc_counters (hinv : HeapInv h segs) (hsize : roundSize size ≠ 0)
    (hn : roundSize size + 4143 < 2 ^ 64) (hok : h.malloc fresh size fuel = .ok (h', a)) :
    Grew h h' (growths (roundSize size) segs * expandLength (roundSize size)) ∧
      h'.counters = ((Counters.grow (expandLength (roundSize size)))^[growths (roundSize size) segs]
        h.counters).claim (roundSize size) := by
  have hne : size ≠ 0 := by
    rintro rfl
    exact hsize rfl
  induction fuel generalizing h segs size with
  | zero => cases hok
  | succ fuel ih =>
    have hround := roundSize_roundSize size
    have hcases := hinv.malloc_cases hne hn hok
    generalize roundSize size = n at *
    have h48 : sizeofHeader = 48 := rfl
    rcases hcases with ⟨xs, s, ys, rfl, -, hfits, hbody⟩ | ⟨hnone, h₁, hexp, hok⟩
    · obtain ⟨m, rfl⟩ := hinv.serve_eq (by omega) hfits hbody
      rw [growths_eq_zero_iff.mpr ⟨s, by simp, hfits⟩, Nat.zero_mul]
      exact ⟨.of_eq rfl rfl rfl, rfl⟩
    · obtain ⟨xs, p, t, e, rfl, -, -, hinv₁⟩ := hinv.grow hn hexp
      obtain ⟨hcounters, hgrew⟩ := hinv.grow_counters hn hexp
      obtain ⟨hgrew', hcounters'⟩ := ih hinv₁ (by omega) (by omega) hok (by omega)
      rw [hround] at hgrew' hcounters'
      rw [growths_extend (e := e) hn hnone, Nat.succ_mul, hcounters', hcounters]
      exact ⟨hgrew.trans hgrew', rfl⟩

/-- The merges write headers only. -/
private theorem merges_eq (g : HeapState) (a : ℕ) :
    (∃ m, g.mergeThisToNext a = { g with mem := m }) ∧
      ∃ m, g.mergeLastToThis a = { g with mem := m } := by
  exact ⟨⟨_, rfl⟩, ⟨_, rfl⟩⟩

/-- **`_free`** moves the bytes of the block back; the merges leave the counters alone. -/
theorem HeapInv.free_state (hinv : HeapInv h segs) (hs : s ∈ segs) (hused : s.free = false)
    (hmain : s.addr ≠ h.mainSegment) (hok : h.free (s.addr + sizeofHeader) = .ok h') :
    ∃ m, h' = h.withCounters m (h.counters.release s.length) := by
  obtain ⟨xs, ys, rfl⟩ := append_of_mem hs
  obtain ⟨ws, p, rfl⟩ := hinv.exists_above hmain
  rw [append_assoc] at hinv
  obtain ⟨-, hnode, -⟩ := hinv.marked.nodes [{ s with free := true }]
  have hmarked : ∃ m, Bloodmoon.marked h s = h.withCounters m (h.counters.release s.length) := by
    have hlen : segmentHeader.get (segmentHeader.set h.mem s.addr .free 1) s.addr .length =
        s.length := hnode.length
    simp only [Bloodmoon.marked, HeapState.set, HeapState.get, hlen]
    exact ⟨_, rfl⟩
  obtain ⟨hboth, hlast, hnext, halone⟩ := hinv.free_eq hused
  generalize Bloodmoon.marked h s = g at *
  obtain ⟨m, rfl⟩ := hmarked
  cases hp : p.free with
  | true =>
    obtain ⟨m₁, hmerge⟩ := (merges_eq (h.withCounters m (h.counters.release s.length)) s.addr).2
    by_cases hb : BelowFree ys
    · obtain ⟨m₂, hmerge'⟩ := (merges_eq
        ((h.withCounters m (h.counters.release s.length)).mergeLastToThis s.addr) s.addr).1
      rw [hboth hp hb, mergeLastAndThisToNext, hmerge'] at hok
      exact ⟨m₂, (Except.ok.inj hok).symm⟩
    · rw [hlast hp hb, hmerge] at hok
      exact ⟨m₁, (Except.ok.inj hok).symm⟩
  | false =>
    by_cases hb : BelowFree ys
    · obtain ⟨m₁, hmerge⟩ := (merges_eq (h.withCounters m (h.counters.release s.length)) s.addr).1
      rw [hnext hp hb, hmerge] at hok
      exact ⟨m₁, (Except.ok.inj hok).symm⟩
    · rw [halone hp hb] at hok
      exact ⟨m, (Except.ok.inj hok).symm⟩

end Functions

/-! ### The bytes in use -/

/-- The bytes of the segments in use, with their headers. -/
def inUse (segs : List Segment) : ℕ := extent sizeofHeader (segs.filter fun s => !s.free)

section InUse

variable {n e len : ℕ} {segs segs' xs ys : List Segment} {s p t : Segment} {r : Option ℕ}

@[simp]
theorem inUse_cons : inUse (s :: segs) =
    (if s.free then 0 else sizeofHeader + s.length) + inUse segs := by
  cases hs : s.free <;> simp [inUse, hs]

@[simp]
theorem inUse_append : inUse (xs ++ ys) = inUse xs + inUse ys := by
  simp [inUse]

theorem inUse_le_extent (segs : List Segment) : inUse segs ≤ extent sizeofHeader segs := by
  induction segs with
  | nil => exact Nat.le_refl 0
  | cons s segs ih =>
    rw [inUse_cons, extent_cons]
    split_ifs <;> omega

/-- A request adds its bytes and a header. -/
theorem Alloc.inUse_eq (h : Alloc n segs segs' r) (hn : n ≠ 0) :
    inUse segs' = inUse segs + (n + sizeofHeader) := by
  induction h with
  | @serve xs ys s hnot hfits =>
    obtain ⟨hfree, hlen⟩ := hfits
    unfold Machine.serve
    split_ifs with hlt
    · simp [carved, remainder, hfree]
      omega
    · have heq := hlen.resolve_left hlt
      simp [hfree]
      omega
  | @grow xs segs' p t e r hnot hend hn h ih =>
    rw [ih]
    unfold extendList
    split_ifs with hfree
    · simp [hfree]
    · simp
  | growNull hnot hend hzero => exact absurd hzero hn

/-- A release takes the bytes of the segment and its header away. -/
theorem Release.inUse_eq (h : Release s segs segs') (hused : s.free = false) :
    inUse segs' + (s.length + sizeofHeader) = inUse segs := by
  cases h with
  | alone => simp [hused]; omega
  | last hp => simp [hused, hp, fuse]; omega
  | next hp ht => simp [hused, ht, fuse]; omega
  | both hp ht => simp [hused, hp, ht, fuse]; omega

/-- The segments in use fit between `heapEnd` and the top. -/
theorem HeapInv.inUse_le {h : HeapState} (hinv : HeapInv h segs) :
    h.heapEnd + inUse segs ≤ h.mainSegment + sizeofHeader := by
  have hlast := hinv.rep.lastSegment.trans hinv.rep.heapEnd
  have habove := hinv.rep.above
  have hle := inUse_le_extent segs
  obtain ⟨rest, -, rfl⟩ := hinv.rep.main
  have hlevel := (level_le_stop habove).1
  unfold level stop at hlevel
  simp only at hlevel
  omega

end InUse

/-- The bytes of the blocks that are held, with their headers. -/
def Session.heldBytes (σ : Session) : ℕ :=
  (σ.live.map fun b => σ.heap.blockLength b.addr + sizeofHeader).sum

/-- **The blocks that are held are the segments in use**, the main one apart. -/
theorem Tracks.heldBytes_eq (hσ : Tracks σ segs) : σ.heldBytes + sizeofHeader = inUse segs := by
  obtain ⟨rest, -, hsegs⟩ := hσ.inv.rep.main
  have habove := hσ.inv.rep.above
  have h48 : sizeofHeader = 48 := rfl
  rw [hsegs] at habove
  have hpairwise := isChain_iff_pairwise.mp habove
  have hbelow : ∀ s ∈ rest, s.addr ≠ σ.heap.mainSegment := by
    intro s hs
    have hlow : s.addr + sizeofHeader + s.length ≤ σ.heap.mainSegment := above_of_mem_tail habove hs
    omega
  have hperm : (σ.live.map Block.addr).Perm
      ((rest.filter fun s => !s.free).map fun s => s.addr + sizeofHeader) := by
    refine (perm_ext_iff_of_nodup hσ.owns.nodup ?_).mpr fun a => ?_
    · have hdistinct : rest.Pairwise fun s t => s.addr + sizeofHeader ≠ t.addr + sizeofHeader :=
        (pairwise_cons.mp hpairwise).2.imp fun {s t} hst => by
          unfold Above stop at hst
          omega
      exact pairwise_map.mpr (hdistinct.sublist filter_sublist)
    · simp only [mem_map, mem_filter, Bool.not_eq_eq_eq_not]
      constructor
      · rintro ⟨b, hb, rfl⟩
        obtain ⟨s, hs, hused, hmain, haddr, -⟩ := hσ.owns.held b hb
        rw [hsegs] at hs
        rcases mem_cons.mp hs with rfl | hs
        · exact absurd rfl hmain
        · exact ⟨s, ⟨hs, hused⟩, haddr.symm⟩
      · rintro ⟨s, ⟨hs, hused⟩, rfl⟩
        obtain ⟨b, hb, haddr⟩ := hσ.owns.used s (hsegs ▸ mem_cons_of_mem _ hs) hused
          (hbelow s hs)
        exact ⟨b, hb, haddr⟩
  have hsum : σ.heldBytes = ((rest.filter fun s => !s.free).map fun s =>
      sizeofHeader + s.length).sum := by
    have hmap := (hperm.map fun a => σ.heap.blockLength a + sizeofHeader).sum_nat
    rw [map_map, map_map] at hmap
    refine hmap.trans (congrArg List.sum (map_congr_left fun s hs => ?_))
    have hs' : s ∈ segs := hsegs ▸ mem_cons_of_mem _ (mem_filter.mp hs).1
    simp only [Function.comp_apply, hσ.inv.blockLength_eq hs']
    omega
  rw [hsegs, inUse_cons]
  simp only [Bool.false_eq_true, if_false]
  unfold inUse extent
  omega

/-! ### The counters in every run -/

/-- **The counters after `k` expansions**: the bytes in use are counted, the total is `k` headers
too high, and the rest is free. -/
structure Counted (h : HeapState) (segs : List Segment) (k : ℕ) : Prop where
  total : h.totalSize = wrap (h.mainSegment + sizeofHeader - h.heapEnd + k * sizeofHeader)
  used : h.usedSize + sizeofHeader = inUse segs
  free : h.freeSize = wsub h.totalSize h.usedSize
  bound : h.heapEnd + k * pageSize ≤ 2 ^ 64

namespace Counted

variable {h h' : HeapState} {segs segs' : List Segment} {s : Segment} {k n : ℕ}

private theorem iterate_grow (len k : ℕ) (c : Counters) (htotal : c.total < 2 ^ 64)
    (hfree : c.free < 2 ^ 64) : (Counters.grow len)^[k] c =
      ⟨wrap (c.total + k * (len + sizeofHeader)), c.used,
        wrap (c.free + k * (len + sizeofHeader))⟩ := by
  induction k with
  | zero => rw [Nat.zero_mul, Nat.add_zero, Nat.add_zero, wrap_of_lt htotal, wrap_of_lt hfree]; rfl
  | succ k ih =>
    have hadd : ∀ x, wrap (wrap (x + k * (len + sizeofHeader)) + wrap (len + sizeofHeader)) =
        wrap (x + (k * (len + sizeofHeader) + (len + sizeofHeader))) := by
      intro x
      unfold wrap
      omega
    simp only [Function.iterate_succ_apply', ih, Counters.grow, Nat.succ_mul, hadd]

/-- After a request that has expanded the heap `j` times. -/
theorem claim (hc : Counted h segs k) (hinv : HeapInv h segs) (hinv' : HeapInv h' segs') {j len : ℕ}
    (hmain : h'.mainSegment = h.mainSegment) (hend : h'.heapEnd + j * len = h.heapEnd)
    (hlen : j * pageSize ≤ j * len)
    (hcounters : h'.counters = ((Counters.grow len)^[j] h.counters).claim n)
    (huse : inUse segs' = inUse segs + (n + sizeofHeader)) : Counted h' segs' (k + j) := by
  have htop := hinv.rep.top
  have hle := hinv'.inUse_le
  have hused := hc.used
  have hfits := hinv.inUse_le
  have hfree : h.freeSize < 2 ^ 64 := by
    rw [hc.free]
    exact wsub_lt _ _
  have htotal : h.totalSize < 2 ^ 64 := by
    rw [hc.total]
    exact wrap_lt _
  rw [iterate_grow _ _ _ htotal hfree] at hcounters
  simp only [counters, Counters.claim, Counters.mk.injEq] at hcounters
  obtain ⟨htotal', hused', hfree'⟩ := hcounters
  have hct := hc.total
  have hcf := hc.free
  have hcb := hc.bound
  have h48 : sizeofHeader = 48 := rfl
  rw [Nat.mul_add] at htotal' hfree'
  refine ⟨?_, ?_, ?_, ?_⟩
  · rw [Nat.add_mul]
    unfold wrap at *
    omega
  · unfold wrap at hused'
    omega
  · unfold wrap wsub at *
    omega
  · rw [Nat.add_mul]
    omega

/-- After a release. -/
theorem release (hc : Counted h segs k) (hinv : HeapInv h segs)
    (hmain : h'.mainSegment = h.mainSegment) (hend : h'.heapEnd = h.heapEnd)
    (hcounters : h'.counters = h.counters.release n)
    (huse : inUse segs' + (n + sizeofHeader) = inUse segs) (hpos : sizeofHeader ≤ inUse segs') :
    Counted h' segs' k := by
  have htop := hinv.rep.top
  have hfits := hinv.inUse_le
  have hused := hc.used
  simp only [counters, Counters.release, Counters.mk.injEq] at hcounters
  obtain ⟨htotal', hused', hfree'⟩ := hcounters
  have hcf := hc.free
  have h48 : sizeofHeader = 48 := rfl
  refine ⟨by rw [htotal', hmain, hend, hc.total], ?_, ?_, hend ▸ hc.bound⟩
  · unfold wrap wsub at hused'
    omega
  · unfold wrap wsub at *
    omega

/-- The main segment is in use. -/
private theorem header_le_inUse (hinv : HeapInv h segs) : sizeofHeader ≤ inUse segs := by
  obtain ⟨rest, -, rfl⟩ := hinv.rep.main
  simp only [inUse_cons, Bool.false_eq_true, if_false]
  omega

end Counted

/-- The request of the call, if it has one, finds a segment that fits. -/
def HeapOp.Fits (op : HeapOp) (h : HeapState) : Prop :=
  ∀ size ∈ op.request, size ≠ 0 →
    ∃ segs, Represents h segs ∧ ∃ s ∈ segs, s.Fits sizeofHeader (roundSize size)

namespace Tracks

variable {σ σ' : Session} {segs : List Segment} {op : HeapOp} {k p size : ℕ}

section

variable (hσ : Tracks σ segs) (hc : Counted σ.heap segs k)

include hσ hc

/-- **A request** expands the heap some number of times, and not at all exactly when a segment
fits. -/
theorem counted_malloc (hsize : NoOverflow size) (hcall : Call (.malloc size) σ σ' p) :
    ∃ segs' j, Tracks σ' segs' ∧ Counted σ'.heap segs' (k + j) ∧
      (j = 0 ↔ (size ≠ 0 → ∃ s ∈ segs, s.Fits sizeofHeader (roundSize size))) := by
  cases hcall with
  | @malloc h h' live fresh _ fuel _ hok =>
    obtain ⟨segs', ⟨hzero, hpos⟩, hσ', hmain, -⟩ := hσ.malloc hsize hok
    by_cases hne : size = 0
    · subst hne
      obtain ⟨rfl, rfl⟩ := eq_of_malloc_zero hok
      exact ⟨segs, 0, hσ, hc, iff_of_true rfl fun hne => absurd rfl hne⟩
    · obtain ⟨r, halloc⟩ := hpos hne
      have hlt := hsize.lt
      have hround := hsize.roundSize_eq
      obtain ⟨hgrew, hcounters⟩ := hσ.inv.malloc_counters (by omega) (by omega) hok
      have hlen : pageSize ≤ expandLength (roundSize size) := by
        rw [expandLength_eq (by omega), pageSize_eq]
        omega
      exact ⟨segs', _, hσ', hc.claim hσ.inv hσ'.inv hmain hgrew.heapEnd (Nat.mul_le_mul_left _ hlen)
        hcounters (halloc.inUse_eq (by omega)),
        growths_eq_zero_iff.trans ⟨fun hs _ => hs, fun hs => hs hne⟩⟩

/-- A release, and what is in use after it. -/
theorem counted_free {a : ℕ} (hcall : Call (.free a) σ σ' p) :
    ∃ segs', Tracks σ' segs' ∧ Counted σ'.heap segs' k := by
  cases hcall with
  | @free h h' live b hb hok =>
    obtain ⟨s, hs, hused, hmain, haddr, -⟩ := hσ.owns.held b hb
    obtain ⟨h₁, segs', hok', hrel, -, hinv', hmain'⟩ := hσ.inv.free_effect hs hused hmain
    rw [haddr] at hok
    obtain rfl := Except.ok.inj (hok.symm.trans hok')
    obtain ⟨m, rfl⟩ := hσ.inv.free_state hs hused hmain hok
    rw [haddr]
    exact ⟨segs', ⟨hinv', hσ.owns.release hσ.inv hmain' hrel⟩,
      hc.release hσ.inv rfl rfl rfl (hrel.inUse_eq hused) (Counted.header_le_inUse hinv')⟩

/-- **Every call keeps the count**, with the expansions it makes. -/
theorem counted_call (hop : op.Bounded) (hcall : Call op σ σ' p) :
    ∃ segs' j, Tracks σ' segs' ∧ Counted σ'.heap segs' (k + j) ∧ (j = 0 ↔ op.Fits σ.heap) := by
  obtain ⟨σ₁, σ₂, hreq, hnone, hwrite, hfree⟩ := hσ.steps hop hcall
  obtain ⟨mid, j, hσ₁, hc₁, hj⟩ : ∃ mid j, Tracks σ₁ mid ∧ Counted σ₁.heap mid (k + j) ∧
      (j = 0 ↔ op.Fits σ.heap) := by
    cases hop' : op.request with
    | none =>
      rw [hnone hop']
      exact ⟨segs, 0, hσ, hc, iff_of_true rfl fun n hn => by rw [hop'] at hn; nomatch hn⟩
    | some size =>
      obtain ⟨mid, j, hσ₁, hc₁, hj⟩ := hσ.counted_malloc hc (hop size hop') (hreq size hop')
      refine ⟨mid, j, hσ₁, hc₁, hj.trans ⟨fun hs n hn hne => ?_, fun hs hne => ?_⟩⟩
      · rw [hop'] at hn
        obtain rfl := Option.some.inj hn
        exact ⟨segs, hσ.inv.rep, hs hne⟩
      · obtain ⟨segs', hrep, hfits⟩ := hs size hop' hne
        rwa [hσ.inv.rep.unique hrep]
  obtain ⟨hσ₂, hc₂⟩ : Tracks σ₂ mid ∧ Counted σ₂.heap mid (k + j) := by
    rcases hwrite with rfl | hwrite
    · exact ⟨hσ₁, hc₁⟩
    · cases hwrite with
      | write hb hsame =>
        exact ⟨hσ₁.write hb hsame, hc₁.total, hc₁.used, hc₁.free, hc₁.bound⟩
  rcases hfree with rfl | ⟨a, hfree⟩
  · exact ⟨mid, j, hσ₂, hc₂, hj⟩
  · obtain ⟨segs', hσ', hc'⟩ := hσ₂.counted_free hc₂ hfree
    exact ⟨segs', j, hσ', hc', hj⟩

end

end Tracks

/-- The bytes from `heapEnd` to the end of the page that holds the main segment. -/
def HeapState.mappedBytes (h : HeapState) : ℕ :=
  (h.mainSegment / pageSize + 1) * pageSize - h.heapEnd

/-- The counters are right. -/
structure Accurate (σ : Session) : Prop where
  total : σ.heap.totalSize = σ.heap.mappedBytes
  used : σ.heap.usedSize = σ.heldBytes
  free : σ.heap.freeSize = σ.heap.totalSize - σ.heap.usedSize

/-- The main segment ends with its page. -/
theorem HeapInv.mappedBytes_eq {h : HeapState} (hinv : HeapInv h segs) :
    h.mappedBytes = h.mainSegment + sizeofHeader - h.heapEnd := by
  have htop := hinv.top
  have h48 : sizeofHeader = 48 := rfl
  rw [mappedBytes]
  rw [pageSize_eq] at htop ⊢
  omega

/-- As many headers as there are pages do not add up to a full turn. -/
private theorem eq_zero_of_wrap_eq {m k : ℕ} (hk : k * 4096 ≤ 2 ^ 64)
    (h : wrap (m + k * sizeofHeader) = m) : k = 0 := by
  have hlt : k * sizeofHeader < 2 ^ 64 := by
    have h48 : sizeofHeader = 48 := rfl
    rw [h48]
    omega
  have hdiv := Nat.div_add_mod (m + k * sizeofHeader) (2 ^ 64)
  rw [show (m + k * sizeofHeader) % 2 ^ 64 = m from h, Nat.add_comm m] at hdiv
  have hzero := Nat.eq_zero_of_dvd_of_lt ⟨_, (Nat.add_right_cancel hdiv).symm⟩ hlt
  exact (Nat.mul_eq_zero.mp hzero).resolve_right (by decide)

/-- **The counters are right as long as the heap has not been expanded.** -/
theorem Tracks.accurate_iff {k : ℕ} (hσ : Tracks σ segs) (hc : Counted σ.heap segs k) :
    Accurate σ ↔ k = 0 := by
  have hmapped := hσ.inv.mappedBytes_eq
  have hheld := hσ.heldBytes_eq
  have hfits := hσ.inv.inUse_le
  have htop := hσ.inv.rep.top
  have hpos := hσ.inv.rep.heapEnd_pos
  have htotal := hc.total
  have hused := hc.used
  have hbound := hc.bound
  rw [pageSize_eq] at hbound
  constructor
  · intro h
    have hright := h.total
    rw [hmapped, htotal] at hright
    exact eq_zero_of_wrap_eq (by omega) hright
  · rintro rfl
    rw [Nat.zero_mul, wrap_of_lt (by omega)] at htotal
    refine ⟨htotal.trans hmapped.symm, by omega, ?_⟩
    rw [hc.free]
    exact wsub_of_le (by omega) (by omega)

/-- A new heap counts its page. -/
theorem Counted.init {h₀ h : HeapState} {fresh : Bytes} {heapEnd stackEnd : ℕ} {user : Bool}
    (hlt : heapEnd < 2 ^ 64) (hne : heapEnd ≠ pageSize)
    (hzero : h₀.totalSize = 0 ∧ h₀.usedSize = 0 ∧ h₀.freeSize = 0)
    (hinit : h₀.initHeap fresh heapEnd stackEnd user = .ok h) :
    Counted h (initList h.mainSegment h.heapEnd) 0 := by
  obtain ⟨hinv, hmain⟩ := HeapInv.init hlt hne hinit
  have hpage : wrap (0 + pageSize) = pageSize := by decide
  obtain ⟨htotal, hused, hfree⟩ : h.totalSize = pageSize ∧ h.usedSize = 0 ∧
      h.freeSize = pageSize := by
    obtain ⟨-, -, main, m, -, rfl⟩ := initHeap_eq_ok rfl (wsub_pageSize_ne_zero hlt hne) hinit
    simp only [initState, hzero.1, hzero.2.1, hzero.2.2, hpage, and_self]
  have htop := hinv.rep.top
  refine ⟨?_, ?_, ?_, ?_⟩
  · rw [htotal, hmain, Nat.add_sub_cancel_left, Nat.zero_mul]
    decide
  · rw [hused]
    rfl
  · rw [hfree, htotal, hused]
    decide
  · omega

/-- **When the counters are right**: in every run in which each request finds a segment that fits,
and up to the first one that does not. -/
theorem heap_counters_iff {h₀ h : HeapState} {fresh : Bytes} {heapEnd stackEnd : ℕ} {user : Bool}
    {σ : Session} (hlt : heapEnd < 2 ^ 64) (hne : heapEnd ≠ pageSize)
    (hzero : h₀.totalSize = 0 ∧ h₀.usedSize = 0 ∧ h₀.freeSize = 0)
    (hinit : h₀.initHeap fresh heapEnd stackEnd user = .ok h)
    (hrun : HeapRun (fun op σ => op.Small ∧ op.Fits σ.heap) ⟨h, []⟩ σ) :
    Accurate σ ∧ ∀ op σ' p, op.Small → Call op σ σ' p → (Accurate σ' ↔ op.Fits σ.heap) := by
  obtain ⟨segs, hσ, hc⟩ : ∃ segs, Tracks σ segs ∧ Counted σ.heap segs 0 := by
    induction hrun with
    | refl => exact ⟨_, Tracks.init hlt hne hinit, Counted.init hlt hne hzero hinit⟩
    | tail _ hstep ih =>
      obtain ⟨op, p, ⟨hsmall, hfits⟩, hcall⟩ := hstep
      obtain ⟨segs, hσ, hc⟩ := ih
      obtain ⟨segs', j, hσ', hc', hj⟩ := hσ.counted_call hc hsmall.bounded hcall
      rw [hj.mpr hfits] at hc'
      exact ⟨segs', hσ', hc'⟩
  refine ⟨(hσ.accurate_iff hc).mpr rfl, fun op σ' p hsmall hcall => ?_⟩
  obtain ⟨segs', j, hσ', hc', hj⟩ := hσ.counted_call hc hsmall.bounded hcall
  rw [hσ'.accurate_iff hc', Nat.zero_add, hj]

theorem heap_counters_kernelHeap : ∃ h σ, kernelHeap = .ok h ∧
    HeapRun (fun op σ => op.Small ∧ op.Fits σ.heap) ⟨h, []⟩ σ ∧ σ.heap.usedSize = 160 ∧
    Accurate σ := by
  obtain ⟨h, h₁, _, _, _, _, hinit, hmalloc, hused, -⟩ := twoBlocks_kernelHeap
  have hrep := (HeapInv.init (by decide) (by decide) hinit).1.rep
  have hfits : (HeapOp.malloc 100).Fits h := fun size hsize _ => by
    obtain rfl := Option.some.inj hsize
    have hlt : roundSize 100 + sizeofHeader < pageSize - sizeofHeader - sizeofHeader := by decide
    exact ⟨_, hrep, _, mem_cons_of_mem _ mem_cons_self, rfl, .inl hlt⟩
  have hrun : HeapRun (fun op σ => op.Small ∧ op.Fits σ.heap) ⟨h, []⟩
      ⟨h₁, [⟨0xffffffff6fffef60, 100⟩]⟩ :=
    .single ⟨_, _, ⟨by decide, hfits⟩, .malloc hmalloc⟩
  exact ⟨h, _, hinit, hrun, hused,
    (heap_counters_iff (by decide) (by decide) ⟨rfl, rfl, rfl⟩ hinit hrun).1⟩

/-- A request of 8000 bytes makes a new heap grow from 4096 to 12288 bytes. The counter is one
header higher. -/
theorem heap_counters_wrong_kernelHeap : ∃ h σ, kernelHeap = .ok h ∧
    HeapRun (fun op _ => op.Small) ⟨h, []⟩ σ ∧ σ.heap.totalSize = 12336 ∧
    σ.heap.mappedBytes = 12288 := by
  obtain ⟨h, hinit, ⟨h₁, p⟩, hmalloc, htotal, hmapped⟩ : ∃ h, kernelHeap = .ok h ∧
      ∃ r, h.malloc (fun _ => 0#8) 8000 8 = .ok r ∧ r.1.totalSize = 12336 ∧
        r.1.mappedBytes = 12288 := by
    decide +kernel
  exact ⟨h, _, hinit, .single ⟨_, _, show (HeapOp.malloc 8000).Small by decide, .malloc hmalloc⟩,
    htotal, hmapped⟩

end Bloodmoon
