import Bloodmoon.Heap.Counters

/-!
# The regions of the heaps

Each heap is given a range of addresses for its blocks and one for its stacks, both used from the
top down. The lower ends of the two ranges are arguments of `_initHeap` that it does not look at,
and neither `expand_heap` nor `_stackalloc` compares anything with them: a heap stays in its
region as long as its requests do (`RegionOp.Stays`), and leaves it with the first one that does
not.
-/

namespace Bloodmoon

open Machine Machine.Segment HeapState
open List hiding length

/-! ### The fixed layout -/

/-- The four addresses that `_initHeap` is given. -/
structure HeapRegion where
  heapStart : ℕ
  heapEnd : ℕ
  stackStart : ℕ
  stackEnd : ℕ
  pos : pageSize < heapStart := by decide
  heap_le : heapStart + pageSize ≤ heapEnd := by decide
  le_stack : heapEnd ≤ stackStart := by decide
  stack_le : stackStart + pageSize ≤ stackEnd := by decide
  lt : stackEnd < 2 ^ 64 := by decide

namespace HeapRegion

/-- The region of `kernelGlobalHeap`. -/
def kernelGlobalHeap : HeapRegion where
  heapStart := 0xffffffff60000000
  heapEnd := 0xffffffff6ffff000
  stackStart := 0xffffffff70000000
  stackEnd := 0xffffffff7ffff000

/-- The region of `kernelSleepHeap`. -/
def kernelSleepHeap : HeapRegion where
  heapStart := 0xffffffff80000000
  heapEnd := 0xffffffff8ffff000
  stackStart := 0xffffffff90000000
  stackEnd := 0xffffffff9ffff000

/-- The region of `kernelSignalHeap`. -/
def kernelSignalHeap : HeapRegion where
  heapStart := 0xffffffffa0000000
  heapEnd := 0xffffffffaffff000
  stackStart := 0xffffffffb0000000
  stackEnd := 0xffffffffbffff000

/-- The region of the heap of a task, from `create_user_heap`. -/
def userHeap : HeapRegion where
  heapStart := 0x00007fff60000000
  heapEnd := 0x00007fff6ffff000
  stackStart := 0x00007fff70000000
  stackEnd := 0x00007fff7ffff000

/-- The region is used by a page. -/
def Holds (r : HeapRegion) (page : ℕ) : Prop :=
  (r.heapStart ≤ page ∧ page + pageSize ≤ r.heapEnd) ∨
    (r.stackStart ≤ page ∧ page + pageSize ≤ r.stackEnd)

/-- The page is outside the region. -/
def Avoids (r : HeapRegion) (page : ℕ) : Prop := page + pageSize ≤ r.heapStart ∨ r.stackEnd ≤ page

/-- One region ends before the other begins. -/
def Apart (r r' : HeapRegion) : Prop := r.stackEnd ≤ r'.heapStart ∨ r'.stackEnd ≤ r.heapStart

theorem Apart.avoids {r r' : HeapRegion} (h : Apart r r') {page : ℕ} (hpage : r.Holds page) :
    r'.Avoids page := by
  have hheap := r.heap_le
  have hbetween := r.le_stack
  have hstack := r.stack_le
  unfold Apart at h
  unfold Holds at hpage
  unfold Avoids
  omega

end HeapRegion

/-- The heaps that `init_heap` and `create_user_heap` set up. -/
def heapRegions : List HeapRegion :=
  [.kernelGlobalHeap, .kernelSleepHeap, .kernelSignalHeap, .userHeap]

/-- The regions of the layout do not overlap. -/
theorem heapRegions_apart {r r' : HeapRegion} (hr : r ∈ heapRegions) (hr' : r' ∈ heapRegions)
    (hne : r ≠ r') : r.Apart r' := by
  have hpairwise : heapRegions.Pairwise HeapRegion.Apart := by
    unfold HeapRegion.Apart
    decide
  have : Std.Symm HeapRegion.Apart := ⟨fun _ _ h => h.symm⟩
  exact hpairwise.forall hr hr' hne

/-- The heap stays in its region: its ends are above the lower ends of the region, and all its
pages are in it. -/
structure InRegion (r : HeapRegion) (h : HeapState) : Prop where
  heap : r.heapStart ≤ h.heapEnd
  stack : r.stackStart ≤ h.lastStack
  pages : ∀ page ∈ h.mapped, r.Holds page.1

/-! ### `_stackalloc` -/

/-- The state after `n` pages are mapped from `newStack` up to `lastStack`. -/
def stacked (h : HeapState) (fresh : Bytes) (perms newStack n : ℕ) : HeapState :=
  { h with
    lastStack := newStack
    mem := fun x => if newStack ≤ x ∧ x < h.lastStack then fresh x else h.mem x
    mapped := (List.range n).map (fun i => (newStack + i * pageSize, perms)) ++ h.mapped }

/-- The bytes that `_stackalloc` takes: whole pages, and one more page below them that is not
mapped. -/
def stackGrowth (length : ℕ) : ℕ := ((length + (pageSize - 1)) / pageSize + 1) * pageSize

section Stack

variable {h h' : HeapState} {fresh : Bytes} {perms n length p : ℕ}

/-- The state with the two ends exchanged. -/
private def swapEnds (h : HeapState) : HeapState :=
  { h with heapEnd := h.lastStack, lastStack := h.heapEnd }

private theorem swapEnds_inj (heq : swapEnds h = swapEnds h') : h = h' := congrArg swapEnds heq

private theorem mapPage_swapEnds {address : ℕ} :
    mapPage { h with lastStack := address } fresh address perms = .ok h' ↔
      mapPage { swapEnds h with heapEnd := address } fresh address perms =
        .ok (swapEnds h') := by
  rw [mapPage_eq_ok_iff, mapPage_eq_ok_iff]
  exact and_congr_right fun _ => ⟨fun hg => congrArg swapEnds hg, fun hg => swapEnds_inj hg⟩

/-- The loop of `_stackalloc` is the one of `expand_heap`, at the other end. -/
private theorem stackPages_eq_ok : h.stackPages fresh perms n = .ok h' ↔
    (swapEnds h).growPages fresh perms n = .ok (swapEnds h') := by
  induction n generalizing h with
  | zero =>
    rw [stackPages, growPages, Except.ok.injEq, Except.ok.injEq]
    exact ⟨congrArg swapEnds, swapEnds_inj⟩
  | succ n ih =>
    have hround : ∀ g : HeapState,
        (if g.lastStack = 0 then kpanic "Out of memory" else g.stackPages fresh perms n) = .ok h' ↔
          (if (swapEnds g).heapEnd = 0 then kpanic "Failed to expand heap"
            else (swapEnds g).growPages fresh perms n) = .ok (swapEnds h') := by
      intro g
      by_cases hzero : g.lastStack = 0
      · rw [if_pos hzero, if_pos (show (swapEnds g).heapEnd = 0 from hzero)]
        exact iff_of_false kpanic_ne_ok kpanic_ne_ok
      · rw [if_neg hzero, if_neg (show (swapEnds g).heapEnd ≠ 0 from hzero), ih]
    simp only [stackPages, growPages, bind_eq_ok]
    constructor
    · rintro ⟨g, hg, hrest⟩
      exact ⟨swapEnds g, mapPage_swapEnds.mp hg, (hround g).mp hrest⟩
    · rintro ⟨g, hg, hrest⟩
      obtain ⟨g, rfl⟩ : ∃ g', g = swapEnds g' := ⟨swapEnds g, rfl⟩
      exact ⟨g, mapPage_swapEnds.mpr hg, (hround g).mpr hrest⟩

/-- **`_stackalloc` returns** when its pages do not reach down to address zero, and leaves
`lastStack` a page below the last of them. -/
theorem stackalloc_eq_ok_iff (halign : h.lastStack % pageSize = 0) (hpos : 0 < h.lastStack)
    (hle : h.lastStack ≤ 2 ^ 64) : h.stackalloc fresh length = .ok (h', p) ↔
      0 < p ∧ p + (length + (pageSize - 1)) / pageSize * pageSize = h.lastStack ∧
        h' = { stacked h fresh h.perms p ((length + (pageSize - 1)) / pageSize) with
          lastStack := p - pageSize } := by
  have hpages : length / pageSize + (if length % pageSize ≠ 0 then 1 else 0) =
      (length + (pageSize - 1)) / pageSize := by
    rw [pageSize_eq]
    split_ifs <;> omega
  have hperms : (if h.isKernel then pageWriteBit else pageWriteBit ||| pageUserBit) = h.perms := rfl
  simp only [stackalloc, hpages, hperms, bind_eq_ok, stackPages_eq_ok]
  generalize (length + (pageSize - 1)) / pageSize = n
  have hgrow : ∀ {g}, (swapEnds h).growPages fresh h.perms n = .ok (swapEnds g) ↔ _ :=
    fun {_} => growPages_eq_ok_iff halign hpos hle
  have hwsub : ∀ e, 0 < e → e + n * pageSize = h.lastStack → wsub e pageSize = e - pageSize := by
    intro e he hend
    have hmod : e % pageSize = 0 := by
      rwa [← hend, Nat.add_mul_mod_self_right] at halign
    have hge : pageSize ≤ e := Nat.le_of_dvd he (Nat.dvd_of_mod_eq_zero hmod)
    rw [pageSize_eq] at hend hge ⊢
    unfold wsub
    omega
  constructor
  · rintro ⟨g, hg, hret⟩
    obtain ⟨e, he, hend, hswap⟩ := hgrow.mp hg
    obtain rfl : g = stacked h fresh h.perms e n := swapEnds_inj hswap
    obtain ⟨rfl, rfl⟩ := ok_inj hret
    exact ⟨he, hend, by rw [show (stacked h fresh h.perms e n).lastStack = e from rfl,
      hwsub e he hend]⟩
  · rintro ⟨he, hend, rfl⟩
    exact ⟨stacked h fresh h.perms p n, hgrow.mpr ⟨p, he, hend, rfl⟩, by
      rw [show (stacked h fresh h.perms p n).lastStack = p from rfl, hwsub p he hend]⟩

/-- The pages that `_stackalloc` maps. -/
theorem mem_stacked {e : ℕ} {page : ℕ × ℕ} (hpage : page ∈ (stacked h fresh perms e n).mapped) :
    page ∈ h.mapped ∨ (e ≤ page.1 ∧ page.1 + pageSize ≤ e + n * pageSize) := by
  rcases mem_append.mp hpage with hnew | hold
  · obtain ⟨i, hi, rfl⟩ := mem_map.mp hnew
    have hle := region_le pageSize (mem_range.mp hi)
    exact .inr ⟨Nat.le_add_right e _, show e + i * pageSize + pageSize ≤ _ by omega⟩
  · exact .inl hold

/-- **Stack pages above the heap** leave its list alone. -/
theorem HeapInv.stackalloc {segs : List Segment} {e s : ℕ} (hinv : HeapInv h segs)
    (habove : h.mainSegment + sizeofHeader ≤ e) :
    HeapInv { stacked h fresh perms e n with lastStack := s } segs where
  rep := hinv.rep.of_sameOn (fun t ht x _ hx =>
    if_neg (by have := (hinv.rep.bounds ht).2; unfold stop at this; omega)) rfl rfl rfl
  ready := hinv.ready
  aligned := hinv.aligned
  coalesced := hinv.coalesced
  pages := hinv.pages
  top := hinv.top
  mapped := fun a hle hlt =>
    let ⟨flags, hmem⟩ := hinv.mapped a hle hlt
    ⟨flags, mem_append_right _ hmem⟩

end Stack

/-! ### Runs -/

/-- A call of the heap, or a stack for a new task. -/
inductive RegionOp where
  | heap (op : HeapOp)
  | stackalloc (length : ℕ)

/-- A call that returns. -/
inductive RegionCall : RegionOp → Session → Session → Prop
  | heap {op : HeapOp} {σ σ' : Session} {p : ℕ} (hcall : Call op σ σ' p) :
      RegionCall (.heap op) σ σ'
  | stackalloc {h h' : HeapState} {live : List Block} {fresh : Bytes} {length p : ℕ}
      (hok : h.stackalloc fresh length = .ok (h', p)) :
      RegionCall (.stackalloc length) ⟨h, live⟩ ⟨h', live⟩

/-- A sequence of calls, each of which meets the condition `ok`. -/
def RegionRun (ok : RegionOp → Session → Prop) : Session → Session → Prop :=
  Relation.ReflTransGen fun σ σ' => ∃ op, ok op σ ∧ RegionCall op σ σ'

/-- The bytes that a call of the heap adds to it. -/
def HeapOp.growth (op : HeapOp) (segs : List Segment) : ℕ :=
  match op.request with
  | none => 0
  | some size =>
    if size = 0 then 0 else growths (roundSize size) segs * expandLength (roundSize size)

theorem HeapOp.growth_malloc {size : ℕ} (hsize : size ≠ 0) (segs : List Segment) :
    (HeapOp.malloc size).growth segs =
      growths (roundSize size) segs * expandLength (roundSize size) :=
  if_neg hsize

/-- No computation with the size of the request overflows. -/
def RegionOp.Bounded : RegionOp → Prop
  | .heap op => op.Bounded
  | .stackalloc _ => True

/-- What the call adds to the heap or to the stacks is left in the region. -/
def RegionOp.Stays (r : HeapRegion) : RegionOp → HeapState → Prop
  | .heap op, h => ∃ segs, Represents h segs ∧ r.heapStart + op.growth segs ≤ h.heapEnd
  | .stackalloc length, h => r.stackStart + stackGrowth length ≤ h.lastStack

namespace Tracks

variable {σ σ' : Session} {segs : List Segment} {op : HeapOp} {p size : ℕ}

theorem grew_malloc (hσ : Tracks σ segs) (hsize : NoOverflow size)
    (hcall : Call (.malloc size) σ σ' p) :
    Grew σ.heap σ'.heap ((HeapOp.malloc size).growth segs) := by
  cases hcall with
  | @malloc h h' live fresh _ fuel _ hok =>
    by_cases hzero : size = 0
    · subst hzero
      obtain ⟨rfl, rfl⟩ := eq_of_malloc_zero hok
      exact .of_eq rfl rfl rfl
    · have hlt := hsize.lt
      have hround := hsize.roundSize_eq
      rw [HeapOp.growth_malloc hzero]
      exact (hσ.inv.malloc_counters (by omega) (by omega) hok).1

theorem grew_free (hσ : Tracks σ segs) {a : ℕ} (hcall : Call (.free a) σ σ' p) :
    Grew σ.heap σ'.heap 0 := by
  cases hcall with
  | @free h h' live b hb hok =>
    obtain ⟨s, hs, hused, hmain, haddr, -⟩ := hσ.owns.held b hb
    rw [haddr] at hok
    obtain ⟨m, rfl⟩ := hσ.inv.free_state hs hused hmain hok
    exact .of_eq rfl rfl rfl

/-- **Every call of the heap** grows it by what its request needs. -/
theorem grew_call (hσ : Tracks σ segs) (hop : op.Bounded) (hcall : Call op σ σ' p) :
    Grew σ.heap σ'.heap (op.growth segs) := by
  obtain ⟨σ₁, σ₂, hreq, hnone, hwrite, hfree⟩ := hσ.steps hop hcall
  obtain ⟨mid, hσ₁, hgrew₁⟩ : ∃ mid, Tracks σ₁ mid ∧ Grew σ.heap σ₁.heap (op.growth segs) := by
    cases hop' : op.request with
    | none =>
      simp only [HeapOp.growth, hop', hnone hop']
      exact ⟨segs, hσ, .of_eq rfl rfl rfl⟩
    | some size =>
      have hbounded : (HeapOp.malloc size).Bounded := fun n hn => by
        obtain rfl := Option.some.inj hn
        exact hop size hop'
      obtain ⟨mid, -, hσ₁, -⟩ := hσ.call hbounded (hreq size hop')
      have hgrowth : op.growth segs = (HeapOp.malloc size).growth segs := by
        rw [HeapOp.growth, hop']
        rfl
      rw [hgrowth]
      exact ⟨mid, hσ₁, hσ.grew_malloc (hop size hop') (hreq size hop')⟩
  obtain ⟨hσ₂, hgrew₂⟩ : Tracks σ₂ mid ∧ Grew σ.heap σ₂.heap (op.growth segs) := by
    rcases hwrite with rfl | hwrite
    · exact ⟨hσ₁, hgrew₁⟩
    · cases hwrite with
      | write hb hsame =>
        exact ⟨hσ₁.write hb hsame, hgrew₁.lastStack, hgrew₁.heapEnd, hgrew₁.pages⟩
  rcases hfree with rfl | ⟨a, hfree⟩
  · exact hgrew₂
  · have hgrew := hgrew₂.trans (hσ₂.grew_free hfree)
    rwa [Nat.zero_add] at hgrew

end Tracks

/-- What the calls keep as long as the heap is in its region. -/
structure RegionInv (r : HeapRegion) (σ : Session) (segs : List Segment) : Prop where
  tracks : Tracks σ segs
  inside : InRegion r σ.heap
  aligned : σ.heap.lastStack % pageSize = 0
  heap_top : σ.heap.mainSegment + sizeofHeader ≤ r.heapEnd
  heap_le : σ.heap.heapEnd ≤ r.heapEnd
  stack_le : σ.heap.lastStack ≤ r.stackEnd

namespace RegionInv

variable {r : HeapRegion} {σ σ' : Session} {segs : List Segment} {op : RegionOp}

/-- **A new heap is in its region.** -/
theorem init {h₀ h : HeapState} {fresh : Bytes} {user : Bool} (hfresh : h₀.mapped = [])
    (hinit : h₀.initHeap fresh r.heapEnd r.stackEnd user = .ok h) :
    RegionInv r ⟨h, []⟩ (initList h.mainSegment h.heapEnd) := by
  have hpos := r.pos
  have hheap := r.heap_le
  have hbetween := r.le_stack
  have hstack := r.stack_le
  have hlt := r.lt
  have hend : wsub r.heapEnd pageSize = r.heapEnd - pageSize := wsub_of_le (by omega) (by omega)
  have hend' : wsub r.stackEnd pageSize = r.stackEnd - pageSize := wsub_of_le (by omega) hlt
  have htracks := Tracks.init (show r.heapEnd < 2 ^ 64 by omega) (by omega) hinit
  obtain ⟨-, halign, main, m, hmain, rfl⟩ := initHeap_eq_ok hend (by omega) hinit
  rw [hend'] at halign htracks
  rw [hend']
  refine ⟨htracks, ⟨?_, ?_, fun page hpage => ?_⟩, halign, ?_, ?_, ?_⟩
  · exact Nat.le_sub_of_add_le hheap
  · exact Nat.le_sub_of_add_le hstack
  · simp only [initState, hfresh, mem_cons, not_mem_nil, or_false] at hpage
    rcases hpage with rfl | rfl
    · exact .inr (by omega)
    · exact .inl (by omega)
  · change main + sizeofHeader ≤ r.heapEnd
    omega
  · exact Nat.sub_le _ _
  · exact Nat.sub_le _ _

/-- A call of the heap that stays in the region. -/
theorem heapCall (hinv : RegionInv r σ segs) {op : HeapOp} {p : ℕ} (hop : op.Bounded)
    (hcall : Call op σ σ' p) (hstays : r.heapStart + op.growth segs ≤ σ.heap.heapEnd) :
    ∃ segs', RegionInv r σ' segs' := by
  have hgrew := hinv.tracks.grew_call hop hcall
  have hstack := hgrew.lastStack
  have hend := hgrew.heapEnd
  have hle := hinv.heap_le
  obtain ⟨segs', -, htracks, hmain⟩ := hinv.tracks.call hop hcall
  refine ⟨segs', htracks, ⟨by omega, hstack ▸ hinv.inside.stack, fun page hpage => ?_⟩,
    hstack ▸ hinv.aligned, hmain ▸ hinv.heap_top, by omega, hstack ▸ hinv.stack_le⟩
  rcases hgrew.pages page hpage with hold | hnew
  · exact hinv.inside.pages page hold
  · exact .inl (by omega)

variable {h h' : HeapState} {live : List Block} {fresh : Bytes} {length p : ℕ}

/-- `_stackalloc` in a heap that is in its region. -/
theorem stackalloc_eq (hinv : RegionInv r ⟨h, live⟩ segs)
    (hok : h.stackalloc fresh length = .ok (h', p)) :
    ∃ n s, s % pageSize = 0 ∧ s + pageSize = p ∧ p + n * pageSize = h.lastStack ∧
      s + stackGrowth length = h.lastStack ∧
      h' = { stacked h fresh h.perms p n with lastStack := s } := by
  have hpos := r.pos
  have hheap := r.heap_le
  have hbetween := r.le_stack
  have hlt := r.lt
  have halign : h.lastStack % pageSize = 0 := hinv.aligned
  have hstart : r.stackStart ≤ h.lastStack := hinv.inside.stack
  have hle : h.lastStack ≤ r.stackEnd := hinv.stack_le
  obtain ⟨hp, hend, heq⟩ := (stackalloc_eq_ok_iff halign (by omega) (by omega)).mp hok
  have hpalign : p % pageSize = 0 := by
    rwa [← hend, Nat.add_mul_mod_self_right] at halign
  obtain ⟨s, rfl⟩ : ∃ s, s + pageSize = p :=
    ⟨p - pageSize, Nat.sub_add_cancel (Nat.le_of_dvd hp (Nat.dvd_of_mod_eq_zero hpalign))⟩
  have hgrowth : stackGrowth length =
      (length + (pageSize - 1)) / pageSize * pageSize + pageSize := Nat.succ_mul _ _
  rw [Nat.add_sub_cancel] at heq
  rw [Nat.add_mod_right] at hpalign
  exact ⟨_, s, hpalign, rfl, hend, by omega, heq⟩

/-- A stack that stays in the region. -/
theorem stackCall (hinv : RegionInv r ⟨h, live⟩ segs)
    (hok : h.stackalloc fresh length = .ok (h', p))
    (hstays : r.stackStart + stackGrowth length ≤ h.lastStack) :
    RegionInv r ⟨h', live⟩ segs := by
  obtain ⟨n, s, halign, hp, hend, hgrowth, rfl⟩ := hinv.stackalloc_eq hok
  have hle : h.lastStack ≤ r.stackEnd := hinv.stack_le
  have htop : h.mainSegment + sizeofHeader ≤ r.heapEnd := hinv.heap_top
  have hbetween := r.le_stack
  have hnew : r.stackStart ≤ s := by omega
  have habove : h.mainSegment + sizeofHeader ≤ p := by omega
  refine ⟨⟨hinv.tracks.inv.stackalloc habove, hinv.tracks.owns.congr rfl⟩,
    ⟨hinv.inside.heap, hnew, fun page hmem => ?_⟩, halign, htop, hinv.heap_le, ?_⟩
  · have hmem : page ∈ (stacked h fresh h.perms p n).mapped := hmem
    rcases mem_stacked hmem with hold | ⟨hlow, hhigh⟩
    · exact hinv.inside.pages page hold
    · exact .inr ⟨by omega, by omega⟩
  · change s ≤ r.stackEnd
    omega

/-- **A call that stays in the region keeps the invariant**, and only such a call does. -/
theorem call (hinv : RegionInv r σ segs) (hop : op.Bounded) (hcall : RegionCall op σ σ') :
    (op.Stays r σ.heap → ∃ segs', RegionInv r σ' segs') ∧
      (InRegion r σ'.heap → op.Stays r σ.heap) := by
  cases hcall with
  | heap hcall =>
    refine ⟨fun ⟨segs₁, hrep, hstays⟩ => ?_, fun hinside' => ?_⟩
    · rw [← hinv.tracks.inv.rep.unique hrep] at hstays
      exact hinv.heapCall hop hcall hstays
    · have hend := (hinv.tracks.grew_call hop hcall).heapEnd
      have hstart := hinside'.heap
      exact ⟨segs, hinv.tracks.inv.rep, by omega⟩
  | @stackalloc h h' live fresh length p hok =>
    refine ⟨fun hstays => ⟨segs, hinv.stackCall hok hstays⟩, fun hinside' => ?_⟩
    obtain ⟨n, s, -, -, -, hgrowth, rfl⟩ := hinv.stackalloc_eq hok
    have hstart : r.stackStart ≤ s := hinside'.stack
    change r.stackStart + stackGrowth length ≤ h.lastStack
    omega

end RegionInv

/-- **When a heap stays in its region**: in every run in which each call leaves what it adds to
the heap or to the stacks in the region, and up to the first one that does not. In such a run the
pages of the heap are outside every other region of the layout. -/
theorem heap_regions_iff {r : HeapRegion} (hr : r ∈ heapRegions) {h₀ h : HeapState}
    {fresh : Bytes} {user : Bool} {σ : Session} (hfresh : h₀.mapped = [])
    (hinit : h₀.initHeap fresh r.heapEnd r.stackEnd user = .ok h)
    (hrun : RegionRun (fun op σ => op.Bounded ∧ op.Stays r σ.heap) ⟨h, []⟩ σ) :
    InRegion r σ.heap ∧
      (∀ r' ∈ heapRegions, r' ≠ r → ∀ page ∈ σ.heap.mapped, r'.Avoids page.1) ∧
      ∀ op σ', op.Bounded → RegionCall op σ σ' → (InRegion r σ'.heap ↔ op.Stays r σ.heap) := by
  obtain ⟨segs, hinv⟩ : ∃ segs, RegionInv r σ segs := by
    induction hrun with
    | refl => exact ⟨_, .init hfresh hinit⟩
    | tail _ hstep ih =>
      obtain ⟨op, ⟨hbounded, hstays⟩, hcall⟩ := hstep
      obtain ⟨segs, hinv⟩ := ih
      exact (hinv.call hbounded hcall).1 hstays
  refine ⟨hinv.inside, fun r' hr' hne page hpage => ?_, fun op σ' hbounded hcall => ?_⟩
  · exact (heapRegions_apart hr hr' hne.symm).avoids (hinv.inside.pages page hpage)
  · obtain ⟨hkeeps, hleaves⟩ := hinv.call hbounded hcall
    refine ⟨hleaves, fun hstays => ?_⟩
    obtain ⟨segs', hinv'⟩ := hkeeps hstays
    exact hinv'.inside

theorem heap_regions_kernelHeap : ∃ h σ, kernelHeap = .ok h ∧
    RegionRun (fun op σ => op.Bounded ∧ op.Stays .kernelGlobalHeap σ.heap) ⟨h, []⟩ σ ∧
    σ.heap.heapEnd < h.heapEnd ∧ σ.heap.lastStack < h.lastStack ∧
    InRegion .kernelGlobalHeap σ.heap := by
  obtain ⟨h, hinit, ⟨h₁, _⟩, hmalloc, ⟨h₂, _⟩, hstack, rfl, hend, hlast, hheap, hstacks⟩ :
      ∃ h, kernelHeap = .ok h ∧ ∃ r₁, h.malloc (fun _ => 0#8) 8000 8 = .ok r₁ ∧
      ∃ r₂, r₁.1.stackalloc (fun _ => 0#8) 5000 = .ok r₂ ∧ r₁.2 = 0xffffffff6fffd060 ∧
      h.heapEnd = 0xffffffff6fffe000 ∧ r₁.1.lastStack = 0xffffffff7fffe000 ∧
      r₂.1.heapEnd < h.heapEnd ∧ r₂.1.lastStack < h.lastStack := by
    decide +kernel
  have hbounded : (RegionOp.heap (.malloc 8000)).Bounded :=
    show (HeapOp.malloc 8000).Bounded by decide
  have hmallocStays : (RegionOp.heap (.malloc 8000)).Stays .kernelGlobalHeap h := by
    refine ⟨_, (Tracks.init (by decide) (by decide) hinit).inv.rep, ?_⟩
    have hle := growths_le_two (roundSize 8000) (initList h.mainSegment h.heapEnd)
    have hlen : expandLength (roundSize 8000) = 8192 := by decide
    have hstart : HeapRegion.heapStart .kernelGlobalHeap = 0xffffffff60000000 := rfl
    rw [HeapOp.growth_malloc (by decide), hlen, hstart]
    omega
  have hstackStays : (RegionOp.stackalloc 5000).Stays .kernelGlobalHeap h₁ := by
    have hstart : HeapRegion.stackStart .kernelGlobalHeap = 0xffffffff70000000 := rfl
    have hgrowth : stackGrowth 5000 = 12288 := by decide
    change _ + stackGrowth 5000 ≤ h₁.lastStack
    rw [hgrowth, hstart, hlast]
    decide
  have hrun : RegionRun (fun op σ => op.Bounded ∧ op.Stays .kernelGlobalHeap σ.heap) ⟨h, []⟩
      ⟨h₂, [⟨0xffffffff6fffd060, 8000⟩]⟩ :=
    .tail (.single ⟨_, ⟨hbounded, hmallocStays⟩, .heap (.malloc hmalloc)⟩)
      ⟨.stackalloc 5000, ⟨trivial, hstackStays⟩, .stackalloc hstack⟩
  exact ⟨h, _, hinit, hrun, hheap, hstacks,
    (heap_regions_iff (r := .kernelGlobalHeap) mem_cons_self rfl hinit hrun).1⟩

/-- A stack of 0x10000000 bytes in a new heap takes `lastStack` below the region of the stacks, and
maps the page of the blocks a second time. -/
theorem heap_regions_left_kernelHeap : ∃ h σ new, kernelHeap = .ok h ∧
    RegionRun (fun op _ => op.Bounded) ⟨h, []⟩ σ ∧ σ.heap.lastStack = 0xffffffff6fffd000 ∧
    ¬ InRegion .kernelGlobalHeap σ.heap ∧ σ.heap.mapped = new ++ h.mapped ∧
    (h.heapEnd, h.perms) ∈ new := by
  obtain ⟨h, hinit, hend, hlast⟩ : ∃ h, kernelHeap = .ok h ∧
      h.heapEnd = 0xffffffff6fffe000 ∧ h.lastStack = 0xffffffff7fffe000 := by
    decide +kernel
  have hstack : h.stackalloc (fun _ => 0#8) 0x10000000 = .ok
      ({ stacked h (fun _ => 0#8) h.perms 0xffffffff6fffe000 0x10000 with
        lastStack := 0xffffffff6fffd000 }, 0xffffffff6fffe000) :=
    (stackalloc_eq_ok_iff (by rw [hlast]; decide) (by rw [hlast]; decide)
      (by rw [hlast]; decide)).mpr ⟨by decide, by rw [hlast]; decide, rfl⟩
  refine ⟨h, _, _, hinit, .single ⟨.stackalloc 0x10000000, trivial, .stackalloc hstack⟩, rfl, ?_,
    rfl, ?_⟩
  · intro hinside
    exact absurd (show 0xffffffff70000000 ≤ 0xffffffff6fffd000 from hinside.stack) (by decide)
  · rw [hend]
    exact mem_map.mpr ⟨0, by simp, rfl⟩

end Bloodmoon
