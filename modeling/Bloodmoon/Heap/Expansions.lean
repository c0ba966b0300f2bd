import Bloodmoon.Heap.Counters

/-!
# How often `_malloc` expands the heap

The segment that `expand_heap` makes for a request can be too short for it, since it is a header
shorter than its room, or too long to be taken whole and too short to be cut. The second expansion
makes the last segment longer than the request by a page at least, so that it can be cut. `growths`
counts the expansions that are due on the list of segments; here the code is shown to make them.
-/

namespace Bloodmoon

open Machine Machine.Segment HeapState

variable {h h₁ : HeapState} {segs : List Segment} {fresh : Bytes} {n size : ℕ}

/-- The walk over the segments ends with a result. -/
def Walks (h : HeapState) (n : ℕ) (r : Option (HeapState × ℕ)) : Prop :=
  Returns (fun fuel => loop (h.mallocBody n) fuel h.mainSegment) r

/-- A call has returned the block of a segment that is in use and has at least `n` bytes. -/
def HasBlock (n : ℕ) (r : HeapState × ℕ) : Prop :=
  ∃ c, r.2 = c + sizeofHeader ∧ r.1.get c .free = 0 ∧ n ≤ r.1.get c .length

/-- A request of `n` bytes gets a block after a number of expansions. -/
inductive MallocServes (fresh : Bytes) (n : ℕ) : HeapState → ℕ → HeapState × ℕ → Prop
  | found {h : HeapState} {r : HeapState × ℕ} (hwalk : Walks h n (some r))
      (hblock : HasBlock n r) : MallocServes fresh n h 0 r
  | expand {h h₁ : HeapState} {k : ℕ} {r : HeapState × ℕ} (hwalk : Walks h n none)
      (hexp : h.expandHeap fresh n = .ok h₁) (hserves : MallocServes fresh n h₁ k r) :
      MallocServes fresh n h (k + 1) r

/-- A request of `n` bytes calls `expand_heap` in the second state. -/
inductive MallocExpands (fresh : Bytes) (n : ℕ) : HeapState → HeapState → Prop
  | here {h : HeapState} (hwalk : Walks h n none) : MallocExpands fresh n h h
  | next {h h₁ g : HeapState} (hwalk : Walks h n none) (hexp : h.expandHeap fresh n = .ok h₁)
      (hexpands : MallocExpands fresh n h₁ g) : MallocExpands fresh n h g

/-- Every expansion that the request makes gets its pages. -/
def GetsPages (fresh : Bytes) (n : ℕ) (h : HeapState) : Prop :=
  ∀ g, MallocExpands fresh n h g → ∃ g', g.expandHeap fresh n = .ok g'

/-- A walk that ends does so with the fuel that it needs and with more. -/
theorem Walks.eventually {r : Option (HeapState × ℕ)} (hwalk : Walks h n r) :
    ∃ N, ∀ fuel, N ≤ fuel → loop (h.mallocBody n) fuel h.mainSegment = .ok r := by
  obtain ⟨N, hN⟩ := hwalk
  have hN : loop (h.mallocBody n) N h.mainSegment = .ok r := hN
  refine ⟨N, fun fuel hle => ?_⟩
  exact (loop_fuelStable h.mainSegment N fuel hle (by simp [hN])).trans hN

section

variable (hinv : HeapInv h segs) (hn : n + 4143 < 2 ^ 64) (hn16 : n % 16 = 0)

include hinv hn hn16

/-- **The expansions that are due are made**, and then the request is served. -/
theorem HeapInv.mallocServes (hn0 : n ≠ 0) {fresh : Bytes} (hpages : GetsPages fresh n h) :
    ∃ r, MallocServes fresh n h (growths n segs) r ∧
      ∀ size, roundSize size = n → ∃ N, ∀ fuel, N ≤ fuel → h.malloc fresh size fuel = .ok r := by
  have h48 : sizeofHeader = 48 := rfl
  have hne : ∀ {size}, roundSize size = n → size ≠ 0 := by
    rintro size hround rfl
    exact hn0 hround.symm
  -- each expansion brings down the number of those that are due
  induction hk : growths n segs generalizing h segs with
  | zero =>
    obtain ⟨xs, s, ys, rfl, hnot, hfits⟩ : ∃ xs s ys, segs = xs ++ s :: ys ∧
        (∀ x ∈ xs, ¬ x.Fits sizeofHeader n) ∧ s.Fits sizeofHeader n := by
      obtain ⟨s, hs, hfits⟩ := growths_eq_zero_iff.1 hk
      exact (exists_first_fit segs n).resolve_left fun hnone => hnone s hs hfits
    obtain ⟨h', hbody, -, hinv'⟩ := hinv.serve (by omega) hn16 hfits
    have hwalk : Walks h n (some _) := walk_returns hinv.rep (by omega) hnot hbody
    have hblock : HasBlock n (h', (served sizeofHeader n s).addr + sizeofHeader) := by
      have hrep := hinv'.rep
      rw [serve_eq_cons] at hrep
      obtain ⟨hnode, -⟩ := hrep.nodes []
      rw [served_eq hfits] at hnode
      exact ⟨_, rfl, hnode.free, Nat.le_of_eq hnode.length.symm⟩
    refine ⟨_, .found hwalk hblock, fun size hround => ?_⟩
    obtain ⟨N, hN⟩ := hwalk.eventually
    refine ⟨N + 1, fun fuel hle => ?_⟩
    obtain ⟨fuel, rfl⟩ := Nat.exists_eq_add_of_le' (Nat.le_of_add_left_le hle)
    rw [malloc_succ hinv.ready (hne hround), hround, hN _ (by omega)]
    rfl
  | succ k ih =>
    have hnone : ∀ x ∈ segs, ¬ x.Fits sizeofHeader n := fun x hx hfits => by
      rw [growths_eq_zero_iff.2 ⟨x, hx, hfits⟩] at hk
      exact absurd hk.symm (Nat.succ_ne_zero k)
    have hwalk : Walks h n none := walk_none hinv.rep (by omega) hnone
    obtain ⟨h₁, hexp⟩ := hpages h (.here hwalk)
    obtain ⟨xs, p, t, e, rfl, -, -, hinv₁⟩ := hinv.grow hn hexp
    have hfewer : growths n (xs ++ extendList p t e (expandLength n)) = k := by
      rw [growths_extend (e := e) hn hnone] at hk
      exact Nat.succ_inj.1 hk
    obtain ⟨r, hserves, hreturns⟩ := ih hinv₁ (fun g hg => hpages g (.next hwalk hexp hg)) hfewer
    refine ⟨r, .expand hwalk hexp hserves, fun size hround => ?_⟩
    obtain ⟨N, hN⟩ := hwalk.eventually
    obtain ⟨M, hM⟩ := hreturns n (by rw [← hround, roundSize_roundSize])
    refine ⟨N + M + 1, fun fuel hle => ?_⟩
    obtain ⟨fuel, rfl⟩ := Nat.exists_eq_add_of_le' (Nat.le_of_add_left_le hle)
    rw [malloc_succ hinv.ready (hne hround), hround, hN _ (by omega), ok_bind, hexp, ok_bind]
    exact hM fuel (by omega)

/-- A walk that finds nothing has not passed over a segment that fits. -/
theorem HeapInv.not_fits (hwalk : Walks h n none) : ∀ x ∈ segs, ¬ x.Fits sizeofHeader n := by
  have h48 : sizeofHeader = 48 := rfl
  rcases exists_first_fit segs n with hnone | ⟨xs, s, ys, rfl, hnot, hfits⟩
  · exact hnone
  · obtain ⟨h', hbody, -, -⟩ := hinv.serve (by omega) hn16 hfits
    have hfound := walk_returns hinv.rep (by omega) hnot hbody
    exact absurd ((loop_fuelStable h.mainSegment).returns_unique hfound hwalk)
      (Option.some_ne_none _)

/-- The expansions get their pages if there is room above address zero for those that are due. -/
theorem HeapInv.getsPages (hroom : growths n segs * expandLength n < h.heapEnd) :
    GetsPages fresh n h := by
  intro g hg
  induction hg generalizing segs with
  | @here h hwalk =>
    obtain ⟨xs, p, t, rfl⟩ := hinv.rep.exists_last
    have hdue := growths_extend (e := 0) hn (hinv.not_fits hn hn16 hwalk)
    rw [hdue, Nat.succ_mul] at hroom
    refine ⟨_, (hinv.rep.expandHeap_eq_ok_iff hinv.pages hn).2
      ⟨h.heapEnd - expandLength n, by omega, by omega, rfl⟩⟩
  | @next h h₁ g hwalk hexp hexpands ih =>
    have hend := (hinv.grow_counters hn hexp).2.heapEnd
    have hnone := hinv.not_fits hn hn16 hwalk
    obtain ⟨xs, p, t, e, rfl, -, -, hinv₁⟩ := hinv.grow hn hexp
    rw [growths_extend (e := e) hn hnone, Nat.succ_mul] at hroom
    exact ih hinv₁ (by omega)

end

/-- **`_malloc` ends** after two expansions at most, in every run, as long as they get their
pages. -/
theorem malloc_expands {h₀ : HeapState} {fresh₀ : Bytes} {heapEnd stackEnd : ℕ} {user : Bool}
    {σ : Session} (hlt : heapEnd < 2 ^ 64) (hne : heapEnd ≠ pageSize)
    (hinit : h₀.initHeap fresh₀ heapEnd stackEnd user = .ok h)
    (hrun : HeapRun (fun op _ => op.Small) ⟨h, []⟩ σ) (hsize : size < 2 ^ 63)
    (hpages : GetsPages fresh (roundSize size) σ.heap) :
    ∃ r, Returns (fun fuel => σ.heap.malloc fresh size fuel) r ∧
      (size = 0 ∨ ∃ k ≤ 2, MallocServes fresh (roundSize size) σ.heap k r) := by
  obtain ⟨segs, hinv, -⟩ := (Tracks.init hlt hne hinit).run (fun _ _ hop => hop.bounded) hrun
  rcases Nat.eq_zero_or_pos size with rfl | hpos
  · exact ⟨_, ⟨1, malloc_zero 0⟩, .inl rfl⟩
  · have hsmall : (HeapOp.malloc size).Small := fun _ hn => Option.some.inj hn ▸ hsize
    have hround : roundSize size = (size + 15) / 16 * 16 := (hsmall.bounded size rfl).roundSize_eq
    obtain ⟨r, hserves, hreturns⟩ :=
      hinv.mallocServes (by omega) (roundSize_mod size) (by omega) hpages
    obtain ⟨N, hN⟩ := hreturns size rfl
    exact ⟨r, ⟨N, hN N (Nat.le_refl N)⟩, .inr ⟨_, growths_le_two _ _, hserves⟩⟩

/-- The kernel's heap expands for a request of 8000 bytes, and serves it. -/
theorem malloc_expands_kernelHeap : ∃ h, kernelHeap = .ok h ∧
    ∃ r k, Returns (fun fuel => h.malloc (fun _ => 0#8) 8000 fuel) r ∧ 1 ≤ k ∧ k ≤ 2 ∧
      MallocServes (fun _ => 0#8) (roundSize 8000) h k r := by
  obtain ⟨h, hinit, _, hloop, rfl, hend⟩ : ∃ h, kernelHeap = .ok h ∧
      ∃ found, loop (h.mallocBody (roundSize 8000)) 8 h.mainSegment = .ok found ∧
        found = none ∧ h.heapEnd = 0xffffffff6fffe000 := by
    decide +kernel
  have hinv := (HeapInv.init (by decide) (by decide) hinit).1
  have hlen : expandLength (roundSize 8000) = 8192 := by decide
  have hroom : growths (roundSize 8000) (initList h.mainSegment h.heapEnd) *
      expandLength (roundSize 8000) < h.heapEnd := by
    have htwo := growths_le_two (roundSize 8000) (initList h.mainSegment h.heapEnd)
    generalize growths (roundSize 8000) (initList h.mainSegment h.heapEnd) = k at *
    rw [hlen, hend]
    omega
  have hrun : HeapRun (fun op _ => op.Small) ⟨h, []⟩ ⟨h, []⟩ := .refl
  obtain ⟨r, hreturns, hzero | ⟨k, hk, hserves⟩⟩ := malloc_expands (by decide) (by decide) hinit
    hrun (by decide) (hinv.getsPages (by decide) (by decide) hroom)
  · exact absurd hzero (by decide)
  refine ⟨h, hinit, r, k, hreturns, Nat.pos_of_ne_zero ?_, hk, hserves⟩
  -- the first walk finds nothing
  rintro rfl
  cases hserves with
  | found hwalk _ =>
    exact absurd ((loop_fuelStable h.mainSegment).returns_unique hwalk ⟨8, hloop⟩)
      (Option.some_ne_none _)

end Bloodmoon
