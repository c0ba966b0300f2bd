import Bloodmoon.Heap.Walk

/-!
# The invariant of the heap

`HeapInv h segs` adds to `Represents h segs` what the calls keep: everything is aligned to sixteen
bytes, no two neighbours are free, and the pages from `heapEnd` up to the end of the page of
`mainSegment` are mapped.

On the list alone, a call of `_malloc` is a step `Alloc`: some growth, then the first segment that
fits is served. A call of `_free` is a step `Release`: the segment is marked and merged with the
neighbours that are free. The theorems of this module say that the code makes these steps and
keeps the invariant.
-/

namespace Bloodmoon

open Machine Machine.Segment HeapState List

variable {h : HeapState} {fresh : Bytes}

/-- What the calls of the heap keep. -/
structure HeapInv (h : HeapState) (segs : List Segment) : Prop where
  rep : Represents h segs
  ready : h.ready = true
  aligned : ∀ s ∈ segs, s.addr % 16 = 0 ∧ s.length % 16 = 0
  coalesced : segs.IsChain NotBothFree
  pages : h.heapEnd % pageSize = 0
  top : (h.mainSegment + sizeofHeader) % pageSize = 0
  mapped : ∀ a, h.heapEnd ≤ a → a < h.mainSegment + sizeofHeader →
    ∃ flags, (a / pageSize * pageSize, flags) ∈ h.mapped

/-- A request for `n` bytes takes the list to another one. The result is the address of the
segment it is served with; a request of zero bytes that has made the heap grow gets none. -/
inductive Alloc (n : ℕ) : List Segment → List Segment → Option ℕ → Prop
  /-- The first segment that fits is served. -/
  | serve {xs ys : List Segment} {s : Segment} (hnot : ∀ x ∈ xs, ¬ x.Fits sizeofHeader n)
      (hfits : s.Fits sizeofHeader n) :
      Alloc n (xs ++ s :: ys) (xs ++ (serve sizeofHeader n s ++ ys))
        (some (served sizeofHeader n s).addr)
  /-- No segment fits, and the heap grows first. -/
  | grow {xs segs' : List Segment} {p t : Segment} {e : ℕ} {r : Option ℕ}
      (hnot : ∀ x ∈ xs ++ [p, t], ¬ x.Fits sizeofHeader n) (hend : e + expandLength n = t.addr)
      (hn : n ≠ 0) (h : Alloc n (xs ++ extendList p t e (expandLength n)) segs' r) :
      Alloc n (xs ++ [p, t]) segs' r
  | growNull {xs : List Segment} {p t : Segment} {e : ℕ}
      (hnot : ∀ x ∈ xs ++ [p, t], ¬ x.Fits sizeofHeader n) (hend : e + expandLength n = t.addr)
      (hn : n = 0) :
      Alloc n (xs ++ [p, t]) (xs ++ extendList p t e (expandLength n)) none

/-- The address of the block of a segment, null for none. -/
def blockAddr : Option ℕ → ℕ
  | none => 0
  | some c => c + sizeofHeader

/-- The segment `s` behind `p` is marked free, and merged with the neighbours that are free. -/
inductive Release (s : Segment) : List Segment → List Segment → Prop
  | alone {xs ys : List Segment} {p : Segment} (hp : p.free = false)
      (hys : ∀ y ∈ ys.head?, y.free = false) :
      Release s (xs ++ p :: s :: ys) (xs ++ p :: { s with free := true } :: ys)
  | last {xs ys : List Segment} {q p : Segment} (hp : p.free = true)
      (hys : ∀ y ∈ ys.head?, y.free = false) :
      Release s (xs ++ q :: p :: s :: ys)
        (xs ++ q :: fuse sizeofHeader p { s with free := true } :: ys)
  | next {xs ys : List Segment} {p t : Segment} (hp : p.free = false) (ht : t.free = true) :
      Release s (xs ++ p :: s :: t :: ys)
        (xs ++ p :: fuse sizeofHeader { s with free := true } t :: ys)
  | both {xs ys : List Segment} {q p t : Segment} (hp : p.free = true) (ht : t.free = true) :
      Release s (xs ++ q :: p :: s :: t :: ys)
        (xs ++ q :: fuse sizeofHeader (fuse sizeofHeader p { s with free := true }) t :: ys)

namespace HeapInv

variable {h h' : HeapState} {segs segs' xs ys : List Segment} {s p t : Segment} {n : ℕ}
variable {fresh : Bytes}

/-- A segment other than the first one has a neighbour above. -/
theorem exists_above (hinv : HeapInv h (xs ++ s :: ys)) (hne : s.addr ≠ h.mainSegment) :
    ∃ ws q, xs = ws ++ [q] := by
  rcases eq_nil_or_concat xs with rfl | ⟨ws, q, rfl⟩
  · obtain ⟨rest, -, heq⟩ := hinv.rep.main
    obtain ⟨rfl, -⟩ := List.cons.inj heq
    exact absurd rfl hne
  · exact ⟨ws, q, concat_eq_append⟩

/-- The main segment is in use. -/
theorem ne_main_of_free (hinv : HeapInv h segs) (hs : s ∈ segs) (hfree : s.free = true) :
    s.addr ≠ h.mainSegment := by
  intro heq
  obtain ⟨rest, -, rfl⟩ := hinv.rep.main
  rcases mem_cons.mp hs with rfl | hs
  · exact absurd hfree (by simp)
  · have := above_of_mem_tail hinv.rep.above hs
    change s.addr + 48 + s.length ≤ h.mainSegment at this
    omega

/-- An edit that leaves the bounds of the heap and its pages alone. -/
theorem of_edit (hinv : HeapInv h segs) (hrep : Represents h' segs')
    (hready : h'.ready = h.ready) (hend : h'.heapEnd = h.heapEnd)
    (hmain : h'.mainSegment = h.mainSegment) (hmapped : h'.mapped = h.mapped)
    (haligned : ∀ s ∈ segs', s.addr % 16 = 0 ∧ s.length % 16 = 0)
    (hcoalesced : segs'.IsChain NotBothFree) : HeapInv h' segs' where
  rep := hrep
  ready := hready.trans hinv.ready
  aligned := haligned
  coalesced := hcoalesced
  pages := hend ▸ hinv.pages
  top := hmain ▸ hinv.top
  mapped := by
    rw [hend, hmain, hmapped]
    exact hinv.mapped

/-! ### Serving a request -/

/-- Claiming a segment writes its flag and the counters. -/
private theorem claim_edit (hinv : HeapInv h segs) {m : Bytes} {a : ℕ}
    (hrep : Represents (({ h with mem := m } : HeapState).set a .free 0) segs')
    (haligned : ∀ s ∈ segs', s.addr % 16 = 0 ∧ s.length % 16 = 0)
    (hcoalesced : segs'.IsChain NotBothFree) :
    HeapInv (claimSegment { h with mem := m } a).1 segs' := by
  refine hinv.of_edit (hrep.congr ?_ ?_ ?_ ?_) ?_ ?_ ?_ ?_ haligned hcoalesced
  all_goals simp only [claimSegment, HeapState.set]

/-- **A segment that fits is served**: the round of the walk at it returns its block. -/
theorem serve (hinv : HeapInv h (xs ++ s :: ys)) (hn : n + sizeofHeader < 2 ^ 64)
    (hn16 : n % 16 = 0) (hfits : s.Fits sizeofHeader n) :
    ∃ h', h.mallocBody n s.addr =
        .ok (.inr (some (h', (served sizeofHeader n s).addr + sizeofHeader))) ∧
      h'.mainSegment = h.mainSegment ∧ HeapInv h' (xs ++ (serve sizeofHeader n s ++ ys)) := by
  have h48 : sizeofHeader = 48 := rfl
  obtain ⟨hfree, hlen⟩ := hfits
  obtain ⟨ws, p, rfl⟩ := hinv.exists_above (hinv.ne_main_of_free (by simp) hfree)
  have haligned := hinv.aligned
  rw [forall_mem_append, forall_mem_cons] at haligned
  have hs16 := haligned.2.1
  have hrep := hinv.rep
  rw [append_assoc, singleton_append] at hrep
  obtain ⟨-, hnode, -⟩ := hrep.nodes [s]
  obtain ⟨-, hroom, htop⟩ := hrep.room
  by_cases hlt : n + sizeofHeader < s.length
  · have hc : (carved s n).addr = s.addr + s.length - n := rfl
    have haddr : wrap ((carved s n).addr + sizeofHeader) = (carved s n).addr + sizeofHeader :=
      wrap_of_lt (by omega)
    simp only [Machine.serve, Machine.served, if_pos hlt]
    refine ⟨(claimSegment { h with mem := Represents.splitMem h.mem p s n }
      (carved s n).addr).1, ?_, ?_, hinv.claim_edit ?_ ?_ ?_⟩
    · rw [mallocBody_of_lt hrep hfree hlt, ← haddr]
      rfl
    · simp only [claimSegment, HeapState.set]
    · rw [append_assoc, singleton_append]
      exact hrep.split hlt
    · have hleft : (s.length - (n + sizeofHeader)) % 16 = 0 := by omega
      rw [forall_mem_append, cons_append, forall_mem_cons, cons_append, forall_mem_cons]
      exact ⟨haligned.1, ⟨by omega, hn16⟩, ⟨hs16.1, hleft⟩, haligned.2.2⟩
    · exact isChain_splice [s] hinv.coalesced (by simp) (by simp)
        (fun x _ hboth => absurd hboth.2 (by simp [carved])) (fun y hy => hy)
        (by simp [NotBothFree, carved])
  · have heq : s.length = n := hlen.resolve_left hlt
    have haddr : wrap (s.addr + sizeofHeader) = s.addr + sizeofHeader := wrap_of_lt (by omega)
    simp only [Machine.serve, Machine.served, if_neg hlt]
    refine ⟨(h.claimSegment s.addr).1, ?_, ?_, hinv.claim_edit ?_ ?_ ?_⟩
    · rw [mallocBody_of_eq hnode hn hfree heq, ← haddr]
      rfl
    · simp only [claimSegment, HeapState.set]
    · rw [append_assoc, singleton_append]
      exact hrep.setFree false
    · exact forall_mem_append.mpr ⟨haligned.1, forall_mem_cons.mpr haligned.2⟩
    · exact isChain_splice [s] hinv.coalesced (by simp) (by simp)
        (fun x _ hboth => absurd hboth.2 (by simp)) (fun y _ hboth => absurd hboth.1 (by simp))
        (by simp)

/-! ### Growing -/

/-- The new pages are mapped. -/
private theorem mapped_expanded {e len a : ℕ} (he : e % 4096 = 0) (hlen : len % 4096 = 0)
    (hle : e ≤ a) (hlt : a < e + len) :
    ∃ flags, (a / pageSize * pageSize, flags) ∈ (expanded h fresh p t e len).mapped := by
  refine ⟨h.perms, mem_append_left _ (mem_map.mpr ⟨(a - e) / 4096, ?_, ?_⟩)⟩
  · rw [mem_range, pageSize_eq]
    omega
  · exact Prod.ext (show e + (a - e) / 4096 * 4096 = a / 4096 * 4096 by omega) rfl

/-- **Growing keeps the invariant**, and makes one segment of the new pages. -/
theorem grow (hinv : HeapInv h segs) (hn : n + 4143 < 2 ^ 64)
    (hok : h.expandHeap fresh n = .ok h') :
    ∃ xs p t e, segs = xs ++ [p, t] ∧ e + expandLength n = t.addr ∧
      h'.mainSegment = h.mainSegment ∧ HeapInv h' (xs ++ extendList p t e (expandLength n)) := by
  obtain ⟨xs, p, t, rfl⟩ := hinv.rep.exists_last
  obtain ⟨e, hpos, hend, rfl⟩ := (hinv.rep.expandHeap_eq_ok_iff hinv.pages hn).mp hok
  have hlast := hinv.rep.addr_last
  have h48 : sizeofHeader = 48 := rfl
  have hpages := hinv.pages
  have hgrowth : expandLength n = (n + 4143) / 4096 * 4096 := expandLength_eq hn
  have ht16 := hinv.aligned t (by simp)
  rw [pageSize_eq] at hpages
  refine ⟨xs, p, t, e, rfl, by omega, rfl, hinv.rep.expand (by omega) hpos hend, hinv.ready, ?_,
    ?_, ?_, hinv.top, ?_⟩
  · have hnew : e % 16 = 0 ∧ (t.length + expandLength n - sizeofHeader) % 16 = 0 ∧
        (expandLength n - sizeofHeader) % 16 = 0 := by omega
    have haligned := hinv.aligned
    unfold extendList
    split_ifs
    all_goals simp only [forall_mem_append, forall_mem_cons] at haligned ⊢
    · exact ⟨haligned.1, haligned.2.1, ⟨hnew.1, hnew.2.1⟩, by simp⟩
    · exact ⟨haligned.1, haligned.2.1, ht16, ⟨hnew.1, hnew.2.2⟩, by simp⟩
  · have hcoalesced := hinv.coalesced
    cases hfree : t.free with
    | true =>
      rw [extendList, if_pos hfree]
      simp only [isChain_append_cons_cons, isChain_singleton, and_true, NotBothFree,
        hfree] at hcoalesced ⊢
      exact hcoalesced
    | false =>
      rw [extendList, if_neg (by simp [hfree])]
      simp only [isChain_append_cons_cons, isChain_cons_cons, isChain_singleton,
        and_true, NotBothFree, hfree] at hcoalesced ⊢
      exact ⟨hcoalesced.1, hcoalesced.2, by simp⟩
  · change e % pageSize = 0
    rw [pageSize_eq]
    omega
  · intro a hle hlt
    rcases Nat.lt_or_ge a h.heapEnd with hnew | hold
    · exact mapped_expanded (by omega) (by omega) hle (by omega)
    · obtain ⟨flags, hmem⟩ := hinv.mapped a hold hlt
      exact ⟨flags, mem_append_right _ hmem⟩

end HeapInv

/-! ### `_malloc` -/

theorem roundSize_mod (size : ℕ) : roundSize size % 16 = 0 := by
  unfold roundSize wrap
  split_ifs <;> omega

theorem roundSize_roundSize (size : ℕ) : roundSize (roundSize size) = roundSize size := by
  have hmod := roundSize_mod size
  exact if_neg (by omega)

/-- The first segment that fits, if there is one. -/
theorem exists_first_fit (segs : List Segment) (n : ℕ) :
    (∀ x ∈ segs, ¬ x.Fits sizeofHeader n) ∨
      ∃ xs s ys, segs = xs ++ s :: ys ∧ (∀ x ∈ xs, ¬ x.Fits sizeofHeader n) ∧
        s.Fits sizeofHeader n := by
  cases hfind : segs.find? fun x => decide (x.Fits sizeofHeader n) with
  | none => exact .inl (by simpa using hfind)
  | some s =>
    obtain ⟨hfits, xs, ys, rfl, hnot⟩ := find?_eq_some_iff_append.mp hfind
    exact .inr ⟨xs, s, ys, rfl, by simpa using hnot, by simpa using hfits⟩

/-- The equation of `_malloc` for a size other than zero. -/
theorem malloc_succ (hready : h.ready = true) {size : ℕ} (hsize : size ≠ 0) (fuel : ℕ) :
    h.malloc fresh size (fuel + 1) =
      (loop (h.mallocBody (roundSize size)) (fuel + 1) h.mainSegment >>= fun
        | some r => .ok r
        | none => h.expandHeap fresh (roundSize size) >>= fun h =>
          h.malloc fresh (roundSize size) fuel) := by
  have hnot : ¬ (!h.ready) = true := by simp [hready]
  rw [malloc]
  exact (if_neg hnot).trans ((if_neg hsize).trans rfl)

theorem malloc_zero (fuel : ℕ) : h.malloc fresh 0 (fuel + 1) = .ok (h, 0) := by
  rw [malloc]
  split_ifs with hready hzero
  · rfl
  · rfl
  · exact absurd rfl hzero

theorem eq_of_malloc_zero {fuel a : ℕ} (hok : h.malloc fresh 0 fuel = .ok (h', a)) :
    h = h' ∧ 0 = a := by
  cases fuel with
  | zero => exact absurd hok (by rw [malloc]; nofun)
  | succ fuel =>
    rw [malloc_zero] at hok
    exact ok_inj hok

namespace HeapInv

variable {h h' : HeapState} {segs : List Segment} {fresh : Bytes} {size fuel a : ℕ}

/-- **A call of `_malloc`** takes the first segment that fits, or expands the heap and calls
itself. -/
theorem malloc_cases (hinv : HeapInv h segs) (hsize : size ≠ 0)
    (hn : roundSize size + 4143 < 2 ^ 64) (hok : h.malloc fresh size (fuel + 1) = .ok (h', a)) :
    (∃ xs s ys, segs = xs ++ s :: ys ∧ (∀ x ∈ xs, ¬ x.Fits sizeofHeader (roundSize size)) ∧
      s.Fits sizeofHeader (roundSize size) ∧
      h.mallocBody (roundSize size) s.addr = .ok (.inr (some (h', a)))) ∨
    (∀ x ∈ segs, ¬ x.Fits sizeofHeader (roundSize size)) ∧ ∃ h₁,
      h.expandHeap fresh (roundSize size) = .ok h₁ ∧
      h₁.malloc fresh (roundSize size) fuel = .ok (h', a) := by
  have h48 : sizeofHeader = 48 := rfl
  rw [malloc_succ hinv.ready hsize, bind_eq_ok] at hok
  obtain ⟨w, hw, hok⟩ := hok
  have hmod := roundSize_mod size
  generalize roundSize size = n at *
  have hstable : FuelStable fun fuel => loop (h.mallocBody n) fuel h.mainSegment :=
    loop_fuelStable h.mainSegment
  rcases exists_first_fit segs n with hnone | ⟨xs, s, ys, rfl, hnot, hfits⟩
  · have hwalk := walk_none hinv.rep (by omega) hnone
    obtain rfl := hstable.returns_unique ⟨_, hw⟩ hwalk
    exact .inr ⟨hnone, bind_eq_ok.mp hok⟩
  · obtain ⟨h₁, hbody, -, -⟩ := hinv.serve (by omega) hmod hfits
    have hwalk := walk_returns hinv.rep (by omega) hnot hbody
    obtain rfl := hstable.returns_unique ⟨_, hw⟩ hwalk
    obtain ⟨rfl, rfl⟩ := ok_inj hok
    exact .inl ⟨xs, s, ys, rfl, hnot, hfits, hbody⟩

/-- **`_malloc` serves the request on the list** and keeps the invariant. -/
theorem malloc (hinv : HeapInv h segs) (hsize : size ≠ 0) (hn : roundSize size + 4143 < 2 ^ 64)
    (hok : h.malloc fresh size fuel = .ok (h', a)) :
    ∃ segs' r, Alloc (roundSize size) segs segs' r ∧ HeapInv h' segs' ∧
      h'.mainSegment = h.mainSegment ∧ a = blockAddr r := by
  have h48 : sizeofHeader = 48 := rfl
  -- the fuel goes down with each growth of the heap
  induction fuel generalizing h segs size with
  | zero => exact absurd hok (by rw [malloc]; nofun)
  | succ fuel ih =>
    have hmod := roundSize_mod size
    have hround := roundSize_roundSize size
    have hcases := hinv.malloc_cases hsize hn hok
    generalize roundSize size = n at *
    rcases hcases with ⟨xs, s, ys, rfl, hnot, hfits, hbody⟩ | ⟨hnone, h₁, hexp, hok⟩
    · obtain ⟨h₁, hbody', hmain₁, hinv₁⟩ := hinv.serve (by omega) hmod hfits
      have hsame := Sum.inr.inj (Except.ok.inj (hbody.symm.trans hbody'))
      obtain ⟨rfl, rfl⟩ := some_inj hsame
      exact ⟨_, some _, .serve hnot hfits, hinv₁, hmain₁, rfl⟩
    · obtain ⟨xs, p, t, e, rfl, hend, hmain₁, hinv₁⟩ := hinv.grow hn hexp
      by_cases hn0 : n = 0
      · subst hn0
        obtain ⟨rfl, rfl⟩ := eq_of_malloc_zero hok
        exact ⟨_, none, .growNull hnone hend rfl, hinv₁, hmain₁, rfl⟩
      · obtain ⟨segs', r, halloc, hinv', hmain', ha⟩ := ih hinv₁ hn0 (by omega) hok
        rw [hround] at halloc
        exact ⟨segs', r, .grow hnone hend hn0 halloc, hinv', hmain'.trans hmain₁, ha⟩

end HeapInv

end Bloodmoon
