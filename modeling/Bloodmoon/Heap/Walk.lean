import Bloodmoon.Heap.Grow

/-!
# The search of `_malloc`

`_malloc` walks the list from `mainSegment` down and takes the first segment that fits: one that
is free and has either exactly the size asked for or enough to cut a block off. The walk returns
what the round at that segment returns (`walk_returns`), and nothing when no segment fits
(`walk_none`).
-/

namespace Bloodmoon

open Machine Machine.Segment Relation List

variable {h : HeapState} {segs xs ys : List Segment} {s p : Segment} {n : ℕ}
variable {last next : ℕ}

/-! ### One round -/

/-- A round at a segment that does not fit goes on to the next. -/
theorem mallocBody_of_not_fits (hnode : SegmentNode h.mem s last next)
    (hn : n + sizeofHeader < 2 ^ 64) (hnot : ¬ s.Fits sizeofHeader n) :
    h.mallocBody n s.addr =
      if next = 0 then .ok (.inr none)
      else if next = s.addr then kpanic "Current segment cycle\n"
      else .ok (.inl next) := by
  simp only [HeapState.mallocBody, HeapState.get, hnode.signature, hnode.free, hnode.length,
    hnode.next, ne_eq, not_true_eq_false, if_false, wrap_of_lt hn]
  cases hfree : s.free with
  | false => simp only [Bool.toNat_false, not_true_eq_false, if_false]
  | true =>
    have hlt : ¬ n + sizeofHeader < s.length := fun hlt => hnot ⟨hfree, .inl hlt⟩
    have hne : s.length ≠ n := fun heq => hnot ⟨hfree, .inr heq⟩
    simp only [Bool.toNat_true, Nat.one_ne_zero, not_false_eq_true, if_true, gt_iff_lt, hlt, hne,
      if_false]

/-- A round at a segment that is long enough cuts it. -/
theorem mallocBody_of_lt (hrep : Represents h (xs ++ p :: s :: ys)) (hfree : s.free = true)
    (hlt : n + sizeofHeader < s.length) :
    h.mallocBody n s.addr = .ok (.inr (some (HeapState.claimSegment
      { h with mem := Represents.splitMem h.mem p s n } (carved s n).addr))) := by
  obtain ⟨-, hs, -⟩ := hrep.nodes [s]
  have hroom := hrep.room
  have hn : n + sizeofHeader < 2 ^ 64 := by omega
  simp only [HeapState.mallocBody, HeapState.get, hs.signature, hs.free, hs.length, hfree,
    Bool.toNat_true, Nat.one_ne_zero, ne_eq, not_true_eq_false, not_false_eq_true, if_false,
    if_true, wrap_of_lt hn, gt_iff_lt, hlt, hrep.splitSegment_eq hlt, ok_bind]

/-- A round at a free segment of exactly the size takes it whole. -/
theorem mallocBody_of_eq (hnode : SegmentNode h.mem s last next) (hn : n + sizeofHeader < 2 ^ 64)
    (hfree : s.free = true) (heq : s.length = n) :
    h.mallocBody n s.addr = .ok (.inr (some (h.claimSegment s.addr))) := by
  have hlt : ¬ n + sizeofHeader < n := by omega
  simp only [HeapState.mallocBody, HeapState.get, hnode.signature, hnode.free, hnode.length, hfree,
    Bool.toNat_true, Nat.one_ne_zero, ne_eq, not_true_eq_false, not_false_eq_true, if_false,
    if_true, wrap_of_lt hn, gt_iff_lt, hlt, heq]

/-! ### The whole walk -/

/-- The walk passes over segments that do not fit. -/
private theorem continues_over {l : ℕ} {zs : List Segment}
    (hn : n + sizeofHeader < 2 ^ 64)
    (hlinked : Linked Segment.addr SegmentNode h.mem l zs s.addr)
    (habove : (zs ++ s :: ys).IsChain (Above sizeofHeader)) (hpos : 0 < s.addr)
    (hnot : ∀ z ∈ zs, ¬ z.Fits sizeofHeader n) :
    ReflTransGen (Continues (h.mallocBody n)) (firstAddr Segment.addr s.addr zs) s.addr := by
  induction zs generalizing l with
  | nil => exact .refl
  | cons z zs ih =>
    have hbody := mallocBody_of_not_fits hlinked.1 hn (hnot z mem_cons_self)
    -- the address of the next segment is below this one and not null
    have hnext : firstAddr Segment.addr s.addr zs < z.addr ∧
        0 < firstAddr Segment.addr s.addr zs := by
      have h48 : sizeofHeader = 48 := rfl
      cases zs with
      | nil =>
        have hlow : s.stop sizeofHeader ≤ z.addr := (isChain_cons_cons.mp habove).1
        unfold stop at hlow
        exact ⟨show s.addr < z.addr by omega, hpos⟩
      | cons y zs =>
        have hlow : y.stop sizeofHeader ≤ z.addr := (isChain_cons_cons.mp habove).1
        have hy := above_of_mem_left (List.IsChain.tail habove)
          (show y ∈ y :: zs from mem_cons_self)
        unfold stop at hlow hy
        exact ⟨show y.addr < z.addr by omega, show 0 < y.addr by omega⟩
    rw [if_neg (by omega), if_neg (by omega)] at hbody
    exact .head hbody (ih hlinked.2 (List.IsChain.tail habove)
      (forall_mem_cons.1 hnot).2)

/-- **The walk ends at the first segment that fits**, with what the round there returns. -/
theorem walk_returns (hrep : Represents h (xs ++ s :: ys)) (hn : n + sizeofHeader < 2 ^ 64)
    (hnot : ∀ x ∈ xs, ¬ x.Fits sizeofHeader n) {r : Option (HeapState × ℕ)}
    (hbody : h.mallocBody n s.addr = .ok (.inr r)) :
    Returns (fun fuel => loop (h.mallocBody n) fuel h.mainSegment) r := by
  have hholds := hrep.holds
  rw [HoldsList, linked_append] at hholds
  have hpos : 0 < s.addr := Nat.pos_of_ne_zero (hrep.ne_zero (by simp))
  have hwalk := continues_over hn hholds.1 hrep.above hpos hnot
  have hfirst : firstAddr Segment.addr s.addr xs = h.mainSegment := by
    obtain ⟨rest, -, heq⟩ := hrep.main
    have := congrArg (firstAddr Segment.addr 0) heq
    rwa [firstAddr_append] at this
  rw [hfirst] at hwalk
  exact loop_returns_iff.mpr ⟨s.addr, hwalk, hbody⟩

/-- **The walk finds nothing** when no segment fits. -/
theorem walk_none (hrep : Represents h segs) (hn : n + sizeofHeader < 2 ^ 64)
    (hnot : ∀ x ∈ segs, ¬ x.Fits sizeofHeader n) :
    Returns (fun fuel => loop (h.mallocBody n) fuel h.mainSegment) none := by
  obtain ⟨xs, q, t, rfl⟩ := hrep.exists_last
  obtain ⟨-, ht, -⟩ := hrep.nodes [t]
  rw [append_cons] at hrep hnot
  refine walk_returns hrep hn (fun x hx => hnot x (mem_append_left _ hx)) ?_
  rw [mallocBody_of_not_fits ht hn (hnot t (by simp))]
  rfl

end Bloodmoon
