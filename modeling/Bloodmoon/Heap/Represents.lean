import Bloodmoon.Heap.Model
import Bloodmoon.Machine.SegmentList

/-!
# The list of segments that a heap represents

`Represents h segs` says that the memory of `h` holds the segments `segs` as the linked list of
headers that the code walks: from `mainSegment` down to `lastSegment`, which stands at `heapEnd`,
each above the next, each header with its links, its length, its flag and the signature.

The lemmas below say how the writes of the code act on the list, one for each of its edits.
Between two edits the code may leave two free neighbours, so the list may have them here.
-/

namespace Bloodmoon

open Machine Machine.Segment Segment List

/-- The header of `s` in memory, with its two links. -/
structure SegmentNode (m : Bytes) (s : Segment) (last next : ℕ) : Prop where
  free : segmentHeader.get m s.addr .free = s.free.toNat
  length : segmentHeader.get m s.addr .length = s.length
  next : segmentHeader.get m s.addr .next = next
  last : segmentHeader.get m s.addr .last = last
  signature : segmentHeader.get m s.addr .signature = heapSignature

/-- A header is kept by every write that does not touch its bytes. -/
theorem SegmentNode.congr {m m' : Bytes} {s : Segment} {last next : ℕ}
    (h : SegmentNode m s last next) (hsame : SameOn m m' s.addr sizeofHeader) :
    SegmentNode m' s last next := by
  have hget : ∀ f, segmentHeader.get m' s.addr f = segmentHeader.get m s.addr f :=
    Layout.get_congr hsame
  exact ⟨by rw [hget, h.free], by rw [hget, h.length], by rw [hget, h.next],
    by rw [hget, h.last], by rw [hget, h.signature]⟩

/-- The memory holds the list, between null links at both ends. -/
abbrev HoldsList (m : Bytes) (segs : List Segment) : Prop := Linked addr SegmentNode m 0 segs 0

/-- The heap state `h` represents the list `segs`. -/
structure Represents (h : HeapState) (segs : List Segment) : Prop where
  holds : HoldsList h.mem segs
  above : segs.IsChain (Above sizeofHeader)
  main : ∃ rest, rest ≠ [] ∧ segs = ⟨h.mainSegment, 0, false⟩ :: rest
  lastSegment : lastAddr addr 0 segs = h.lastSegment
  heapEnd : h.lastSegment = h.heapEnd
  heapEnd_pos : 0 < h.heapEnd
  top : h.mainSegment + sizeofHeader ≤ 2 ^ 64

namespace Represents

variable {h h' : HeapState} {segs xs ys : List Segment} {s p : Segment}

/-- Every segment lies between `heapEnd` and the top. -/
theorem bounds (hrep : Represents h segs) (hs : s ∈ segs) :
    h.heapEnd ≤ s.addr ∧ s.stop sizeofHeader ≤ h.mainSegment + sizeofHeader := by
  constructor
  · obtain ⟨as, bs, rfl⟩ := append_of_mem hs
    have hlast := hrep.lastSegment
    rw [lastAddr_append, lastAddr_cons, hrep.heapEnd] at hlast
    cases bs with
    | nil => exact Nat.le_of_eq hlast.symm
    | cons b bs =>
      have hne : b :: bs ≠ [] := by simp
      have hbelow := above_of_mem_right hrep.above (getLast_mem hne)
      rw [lastAddr_eq_getLast hne] at hlast
      unfold stop at hbelow
      omega
  · obtain ⟨rest, -, rfl⟩ := hrep.main
    rcases mem_cons.mp hs with rfl | hs
    · exact Nat.le_refl _
    · have := above_of_mem_tail hrep.above hs
      exact Nat.le_trans this (Nat.le_add_right _ _)

theorem ne_zero (hrep : Represents h segs) (hs : s ∈ segs) : s.addr ≠ 0 := by
  have := (hrep.bounds hs).1
  have := hrep.heapEnd_pos
  omega

/-- The header of a segment with its neighbours as links. -/
theorem nodes (ss : List Segment) (hrep : Represents h (xs ++ p :: (ss ++ ys))) :
    Linked addr SegmentNode h.mem (lastAddr addr 0 xs) (p :: ss)
      (firstAddr addr 0 ys) := by
  have hholds := hrep.holds
  rw [HoldsList, ← cons_append, linked_append, linked_append] at hholds
  exact hholds.2.1

/-- **A new end of the list.** The segments behind `p` are replaced by `zs`, which may reach below
the old `heapEnd`. -/
theorem retail {ss zs : List Segment} (hrep : Represents h (xs ++ p :: ss)) (hzs : zs ≠ [])
    (hsame : ∀ x, p.addr + sizeofHeader ≤ x → h'.mem x = h.mem x)
    (hnodes : Linked addr SegmentNode h'.mem (lastAddr addr 0 xs) (p :: zs) 0)
    (habove : (p :: zs).IsChain (Above sizeofHeader)) (hmain : h'.mainSegment = h.mainSegment)
    (hlast : lastAddr addr 0 zs = h'.lastSegment) (hend : h'.lastSegment = h'.heapEnd)
    (hpos : 0 < h'.heapEnd) : Represents h' (xs ++ p :: zs) := by
  refine ⟨?_, ?_, ?_, ?_, hend, hpos, ?_⟩
  · have hholds := hrep.holds
    rw [HoldsList, linked_append] at hholds ⊢
    refine ⟨hholds.1.congr fun x hx a b hnode => hnode.congr fun y hy _ => hsame y ?_, hnodes⟩
    have := above_of_mem_left hrep.above hx
    unfold stop at this
    omega
  · exact isChain_split.mpr ⟨(isChain_split.mp hrep.above).1, habove⟩
  · rw [hmain]
    obtain ⟨rest, -, heq⟩ := hrep.main
    cases xs with
    | nil =>
      obtain ⟨rfl, -⟩ := List.cons.inj heq
      exact ⟨zs, hzs, rfl⟩
    | cons x xs =>
      obtain ⟨rfl, -⟩ := List.cons.inj heq
      exact ⟨xs ++ p :: zs, by simp, rfl⟩
  · rw [lastAddr_append, lastAddr_cons, ← hlast, lastAddr_eq_getLast hzs, lastAddr_eq_getLast hzs]
  · rw [hmain]
    exact hrep.top

/-- **An edit of the list.** The segments `ss` behind `p` are replaced by `zs`. The writes stay
between the lowest of `ss` and the header of `p`, the new headers are in place, and the new
segments take no room that the old ones did not have. -/
theorem edit (ss zs : List Segment) (hrep : Represents h (xs ++ p :: (ss ++ ys)))
    (hss : ss ≠ []) (hzs : zs ≠ [])
    (hsame : ∀ x, x < (ss.getLast hss).addr ∨ p.addr + sizeofHeader ≤ x → h'.mem x = h.mem x)
    (hnodes : Linked addr SegmentNode h'.mem (lastAddr addr 0 xs) (p :: zs)
      (firstAddr addr 0 ys))
    (hhead : (zs.head hzs).stop sizeofHeader ≤ (ss.head hss).stop sizeofHeader)
    (hlast : (zs.getLast hzs).addr = (ss.getLast hss).addr)
    (hchain : zs.IsChain (Above sizeofHeader)) (hmain : h'.mainSegment = h.mainSegment)
    (hlastSeg : h'.lastSegment = h.lastSegment) (hend : h'.heapEnd = h.heapEnd) :
    Represents h' (xs ++ p :: (zs ++ ys)) := by
  have habove := hrep.above
  have hlastAddr : ∀ l l', lastAddr addr l zs = lastAddr addr l' ss := by
    intro l l'
    rw [lastAddr_eq_getLast hzs, lastAddr_eq_getLast hss, hlast]
  refine hrep.retail (by simp [hzs]) (fun x hx => hsame x (.inr hx)) ?_ ?_ hmain ?_
    (by rw [hlastSeg, hend, hrep.heapEnd]) (hend ▸ hrep.heapEnd_pos)
  · have hholds := hrep.holds
    rw [HoldsList, ← cons_append, linked_append, linked_append] at hholds
    rw [← cons_append, linked_append, lastAddr_cons, hlastAddr _ p.addr]
    refine ⟨hnodes, hholds.2.2.congr fun x hx a b hnode => hnode.congr fun y _ hy => ?_⟩
    -- what lies below `ss` ends before its lowest segment
    have hsplit : xs ++ p :: (ss ++ ys) = (xs ++ p :: ss.dropLast) ++ ss.getLast hss :: ys := by
      conv_lhs => rw [← dropLast_append_getLast hss]
      simp
    rw [hsplit] at habove
    have := above_of_mem_right habove hx
    unfold stop at this
    exact hsame y (.inl (by omega))
  · have hsplit : ([p] ++ (ss ++ ys)).IsChain (Above sizeofHeader) := (isChain_split.mp habove).2
    exact isChain_splice ss hsplit hss hzs
      (fun x hx => Nat.le_trans hhead hx) (fun y hy => Nat.le_trans hy (Nat.le_of_eq hlast.symm))
      hchain
  · have hlastSegment := hrep.lastSegment
    rw [lastAddr_append, lastAddr_cons, lastAddr_append] at hlastSegment
    rw [hlastSeg, ← hlastSegment, lastAddr_append, hlastAddr]

/-- The list has a last segment, with one above it. -/
theorem exists_last (hrep : Represents h segs) : ∃ xs p t, segs = xs ++ [p, t] := by
  obtain ⟨rest, hne, rfl⟩ := hrep.main
  rcases eq_nil_or_concat rest with rfl | ⟨rest, t, rfl⟩
  · exact absurd rfl hne
  · rcases eq_nil_or_concat rest with rfl | ⟨rest, q, rfl⟩
    · exact ⟨[], _, t, rfl⟩
    · exact ⟨⟨h.mainSegment, 0, false⟩ :: rest, q, t, by simp⟩

/-- A list in memory is determined by the address of its first segment. -/
private theorem holds_unique {m : Bytes} {l l' : ℕ} {ss ts : List Segment}
    (hss : Linked addr SegmentNode m l ss 0) (hts : Linked addr SegmentNode m l' ts 0)
    (hss0 : ∀ s ∈ ss, s.addr ≠ 0) (hts0 : ∀ t ∈ ts, t.addr ≠ 0)
    (hfirst : firstAddr addr 0 ss = firstAddr addr 0 ts) : ss = ts := by
  induction ss generalizing l l' ts with
  | nil =>
    cases ts with
    | nil => rfl
    | cons t ts => exact absurd hfirst.symm (hts0 t mem_cons_self)
  | cons s ss ih =>
    cases ts with
    | nil => exact absurd hfirst (hss0 s mem_cons_self)
    | cons t ts =>
      obtain ⟨hs, hss⟩ := hss
      obtain ⟨ht, hts⟩ := hts
      have haddr : s.addr = t.addr := hfirst
      -- the header at the one address holds the length, the flag and the next link of both
      have hlength : s.length = t.length := by rw [← hs.length, ← ht.length, haddr]
      have hfree : s.free = t.free := by
        have := hs.free.symm.trans (haddr ▸ ht.free)
        revert this
        cases s.free <;> cases t.free <;> simp
      have hnext : firstAddr addr 0 ss = firstAddr addr 0 ts := by
        rw [← hs.next, ← ht.next, haddr]
      obtain rfl : s = t := by
        cases s
        cases t
        simp_all
      rw [ih hss hts (forall_mem_cons.1 hss0).2
        (forall_mem_cons.1 hts0).2 hnext]

/-- **A heap represents one list.** -/
theorem unique {segs' : List Segment} (hrep : Represents h segs) (hrep' : Represents h segs') :
    segs = segs' := by
  refine holds_unique hrep.holds hrep'.holds (fun _ => hrep.ne_zero) (fun _ => hrep'.ne_zero) ?_
  obtain ⟨rest, -, rfl⟩ := hrep.main
  obtain ⟨rest', -, rfl⟩ := hrep'.main
  rfl

/-- What spares every header and the ends of the heap keeps the list. -/
theorem of_sameOn (hrep : Represents h segs)
    (hsame : ∀ s ∈ segs, SameOn h.mem h'.mem s.addr sizeofHeader)
    (hmain : h'.mainSegment = h.mainSegment) (hlast : h'.lastSegment = h.lastSegment)
    (hend : h'.heapEnd = h.heapEnd) : Represents h' segs where
  holds := hrep.holds.congr fun s hs _ _ hnode => hnode.congr (hsame s hs)
  above := hrep.above
  main := hmain ▸ hrep.main
  lastSegment := hlast ▸ hrep.lastSegment
  heapEnd := by rw [hlast, hend, hrep.heapEnd]
  heapEnd_pos := hend ▸ hrep.heapEnd_pos
  top := hmain ▸ hrep.top

/-- The counters and the flags of the heap do not matter for the list. -/
theorem congr (hrep : Represents h segs) (hmem : h'.mem = h.mem)
    (hmain : h'.mainSegment = h.mainSegment) (hlast : h'.lastSegment = h.lastSegment)
    (hend : h'.heapEnd = h.heapEnd) : Represents h' segs :=
  hrep.of_sameOn (fun _ _ => hmem ▸ .refl _ _ _) hmain hlast hend

end Represents

end Bloodmoon
