import Bloodmoon.Heap.Invariant

/-!
# `_free` gives a segment back

`_free` marks the segment of a block and merges it with the neighbours that are free; which of its
four branches it takes depends on their flags. On the list it is a step `Release`, and the
invariant is kept: the neighbours of a free segment are in use, so that after the merge no two
neighbours are free.
-/

namespace Bloodmoon

open Machine Machine.Segment HeapState List

/-- The state after `_free` has marked the segment and counted it. -/
def marked (h : HeapState) (s : Segment) : HeapState :=
  let h := h.set s.addr .free 1
  { h with
    freeSize := wrap (h.freeSize + wrap (h.get s.addr .length + sizeofHeader))
    usedSize := wsub h.usedSize (wrap (h.get s.addr .length + sizeofHeader)) }

namespace HeapInv

variable {h : HeapState} {segs ws xs ys : List Segment} {s p q t : Segment}

/-- The list after the mark. -/
theorem marked (hinv : HeapInv h (ws ++ p :: s :: ys)) :
    Represents (marked h s) (ws ++ p :: { s with free := true } :: ys) := by
  refine (hinv.rep.setFree true).congr ?_ ?_ ?_ ?_
  all_goals simp only [Bloodmoon.marked, HeapState.set, Bool.toNat_true]

/-- A merge after the mark leaves everything but the memory and the counters alone. -/
theorem of_marked (hinv : HeapInv h segs) {m : Bytes} {segs' : List Segment}
    (hrep : Represents { Bloodmoon.marked h s with mem := m } segs')
    (haligned : ∀ s ∈ segs', s.addr % 16 = 0 ∧ s.length % 16 = 0)
    (hcoalesced : segs'.IsChain NotBothFree) :
    HeapInv { Bloodmoon.marked h s with mem := m } segs' ∧
      ({ Bloodmoon.marked h s with mem := m } : HeapState).mainSegment = h.mainSegment := by
  refine ⟨hinv.of_edit hrep ?_ ?_ ?_ ?_ haligned hcoalesced, ?_⟩
  all_goals simp only [Bloodmoon.marked, HeapState.set]

/-- The segment below `s` is there and free. -/
abbrev BelowFree (ys : List Segment) : Prop := ∃ t ∈ ys.head?, t.free = true

/-- **The branches of `_free`** for a block in use, by the flags of the neighbours. -/
theorem free_eq (hinv : HeapInv h (ws ++ p :: s :: ys)) (hused : s.free = false) :
    (p.free = true → BelowFree ys → h.free (s.addr + sizeofHeader) =
      .ok ((Bloodmoon.marked h s).mergeLastAndThisToNext s.addr)) ∧
    (p.free = true → ¬ BelowFree ys → h.free (s.addr + sizeofHeader) =
      .ok ((Bloodmoon.marked h s).mergeLastToThis s.addr)) ∧
    (p.free = false → BelowFree ys → h.free (s.addr + sizeofHeader) =
      .ok ((Bloodmoon.marked h s).mergeThisToNext s.addr)) ∧
    (p.free = false → ¬ BelowFree ys → h.free (s.addr + sizeofHeader) =
      .ok (Bloodmoon.marked h s)) := by
  have hrep := hinv.marked
  obtain ⟨-, hs, -⟩ := hinv.rep.nodes [s]
  obtain ⟨hp', hs', -⟩ := hrep.nodes [{ s with free := true }]
  obtain ⟨hpos, hroom, htop⟩ := hinv.rep.room
  have h48 : sizeofHeader = 48 := rfl
  have hheader : wsub (s.addr + sizeofHeader) sizeofHeader = s.addr := by
    rw [wsub_of_le (by omega) (by omega), Nat.add_sub_cancel]
  have haddr : s.addr + sizeofHeader ≠ 0 := by omega
  have hp0 : p.addr ≠ 0 := hinv.rep.ne_zero (by simp)
  have hsig : h.get s.addr .signature = heapSignature := hs.signature
  have hfree : h.get s.addr .free = 0 := by
    rw [HeapState.get, hs.free, hused]
    rfl
  have hnext : (Bloodmoon.marked h s).get s.addr .next = firstAddr Segment.addr 0 ys := hs'.next
  have hlast : (Bloodmoon.marked h s).get s.addr .last = p.addr := hs'.last
  have habove : (Bloodmoon.marked h s).get p.addr .free ≠ 0 ↔ p.free = true := by
    rw [HeapState.get, hp'.free]
    cases p.free <;> decide
  have hbelow : (firstAddr Segment.addr 0 ys ≠ 0 ∧
      (Bloodmoon.marked h s).get (firstAddr Segment.addr 0 ys) .free ≠ 0) ↔ BelowFree ys := by
    cases ys with
    | nil => simp
    | cons t ys =>
      obtain ⟨-, -, ht, -⟩ := hrep.nodes [{ s with free := true }, t]
      have ht0 : t.addr ≠ 0 := hrep.ne_zero (by simp)
      rw [firstAddr_cons, HeapState.get, ht.free]
      cases htf : t.free <;> simp [BelowFree, ht0, htf]
  have hcode : h.free (s.addr + sizeofHeader) =
      (let g := Bloodmoon.marked h s
      let next := g.get s.addr .next
      let last := g.get s.addr .last
      if (next ≠ 0 ∧ last ≠ 0) ∧ g.get next .free ≠ 0 ∧ g.get last .free ≠ 0 then
        .ok (g.mergeLastAndThisToNext s.addr)
      else if last ≠ 0 ∧ g.get last .free ≠ 0 then .ok (g.mergeLastToThis s.addr)
      else if next ≠ 0 ∧ g.get next .free ≠ 0 then .ok (g.mergeThisToNext s.addr)
      else .ok g) := by
    rw [HeapState.free, if_neg (by simp [hinv.ready]), if_neg haddr]
    simp only [hheader, hsig, hfree, ne_eq, not_true_eq_false, if_false]
    rfl
  simp only [hnext, hlast] at hcode
  rw [hcode]
  refine ⟨fun hp hb => ?_, fun hp hb => ?_, fun hp hb => ?_, fun hp hb => ?_⟩
  · have hb := hbelow.mpr hb
    exact if_pos ⟨⟨hb.1, hp0⟩, hb.2, habove.mpr hp⟩
  · rw [if_neg fun hc => hb (hbelow.mp ⟨hc.1.1, hc.2.1⟩), if_pos ⟨hp0, habove.mpr hp⟩]
  · have hn : ¬ (Bloodmoon.marked h s).get p.addr .free ≠ 0 := by simp [habove, hp]
    rw [if_neg fun hc => hn hc.2.2, if_neg fun hc => hn hc.2, if_pos (hbelow.mpr hb)]
  · have hn : ¬ (Bloodmoon.marked h s).get p.addr .free ≠ 0 := by simp [habove, hp]
    rw [if_neg fun hc => hn hc.2.2, if_neg fun hc => hn hc.2, if_neg fun hc => hb (hbelow.mp hc)]

/-- A free segment between neighbours in use. -/
private theorem isChain_free {f : Segment} (h : (xs ++ [p]).IsChain NotBothFree)
    (hp : p.free = false) (hys : ys.IsChain NotBothFree) (hy : ¬ BelowFree ys) :
    (xs ++ p :: f :: ys).IsChain NotBothFree := by
  refine isChain_append_cons_cons.mpr ⟨h, by simp [NotBothFree, hp], ?_⟩
  refine isChain_cons.mpr ⟨fun y hmem hboth => hy ⟨y, hmem, hboth.2⟩, hys⟩

/-- Below a free segment there is none. -/
private theorem not_belowFree (h : (t :: ys).IsChain NotBothFree) (ht : t.free = true) :
    ¬ BelowFree ys :=
  fun ⟨y, hy, hfree⟩ => (isChain_cons.mp h).1 y hy ⟨ht, hfree⟩

private theorem aligned_mark (h : ∀ x ∈ xs ++ p :: s :: ys, x.addr % 16 = 0 ∧ x.length % 16 = 0) :
    ∀ x ∈ xs ++ p :: { s with free := true } :: ys, x.addr % 16 = 0 ∧ x.length % 16 = 0 := by
  simp only [forall_mem_append, forall_mem_cons] at h ⊢
  exact h

private theorem aligned_merge {hi lo : Segment}
    (h : ∀ x ∈ xs ++ p :: hi :: lo :: ys, x.addr % 16 = 0 ∧ x.length % 16 = 0) :
    ∀ x ∈ xs ++ p :: fuse sizeofHeader hi lo :: ys, x.addr % 16 = 0 ∧ x.length % 16 = 0 := by
  simp only [forall_mem_append, forall_mem_cons] at h ⊢
  obtain ⟨hxs, hp, hhi, hlo, hys⟩ := h
  have h48 : sizeofHeader = 48 := rfl
  have hlen : (lo.length + (hi.length + sizeofHeader)) % 16 = 0 := by omega
  exact ⟨hxs, hp, ⟨hlo.1, hlen⟩, hys⟩

/-- **`_free` of a block in use releases its segment**, writes to headers only and keeps the
invariant. -/
theorem free_effect (hinv : HeapInv h segs) (hs : s ∈ segs) (hused : s.free = false)
    (hmain : s.addr ≠ h.mainSegment) :
    ∃ h' segs', h.free (s.addr + sizeofHeader) = .ok h' ∧ Release s segs segs' ∧
      HeaderEdit h.mem h'.mem segs segs' ∧ HeapInv h' segs' ∧
      h'.mainSegment = h.mainSegment := by
  obtain ⟨xs, ys, rfl⟩ := append_of_mem hs
  obtain ⟨ws, p, rfl⟩ := hinv.exists_above hmain
  rw [append_assoc, singleton_append] at hinv ⊢
  obtain ⟨hboth, hlast, hnext, halone⟩ := hinv.free_eq hused
  have hmarked := hinv.marked
  have hmark : HeaderEdit h.mem (Bloodmoon.marked h s).mem (ws ++ p :: s :: ys)
      (ws ++ p :: { s with free := true } :: ys) := .mark h.mem 1 true
  have haligned := aligned_mark hinv.aligned
  obtain ⟨hws, -, hsys⟩ := isChain_append_cons_cons.mp hinv.coalesced
  have hys := (isChain_cons.mp hsys).2
  -- by the neighbour above; a free one is not the main segment, so that there is another above it
  cases hp : p.free with
  | true =>
    obtain ⟨us, q, rfl⟩ := hinv.exists_above (hinv.ne_main_of_free (by simp) hp)
    simp only [append_assoc, singleton_append] at *
    obtain ⟨hus, hqp, -⟩ := isChain_append_cons_cons.mp hinv.coalesced
    have hq : q.free = false := by simpa [NotBothFree, hp] using hqp
    have hlasteq := hmarked.mergeLastToThis_eq
    have hmerge := hmarked.merge
    have hedit := hmark.trans hinv.rep.above (.merge _)
    by_cases hb : BelowFree ys
    · obtain ⟨t, ht, htfree⟩ := id hb
      obtain ⟨vs, rfl⟩ : ∃ vs, ys = t :: vs := head?_eq_some_iff.mp ht
      refine ⟨_, _, (hboth hp hb).trans (congrArg _ ?_), .both hp htfree,
        hedit.trans hinv.rep.above (.merge _),
        hinv.of_marked hmerge.merge (aligned_merge (aligned_merge haligned))
          (isChain_free hus hq (isChain_cons.mp hys).2 (not_belowFree hys htfree))⟩
      rw [mergeLastAndThisToNext, hlasteq]
      exact hmerge.mergeThisToNext_eq
    · refine ⟨_, _, (hlast hp hb).trans (congrArg _ hlasteq), .last hp ?_, hedit,
        hinv.of_marked hmerge (aligned_merge haligned) (isChain_free hus hq hys hb)⟩
      exact fun y hy => Bool.eq_false_iff.mpr fun hfree => hb ⟨y, hy, hfree⟩
  | false =>
    by_cases hb : BelowFree ys
    · obtain ⟨t, ht, htfree⟩ := id hb
      obtain ⟨vs, rfl⟩ : ∃ vs, ys = t :: vs := head?_eq_some_iff.mp ht
      exact ⟨_, _, (hnext hp hb).trans (congrArg _ hmarked.mergeThisToNext_eq), .next hp htfree,
        hmark.trans hinv.rep.above (.merge _),
        hinv.of_marked hmarked.merge (aligned_merge haligned)
          (isChain_free hws hp (isChain_cons.mp hys).2 (not_belowFree hys htfree))⟩
    · refine ⟨_, _, halone hp hb, .alone hp ?_, hmark,
        hinv.of_marked hmarked haligned (isChain_free hws hp hys hb)⟩
      exact fun y hy => Bool.eq_false_iff.mpr fun hfree => hb ⟨y, hy, hfree⟩

end HeapInv

end Bloodmoon
