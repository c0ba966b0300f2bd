import Bloodmoon.Heap.Represents

/-!
# What the writes of the heap do to its list

One theorem for each edit of the list of segments: marking a segment, cutting one
(`splitSegment`), and the two merges of `_free`. Each takes the state from one that represents a
list to one that represents the edited list. `HeaderEdit` is what a mark or a merge does to the
bytes: they change in the headers of the list only.
-/

namespace Bloodmoon

open Machine Machine.Segment Layout HeapState Segment List

/-! ### Fields of headers -/

section Fields

variable {m : Bytes} {a b v : ℕ} {f g : SegmentField}

theorem get_set_word (hf : segmentHeader.width f = 8) (hv : v < 2 ^ 64) :
    segmentHeader.get (segmentHeader.set m a f v) a f = v :=
  get_set_self (by rw [hf]; omega)

theorem get_set_free (hv : v < 2) : segmentHeader.get (segmentHeader.set m a .free v) a .free = v :=
  get_set_self (show v < 256 ^ 1 by omega)

theorem get_set_signature :
    segmentHeader.get (segmentHeader.set m a .signature heapSignature) a .signature =
      heapSignature :=
  get_set_self (by decide)

theorem get_clearHeader_of_apart (h : segmentHeader.Apart a b) :
    segmentHeader.get (memset m a 0#8 sizeofHeader) b g = segmentHeader.get m b g :=
  get_memset_of_apart 0#8 h

theorem set_apply {x : ℕ} (h : x < a ∨ a + sizeofHeader ≤ x) : segmentHeader.set m a f v x = m x :=
  set_apply_of_outside v h

end Fields

/-- Headers of neighbours do not overlap. -/
theorem apart_of_above {s t : Segment} (h : Above sizeofHeader s t) :
    segmentHeader.Apart s.addr t.addr := by
  unfold Above stop sizeofHeader at h
  exact .inr (show t.addr + 48 ≤ s.addr by omega)

namespace Represents

variable {h : HeapState} {xs ys : List Segment} {p l s t : Segment}
variable {n : ℕ}

/-- Where the segment `s` behind `p` lies. -/
theorem room (hrep : Represents h (xs ++ p :: s :: ys)) :
    0 < s.addr ∧ s.addr + sizeofHeader + s.length ≤ p.addr ∧ p.addr + sizeofHeader ≤ 2 ^ 64 := by
  have hchain := hrep.above
  rw [isChain_append_cons_cons] at hchain
  have hsp : s.stop sizeofHeader ≤ p.addr := hchain.2.1
  have hs := hrep.bounds (s := s) (by simp)
  have hp := hrep.bounds (s := p) (by simp)
  have htop := hrep.top
  have hpos := hrep.heapEnd_pos
  unfold stop at *
  omega

/-! ### Marking a segment -/

/-- **Setting the flag** of a segment changes nothing else. -/
theorem setFree (hrep : Represents h (xs ++ p :: s :: ys)) (v : Bool) :
    Represents (h.set s.addr .free v.toNat) (xs ++ p :: { s with free := v } :: ys) := by
  obtain ⟨-, hroom, -⟩ := hrep.room
  obtain ⟨hp, hs, -⟩ := hrep.nodes [s]
  have hps : segmentHeader.Apart s.addr p.addr :=
    (apart_of_above (show Above sizeofHeader p s from hroom)).symm
  refine hrep.edit [s] [{ s with free := v }] (by simp) (by simp)
    (fun x hx => set_apply (by simp only [getLast_singleton] at hx; omega)) ⟨?_, ?_, trivial⟩
    (Nat.le_refl _) rfl (by simp) rfl rfl rfl
  · refine ⟨?_, ?_, ?_, ?_, ?_⟩
    all_goals simp only [HeapState.set, get_set_of_apart _ hps, hp.free, hp.length, hp.next,
      hp.last, hp.signature, firstAddr_cons]
  · have hv : v.toNat < 2 := by cases v <;> decide
    refine ⟨?_, ?_, ?_, ?_, ?_⟩
    all_goals simp (disch := first | assumption | decide) only [HeapState.set, get_set_free,
      get_set_of_ne, hs.length, hs.next, hs.last, hs.signature]

/-! ### Cutting a segment -/

/-- The memory after `splitSegment` has cut `n` bytes off the high end of `s`, below `p`. -/
def splitMem (m : Bytes) (p s : Segment) (n : ℕ) : Bytes :=
  let c := (carved s n).addr
  let m := memset m c 0#8 sizeofHeader
  let m := segmentHeader.set m c .free 1
  let m := segmentHeader.set m c .length n
  let m := segmentHeader.set m c .isStack 0
  let m := segmentHeader.set m c .next s.addr
  let m := segmentHeader.set m c .signature heapSignature
  let m := segmentHeader.set m c .last p.addr
  let m := segmentHeader.set m p.addr .next c
  let m := segmentHeader.set m s.addr .last c
  segmentHeader.set m s.addr .length (s.length - (n + sizeofHeader))

/-- The three headers of a cut do not overlap. -/
private theorem apart_carved (hroom : s.addr + sizeofHeader + s.length ≤ p.addr)
    (hn : n + sizeofHeader < s.length) :
    segmentHeader.Apart (carved s n).addr s.addr ∧ segmentHeader.Apart (carved s n).addr p.addr ∧
      segmentHeader.Apart p.addr s.addr := by
  unfold sizeofHeader at *
  refine ⟨.inr ?_, .inl ?_, .inr ?_⟩
  · change s.addr + 48 ≤ s.addr + s.length - n
    omega
  · change s.addr + s.length - n + 48 ≤ p.addr
    omega
  · change s.addr + 48 ≤ p.addr
    omega

/-- **`splitSegment` cuts** a segment that is long enough. -/
theorem splitSegment_eq (hrep : Represents h (xs ++ p :: s :: ys))
    (hn : n + sizeofHeader < s.length) :
    h.splitSegment s.addr n =
      .ok ({ h with mem := splitMem h.mem p s n }, (carved s n).addr) := by
  obtain ⟨-, hroom, htop⟩ := hrep.room
  obtain ⟨-, hs, -⟩ := hrep.nodes [s]
  obtain ⟨hcs, -, hps⟩ := apart_carved hroom hn
  have hp0 : p.addr ≠ 0 := hrep.ne_zero (by simp)
  have h48 : sizeofHeader = 48 := rfl
  have hwrap : wrap (n + sizeofHeader) = n + sizeofHeader := wrap_of_lt (by omega)
  have hnew : wsub (wrap (s.addr + s.length)) n = (carved s n).addr := by
    rw [wrap_of_lt (by omega), wsub_of_le (by omega) (by omega)]
    rfl
  have hsub : wsub s.length (n + sizeofHeader) = s.length - (n + sizeofHeader) :=
    wsub_of_le (by omega) (by omega)
  have hlast : segmentHeader.get h.mem s.addr .last = p.addr := hs.last
  unfold splitSegment
  simp only [HeapState.get, HeapState.set, clearHeader, hs.length, hlast, hs.signature,
    hwrap, hnew, get_set_of_apart _ hcs, get_clearHeader_of_apart hcs, Nat.not_le.mpr hn,
    if_false, ne_eq, not_true_eq_false]
  by_cases hnext : segmentHeader.get h.mem s.addr .next = 0
  · -- the segment is the last one, and `lastSegment` already
    have hend : h.lastSegment = s.addr := by
      rw [hs.next] at hnext
      cases ys with
      | nil => rw [← hrep.lastSegment, lastAddr_append]; rfl
      | cons y ys => exact absurd hnext (hrep.ne_zero (by simp))
    simp (disch := decide) only [hnext, if_true, hlast, hp0, not_false_eq_true,
      get_set_of_apart _ hcs, get_clearHeader_of_apart hcs, get_set_of_apart _ hps,
      get_set_of_ne, hs.length, hsub, splitMem]
    rw [← hend]
  · simp (disch := decide) only [hnext, if_false, hlast, hp0, not_false_eq_true, if_true,
      get_set_of_apart _ hcs, get_clearHeader_of_apart hcs, get_set_of_apart _ hps,
      get_set_of_ne, hs.length, hsub, splitMem]

/-- **The list after a cut**, once `_malloc` has marked the new segment used. -/
theorem split (hrep : Represents h (xs ++ p :: s :: ys)) (hn : n + sizeofHeader < s.length) :
    Represents (({ h with mem := splitMem h.mem p s n } : HeapState).set (carved s n).addr .free 0)
      (xs ++ p :: carved s n :: remainder sizeofHeader s n :: ys) := by
  obtain ⟨hpos, hroom, htop⟩ := hrep.room
  obtain ⟨hp, hs, -⟩ := hrep.nodes [s]
  obtain ⟨hcs, hcp, hps⟩ := apart_carved hroom hn
  have h48 : sizeofHeader = 48 := rfl
  have hc : (carved s n).addr = s.addr + s.length - n := rfl
  have hsa : s.addr < 2 ^ 64 := by omega
  have hpa : p.addr < 2 ^ 64 := by omega
  have hca : (carved s n).addr < 2 ^ 64 := by omega
  have hna : n < 2 ^ 64 := by omega
  have hla : s.length - (n + sizeofHeader) < 2 ^ 64 := by omega
  refine hrep.edit [s] [carved s n, remainder sizeofHeader s n] (by simp) (by simp)
    ?_ ⟨?_, ?_, ?_, trivial⟩ ?_ rfl ?_ rfl rfl rfl
  · intro x hx
    simp only [getLast_singleton] at hx
    simp (disch := omega) only [HeapState.set, splitMem, set_apply, memset_apply_of_outside]
  · refine ⟨?_, ?_, ?_, ?_, ?_⟩
    all_goals simp (disch := first | assumption | decide) only [HeapState.set, splitMem,
      get_set_of_apart _ hcp, get_set_of_apart _ hps.symm, get_set_word,
      get_set_of_ne, get_clearHeader_of_apart hcp, hp.free, hp.length, hp.last,
      hp.signature, firstAddr_cons]
  · refine ⟨?_, ?_, ?_, ?_, ?_⟩
    all_goals simp (disch := first | assumption | decide) only [HeapState.set, splitMem,
      get_set_of_apart _ hcs.symm, get_set_of_apart _ hcp.symm, get_set_word,
      get_set_free, get_set_signature, get_set_of_ne, firstAddr_cons, remainder]
    · rfl
    · rfl
  · refine ⟨?_, ?_, ?_, ?_, ?_⟩
    all_goals simp (disch := first | assumption | decide) only [HeapState.set, splitMem, remainder,
      get_set_of_apart _ hcs, get_set_of_apart _ hps, get_set_word,
      get_set_of_ne, get_clearHeader_of_apart hcs, hs.free, hs.next, hs.signature]
  · exact Nat.le_of_eq (stop_carved (by omega))
  · simp only [isChain_cons_cons, isChain_singleton, and_true]
    exact (touches_carved (by omega)).above

/-! ### Merging two segments -/

/-- The memory after `hi` is merged into its lower neighbour `lo`, below `p`. -/
def mergeMem (m : Bytes) (p hi lo : Segment) : Bytes :=
  let m := segmentHeader.set m lo.addr .length (lo.length + (hi.length + sizeofHeader))
  let m := segmentHeader.set m lo.addr .last p.addr
  let m := segmentHeader.set m p.addr .next lo.addr
  memset m hi.addr 0#8 sizeofHeader

variable {hi lo : Segment}

section

variable (hrep : Represents h (xs ++ p :: hi :: lo :: ys))

include hrep

/-- Where two segments behind `p` lie. -/
theorem room_two :
    lo.addr + sizeofHeader + lo.length ≤ hi.addr ∧ hi.addr + sizeofHeader + hi.length ≤ p.addr ∧
      p.addr + sizeofHeader ≤ 2 ^ 64 := by
  have hhi := hrep.room
  rw [append_cons] at hrep
  exact ⟨hrep.room.2.1, hhi.2⟩

/-- The three headers of a merge do not overlap. -/
private theorem apart_merge :
    segmentHeader.Apart lo.addr hi.addr ∧ segmentHeader.Apart lo.addr p.addr ∧
      segmentHeader.Apart p.addr hi.addr := by
  obtain ⟨hlo, hhi, -⟩ := hrep.room_two
  refine ⟨(apart_of_above hlo).symm, (apart_of_above ?_).symm, apart_of_above hhi⟩
  unfold Above stop
  omega

/-- The length of a merged segment fits a word. -/
private theorem wrap_merge :
    wrap (lo.length + wrap (hi.length + sizeofHeader)) =
      lo.length + (hi.length + sizeofHeader) := by
  obtain ⟨hlo, hhi, htop⟩ := hrep.room_two
  have h48 : sizeofHeader = 48 := rfl
  rw [wrap_of_lt (show hi.length + sizeofHeader < 2 ^ 64 by omega), wrap_of_lt (by omega)]

/-- **`MergeLastToThis`** merges the segment above into this one. -/
theorem mergeLastToThis_eq :
    h.mergeLastToThis lo.addr = { h with mem := mergeMem h.mem p hi lo } := by
  obtain ⟨-, hhi, hlo, -⟩ := hrep.nodes [hi, lo]
  obtain ⟨hlh, hlp, -⟩ := apart_merge hrep
  have hpa : p.addr < 2 ^ 64 := by
    have := hrep.room_two.2.2
    unfold sizeofHeader at this
    omega
  unfold mergeLastToThis
  simp (disch := first | assumption | decide) only [HeapState.get, HeapState.set,
    clearHeader, hlo.last, hlo.length, hhi.length, wrap_merge hrep,
    get_set_of_apart _ hlh, hhi.last, get_set_word, mergeMem]

/-- **`MergeThisToNext`** merges this segment into the one below. -/
theorem mergeThisToNext_eq :
    h.mergeThisToNext hi.addr = { h with mem := mergeMem h.mem p hi lo } := by
  obtain ⟨-, hhi, hlo, -⟩ := hrep.nodes [hi, lo]
  obtain ⟨hlh, hlp, -⟩ := apart_merge hrep
  have hnext : segmentHeader.get h.mem hi.addr .next = lo.addr := hhi.next
  unfold mergeThisToNext
  simp (disch := first | assumption | decide) only [HeapState.get, HeapState.set,
    clearHeader, hnext, hlo.length, hhi.length, wrap_merge hrep,
    get_set_of_apart _ hlh, hhi.last, mergeMem]

/-- **The list after a merge.** -/
theorem merge :
    Represents { h with mem := mergeMem h.mem p hi lo }
      (xs ++ p :: fuse sizeofHeader hi lo :: ys) := by
  obtain ⟨hroomlo, hroomhi, htop⟩ := hrep.room_two
  obtain ⟨hp, hhi, hlo, -⟩ := hrep.nodes [hi, lo]
  obtain ⟨hlh, hlp, hph⟩ := apart_merge hrep
  have h48 : sizeofHeader = 48 := rfl
  have hpa : p.addr < 2 ^ 64 := by omega
  have hla : lo.addr < 2 ^ 64 := by omega
  have hlen : lo.length + (hi.length + sizeofHeader) < 2 ^ 64 := by omega
  refine hrep.edit [hi, lo] [fuse sizeofHeader hi lo] (by simp) (by simp)
    ?_ ⟨?_, ?_, trivial⟩ (stop_fuse_le hroomlo) rfl (by simp) rfl rfl rfl
  · intro x hx
    simp only [getLast_cons_cons, getLast_singleton] at hx
    simp (disch := omega) only [mergeMem, set_apply, memset_apply_of_outside]
  · refine ⟨?_, ?_, ?_, ?_, ?_⟩
    all_goals simp (disch := first | assumption | decide) only [mergeMem,
      get_clearHeader_of_apart hph.symm, get_set_of_apart _ hlp, get_set_word,
      get_set_of_ne, hp.free, hp.length, hp.last, hp.signature, firstAddr_cons, fuse]
  · refine ⟨?_, ?_, ?_, ?_, ?_⟩
    all_goals simp (disch := first | assumption | decide) only [mergeMem, fuse,
      get_clearHeader_of_apart hlh.symm, get_set_of_apart _ hlp.symm, get_set_word,
      get_set_of_ne, hlo.free, hlo.next, hlo.signature]

end

end Represents

/-! ### What the edits write -/

/-- The memory changes in headers of the list only. The list may lose headers, which are cleared
then. -/
structure HeaderEdit (m m' : Bytes) (segs segs' : List Segment) : Prop where
  outside : ∀ x, (∀ s ∈ segs, x < s.addr ∨ s.addr + sizeofHeader ≤ x) → m' x = m x
  kept : segs'.map addr ⊆ segs.map addr
  cleared : ∀ s ∈ segs, s.addr ∉ segs'.map addr →
    ∀ x, s.addr ≤ x → x < s.addr + sizeofHeader → m' x = 0#8

namespace HeaderEdit

variable {m m' m'' : Bytes} {segs segs' segs'' xs ys : List Segment} {p s t hi lo : Segment}

/-- The headers after an edit were there before. -/
theorem exists_mem (h : HeaderEdit m m' segs segs') (ht : t ∈ segs') :
    ∃ s ∈ segs, s.addr = t.addr :=
  mem_map.mp (h.kept (mem_map_of_mem ht))

/-- Edits of an ordered list compose. -/
theorem trans (habove : segs.IsChain (Above sizeofHeader)) (h : HeaderEdit m m' segs segs')
    (h' : HeaderEdit m' m'' segs' segs'') : HeaderEdit m m'' segs segs'' where
  outside x hx := by
    refine (h'.outside x fun t ht => ?_).trans (h.outside x hx)
    obtain ⟨s, hs, heq⟩ := h.exists_mem ht
    exact heq ▸ hx s hs
  kept := List.Subset.trans h'.kept h.kept
  cleared s hs hleft x hle hlt := by
    by_cases hmid : s.addr ∈ segs'.map addr
    · obtain ⟨t, ht, heq⟩ := mem_map.mp hmid
      rw [← heq] at hleft hle hlt
      exact h'.cleared t ht hleft x hle hlt
    · -- the first edit has cleared the header, and those left do not overlap it
      refine (h'.outside x fun t ht => ?_).trans (h.cleared s hs hmid x hle hlt)
      obtain ⟨u, hu, heq⟩ := h.exists_mem ht
      rcases eq_or_apart_of_mem habove hs hu with rfl | hbelow | hover
      · exact absurd (mem_map.mpr ⟨t, ht, heq.symm⟩) hmid
      · unfold stop at hbelow
        exact .inl (by omega)
      · unfold stop at hover
        exact .inr (by omega)

/-- Setting a flag is an edit that loses no header. -/
theorem mark (m : Bytes) (v : ℕ) (b : Bool) :
    HeaderEdit m (segmentHeader.set m s.addr .free v) (xs ++ p :: s :: ys)
      (xs ++ p :: { s with free := b } :: ys) := by
  have haddrs : (xs ++ p :: { s with free := b } :: ys).map addr =
      (xs ++ p :: s :: ys).map addr := by simp
  refine ⟨fun x hx => set_apply (hx s (by simp)), haddrs ▸ List.Subset.refl _, ?_⟩
  intro t ht hleft
  rw [haddrs] at hleft
  exact absurd (mem_map_of_mem ht) hleft

/-- A merge is an edit that loses the header of the higher segment. -/
theorem merge (m : Bytes) : HeaderEdit m (Represents.mergeMem m p hi lo)
    (xs ++ p :: hi :: lo :: ys) (xs ++ p :: fuse sizeofHeader hi lo :: ys) := by
  have haddrs : (xs ++ p :: fuse sizeofHeader hi lo :: ys).map addr =
      (xs ++ p :: lo :: ys).map addr := by simp [fuse]
  refine ⟨fun x hx => ?_, ?_, fun t ht hleft x hle hlt => ?_⟩
  · simp only [Represents.mergeMem, memset_apply_of_outside _ _ (hx hi (by simp)),
      set_apply (hx p (by simp)), set_apply (hx lo (by simp))]
  · rw [haddrs]
    refine map_subset _ fun t ht => ?_
    simp only [mem_append, mem_cons] at ht ⊢
    tauto
  · rw [haddrs] at hleft
    obtain rfl | ht : t = hi ∨ t ∈ xs ++ p :: lo :: ys := by
      simp only [mem_append, mem_cons] at ht ⊢
      tauto
    · exact if_pos ⟨hle, hlt⟩
    · exact absurd (mem_map_of_mem ht) hleft

end HeaderEdit

end Bloodmoon
