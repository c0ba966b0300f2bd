import Bloodmoon.Heap.Edits

/-!
# Growing the heap

`expand_heap` maps pages below `heapEnd`, one after the other, and makes a free segment of them.
When the last segment of the list is in use, the new one is put behind it. When it is free, the
new one takes its place and reaches up over it, but with a length that is one header short: the
last bytes of the old segment belong to no segment any more.
-/

namespace Bloodmoon

open Machine Machine.Segment HeapState Layout List

/-! ### The pages -/

/-- The state after `n` pages are mapped from `newEnd` up to `heapEnd`. -/
def grown (h : HeapState) (fresh : Bytes) (perms newEnd n : ℕ) : HeapState :=
  { h with
    heapEnd := newEnd
    mem := fun x => if newEnd ≤ x ∧ x < h.heapEnd then fresh x else h.mem x
    mapped := (List.range n).map (fun i => (newEnd + i * pageSize, perms)) ++ h.mapped }

/-- Mapping one page below `heapEnd`. -/
private theorem mapPage_eq {h : HeapState} {fresh : Bytes} {perms newEnd : ℕ}
    (halign : newEnd % pageSize = 0) (hend : newEnd + pageSize = h.heapEnd) :
    mapPage { h with heapEnd := newEnd } fresh newEnd perms =
      .ok (grown h fresh perms newEnd 1) := by
  have hmem : (grown h fresh perms newEnd 1).mem = fun x =>
      if newEnd ≤ x ∧ x < newEnd + pageSize then fresh x else h.mem x := by
    funext x
    simp only [grown]
    split_ifs <;> first | rfl | omega
  simp only [mapPage, halign, ne_eq, not_true_eq_false, if_false]
  rw [← hmem]
  simp only [grown, range_one, map_cons, map_nil, Nat.zero_mul, Nat.add_zero, singleton_append]

/-- One round of the loop. -/
private theorem growPages_succ {h : HeapState} {fresh : Bytes} {perms n newEnd : ℕ}
    (halign : newEnd % pageSize = 0) (hend : newEnd + pageSize = h.heapEnd)
    (hle : h.heapEnd ≤ 2 ^ 64) :
    h.growPages fresh perms (n + 1) =
      if newEnd = 0 then kpanic "Failed to expand heap"
      else (grown h fresh perms newEnd 1).growPages fresh perms n := by
  have hwsub : wsub h.heapEnd pageSize = newEnd := by
    have h4096 : pageSize = 4096 := rfl
    unfold wsub
    omega
  rw [growPages]
  generalize wsub h.heapEnd pageSize = address at hwsub ⊢
  subst hwsub
  rw [mapPage_eq halign hend, ok_bind]
  rfl

/-- The rounds of the loop add up. -/
private theorem grown_grown {h : HeapState} {fresh : Bytes} {perms newEnd n : ℕ}
    (hle : newEnd + (n + 1) * pageSize = h.heapEnd) :
    grown (grown h fresh perms (newEnd + n * pageSize) 1) fresh perms newEnd n =
      grown h fresh perms newEnd (n + 1) := by
  have hmul : (n + 1) * pageSize = n * pageSize + pageSize := Nat.succ_mul n pageSize
  have hmem : (grown (grown h fresh perms (newEnd + n * pageSize) 1) fresh perms newEnd n).mem =
      (grown h fresh perms newEnd (n + 1)).mem := by
    funext x
    change (if newEnd ≤ x ∧ x < newEnd + n * pageSize then fresh x
      else if newEnd + n * pageSize ≤ x ∧ x < h.heapEnd then fresh x else h.mem x) =
        if newEnd ≤ x ∧ x < h.heapEnd then fresh x else h.mem x
    split_ifs <;> first | rfl | omega
  simp only [grown, range_succ, range_zero, map_append, map_cons, map_nil,
    append_assoc, nil_append, singleton_append, Nat.zero_mul, Nat.add_zero]
    at hmem ⊢
  rw [hmem]

private theorem grown_zero {h : HeapState} {fresh : Bytes} {perms : ℕ} :
    grown h fresh perms h.heapEnd 0 = h := by
  have hmem : (grown h fresh perms h.heapEnd 0).mem = h.mem := by
    funext x
    exact if_neg (by omega)
  simp only [grown, range_zero, map_nil, nil_append] at hmem ⊢
  rw [hmem]

/-- **The pages are mapped** when they do not reach down to address zero, and the code panics
otherwise. -/
theorem growPages_eq_ok_iff {h h' : HeapState} {fresh : Bytes} {perms n : ℕ}
    (halign : h.heapEnd % pageSize = 0) (hpos : 0 < h.heapEnd) (hle : h.heapEnd ≤ 2 ^ 64) :
    h.growPages fresh perms n = .ok h' ↔
      ∃ newEnd, 0 < newEnd ∧ newEnd + n * pageSize = h.heapEnd ∧
        h' = grown h fresh perms newEnd n := by
  induction n generalizing h with
  | zero =>
    rw [growPages, Except.ok.injEq]
    constructor
    · rintro rfl
      exact ⟨h.heapEnd, hpos, by rw [Nat.zero_mul, Nat.add_zero], grown_zero.symm⟩
    · rintro ⟨newEnd, -, hend, rfl⟩
      rw [Nat.zero_mul, Nat.add_zero] at hend
      rw [hend, grown_zero]
  | succ n ih =>
    obtain ⟨next, hnext⟩ : ∃ next, next + pageSize = h.heapEnd := by
      refine ⟨h.heapEnd - pageSize, Nat.sub_add_cancel ?_⟩
      exact Nat.le_of_dvd hpos (Nat.dvd_of_mod_eq_zero halign)
    have hnextAlign : next % pageSize = 0 := by
      rwa [← hnext, Nat.add_mod_right] at halign
    have hmul : (n + 1) * pageSize = n * pageSize + pageSize := Nat.succ_mul n pageSize
    rw [growPages_succ hnextAlign hnext hle]
    by_cases hzero : next = 0
    · -- the page of this round is the one at address zero
      rw [if_pos hzero]
      refine iff_of_false kpanic_ne_ok ?_
      rintro ⟨newEnd, hpos', hend, -⟩
      omega
    · rw [if_neg hzero, ih hnextAlign (Nat.pos_of_ne_zero hzero)
        (show next ≤ 2 ^ 64 by omega)]
      refine exists_congr fun newEnd => and_congr_right fun _ => ?_
      constructor
      · rintro ⟨rfl, rfl⟩
        exact ⟨by omega, grown_grown (by omega)⟩
      · rintro ⟨hend, rfl⟩
        obtain rfl : next = newEnd + n * pageSize := by omega
        exact ⟨rfl, (grown_grown hend).symm⟩

/-! ### The new segment -/

theorem pageSize_eq : pageSize = 4096 := rfl

/-- What `expand_heap` adds for a request is its size with a header, rounded up to pages. -/
theorem expandLength_eq {size : ℕ} (hsize : size + 4143 < 2 ^ 64) :
    expandLength size = (size + 4143) / 4096 * 4096 := by
  have hwrap : wrap (size + sizeofHeader) = size + 48 := wrap_of_lt (show size + 48 < _ by omega)
  simp only [expandLength, hwrap, pageSize_eq]
  split_ifs with h
  · rw [wrap_of_lt (by omega)]
    omega
  · omega

/-- The memory after the new segment at `e` is put behind `t`. -/
def appendMem (m : Bytes) (t : Segment) (e len : ℕ) : Bytes :=
  let m := segmentHeader.set m e .length len
  let m := segmentHeader.set m e .free 1
  let m := segmentHeader.set m e .isStack 0
  let m := segmentHeader.set m e .signature heapSignature
  let m := segmentHeader.set m e .last t.addr
  let m := segmentHeader.set m e .next 0
  segmentHeader.set m t.addr .next e

/-- The memory after the new segment at `e` has taken the place of the one behind `p`. -/
def replaceMem (m : Bytes) (p : Segment) (e len : ℕ) : Bytes :=
  let m := segmentHeader.set m e .length len
  let m := segmentHeader.set m e .free 1
  let m := segmentHeader.set m e .isStack 0
  let m := segmentHeader.set m e .signature heapSignature
  let m := segmentHeader.set m e .last p.addr
  let m := segmentHeader.set m p.addr .next e
  segmentHeader.set m e .next 0

/-- The end of the list after `len` bytes are added at `e`, below `p` and the last segment `t`. -/
def extendList (p t : Segment) (e len : ℕ) : List Segment :=
  if t.free then [p, ⟨e, t.length + len - sizeofHeader, true⟩]
  else [p, t, ⟨e, len - sizeofHeader, true⟩]

/-- The permissions of the pages of a heap. -/
def HeapState.perms (h : HeapState) : ℕ :=
  if h.isKernel then pageWriteBit else pageWriteBit ||| pageUserBit

/-- The state after `expand_heap` has added `len` bytes at `e`. -/
def expanded (h : HeapState) (fresh : Bytes) (p t : Segment) (e len : ℕ) : HeapState :=
  let g := grown h fresh h.perms e (len / pageSize)
  { g with
    mem :=
      if t.free then replaceMem g.mem p e (t.length + len - sizeofHeader)
      else appendMem g.mem t e (len - sizeofHeader)
    lastSegment := e
    totalSize := wrap (g.totalSize + wrap (len + sizeofHeader))
    freeSize := wrap (g.freeSize + wrap (len + sizeofHeader)) }

namespace Represents

variable {h h' : HeapState} {xs : List Segment} {p t : Segment} {fresh : Bytes} {e len : ℕ}

section

variable (hrep : Represents h (xs ++ [p, t]))

include hrep

/-- The last segment stands at `heapEnd`. -/
theorem addr_last : t.addr = h.heapEnd := by
  rw [← hrep.heapEnd, ← hrep.lastSegment, lastAddr_append]
  rfl

/-- The pages that are mapped spare every header. -/
theorem grown_nodes (fresh : Bytes) (e perms n : ℕ) :
    Linked Segment.addr SegmentNode (grown h fresh perms e n).mem
      (lastAddr Segment.addr 0 xs) [p, t] 0 := by
  refine (hrep.nodes [t]).congr fun s hs _ _ hnode =>
    hnode.congr fun x hx _ => if_neg ?_
  have := (hrep.bounds (mem_append_right xs hs)).1
  omega

/-- The new header does not overlap those at the end of the list. -/
private theorem apart_new (hlen : sizeofHeader ≤ len) (hend : e + len = h.heapEnd) :
    segmentHeader.Apart e t.addr ∧ segmentHeader.Apart e p.addr ∧
      segmentHeader.Apart t.addr p.addr := by
  obtain ⟨-, hroom, -⟩ := hrep.room
  have hlast := hrep.addr_last
  unfold sizeofHeader at *
  refine ⟨.inl ?_, .inl ?_, .inl ?_⟩
  · change e + 48 ≤ t.addr
    omega
  · change e + 48 ≤ p.addr
    omega
  · change t.addr + 48 ≤ p.addr
    omega

/-- The code after the loop makes the expanded state. -/
private theorem linkNewSegment_eq (hlen : sizeofHeader ≤ len) (hend : e + len = h.heapEnd) :
    (grown h fresh h.perms e (len / pageSize)).linkNewSegment len =
      expanded h fresh p t e len := by
  obtain ⟨hap, hroom, htop⟩ := hrep.room
  obtain ⟨hp, ht, -⟩ := hrep.grown_nodes fresh e h.perms (len / pageSize)
  obtain ⟨het, hep, -⟩ := apart_new hrep hlen hend
  have hlast := hrep.addr_last
  have h48 : sizeofHeader = 48 := rfl
  have ht0 : t.addr ≠ 0 := hrep.ne_zero (by simp)
  have hp0 : p.addr ≠ 0 := hrep.ne_zero (by simp)
  have hpa : p.addr < 2 ^ 64 := by omega
  have hlastSeg : (grown h fresh h.perms e (len / pageSize)).lastSegment = t.addr := by
    rw [hlast]
    exact hrep.heapEnd
  have hheapEnd : (grown h fresh h.perms e (len / pageSize)).heapEnd = e := rfl
  have hwrap : wrap (t.length + len) = t.length + len := wrap_of_lt (by omega)
  have hsub : wsub (t.length + len) sizeofHeader = t.length + len - sizeofHeader :=
    wsub_of_le (by omega) (by omega)
  have hsub' : wsub len sizeofHeader = len - sizeofHeader := wsub_of_le hlen (by omega)
  simp only [linkNewSegment, expanded]
  generalize grown h fresh h.perms e (len / pageSize) = g at *
  cases hfree : t.free with
  | true =>
    have hset : segmentHeader.get g.mem t.addr .free ≠ 0 := by
      rw [ht.free, hfree]
      decide
    simp (disch := first | assumption | decide) only [HeapState.get, HeapState.set, hlastSeg,
      hheapEnd, ht0, hset, ht.last, hp0, not_false_eq_true, ne_eq, and_true, if_true, ht.length,
      hwrap, hsub, get_set_of_apart _ het, get_set_word, replaceMem]
  | false =>
    have hclear : segmentHeader.get g.mem t.addr .free = 0 := by
      rw [ht.free, hfree]
      rfl
    simp only [HeapState.get, HeapState.set, hlastSeg, hheapEnd, hclear, ne_eq, not_true_eq_false,
      false_and, and_false, if_false, ht0, not_false_eq_true, if_true, hsub', appendMem,
      Bool.false_eq_true]

/-- **`expand_heap` returns** when its pages do not reach down to address zero. -/
theorem expandHeap_eq_ok_iff (halign : h.heapEnd % pageSize = 0) {size : ℕ}
    (hsize : size + 4143 < 2 ^ 64) :
    h.expandHeap fresh size = .ok h' ↔
      ∃ e, 0 < e ∧ e + expandLength size = h.heapEnd ∧
        h' = expanded h fresh p t e (expandLength size) := by
  obtain ⟨-, hroom, htop⟩ := hrep.room
  have h48 : sizeofHeader = 48 := rfl
  have hend := hrep.addr_last
  have hlen := expandLength_eq hsize
  have hmod : expandLength size % pageSize = 0 := by
    rw [hlen, pageSize_eq]
    omega
  have hpages : expandLength size / pageSize * pageSize =
      expandLength size := Nat.div_mul_cancel (Nat.dvd_of_mod_eq_zero hmod)
  have hge : sizeofHeader ≤ expandLength size := by omega
  have hperms : (if h.isKernel then pageWriteBit else pageWriteBit ||| pageUserBit) = h.perms := rfl
  simp only [expandHeap, hmod, ne_eq, not_true_eq_false, if_false, Nat.add_zero, hperms,
    bind_eq_ok, growPages_eq_ok_iff halign hrep.heapEnd_pos (by omega), hpages, Except.ok.injEq]
  constructor
  · rintro ⟨g, ⟨e, hpos, he, rfl⟩, rfl⟩
    exact ⟨e, hpos, he, linkNewSegment_eq hrep hge he⟩
  · rintro ⟨e, hpos, he, rfl⟩
    exact ⟨_, ⟨e, hpos, he, rfl⟩, linkNewSegment_eq hrep hge he⟩

/-- **The list after the heap has grown**: the new segment is put behind a last segment in use,
and takes the place of a free one. -/
theorem expand (hlen : sizeofHeader ≤ len) (hpos : 0 < e) (hend : e + len = h.heapEnd) :
    Represents (expanded h fresh p t e len) (xs ++ extendList p t e len) := by
  obtain ⟨hap, hroom, htop⟩ := hrep.room
  obtain ⟨hp, ht, -⟩ := hrep.grown_nodes fresh e h.perms (len / pageSize)
  obtain ⟨het, hep, htp⟩ := apart_new hrep hlen hend
  have hlast := hrep.addr_last
  have h48 : sizeofHeader = 48 := rfl
  have hpa : p.addr < 2 ^ 64 := by omega
  have hta : t.addr < 2 ^ 64 := by omega
  have hea : e < 2 ^ 64 := by omega
  have hgrown : ∀ x, p.addr + sizeofHeader ≤ x →
      (grown h fresh h.perms e (len / pageSize)).mem x = h.mem x :=
    fun x hx => if_neg (by omega)
  cases hfree : t.free with
  | true =>
    have hla : t.length + len - sizeofHeader < 2 ^ 64 := by omega
    have hmem : (expanded h fresh p t e len).mem =
        replaceMem (grown h fresh h.perms e (len / pageSize)).mem p e
          (t.length + len - sizeofHeader) := by
      simp only [expanded, hfree, if_true]
    rw [extendList, if_pos hfree]
    refine hrep.retail (by simp) (fun x hx => ?_) ?_ ?_ rfl rfl rfl hpos
    · rw [hmem, ← hgrown x hx]
      simp (disch := omega) only [replaceMem, set_apply]
    · rw [hmem]
      generalize (grown h fresh h.perms e (len / pageSize)).mem = m at *
      refine ⟨⟨?_, ?_, ?_, ?_, ?_⟩, ⟨?_, ?_, ?_, ?_, ?_⟩, trivial⟩
      all_goals simp (disch := first | assumption | decide) only [replaceMem,
        get_set_of_apart _ hep, get_set_of_apart _ hep.symm, get_set_word,
        get_set_free, get_set_signature, get_set_of_ne, hp.free, hp.length, hp.last,
        hp.signature, firstAddr_cons, firstAddr_nil]
      rfl
    · simp only [isChain_cons_cons, isChain_singleton, and_true, Above, stop]
      omega
  | false =>
    have hla : len - sizeofHeader < 2 ^ 64 := by omega
    have hmem : (expanded h fresh p t e len).mem =
        appendMem (grown h fresh h.perms e (len / pageSize)).mem t e (len - sizeofHeader) := by
      simp only [expanded, hfree, Bool.false_eq_true, if_false]
    rw [extendList, if_neg (by simp [hfree])]
    refine hrep.retail (by simp) (fun x hx => ?_) ?_ ?_ rfl rfl rfl hpos
    · rw [hmem, ← hgrown x hx]
      simp (disch := omega) only [appendMem, set_apply]
    · rw [hmem]
      generalize (grown h fresh h.perms e (len / pageSize)).mem = m at *
      refine ⟨⟨?_, ?_, ?_, ?_, ?_⟩, ⟨?_, ?_, ?_, ?_, ?_⟩, ⟨?_, ?_, ?_, ?_, ?_⟩, trivial⟩
      all_goals simp (disch := first | assumption | decide) only [appendMem,
        get_set_of_apart _ hep, get_set_of_apart _ het,
        get_set_of_apart _ het.symm, get_set_of_apart _ htp, get_set_word,
        get_set_free, get_set_signature, get_set_of_ne, hp.free, hp.length, hp.next,
        hp.last, hp.signature, ht.free, ht.length, ht.last, ht.signature, firstAddr_cons,
        firstAddr_nil]
      rfl
    · simp only [isChain_cons_cons, isChain_singleton, and_true, Above, stop]
      omega

end

end Represents

end Bloodmoon
