import Bloodmoon.Heap.Free
import Bloodmoon.Heap.Init

/-!
# The blocks that clients hold

The heap does not know which blocks its clients hold; a ghost list of them is kept beside it.
`Owns h segs live` ties the list to the segments: the segments in use, the main one apart, are
those of the blocks, each at least as long as was asked for.

A step `Alloc` adds one segment in use and a step `Release` takes one away, so that each call of
the heap keeps the tie.
-/

namespace Bloodmoon

open Machine Machine.Segment List

/-! ### The segments in use -/

section Used

variable {n e len : ℕ} {segs segs' xs : List Segment} {s p t x : Segment} {r : Option ℕ}

/-- Growing puts nothing in use. -/
theorem mem_extend_iff (hx : x.free = false) :
    x ∈ xs ++ extendList p t e len ↔ x ∈ xs ++ [p, t] := by
  have hnew : ∀ a l, x ≠ ⟨a, l, true⟩ := by
    rintro a l rfl
    exact absurd hx (by simp)
  unfold extendList
  split_ifs with hfree
  · have hne : x ≠ t := by
      rintro rfl
      exact absurd (hx.symm.trans hfree) (by decide)
    simp [hnew, hne]
  · simp [hnew]

/-- **A request puts one segment in use**, with the length it asked for. -/
theorem Alloc.mem_iff (h : Alloc n segs segs' r) (hx : x.free = false) :
    x ∈ segs' ↔ x ∈ segs ∨ (r = some x.addr ∧ x.length = n) := by
  induction h with
  | @serve xs ys s hnot hfits =>
    have hne : x ≠ s := by
      rintro rfl
      exact absurd (hx.symm.trans hfits.1) (by decide)
    simp only [mem_append, mem_cons, mem_serve_iff hfits hx, hne, Option.some.injEq,
      eq_comm (a := x.addr)]
    tauto
  | grow hnot hend hn h ih => rw [ih, mem_extend_iff hx]
  | growNull hnot hend hn => simp [mem_extend_iff hx]

/-- The segment put in use was not in use before. -/
theorem Alloc.ne_of_mem (h : Alloc n segs segs' r) (habove : segs'.IsChain (Above sizeofHeader))
    (hs : s ∈ segs) (hused : s.free = false) : r ≠ some s.addr := by
  induction h with
  | @serve xs ys t hnot hfits =>
    have hne : s ≠ t := by
      rintro rfl
      exact absurd (hused.symm.trans hfits.1) (by decide)
    intro heq
    -- the segment and the one served are both on the new list, at different places
    rw [serve_eq_cons, cons_append] at habove
    have hmem : s ∈ xs ++ ((Machine.serve sizeofHeader n t).tail ++ ys) := by
      rcases mem_append.mp hs with hs | hs
      · exact mem_append_left _ hs
      · exact mem_append_right _
          (mem_append_right _ ((mem_cons.mp hs).resolve_left hne))
    exact ((mem_and_addr_ne_iff (by decide) habove).mpr hmem).2 (Option.some.inj heq).symm
  | grow hnot hend hn h ih => exact ih habove ((mem_extend_iff hused).mpr hs)
  | growNull hnot hend hn => simp

/-- A request for something gets a segment. -/
theorem Alloc.ne_none (h : Alloc n segs segs' r) (hn : n ≠ 0) : r ≠ none := by
  induction h with
  | serve hnot hfits => simp
  | grow hnot hend hn h ih => exact ih
  | growNull hnot hend hzero => exact absurd hzero hn

/-- **A release takes one segment out of use.** -/
theorem Release.mem_iff (h : Release s segs segs') (habove : segs.IsChain (Above sizeofHeader))
    (hx : x.free = false) : x ∈ segs' ↔ x ∈ segs ∧ x.addr ≠ s.addr := by
  have hne : ∀ t : Segment, t.free = true → x ≠ t := by
    rintro t ht rfl
    exact absurd (hx.symm.trans ht) (by decide)
  have hpos : 0 < sizeofHeader := by decide
  cases h with
  | alone hp hys =>
    rw [append_cons] at habove
    rw [append_cons _ _ (s :: _), mem_and_addr_ne_iff hpos habove]
    simp [hne { s with free := true } rfl]
  | @last xs ys q p hp hys =>
    rw [append_cons, append_cons] at habove
    rw [append_cons _ _ (p :: _), append_cons _ p, mem_and_addr_ne_iff hpos habove]
    simp [hne p hp, hne (fuse sizeofHeader p { s with free := true }) rfl]
  | @next xs ys p t hp ht =>
    rw [append_cons] at habove
    rw [append_cons _ _ (s :: _), mem_and_addr_ne_iff hpos habove]
    simp [hne t ht, hne (fuse sizeofHeader { s with free := true } t) ht]
  | @both xs ys q p t hp ht =>
    rw [append_cons, append_cons] at habove
    rw [append_cons _ _ (p :: _), append_cons _ p, mem_and_addr_ne_iff hpos habove]
    simp [hne p hp, hne t ht,
      hne (fuse sizeofHeader (fuse sizeofHeader p { s with free := true }) t) ht]

end Used

/-! ### Blocks and their segments -/

/-- A block that a client holds: its address, and the number of bytes asked for. -/
structure Block where
  addr : ℕ
  size : ℕ

/-- The segments in use are those of the blocks, the main one apart. -/
structure Owns (h : HeapState) (segs : List Segment) (live : List Block) : Prop where
  held : ∀ b ∈ live, ∃ s ∈ segs, s.free = false ∧ s.addr ≠ h.mainSegment ∧
    b.addr = s.addr + sizeofHeader ∧ b.size ≤ s.length
  used : ∀ s ∈ segs, s.free = false → s.addr ≠ h.mainSegment →
    ∃ b ∈ live, b.addr = s.addr + sizeofHeader
  nodup : (live.map Block.addr).Nodup

/-- The blocks after one has been handed out, if any. -/
def grant (address size : ℕ) (live : List Block) : List Block :=
  if address = 0 then live else ⟨address, size⟩ :: live

/-- The blocks after one has been given back. -/
def withdraw (address : ℕ) (live : List Block) : List Block := live.filter fun b => b.addr ≠ address

/-- A client that writes to the block of a segment keeps the invariant. -/
theorem HeapInv.write {h : HeapState} {segs : List Segment} {s : Segment} (hinv : HeapInv h segs)
    (hs : s ∈ segs) {m : Bytes}
    (hsame : ∀ x, x < s.addr + sizeofHeader ∨ s.stop sizeofHeader ≤ x → m x = h.mem x) :
    HeapInv { h with mem := m } segs := by
  refine hinv.of_edit (hinv.rep.of_sameOn (fun t ht x hle hlt => hsame x ?_) rfl rfl rfl)
    rfl rfl rfl rfl hinv.aligned hinv.coalesced
  rcases eq_or_apart_of_mem hinv.rep.above hs ht with rfl | habove | hbelow
  · exact .inl hlt
  · exact .inr (Nat.le_trans habove hle)
  · unfold stop at hbelow
    exact .inl (by omega)

namespace Owns

variable {h h' : HeapState} {segs segs' : List Segment} {live : List Block} {s : Segment}
  {n size : ℕ} {r : Option ℕ}

/-- A new heap has no blocks. -/
theorem init {main e : ℕ} (hmain : h.mainSegment = main) : Owns h (initList main e) [] := by
  refine ⟨by simp, ?_, by simp⟩
  simp only [initList, forall_mem_cons, not_mem_nil, false_imp_iff, implies_true, and_true]
  exact ⟨fun _ hne => absurd hmain.symm hne, fun hused => absurd hused (by simp)⟩

theorem congr (howns : Owns h segs live) (hmain : h'.mainSegment = h.mainSegment) :
    Owns h' segs live :=
  ⟨by rw [hmain]; exact howns.held, by rw [hmain]; exact howns.used, howns.nodup⟩

/-- **A request adds its block.** -/
theorem alloc (howns : Owns h segs live) (hinv : HeapInv h segs) (hinv' : HeapInv h' segs')
    (hmain : h'.mainSegment = h.mainSegment) (halloc : Alloc n segs segs' r) (hsize : size ≤ n) :
    Owns h' segs' (grant (blockAddr r) size live) := by
  have hmem : ∀ {x : Segment}, x.free = false →
      (x ∈ segs' ↔ x ∈ segs ∨ (r = some x.addr ∧ x.length = n)) := halloc.mem_iff
  have hne : ∀ s ∈ segs, s.free = false → r ≠ some s.addr := fun s hs hused =>
    halloc.ne_of_mem hinv'.rep.above hs hused
  have hheld : ∀ b ∈ live, ∃ s ∈ segs', s.free = false ∧ s.addr ≠ h'.mainSegment ∧
      b.addr = s.addr + sizeofHeader ∧ b.size ≤ s.length := by
    intro b hb
    obtain ⟨s, hs, hused, hnemain, haddr, hlong⟩ := howns.held b hb
    exact ⟨s, (hmem hused).mpr (.inl hs), hused, hmain ▸ hnemain, haddr, hlong⟩
  cases r with
  | none =>
    refine ⟨hheld, fun s hs hused hnemain => ?_, howns.nodup⟩
    rcases (hmem hused).mp hs with hs | ⟨hr, -⟩
    · exact howns.used s hs hused (hmain ▸ hnemain)
    · exact absurd hr (by simp)
  | some c =>
    have hc : grant (blockAddr (some c)) size live = ⟨c + sizeofHeader, size⟩ :: live :=
      if_neg (Nat.succ_ne_zero _)
    have hcmain : c ≠ h'.mainSegment := by
      rintro rfl
      obtain ⟨rest, -, rfl⟩ := hinv.rep.main
      exact hne _ mem_cons_self rfl (congrArg some hmain)
    rw [hc]
    refine ⟨?_, fun s hs hused hnemain => ?_, ?_⟩
    · refine forall_mem_cons.mpr ⟨⟨⟨c, n, false⟩, ?_, rfl, hcmain, rfl, hsize⟩, hheld⟩
      exact (hmem rfl).mpr (.inr ⟨rfl, rfl⟩)
    · rcases (hmem hused).mp hs with hs | ⟨hr, -⟩
      · obtain ⟨b, hb, haddr⟩ := howns.used s hs hused (hmain ▸ hnemain)
        exact ⟨b, mem_cons_of_mem _ hb, haddr⟩
      · exact ⟨_, mem_cons_self, congrArg (· + sizeofHeader) (Option.some.inj hr)⟩
    · refine nodup_cons.mpr ⟨?_, howns.nodup⟩
      rintro hdup
      obtain ⟨b, hb, haddr⟩ := mem_map.mp hdup
      obtain ⟨s, hs, hused, -, hsaddr, -⟩ := howns.held b hb
      exact hne s hs hused (congrArg some (by simp only at haddr; omega))

/-- **A release withdraws its block.** -/
theorem release (howns : Owns h segs live) (hinv : HeapInv h segs)
    (hmain : h'.mainSegment = h.mainSegment) (hrel : Release s segs segs') :
    Owns h' segs' (withdraw (s.addr + sizeofHeader) live) := by
  have hmem : ∀ {x : Segment}, x.free = false → (x ∈ segs' ↔ x ∈ segs ∧ x.addr ≠ s.addr) :=
    hrel.mem_iff hinv.rep.above
  refine ⟨fun b hb => ?_, fun x hx hused hnemain => ?_, ?_⟩
  · obtain ⟨hb, hne⟩ := mem_filter.mp hb
    obtain ⟨x, hx, hused, hnemain, haddr, hlong⟩ := howns.held b hb
    refine ⟨x, (hmem hused).mpr ⟨hx, ?_⟩, hused, hmain ▸ hnemain, haddr, hlong⟩
    rintro heq
    simp [haddr, heq] at hne
  · obtain ⟨hx, hne⟩ := (hmem hused).mp hx
    obtain ⟨b, hb, haddr⟩ := howns.used x hx hused (hmain ▸ hnemain)
    refine ⟨b, mem_filter.mpr ⟨hb, ?_⟩, haddr⟩
    simpa [haddr] using hne
  · exact howns.nodup.sublist (List.Sublist.map _ filter_sublist)

end Owns

end Bloodmoon
