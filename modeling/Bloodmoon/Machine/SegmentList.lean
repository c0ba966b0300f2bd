import Bloodmoon.Machine.LinkedList

/-!
# Lists of segments

An allocator with boundary headers keeps its memory as a list of segments, from the highest
address down: a header of `k` bytes and a block after it, which is in use or free. Neighbours in
the list are ordered (`Above`), may touch (`Touches`), and are not both free in a list that has
been coalesced (`NotBothFree`); each is a chain condition on the list.

The edits an allocator makes replace a few neighbouring segments by others. `isChain_splice` says
what is to be shown then: the new piece is a chain, and its two ends get on with whatever the ends
of the old piece got on with. `carve` and `fuse` are the two edits, cutting a block off the high
end of a segment and merging two neighbours.
-/

namespace Machine

/-- A segment: the address of its header, the bytes of its block, and whether it is free. -/
structure Segment where
  addr : ℕ
  length : ℕ
  free : Bool
  deriving DecidableEq, Repr

namespace Segment

/-- The first address after a segment with a header of `k` bytes. -/
def stop (k : ℕ) (s : Segment) : ℕ := s.addr + k + s.length

/-- `s` lies above `t`. -/
def Above (k : ℕ) (s t : Segment) : Prop := t.stop k ≤ s.addr

/-- `s` begins where `t` ends. -/
def Touches (k : ℕ) (s t : Segment) : Prop := t.stop k = s.addr

/-- At least one of the two is in use. -/
def NotBothFree (s t : Segment) : Prop := ¬ (s.free = true ∧ t.free = true)

theorem above_trans {k : ℕ} {s t u : Segment} (h₁ : Above k s t) (h₂ : Above k t u) :
    Above k s u := by
  unfold Above stop at *
  omega

instance (k : ℕ) : Trans (Above k) (Above k) (Above k) := ⟨above_trans⟩

theorem Touches.above {k : ℕ} {s t : Segment} (h : Touches k s t) : Above k s t := Nat.le_of_eq h

end Segment

open Segment List

/-! ### Replacing a piece of a chain -/

/-- **A piece of a chain can be replaced** by a chain whose ends are related to all that the old
ends were related to. -/
theorem isChain_splice {α : Type} {R : α → α → Prop} (ss : List α) {xs zs ys : List α}
    (h : (xs ++ (ss ++ ys)).IsChain R) (hss : ss ≠ []) (hzs : zs ≠ [])
    (hhead : ∀ x, R x (ss.head hss) → R x (zs.head hzs))
    (hlast : ∀ y, R (ss.getLast hss) y → R (zs.getLast hzs) y) (hchain : zs.IsChain R) :
    (xs ++ (zs ++ ys)).IsChain R := by
  obtain ⟨hxs, hrest, hseam⟩ := isChain_append.mp h
  obtain ⟨-, hys, hseam'⟩ := isChain_append.mp hrest
  rw [head?_append_of_ne_nil _ hss, head?_eq_some_head hss] at hseam
  rw [getLast?_eq_some_getLast hss] at hseam'
  refine isChain_append.mpr ⟨hxs, isChain_append.mpr ⟨hchain, hys, ?_⟩, ?_⟩
  · rw [getLast?_eq_some_getLast hzs]
    rintro _ ⟨⟩ y hy
    exact hlast y (hseam' _ rfl y hy)
  · rw [head?_append_of_ne_nil _ hzs, head?_eq_some_head hzs]
    rintro x hx _ ⟨⟩
    exact hhead x (hseam x hx _ rfl)

section Order

variable {k : ℕ} {xs ys : List Segment} {s x y : Segment}

/-- Everything before a segment of an ordered list lies above it. -/
theorem above_of_mem_left (h : (xs ++ s :: ys).IsChain (Above k)) (hx : x ∈ xs) :
    s.stop k ≤ x.addr := by
  rw [isChain_iff_pairwise, pairwise_append] at h
  exact h.2.2 x hx s mem_cons_self

/-- Everything after the first segment of an ordered list lies below it. -/
theorem above_of_mem_tail (h : (s :: ys).IsChain (Above k)) (hy : y ∈ ys) : y.stop k ≤ s.addr := by
  rw [isChain_iff_pairwise, pairwise_cons] at h
  exact h.1 y hy

/-- Everything after a segment of an ordered list lies below it. -/
theorem above_of_mem_right (h : (xs ++ s :: ys).IsChain (Above k)) (hy : y ∈ ys) :
    y.stop k ≤ s.addr :=
  above_of_mem_tail (isChain_split.mp h).2 hy

/-- The addresses of an ordered list are different. -/
theorem mem_and_addr_ne_iff (hk : 0 < k) (h : (xs ++ s :: ys).IsChain (Above k)) :
    x ∈ xs ++ s :: ys ∧ x.addr ≠ s.addr ↔ x ∈ xs ++ ys := by
  simp only [mem_append, mem_cons]
  constructor
  · rintro ⟨hx | rfl | hx, hne⟩
    · exact .inl hx
    · exact absurd rfl hne
    · exact .inr hx
  · rintro (hx | hx)
    · have := above_of_mem_left h hx
      unfold stop at this
      exact ⟨.inl hx, by omega⟩
    · have := above_of_mem_right h hx
      unfold stop at this
      exact ⟨.inr (.inr hx), by omega⟩

/-- Two segments of an ordered list are the same or do not overlap. -/
theorem eq_or_apart_of_mem {segs : List Segment} (h : segs.IsChain (Above k)) (hx : x ∈ segs)
    (hy : y ∈ segs) : x = y ∨ x.stop k ≤ y.addr ∨ y.stop k ≤ x.addr := by
  obtain ⟨as, bs, rfl⟩ := append_of_mem hx
  rcases mem_append.mp hy with hy | hy
  · exact .inr (.inl (above_of_mem_left h hy))
  · rcases mem_cons.mp hy with rfl | hy
    · exact .inl rfl
    · exact .inr (.inr (above_of_mem_right h hy))

end Order

/-! ### Cutting and merging -/

/-- A segment of `n` bytes cut off the high end of `s`. -/
def carved (s : Segment) (n : ℕ) : Segment := ⟨s.addr + s.length - n, n, false⟩

/-- What is left of `s` then. -/
def remainder (k : ℕ) (s : Segment) (n : ℕ) : Segment := { s with length := s.length - (n + k) }

/-- Two neighbours merged into one segment at the address of the lower. -/
def fuse (k : ℕ) (hi lo : Segment) : Segment := { lo with length := lo.length + (hi.length + k) }

variable {k : ℕ} {s hi lo : Segment} {n : ℕ}

@[simp]
theorem stop_carved (h : n ≤ s.length) : (carved s n).stop k = s.stop k := by
  simp only [carved, stop]
  omega

/-- A cut leaves no gap. -/
theorem touches_carved (h : n + k ≤ s.length) : Touches k (carved s n) (remainder k s n) := by
  simp only [Touches, carved, remainder, stop]
  omega

/-- A request for `n` bytes can be served from `s`, by cutting it or as a whole. -/
def Segment.Fits (k n : ℕ) (s : Segment) : Prop := s.free = true ∧ (n + k < s.length ∨ s.length = n)

instance (k n : ℕ) (s : Segment) : Decidable (s.Fits k n) := inferInstanceAs (Decidable (_ ∧ _))

/-- What a segment that fits becomes when `n` bytes of it are put to use. -/
def serve (k n : ℕ) (s : Segment) : List Segment :=
  if n + k < s.length then [carved s n, remainder k s n] else [{ s with free := false }]

/-- The segment put to use. -/
def served (k n : ℕ) (s : Segment) : Segment :=
  if n + k < s.length then carved s n else { s with free := false }

theorem serve_eq_cons (k n : ℕ) (s : Segment) :
    serve k n s = served k n s :: (serve k n s).tail := by
  unfold serve served
  split_ifs <;> rfl

/-- The segment put to use has the length that was asked for. -/
theorem served_eq (h : s.Fits k n) : served k n s = ⟨(served k n s).addr, n, false⟩ := by
  unfold served
  split_ifs with hlt
  · rfl
  · rw [← h.2.resolve_left hlt]

/-- No other segment in use comes out of a request. -/
theorem mem_serve_iff {x : Segment} (h : s.Fits k n) (hx : x.free = false) :
    x ∈ serve k n s ↔ x.addr = (served k n s).addr ∧ x.length = n := by
  have hserve : x ∈ serve k n s ↔ x = served k n s := by
    unfold serve served
    split_ifs with hlt
    · have hne : x ≠ remainder k s n := by
        rintro rfl
        exact absurd (hx.symm.trans h.1) (by decide)
      simp [hne]
    · simp
  rw [hserve, served_eq h]
  cases x
  simp_all

/-- A merged segment ends where the higher one did if there was no gap, and before that
otherwise. -/
theorem stop_fuse_le (h : Above k hi lo) : (fuse k hi lo).stop k ≤ hi.stop k := by
  simp only [Above, fuse, stop] at *
  omega

/-! ### Bytes lost between segments -/

/-- The bytes of all segments, with their headers. -/
def extent (k : ℕ) (segs : List Segment) : ℕ := (segs.map fun s => k + s.length).sum

@[simp]
theorem extent_nil : extent k [] = 0 := rfl

@[simp]
theorem extent_cons (segs : List Segment) :
    extent k (s :: segs) = k + s.length + extent k segs := sum_cons

@[simp]
theorem extent_append (xs ys : List Segment) : extent k (xs ++ ys) = extent k xs + extent k ys := by
  rw [extent, map_append, sum_append]
  rfl

/-- Where the segments would end if they were stacked without gaps from the last one up. -/
def level (k : ℕ) (segs : List Segment) : ℕ := lastAddr addr 0 segs + extent k segs

/-- The segments reach no higher than they do, and as high only without gaps. -/
theorem level_le_stop {rest : List Segment} (h : (s :: rest).IsChain (Above k)) :
    level k (s :: rest) ≤ s.stop k ∧
      (level k (s :: rest) = s.stop k ↔ (s :: rest).IsChain (Touches k)) := by
  unfold level
  induction rest generalizing s with
  | nil => simp [stop, Nat.add_assoc]
  | cons t rest ih =>
    obtain ⟨hst, hrest⟩ := isChain_cons_cons.mp h
    obtain ⟨hle, heq⟩ := ih hrest
    simp only [lastAddr_cons, extent_cons, isChain_cons_cons, Touches, Above, stop]
      at hst hle heq ⊢
    rw [← heq]
    omega

end Machine
