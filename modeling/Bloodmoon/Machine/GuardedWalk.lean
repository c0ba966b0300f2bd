import Bloodmoon.Machine.FilledTree

/-!
# Walks past the end of a file

A walk that asks for more blocks than a file has comes to a block number that is zero. A device that
guards against that (`BlockIO.Guards`) has no array there and transfers nothing. If each tree holds
exactly its first leaves (`StagesGuarded`), a walk hands over no other block, and it reports either
a failure or as many blocks as it was asked for, which are there then
(`BlockIO.Guards.stageBlocks_of_lt`). In a file that has its blocks in order, all trees before the
last one are full (`StagesHold.guarded`); that is not so when new trees have been made in front of
some that were there (`LevelsMade.guarded`).
-/

namespace Machine

open List

universe u

variable {σ : Type u} {io : BlockIO σ} {array : ℕ → ℕ → ℕ} {step : σ → ℕ → ℕ → σ} {inv : σ → Prop}
  {nodes leaves : ℕ → Prop} {blocks : ℕ → ℕ} {s : σ} {n i depth max k skip : ℕ}

/-! ### Guarded trees -/

/-- The tree of each stage holds exactly its first leaves, at most `k` in all, which are there with
the tables on the way to them. -/
def StagesGuarded (array : ℕ → ℕ → ℕ) (entries : ℕ) (nodes leaves : ℕ → Prop) :
    List Stage → ℕ → Prop
  | [], _ => True
  | stage :: rest, k => ∃ m, HoldsLeaves array entries stage.depth stage.blocks stage.length m ∧
    min m (stage.leaves entries) ≤ k ∧
    (∀ j < min m (stage.leaves entries),
      LeafIn array entries nodes leaves stage.depth stage.blocks j) ∧
    StagesGuarded array entries nodes leaves rest (k - min m (stage.leaves entries))

section Guarded

variable {array' : ℕ → ℕ → ℕ} {entries k' : ℕ} {nodes' leaves' : ℕ → Prop}
  {stages stages' : List Stage}

/-- Trees that hold the first leaves of all of them. -/
theorem StagesHold.guarded (h : StagesHold array entries stages k)
    (hpath : ∀ j < k, StagesIn array entries nodes leaves stages j) :
    StagesGuarded array entries nodes leaves stages k := by
  induction stages generalizing k with
  | nil => trivial
  | cons stage rest ih =>
    refine ⟨k, h.1, Nat.min_le_left _ _, fun j hj => ?_, ?_⟩
    · have hin := hpath j (by omega)
      rwa [StagesIn, if_pos (by omega)] at hin
    · rw [show k - min k (stage.leaves entries) = k - stage.leaves entries by omega]
      refine ih h.2 fun j hj => ?_
      have hin := hpath (stage.leaves entries + j) (by omega)
      rwa [StagesIn, if_neg (by omega), Nat.add_sub_cancel_left] at hin

theorem StagesGuarded.mono (hk : k ≤ k') (hnodes : ∀ b, nodes b → nodes' b)
    (hleaves : ∀ b, leaves b → leaves' b) (h : StagesGuarded array entries nodes leaves stages k) :
    StagesGuarded array entries nodes' leaves' stages k' := by
  induction stages generalizing k k' with
  | nil => trivial
  | cons stage rest ih =>
    obtain ⟨m, hhold, hle, hpath, hrest⟩ := h
    exact ⟨m, hhold, by omega, fun j hj => (hpath j hj).mono hnodes hleaves, ih (by omega) hrest⟩

/-- The same trees, with the same tables. -/
theorem StagesGuarded.congr (hentries : 0 < entries)
    (hstages : List.Forall₂ Stage.Same stages stages')
    (harray : ∀ b, nodes b → ∀ i < entries, array' b i = array b i)
    (h : StagesGuarded array entries nodes leaves stages k) :
    StagesGuarded array' entries nodes leaves stages' k := by
  induction hstages generalizing k with
  | nil => trivial
  | @cons stage stage' _ _ hsame _ ih =>
    have hleaves := hsame.leaves_eq entries
    obtain ⟨hdepth, hlength, hblocks⟩ := hsame
    obtain ⟨m, hhold, hle, hpath, hrest⟩ := h
    rw [StagesGuarded, hleaves, hdepth, hlength]
    refine ⟨m, hhold.congr hentries harray hblocks fun j hm hj => hpath j (Nat.lt_min.mpr ⟨hm, hj⟩),
      hle, fun j hj => ?_, ih hrest⟩
    exact ((hpath j hj).congr harray hblocks (Nat.lt_of_lt_of_le hj (Nat.min_le_right _ _))).1

variable {old new word : ℕ → ℕ} {T N : ℕ → Prop} {is indices : List ℕ}

/-- **New trees in front of old ones.** The levels that have been made are guarded if the memory
behind their leaves was zero, and the others if they were. -/
theorem LevelsMade.guarded (hentries : 0 < entries) (hT : ∀ b, T b → b ≠ 0 ∧ nodes b)
    (hN : ∀ b, N b → b ≠ 0 ∧ leaves b)
    (h : LevelsMade array entries word T N old new depth is indices)
    (hclear : LevelsClear entries word depth is.length indices.length)
    (hold : StagesGuarded array entries nodes leaves (levelStages old depth is) k) :
    StagesGuarded array entries nodes leaves (levelStages new depth is) (k + indices.length) := by
  induction is generalizing depth indices k with
  | nil => trivial
  | cons i is ih =>
    obtain ⟨m, hhold, hle, hpath, hrest⟩ := hold
    have hnext := ih h.2.2 (by rw [length_drop]; exact hclear.2) hrest
    rw [length_drop] at hnext
    rw [Stage.leaves_one] at hle hpath hnext
    rw [levelStages, StagesGuarded, Stage.leaves_one]
    rcases Nat.eq_zero_or_pos indices.length with hzero | hpos
    · -- the tree that was there
      have hnew := h.1 (length_eq_zero_iff.mp hzero)
      have hsame : ∀ j < 1, new (i + j) = old (i + j) := fun j hj => by
        rw [Nat.lt_one_iff.mp hj]
        exact hnew
      refine ⟨m, hhold.congr hentries (fun _ _ _ _ => rfl) hsame fun j hm hj => hpath j ?_,
        by omega, fun j hj => ((hpath j hj).congr (fun _ _ _ _ => rfl) hsame ?_).1,
        hnext.mono (by omega) (fun _ hb => hb) fun _ hb => hb⟩
      · rw [Nat.one_mul] at hj
        exact Nat.lt_min.mpr ⟨hm, hj⟩
      · rw [Nat.one_mul]
        exact Nat.lt_of_lt_of_le hj (Nat.min_le_right _ _)
    · -- a new tree
      refine ⟨indices.length, (h.holdsLeaves_iff hentries (fun b hb => (hT b hb).1)
        (fun b hb => (hN b hb).1) hpos).mpr (hclear.1 hpos), by omega, fun j hj => ?_,
        hnext.mono (by omega) (fun _ hb => hb) fun _ hb => hb⟩
      have hleaf := (h.leaf hentries (Nat.lt_of_lt_of_le hj (Nat.min_le_left _ _))).1
      rw [levelStages, StagesIn, Stage.leaves_one,
        if_pos (Nat.lt_of_lt_of_le hj (Nat.min_le_right _ _))] at hleaf
      exact hleaf.mono (fun b hb => (hT b hb).2) fun b hb => (hN b hb).2

end Guarded

/-! ### Walks -/

/-- The device serves its blocks, and the block number 0 is none of them. -/
structure BlockIO.Guards (io : BlockIO σ) (array : ℕ → ℕ → ℕ) (step : σ → ℕ → ℕ → σ)
    (inv : σ → Prop) (nodes leaves : ℕ → Prop) : Prop
    extends io.Serves array step inv nodes leaves where
  hole : ∀ s, inv s → io.table s 0 = none
  gap : ∀ s pos, inv s → io.leaf s 0 pos = (s, 0)

/-- The walk has kept the invariant and skipped what was to be skipped. It reports a failure, or a
number of blocks above `done` that is at most `room`, and not zero unless there is no room. -/
structure Walk.Within (w : Walk σ) (inv : σ → Prop) (failed done room : ℕ) : Prop where
  inv : inv w.state
  skip : w.skip = 0
  code : w.code = failed ∨ done ≤ w.code ∧ w.code ≤ done + room ∧ (0 < room → done < w.code)

namespace BlockIO.Guards

section

variable (h : io.Guards array step inv nodes leaves)

include h

/-- The walk over an array. -/
theorem directBlocks_within (count pos done : ℕ) (hs : inv s)
    (hblocks : ∀ j < i + n, blocks j ≠ 0 ↔ j < k)
    (hleaves : ∀ j < i + n, j < k → leaves (blocks j)) :
    (directBlocks io blocks count n i s pos 0 done).Within inv io.failed done
      (min k (i + n) - i) := by
  induction n generalizing i s pos done with
  | zero => exact ⟨hs, rfl, .inr ⟨Nat.le_refl _, Nat.le_add_right _ _, by omega⟩⟩
  | succ n ih =>
    have hone := h.one_lt_failed
    rw [directBlocks, if_neg (Nat.lt_irrefl 0)]
    by_cases hk : i < k
    · have hleaf := hleaves i (by omega) hk
      have hnext := h.keep s (blocks i) pos hs hleaf
      simp only [h.leaf s (blocks i) pos hs hleaf, Nat.ne_of_lt hone, Nat.one_ne_zero, if_false]
      split_ifs with hlast
      · exact ⟨hnext, rfl, .inr (by dsimp only; omega)⟩
      · have hrest := ih (i := i + 1) (pos + io.size) (done + 1) hnext
          (by rwa [Nat.add_right_comm]) (by rwa [Nat.add_right_comm])
        refine ⟨hrest.inv, hrest.skip, hrest.code.imp id fun hcode => ?_⟩
        omega
    · -- the first entry behind the leaves
      have hzero : blocks i = 0 := not_not.mp fun hne => hk ((hblocks i (by omega)).mp hne)
      simp only [hzero, h.gap s pos hs, Nat.ne_of_lt (Nat.zero_lt_of_lt hone), if_true, if_false]
      exact ⟨hs, rfl, .inr ⟨Nat.le_refl _, Nat.le_add_right _ _, by omega⟩⟩

/-- The walk over an array of arrays, from a walk over one of them. -/
private theorem indirectBlocks_within
    (ih : ∀ {blocks s k} count pos, inv s → HoldsLeaves array io.entries depth blocks io.entries k
      → (∀ j < min k (io.entries * io.entries ^ depth), LeafIn array io.entries nodes leaves depth
      blocks j) → (treeBlocks io depth blocks io.entries count s pos 0).Within inv io.failed 0
      (min k (io.entries * io.entries ^ depth))) (count pos done : ℕ) (hs : inv s)
    (hhold : HoldsLeaves array io.entries (depth + 1) blocks (i + n) k)
    (hpath : ∀ j < min k ((i + n) * io.entries ^ (depth + 1)), LeafIn array io.entries nodes
      leaves (depth + 1) blocks j) :
    (indirectBlocks io (fun array count s pos skip =>
        treeBlocks io depth array io.entries count s pos skip) blocks count n i s pos 0 done).Within
      inv io.failed done
        (min k ((i + n) * io.entries ^ (depth + 1)) - i * io.entries ^ (depth + 1)) := by
  have hone := h.one_lt_failed
  have hpos : 0 < io.entries ^ (depth + 1) := Nat.pow_pos h.entries_pos
  have hwidth : io.entries * io.entries ^ depth = io.entries ^ (depth + 1) := Nat.pow_succ'.symm
  induction n generalizing i s pos done with
  | zero => exact ⟨hs, rfl, .inr ⟨Nat.le_refl _, Nat.le_add_right _ _, by rw [Nat.add_zero]; omega⟩⟩
  | succ n ihn =>
    have hend : (i + (n + 1)) * io.entries ^ (depth + 1) = i * io.entries ^ (depth + 1) +
        io.entries ^ (depth + 1) + n * io.entries ^ (depth + 1) := by
      rw [Nat.add_comm n 1, ← Nat.add_assoc, Nat.add_mul, Nat.succ_mul]
    obtain ⟨hzero, hinner⟩ := hhold i (by omega)
    rw [indirectBlocks]
    by_cases hk : i * io.entries ^ (depth + 1) < k
    · -- the array of an entry with leaves below it
      have hin : ∀ j < io.entries ^ (depth + 1), i * io.entries ^ (depth + 1) + j < k →
          nodes (blocks i) ∧ LeafIn array io.entries nodes leaves depth (array (blocks i)) j := by
        intro j hj hlt
        exact (leafIn_succ hj).mp (hpath _ (Nat.lt_min.mpr ⟨hlt, by omega⟩))
      have hwalk := ih (count - done) pos hs (hinner hk) fun j hj =>
        (hin j (by omega) (by omega)).2
      rw [h.table s (blocks i) hs (hin 0 hpos hk).1]
      simp only
      generalize treeBlocks io depth (array (blocks i)) io.entries (count - done) s pos 0 = w
        at hwalk ⊢
      have hcode := hwalk.code
      split_ifs with hstop hlast
      · refine ⟨hwalk.inv, hwalk.skip, .inl ?_⟩
        exact hstop.resolve_right fun hnone => by omega
      · exact ⟨hwalk.inv, hwalk.skip, .inr (by dsimp only; omega)⟩
      · rw [hwalk.skip]
        have hnext : i + 1 + n = i + (n + 1) := by omega
        have hrest := ihn (i := i + 1) (pos + w.code * io.size) (done + w.code) hwalk.inv
          (by rwa [hnext]) (by rwa [hnext])
        rw [hnext, Nat.succ_mul] at hrest
        exact ⟨hrest.inv, hrest.skip, hrest.code.imp id fun hcode' => by omega⟩
    · rw [not_not.mp fun hne => hk (hzero.mp hne), h.hole s hs]
      exact ⟨hs, rfl, .inl rfl⟩

/-- **The walk over trees** hands over leaves that are there. -/
theorem treeBlocks_within (count pos : ℕ) (hs : inv s)
    (hhold : HoldsLeaves array io.entries depth blocks max k)
    (hpath : ∀ j < min k (max * io.entries ^ depth), LeafIn array io.entries nodes leaves depth
      blocks j) :
    (treeBlocks io depth blocks max count s pos 0).Within inv io.failed 0
      (min k (max * io.entries ^ depth)) := by
  induction depth generalizing blocks max count s pos k with
  | zero =>
    rw [Nat.pow_zero, Nat.mul_one] at hpath ⊢
    have hwalk := h.directBlocks_within (i := 0) (n := max) count pos 0 hs
      (by rwa [Nat.zero_add]) fun j hj hk => hpath j (by omega)
    rwa [Nat.zero_add, Nat.sub_zero] at hwalk
  | succ depth ih =>
    have hwalk := h.indirectBlocks_within (i := 0) (n := max) ih count pos 0 hs
      (by rwa [Nat.zero_add]) (by rwa [Nat.zero_add])
    rwa [Nat.zero_add, Nat.zero_mul, Nat.sub_zero] at hwalk

/-- A walk over trees that begin with no array fails. -/
theorem treeBlocks_of_zero (count pos skip : ℕ) (hs : inv s) (hdepth : 0 < depth) (hmax : 0 < max)
    (hzero : blocks 0 = 0) :
    treeBlocks io depth blocks max count s pos skip = ⟨s, skip, io.failed⟩ := by
  obtain ⟨depth, rfl⟩ : ∃ d, depth = d + 1 := ⟨depth - 1, by omega⟩
  obtain ⟨max, rfl⟩ : ∃ m, max = m + 1 := ⟨max - 1, by omega⟩
  rw [treeBlocks, indirectBlocks, hzero, h.hole s hs]

/-- The walk over stages of tables, when nothing is skipped any more. -/
private theorem stageBlocks_within {stages : List Stage}
    (hstages : ∀ stage ∈ stages, 0 < stage.depth ∧ 0 < stage.length) (count pos done : ℕ)
    (hs : inv s) (hhold : StagesGuarded array io.entries nodes leaves stages k) :
    inv (stageBlocks io count (stages.map (Stage.walk io)) s pos 0 done).1 ∧
      ((stageBlocks io count (stages.map (Stage.walk io)) s pos 0 done).2 = io.failed ∨
        count ≤ (stageBlocks io count (stages.map (Stage.walk io)) s pos 0 done).2 ∧
          (stageBlocks io count (stages.map (Stage.walk io)) s pos 0 done).2 ≤ done + k) := by
  induction stages generalizing s pos done k with
  | nil => exact ⟨hs, .inl rfl⟩
  | cons stage rest ih =>
    obtain ⟨hdepth, hlength⟩ := hstages stage mem_cons_self
    obtain ⟨m, hstage, hle, hpath, hrest⟩ := hhold
    simp only [map_cons, stageBlocks, Stage.walk]
    rcases Nat.eq_zero_or_pos m with rfl | hm
    · -- the first table is missing
      have hzero : stage.blocks 0 = 0 := by
        refine not_not.mp fun hne => ?_
        have := (hstage.ne_zero_iff hlength).mp hne
        omega
      rw [h.treeBlocks_of_zero _ pos 0 hs hdepth hlength hzero]
      simp only [true_or, if_true, and_true]
      exact hs
    have hwidth : 0 < stage.leaves io.entries := Nat.mul_pos hlength (Nat.pow_pos h.entries_pos)
    have hwalk := h.treeBlocks_within (count - done) pos hs hstage hpath
    rw [← Stage.leaves] at hwalk
    generalize treeBlocks io stage.depth stage.blocks stage.length (count - done) s pos 0 = w
      at hwalk ⊢
    have hcode := hwalk.code
    split_ifs with hstop hlast
    · refine ⟨hwalk.inv, .inl (hstop.resolve_right fun hnone => ?_)⟩
      have := h.one_lt_failed
      omega
    · exact ⟨hwalk.inv, .inr (by omega)⟩
    · rw [hwalk.skip]
      obtain ⟨hinv, hresult⟩ := ih (forall_mem_cons.1 hstages).2
        (pos + w.code * io.size) (done + w.code) hwalk.inv hrest
      exact ⟨hinv, hresult.imp id fun hle => by omega⟩

/-- **A walk that begins at a leaf of the first stage** reports a failure or all the blocks it was
asked for, which are leaves then. -/
theorem stageBlocks_of_lt {rest : List Stage}
    (hrest : ∀ stage ∈ rest, 0 < stage.depth ∧ 0 < stage.length) (count pos : ℕ) (hs : inv s)
    (hblocks : ∀ j < n, blocks j ≠ 0 ↔ j < k) (hleaves : ∀ j < n, j < k → leaves (blocks j))
    (hhold : StagesGuarded array io.entries nodes leaves rest (k - n)) (hskip : skip < n)
    (hk : skip < k) :
    inv (stageBlocks io count ((⟨0, blocks, n⟩ :: rest).map (Stage.walk io)) s pos skip 0).1 ∧
      ((stageBlocks io count ((⟨0, blocks, n⟩ :: rest).map (Stage.walk io)) s pos skip 0).2 =
          io.failed ∨
        count ≤ (stageBlocks io count ((⟨0, blocks, n⟩ :: rest).map (Stage.walk io))
          s pos skip 0).2 ∧
          skip + (stageBlocks io count ((⟨0, blocks, n⟩ :: rest).map (Stage.walk io)) s pos skip
            0).2 ≤ k) := by
  have hlen : skip + (n - skip) = n := Nat.add_sub_cancel' hskip.le
  have hwalk := h.directBlocks_within (i := skip) (n := n - skip) count pos 0 hs
    (by rwa [hlen]) (by rwa [hlen])
  simp only [map_cons, stageBlocks, Stage.walk, treeBlocks, Nat.sub_zero, Nat.zero_add,
    BlockIO.Serves.directBlocks_skip hskip.le]
  generalize directBlocks io blocks count (n - skip) skip s pos 0 0 = w at hwalk ⊢
  have hcode := hwalk.code
  split_ifs with hstop hlast
  · refine ⟨hwalk.inv, .inl (hstop.resolve_right fun hnone => ?_)⟩
    have := h.one_lt_failed
    omega
  · exact ⟨hwalk.inv, .inr (by omega)⟩
  · rw [hwalk.skip]
    obtain ⟨hinv, hresult⟩ := h.stageBlocks_within hrest count (pos + w.code * io.size)
      w.code hwalk.inv hhold
    exact ⟨hinv, hresult.imp id fun hle => by omega⟩

/-- A walk that begins behind the leaves transfers nothing. -/
theorem stageBlocks_of_zero (rest : List Stage) (count pos : ℕ) (hs : inv s) (hskip : skip < n)
    (hzero : blocks skip = 0) :
    stageBlocks io count ((⟨0, blocks, n⟩ :: rest).map (Stage.walk io)) s pos skip 0 = (s, 0) := by
  have hone := h.one_lt_failed
  have hwalk : directBlocks io blocks count (n - skip) skip s pos 0 0 = ⟨s, 0, 0⟩ := by
    obtain ⟨m, hm⟩ : ∃ m, n - skip = m + 1 := ⟨n - skip - 1, by omega⟩
    rw [hm, directBlocks, if_neg (Nat.lt_irrefl 0), hzero]
    simp only [h.gap s pos hs, Nat.ne_of_lt (Nat.zero_lt_of_lt hone), if_true, if_false]
  simp only [map_cons, stageBlocks, Stage.walk, treeBlocks, Nat.sub_zero, Nat.zero_add,
    BlockIO.Serves.directBlocks_skip hskip.le, hwalk, or_true, if_true]

end

end BlockIO.Guards

end Machine
