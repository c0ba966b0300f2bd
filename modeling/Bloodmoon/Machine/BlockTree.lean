import Mathlib

/-!
# Files as trees of blocks

A file system keeps the blocks of a file in an array of block numbers, where the later entries
name blocks that hold further arrays: a tree in which all leaves have the same depth. A transfer
of consecutive blocks walks such trees with three counters, the blocks still to skip, the blocks
done, and the position in a buffer.

The walk is written once for every depth (`treeBlocks`) and over an abstract device (`BlockIO`),
so that reading into a buffer and writing from one are two instances. `treeBlocks_eq` says what it
does when the device serves every block on the way: it hands the leaves to the device in order
(`transfer`). `stageBlocks` is the walk over several trees, one after the other, which is what the
block array of an inode is.
-/

namespace Machine

open List

universe u

/-- A device that holds arrays of block numbers and transfers blocks to or from a position of a
buffer. The result of a transfer is a code: `failed`, or the number of blocks. -/
structure BlockIO (σ : Type u) where
  failed : ℕ
  entries : ℕ
  size : ℕ
  table : σ → ℕ → Option (ℕ → ℕ)
  leaf : σ → ℕ → ℕ → σ × ℕ

/-- What a walk leaves: the device, the blocks still to skip, and its code. -/
structure Walk (σ : Type u) where
  state : σ
  skip : ℕ
  code : ℕ

variable {σ : Type u} (io : BlockIO σ)

/-- The walk over an array of block numbers, with `n` entries to go from entry `i` on. -/
def directBlocks (blocks : ℕ → ℕ) (count : ℕ) : ℕ → ℕ → σ → ℕ → ℕ → ℕ → Walk σ
  | 0, _, s, _, skip, done => ⟨s, skip, done⟩
  | n + 1, i, s, pos, skip, done =>
    if skip > 0 then directBlocks blocks count n (i + 1) s pos (skip - 1) done
    else
      let r := io.leaf s (blocks i) pos
      if r.2 = io.failed then ⟨r.1, skip, io.failed⟩
      else if r.2 = 0 then ⟨r.1, skip, done⟩
      else if done + r.2 = count then ⟨r.1, skip, done + r.2⟩
      else directBlocks blocks count n (i + 1) r.1 (pos + io.size) skip (done + r.2)

/-- The walk over an array of blocks that hold arrays; `inner` walks one of those. -/
def indirectBlocks (inner : (ℕ → ℕ) → ℕ → σ → ℕ → ℕ → Walk σ) (blocks : ℕ → ℕ) (count : ℕ) :
    ℕ → ℕ → σ → ℕ → ℕ → ℕ → Walk σ
  | 0, _, s, _, skip, done => ⟨s, skip, done⟩
  | n + 1, i, s, pos, skip, done =>
    match io.table s (blocks i) with
    | none => ⟨s, skip, io.failed⟩
    | some array =>
      let w := inner array (count - done) s pos skip
      if w.code = io.failed ∨ w.code = 0 then w
      else if done + w.code = count then ⟨w.state, w.skip, done + w.code⟩
      else
        indirectBlocks inner blocks count n (i + 1) w.state (pos + w.code * io.size) w.skip
          (done + w.code)

/-- The walk over the leaves of `max` trees of a given depth. -/
def treeBlocks : ℕ → (ℕ → ℕ) → ℕ → ℕ → σ → ℕ → ℕ → Walk σ
  | 0, blocks, max, count, s, pos, skip => directBlocks io blocks count max 0 s pos skip 0
  | depth + 1, blocks, max, count, s, pos, skip =>
    indirectBlocks io (fun array count s pos skip =>
      treeBlocks depth array io.entries count s pos skip) blocks count max 0 s pos skip 0

/-- The walk over several stages, one after the other. A stage that transfers nothing ends it. -/
def stageBlocks (count : ℕ) : List (ℕ → σ → ℕ → ℕ → Walk σ) → σ → ℕ → ℕ → ℕ → σ × ℕ
  | [], s, _, _, _ => (s, io.failed)
  | stage :: rest, s, pos, skip, done =>
    let w := stage (count - done) s pos skip
    if w.code = io.failed ∨ w.code = 0 then (w.state, w.code)
    else if done + w.code ≥ count then (w.state, done + w.code)
    else stageBlocks count rest w.state (pos + w.code * io.size) w.skip (done + w.code)

/-- Several trees of one depth. -/
structure Stage where
  depth : ℕ
  blocks : ℕ → ℕ
  length : ℕ

/-- The walk over the trees of a stage. -/
def Stage.walk (stage : Stage) : ℕ → σ → ℕ → ℕ → Walk σ :=
  treeBlocks io stage.depth stage.blocks stage.length

/-! ### The leaves -/

section Leaves

variable (array : ℕ → ℕ → ℕ) (entries : ℕ)

/-- The block number of leaf `j`; `array b` is what block `b` holds. -/
def leafBlock : ℕ → (ℕ → ℕ) → ℕ → ℕ
  | 0, blocks, j => blocks j
  | depth + 1, blocks, j =>
    leafBlock depth (array (blocks (j / entries ^ (depth + 1)))) (j % entries ^ (depth + 1))

/-- The blocks on the way to leaf `j` are in `nodes`, and the leaf is in `leaves`. -/
def LeafIn (nodes leaves : ℕ → Prop) : ℕ → (ℕ → ℕ) → ℕ → Prop
  | 0, blocks, j => leaves (blocks j)
  | depth + 1, blocks, j =>
    nodes (blocks (j / entries ^ (depth + 1))) ∧
      LeafIn nodes leaves depth (array (blocks (j / entries ^ (depth + 1))))
        (j % entries ^ (depth + 1))

/-- The number of leaves of a stage. -/
def Stage.leaves (stage : Stage) : ℕ := stage.length * entries ^ stage.depth

/-- The block number of leaf `j` of several stages. -/
def stagesBlock : List Stage → ℕ → ℕ
  | [], _ => 0
  | stage :: rest, j =>
    if j < stage.leaves entries then leafBlock array entries stage.depth stage.blocks j
    else stagesBlock rest (j - stage.leaves entries)

/-- Leaf `j` of several stages and the blocks on the way to it. -/
def StagesIn (nodes leaves : ℕ → Prop) : List Stage → ℕ → Prop
  | [], _ => False
  | stage :: rest, j =>
    if j < stage.leaves entries then
      LeafIn array entries nodes leaves stage.depth stage.blocks j
    else StagesIn nodes leaves rest (j - stage.leaves entries)

variable {array entries} {array' : ℕ → ℕ → ℕ} {nodes leaves : ℕ → Prop}
variable {depth j : ℕ} {leaves' nodes' : ℕ → Prop} {blocks : ℕ → ℕ} {stages : List Stage}

theorem mul_add_div_of_lt {n : ℕ} (h : j < n) (i : ℕ) : (i * n + j) / n = i := by
  rw [Nat.add_comm, Nat.add_mul_div_right _ _ (Nat.zero_lt_of_lt h),
    Nat.div_eq_of_lt h, Nat.zero_add]

/-- The leaves below an entry are those of the array that it names. -/
theorem leafIn_succ {i : ℕ} (hj : j < entries ^ (depth + 1)) :
    LeafIn array entries nodes leaves (depth + 1) blocks (i * entries ^ (depth + 1) + j) ↔
      nodes (blocks i) ∧ LeafIn array entries nodes leaves depth (array (blocks i)) j := by
  rw [LeafIn, mul_add_div_of_lt hj, Nat.mul_add_mod_of_lt hj]

theorem leafBlock_succ {i : ℕ} (hj : j < entries ^ (depth + 1)) :
    leafBlock array entries (depth + 1) blocks (i * entries ^ (depth + 1) + j) =
      leafBlock array entries depth (array (blocks i)) j := by
  rw [leafBlock, mul_add_div_of_lt hj, Nat.mul_add_mod_of_lt hj]

/-- A path, and the leaf at its end, are the same in two devices that hold the same arrays. -/
theorem LeafIn.congr (harray : ∀ b, nodes b → ∀ i < entries, array' b i = array b i) {max : ℕ}
    {blocks' : ℕ → ℕ} (hblocks : ∀ i < max, blocks' i = blocks i) (hj : j < max * entries ^ depth)
    (h : LeafIn array entries nodes leaves depth blocks j) :
    LeafIn array' entries nodes leaves depth blocks' j ∧
      leafBlock array' entries depth blocks' j = leafBlock array entries depth blocks j := by
  induction depth generalizing max blocks blocks' j with
  | zero =>
    rw [Nat.pow_zero, Nat.mul_one] at hj
    rw [LeafIn, leafBlock, leafBlock, hblocks j hj]
    exact ⟨h, rfl⟩
  | succ depth ih =>
    obtain ⟨hnode, hrest⟩ := h
    have hpos : 0 < entries ^ (depth + 1) := by
      refine Nat.pos_of_ne_zero fun hzero => ?_
      rw [hzero, Nat.mul_zero] at hj
      exact absurd hj (Nat.not_lt_zero j)
    have hentry : blocks' (j / entries ^ (depth + 1)) = blocks (j / entries ^ (depth + 1)) :=
      hblocks _ ((Nat.div_lt_iff_lt_mul hpos).mpr hj)
    have hlt : j % entries ^ (depth + 1) < entries * entries ^ depth := by
      rw [← Nat.pow_succ']
      exact Nat.mod_lt _ hpos
    rw [LeafIn, leafBlock, leafBlock, hentry]
    obtain ⟨hin, hleaf⟩ := ih (harray _ hnode) hlt hrest
    exact ⟨⟨hnode, hin⟩, hleaf⟩

/-- The same for several stages. -/
theorem StagesIn.congr (harray : ∀ b, nodes b → ∀ i < entries, array' b i = array b i)
    (h : StagesIn array entries nodes leaves stages j) :
    StagesIn array' entries nodes leaves stages j ∧
      stagesBlock array' entries stages j = stagesBlock array entries stages j := by
  induction stages generalizing j with
  | nil => exact absurd h id
  | cons stage rest ih =>
    rw [StagesIn] at h ⊢
    rw [stagesBlock, stagesBlock]
    by_cases hj : j < stage.leaves entries
    · simp only [hj, if_true] at h ⊢
      exact h.congr harray (fun _ _ => rfl) hj
    · simp only [hj, if_false] at h ⊢
      exact ih h

theorem LeafIn.mono (hnodes : ∀ b, nodes b → nodes' b) (hleaves : ∀ b, leaves b → leaves' b)
    (h : LeafIn array entries nodes leaves depth blocks j) :
    LeafIn array entries nodes' leaves' depth blocks j := by
  induction depth generalizing blocks j with
  | zero => exact hleaves _ h
  | succ depth ih => exact ⟨hnodes _ h.1, ih h.2⟩

theorem StagesIn.mono (hnodes : ∀ b, nodes b → nodes' b) (hleaves : ∀ b, leaves b → leaves' b)
    (h : StagesIn array entries nodes leaves stages j) :
    StagesIn array entries nodes' leaves' stages j := by
  induction stages generalizing j with
  | nil => exact h
  | cons stage rest ih =>
    rw [StagesIn] at h ⊢
    by_cases hj : j < stage.leaves entries
    · simp only [hj, if_true] at h ⊢
      exact h.mono hnodes hleaves
    · simp only [hj, if_false] at h ⊢
      exact ih h

/-- The leaf of a path is one of the leaves. -/
theorem LeafIn.leaves_leafBlock (h : LeafIn array entries nodes leaves depth blocks j) :
    leaves (leafBlock array entries depth blocks j) := by
  induction depth generalizing blocks j with
  | zero => exact h
  | succ depth ih => exact ih h.2

theorem StagesIn.leaves_stagesBlock (h : StagesIn array entries nodes leaves stages j) :
    leaves (stagesBlock array entries stages j) := by
  induction stages generalizing j with
  | nil => exact absurd h id
  | cons stage rest ih =>
    rw [StagesIn] at h
    rw [stagesBlock]
    by_cases hj : j < stage.leaves entries
    · simp only [hj, if_true] at h ⊢
      exact h.leaves_leafBlock
    · simp only [hj, if_false] at h ⊢
      exact ih h

/-- A property of the leaf at the end of a path. -/
theorem LeafIn.of_leafBlock (h : LeafIn array entries nodes leaves depth blocks j)
    (hleaf : leaves' (leafBlock array entries depth blocks j)) :
    LeafIn array entries nodes leaves' depth blocks j := by
  induction depth generalizing blocks j with
  | zero => exact hleaf
  | succ depth ih => exact ⟨h.1, ih h.2 hleaf⟩

theorem StagesIn.of_stagesBlock (h : StagesIn array entries nodes leaves stages j)
    (hleaf : leaves' (stagesBlock array entries stages j)) :
    StagesIn array entries nodes leaves' stages j := by
  induction stages generalizing j with
  | nil => exact h
  | cons stage rest ih =>
    rw [stagesBlock] at hleaf
    rw [StagesIn] at h ⊢
    by_cases hj : j < stage.leaves entries
    · simp only [hj, if_true] at h hleaf ⊢
      exact h.of_leafBlock hleaf
    · simp only [hj, if_false] at h hleaf ⊢
      exact ih h hleaf

end Leaves

/-- The device takes `n` blocks `f 0`, `f 1`, … in order, at positions one block apart. -/
def transfer (step : σ → ℕ → ℕ → σ) (size : ℕ) : (ℕ → ℕ) → ℕ → σ → ℕ → σ
  | _, 0, s, _ => s
  | f, n + 1, s, pos => transfer step size (fun j => f (j + 1)) n (step s (f 0) pos) (pos + size)

section Transfer

variable {step : σ → ℕ → ℕ → σ} {size : ℕ}

theorem transfer_congr {f g : ℕ → ℕ} {n : ℕ} (h : ∀ j < n, f j = g j) (s : σ) (pos : ℕ) :
    transfer step size f n s pos = transfer step size g n s pos := by
  induction n generalizing f g s pos with
  | zero => rfl
  | succ n ih =>
    rw [transfer, transfer, h 0 (Nat.succ_pos n)]
    exact ih (fun j hj => h (j + 1) (Nat.succ_lt_succ hj)) _ _

theorem transfer_add (f : ℕ → ℕ) (n k : ℕ) (s : σ) (pos : ℕ) :
    transfer step size f (n + k) s pos =
      transfer step size (fun j => f (n + j)) k (transfer step size f n s pos)
        (pos + n * size) := by
  induction n generalizing f s pos with
  | zero => simp [transfer]
  | succ n ih =>
    rw [Nat.succ_add, transfer, ih, transfer, Nat.succ_mul, Nat.add_assoc pos, Nat.add_comm size]
    exact transfer_congr (fun j _ => congrArg f (by omega)) _ _

end Transfer

/-! ### The walk, when the device serves every block -/

/-- The device serves the blocks in `nodes` as arrays and transfers those in `leaves`, in every
state that satisfies `inv`. -/
structure BlockIO.Serves (io : BlockIO σ) (array : ℕ → ℕ → ℕ) (step : σ → ℕ → ℕ → σ)
    (inv : σ → Prop) (nodes leaves : ℕ → Prop) : Prop where
  entries_pos : 0 < io.entries
  one_lt_failed : 1 < io.failed
  table : ∀ s b, inv s → nodes b → io.table s b = some (array b)
  leaf : ∀ s b pos, inv s → leaves b → io.leaf s b pos = (step s b pos, 1)
  keep : ∀ s b pos, inv s → leaves b → inv (step s b pos)

namespace BlockIO.Serves

variable {io} {array : ℕ → ℕ → ℕ} {step : σ → ℕ → ℕ → σ} {inv : σ → Prop}
  {nodes leaves : ℕ → Prop} {blocks f : ℕ → ℕ} {s : σ} {n i pos count done : ℕ}

theorem transfer_inv (h : io.Serves array step inv nodes leaves) (pos : ℕ) (hs : inv s)
    (hf : ∀ j < n, leaves (f j)) : inv (transfer step io.size f n s pos) := by
  induction n generalizing f s pos with
  | zero => exact hs
  | succ n ih =>
    exact ih _ (h.keep _ _ _ hs (hf 0 (Nat.succ_pos n))) fun j hj =>
      hf (j + 1) (Nat.succ_lt_succ hj)

/-- The walk over an array. -/
private theorem directBlocks_eq (h : io.Serves array step inv nodes leaves) (pos : ℕ) (hs : inv s)
    (hdone : done < count) (hf : ∀ j < min (count - done) n, leaves (blocks (i + j))) :
    directBlocks io blocks count n i s pos 0 done =
      ⟨transfer step io.size (fun j => blocks (i + j)) (min (count - done) n) s pos, 0,
        done + min (count - done) n⟩ := by
  induction n generalizing i s pos done with
  | zero => simp [directBlocks, transfer]
  | succ n ih =>
    have hone := h.one_lt_failed
    have hleaf := hf 0 (by omega)
    have hnext : inv (step s (blocks i) pos) := h.keep _ _ _ hs hleaf
    simp only [directBlocks, Nat.lt_irrefl, if_false, h.leaf s (blocks i) pos hs hleaf,
      Nat.ne_of_lt hone, Nat.one_ne_zero, gt_iff_lt]
    by_cases hlast : done + 1 = count
    · obtain ⟨k, hk⟩ : ∃ k, min (count - done) (n + 1) = k + 1 := ⟨0, by omega⟩
      obtain rfl : k = 0 := by omega
      rw [if_pos hlast, hk]
      rfl
    · have hmin : min (count - done) (n + 1) = min (count - (done + 1)) n + 1 := by omega
      rw [if_neg hlast, ih _ hnext (by omega) fun j hj => ?_, hmin, transfer]
      · simp only [Nat.add_zero, Nat.add_assoc, Nat.add_comm 1]
      · rw [Nat.add_assoc, Nat.add_comm 1]
        exact hf (j + 1) (by omega)

variable {depth max : ℕ}

/-- The walk over an array of arrays, from a walk over one of them. -/
private theorem indirectBlocks_eq (h : io.Serves array step inv nodes leaves)
    (ih : ∀ {blocks count s} pos, inv s → 0 < count → count < io.failed →
      (∀ j < min count (io.entries * io.entries ^ depth),
        LeafIn array io.entries nodes leaves depth blocks j) →
      treeBlocks io depth blocks io.entries count s pos 0 =
        ⟨transfer step io.size (leafBlock array io.entries depth blocks)
          (min count (io.entries * io.entries ^ depth)) s pos, 0,
          min count (io.entries * io.entries ^ depth)⟩)
    (pos : ℕ) (hs : inv s) (hdone : done < count) (hlt : count < io.failed)
    (hf : ∀ j < min (count - done) (n * io.entries ^ (depth + 1)),
      LeafIn array io.entries nodes leaves (depth + 1) blocks
        (i * io.entries ^ (depth + 1) + j)) :
    indirectBlocks io (fun array count s pos skip =>
        treeBlocks io depth array io.entries count s pos skip) blocks count n i s pos 0 done =
      ⟨transfer step io.size
          (fun j => leafBlock array io.entries (depth + 1) blocks
            (i * io.entries ^ (depth + 1) + j))
          (min (count - done) (n * io.entries ^ (depth + 1))) s pos, 0,
        done + min (count - done) (n * io.entries ^ (depth + 1))⟩ := by
  have hsize : io.entries * io.entries ^ depth = io.entries ^ (depth + 1) := (Nat.pow_succ').symm
  have hpos : 0 < io.entries ^ (depth + 1) := Nat.pow_pos h.entries_pos
  have hleafIn := @leafIn_succ array io.entries nodes leaves depth
  have hleaf := @leafBlock_succ array io.entries depth
  rw [hsize] at ih
  generalize io.entries ^ (depth + 1) = width at *
  induction n generalizing i s pos done with
  | zero => simp [indirectBlocks, transfer]
  | succ n ihn =>
    rw [Nat.succ_mul] at hf
    have hnode := ((hleafIn hpos).mp (hf 0 (by omega))).1
    have hpath : ∀ j < min (count - done) width,
        LeafIn array io.entries nodes leaves depth (array (blocks i)) j :=
      fun j hj => ((hleafIn (by omega)).mp (hf j (by omega))).2
    have hinner := ih pos hs (Nat.sub_pos_of_lt hdone) (by omega) hpath
    have hnext := h.transfer_inv pos hs fun j hj => (hpath j hj).leaves_leafBlock
    simp only [indirectBlocks, h.table s (blocks i) hs hnode, hinner]
    rw [if_neg (by omega), Nat.succ_mul]
    by_cases hlast : done + min (count - done) width = count
    · have hmin : min (count - done) (n * width + width) = min (count - done) width := by omega
      rw [if_pos hlast, hmin]
      congr 1
      exact transfer_congr (fun j hj => (hleaf (by omega)).symm) _ _
    · obtain ⟨hwidth, hrest⟩ : min (count - done) width = width ∧
          min (count - done) (n * width + width) =
            width + min (count - (done + width)) (n * width) := by omega
      rw [if_neg hlast, hrest, hwidth]
      rw [hwidth] at hnext
      rw [ihn _ hnext (by omega) fun j hj => ?_, transfer_add, Nat.add_assoc]
      · congr 1
        rw [transfer_congr (fun j hj => (hleaf hj).symm)]
        exact transfer_congr (fun j _ => by rw [Nat.succ_mul, Nat.add_assoc]) _ _
      · rw [Nat.succ_mul, Nat.add_assoc]
        exact hf (width + j) (by omega)

/-- **The walk over trees** hands their leaves to the device in order, as many as are asked for
and are there. -/
theorem treeBlocks_eq (h : io.Serves array step inv nodes leaves) (pos : ℕ) (hs : inv s)
    (hpos : 0 < count) (hlt : count < io.failed)
    (hf : ∀ j < min count (max * io.entries ^ depth),
      LeafIn array io.entries nodes leaves depth blocks j) :
    treeBlocks io depth blocks max count s pos 0 =
      ⟨transfer step io.size (leafBlock array io.entries depth blocks)
        (min count (max * io.entries ^ depth)) s pos, 0,
        min count (max * io.entries ^ depth)⟩ := by
  induction depth generalizing blocks max count s pos with
  | zero =>
    rw [Nat.pow_zero, Nat.mul_one] at hf ⊢
    have hwalk := h.directBlocks_eq (i := 0) pos hs hpos fun j hj => by
      rw [Nat.zero_add]
      exact hf j hj
    simp only [Nat.zero_add, Nat.sub_zero] at hwalk
    exact hwalk
  | succ depth ih =>
    have hwalk := h.indirectBlocks_eq (n := max) (i := 0) ih pos hs hpos hlt fun j hj => by
      rw [Nat.zero_mul, Nat.zero_add]
      exact hf j hj
    simp only [Nat.zero_mul, Nat.zero_add, Nat.sub_zero] at hwalk
    exact hwalk

variable {stages : List Stage} {skip : ℕ}

/-- The walk over stages, when nothing is skipped any more. -/
private theorem stageBlocks_eq (h : io.Serves array step inv nodes leaves)
    (hlen : ∀ stage ∈ stages, 0 < stage.length) (hs : inv s) (hdone : done < count)
    (hlt : count < io.failed)
    (hf : ∀ j < count - done, StagesIn array io.entries nodes leaves stages j) :
    stageBlocks io count (stages.map (Stage.walk io)) s pos 0 done =
      (transfer step io.size (stagesBlock array io.entries stages) (count - done) s pos,
        count) := by
  induction stages generalizing s pos done with
  | nil => exact absurd (hf 0 (by omega)) id
  | cons stage rest ih =>
    have hwidth : 0 < stage.leaves io.entries :=
      Nat.mul_pos (hlen stage mem_cons_self) (Nat.pow_pos h.entries_pos)
    have hpath : ∀ j < min (count - done) (stage.leaves io.entries),
        LeafIn array io.entries nodes leaves stage.depth stage.blocks j := by
      intro j hj
      have hin := hf j (by omega)
      rwa [StagesIn, if_pos (show j < stage.leaves io.entries by omega)] at hin
    have hwalk := h.treeBlocks_eq pos hs (Nat.sub_pos_of_lt hdone) (by omega) hpath
    change treeBlocks io stage.depth stage.blocks stage.length (count - done) s pos 0 =
      ⟨_, 0, min (count - done) (stage.leaves io.entries)⟩ at hwalk
    change _ = Walk.mk (transfer step io.size
      (leafBlock array io.entries stage.depth stage.blocks)
      (min (count - done) (stage.leaves io.entries)) s pos) _ _ at hwalk
    have hblock : ∀ j < stage.leaves io.entries,
        leafBlock array io.entries stage.depth stage.blocks j =
          stagesBlock array io.entries (stage :: rest) j :=
      fun j hj => by rw [stagesBlock, if_pos hj]
    have hnext := h.transfer_inv pos hs fun j hj => (hpath j hj).leaves_leafBlock
    simp only [map_cons, stageBlocks, Stage.walk, hwalk]
    generalize hw : stage.leaves io.entries = width at *
    rw [if_neg (by omega)]
    by_cases hlast : done + min (count - done) width ≥ count
    · have hmin : min (count - done) width = count - done := by omega
      rw [if_pos hlast, hmin, Nat.add_sub_cancel' (Nat.le_of_lt hdone),
        transfer_congr fun j hj => hblock j (by omega)]
    · obtain ⟨hmin, hrest⟩ : min (count - done) width = width ∧
          count - done = width + (count - (done + width)) := by omega
      rw [if_neg hlast, hmin]
      rw [hmin] at hnext
      rw [ih (forall_mem_cons.1 hlen).2 hnext (by omega) fun j hj => ?_,
        hrest, transfer_add, transfer_congr hblock]
      · congr 1
        refine transfer_congr (fun j _ => ?_) _ _
        rw [stagesBlock, hw, if_neg (by omega), Nat.add_sub_cancel_left]
      · have hin := hf (width + j) (by omega)
        rwa [StagesIn, hw, if_neg (by omega), Nat.add_sub_cancel_left] at hin

/-- Entries that are skipped. -/
theorem directBlocks_skip (hskip : skip ≤ n) :
    directBlocks io blocks count n i s pos skip done =
      directBlocks io blocks count (n - skip) (i + skip) s pos 0 done := by
  induction skip generalizing n i with
  | zero => rfl
  | succ skip ih =>
    obtain ⟨n, rfl⟩ : ∃ m, n = m + 1 := ⟨n - 1, by omega⟩
    rw [directBlocks, if_pos (Nat.succ_pos skip), Nat.add_sub_cancel, ih (by omega),
      Nat.add_sub_add_right, Nat.add_assoc, Nat.add_comm 1]

/-- A walk that skips a whole array transfers nothing. -/
theorem directBlocks_of_le (hskip : n ≤ skip) :
    directBlocks io blocks count n i s pos skip done = ⟨s, skip - n, done⟩ := by
  induction n generalizing i skip with
  | zero => rfl
  | succ n ih =>
    rw [directBlocks, if_pos (by omega), ih (by omega), Nat.sub_sub, Nat.add_comm 1]

/-- **A walk that begins in the first stage** hands over the leaves from there on. -/
theorem stageBlocks_eq_of_lt (h : io.Serves array step inv nodes leaves) (pos : ℕ)
    {rest : List Stage} (hlen : ∀ stage ∈ rest, 0 < stage.length) (hs : inv s)
    (hpos : 0 < count) (hlt : count < io.failed) (hskip : skip < n)
    (hf : ∀ j < count, StagesIn array io.entries nodes leaves (⟨0, blocks, n⟩ :: rest) (skip + j)) :
    stageBlocks io count ((⟨0, blocks, n⟩ :: rest : List Stage).map (Stage.walk io)) s pos skip
        0 =
      (transfer step io.size
        (fun j => stagesBlock array io.entries (⟨0, blocks, n⟩ :: rest) (skip + j)) count s pos,
        count) := by
  have hwidth : Stage.leaves io.entries ⟨0, blocks, n⟩ = n := by
    simp only [Stage.leaves, Nat.pow_zero, Nat.mul_one]
  have hleaves : ∀ j < min count (n - skip), leaves (blocks (skip + j)) := by
    intro j hj
    have hin := hf j (by omega)
    rwa [StagesIn, hwidth, if_pos (by omega)] at hin
  have hblock : ∀ j < n - skip, blocks (skip + j) =
      stagesBlock array io.entries (⟨0, blocks, n⟩ :: rest) (skip + j) := by
    intro j hj
    rw [stagesBlock, hwidth, if_pos (by omega)]
    rfl
  have hwalk := h.directBlocks_eq (i := skip) (n := n - skip) pos hs hpos hleaves
  have hnext := h.transfer_inv pos hs hleaves
  simp only [map_cons, Stage.walk, stageBlocks, treeBlocks, Nat.sub_zero,
    directBlocks_skip (Nat.le_of_lt hskip), Nat.zero_add] at hwalk ⊢
  rw [hwalk]
  simp only
  rw [if_neg (by omega)]
  by_cases hlast : min count (n - skip) ≥ count
  · rw [if_pos hlast, Nat.min_eq_left (by omega), transfer_congr fun j hj => hblock j (by omega)]
  · obtain ⟨hmin, hrest⟩ : min count (n - skip) = n - skip ∧
        count = n - skip + (count - (n - skip)) := by omega
    rw [if_neg hlast, hmin]
    rw [hmin] at hnext
    rw [h.stageBlocks_eq hlen hnext (by omega) hlt fun j hj => ?_]
    · rw [transfer_congr hblock]
      congr 1
      conv_rhs => rw [hrest, transfer_add]
      refine transfer_congr (fun j _ => ?_) _ _
      rw [stagesBlock, hwidth, if_neg (by omega)]
      congr 1
      omega
    · have hin := hf (n - skip + j) (by omega)
      rw [StagesIn, hwidth, if_neg (by omega)] at hin
      convert hin using 1
      omega

/-- A walk that begins after the first stage stops there: the walk over the first stage has
transferred nothing, and that ends the walk. -/
theorem stageBlocks_of_le (rest : List Stage) (hskip : n ≤ skip) :
    stageBlocks io count ((⟨0, blocks, n⟩ :: rest : List Stage).map (Stage.walk io)) s pos skip
        0 =
      (s, 0) := by
  simp only [map_cons, Stage.walk, stageBlocks, treeBlocks, directBlocks_of_le hskip,
    or_true, if_true]

end BlockIO.Serves

end Machine
