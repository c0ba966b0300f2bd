import Bloodmoon.Machine.FilledTree

/-!
# Listing the leaves of a tree of tables

A tree of depth `d` is a block number: of a leaf, or of a table whose entries are the block numbers
of trees of depth `d - 1`. Not every number is one of a block (`valid`). `leafList` lists the leaves
below a block number, where each table is read up to the first entry that is not valid, and `leafAt`
is the leaf with a given index when every tree is complete, which is missing if a number on the way
to it is not valid.

A list that does not stop early has the leaves at their indices (`getElem?_leafList`). The same
holds for several trees, of which one is listed as long as leaves are missing
(`getElem?_treesList`). Trees that hold exactly the first leaves are listed as such
(`treesList_eq`).
-/

namespace Machine

open List

section Defs

variable (array : ℕ → ℕ → ℕ) (entries : ℕ) (valid : ℕ → Bool)

/-- The entries of a table before the first one that is not valid. -/
def entryRun (b : ℕ) : List ℕ := ((List.range entries).map (array b)).takeWhile valid

/-- The leaves below a block number, as they are found from left to right. -/
def leafList : ℕ → ℕ → List ℕ
  | 0, b => [b]
  | depth + 1, b => (entryRun array entries valid b).flatMap (leafList depth)

/-- The number of leaves that are found below a block number. -/
def leafCount : ℕ → ℕ → ℕ
  | 0, _ => 1
  | depth + 1, b => ((entryRun array entries valid b).map (leafCount depth)).sum

/-- The leaf with index `j` below a block number. -/
def leafAt : ℕ → ℕ → ℕ → Option ℕ
  | 0, b, _ => if valid b then some b else none
  | depth + 1, b, j =>
    if valid b then leafAt depth (array b (j / entries ^ depth)) (j % entries ^ depth) else none

/-- The leaves of several trees, each given by its block number and its depth, behind those that are
known; a tree is listed while there are fewer than `k`. -/
def treesList (k : ℕ) : List (ℕ × ℕ) → List ℕ → List ℕ
  | [], leaves => leaves
  | (b, depth) :: rest, leaves =>
    treesList k rest
      (if leaves.length < k then leaves ++ leafList array entries valid depth b else leaves)

/-- The number of leaves in such a list. -/
def treesCount (k : ℕ) : List (ℕ × ℕ) → ℕ → ℕ
  | [], count => count
  | (b, depth) :: rest, count =>
    treesCount k rest
      (if count < k then count + leafCount array entries valid depth b else count)

/-- The leaf with index `j` of several trees. -/
def treesAt : List (ℕ × ℕ) → ℕ → Option ℕ
  | [], _ => none
  | (b, depth) :: rest, j =>
    if j < entries ^ depth then leafAt array entries valid depth b j
    else treesAt rest (j - entries ^ depth)

end Defs

variable {array : ℕ → ℕ → ℕ} {entries : ℕ} {valid : ℕ → Bool} {depth b j k : ℕ}
variable {leaves : List ℕ}

/-! ### Counting -/

theorem length_leafList (depth b : ℕ) :
    (leafList array entries valid depth b).length = leafCount array entries valid depth b := by
  induction depth generalizing b with
  | zero => rfl
  | succ depth ih =>
    rw [leafList, leafCount, length_flatMap]
    exact congrArg List.sum (map_congr_left fun b _ => ih b)

theorem length_treesList (trees : List (ℕ × ℕ)) (leaves : List ℕ) :
    (treesList array entries valid k trees leaves).length =
      treesCount array entries valid k trees leaves.length := by
  induction trees generalizing leaves with
  | nil => rfl
  | cons tree rest ih =>
    rw [treesList, treesCount, ih]
    split_ifs
    · rw [length_append, length_leafList]
    · rfl

/-- No tree is listed when there are enough leaves. -/
theorem treesCount_of_le (trees : List (ℕ × ℕ)) (h : k ≤ b) :
    treesCount array entries valid k trees b = b := by
  induction trees with
  | nil => rfl
  | cons tree rest ih => rw [treesCount, if_neg (Nat.not_lt.mpr h), ih]

/-- A tree has at most as many leaves as a complete one. -/
theorem leafCount_le (depth b : ℕ) : leafCount array entries valid depth b ≤ entries ^ depth := by
  induction depth generalizing b with
  | zero => exact Nat.le_refl 1
  | succ depth ih =>
    have hsum : ∀ l : List ℕ,
        (l.map (leafCount array entries valid depth)).sum ≤ l.length * entries ^ depth := by
      intro l
      induction l with
      | nil => exact Nat.zero_le _
      | cons b l ihl =>
        rw [map_cons, sum_cons, length_cons, Nat.succ_mul, Nat.add_comm]
        exact Nat.add_le_add ihl (ih b)
    have hlen : (entryRun array entries valid b).length ≤ entries := by
      refine Nat.le_trans (List.takeWhile_prefix _).length_le (Nat.le_of_eq ?_)
      rw [length_map, length_range]
    rw [leafCount, Nat.pow_succ']
    exact Nat.le_trans (hsum _) (Nat.mul_le_mul_right _ hlen)

/-! ### Indices -/

theorem valid_of_leafAt (h : (leafAt array entries valid depth b j).isSome) : valid b = true := by
  cases depth with
  | zero =>
    rw [leafAt] at h
    split_ifs at h with hb
    · exact hb
    · simp at h
  | succ depth =>
    rw [leafAt] at h
    split_ifs at h with hb
    · exact hb
    · simp at h

/-- A tree whose last leaf is listed has all of them. -/
theorem length_leafList_of_getElem? {x : ℕ} (hpos : 0 < entries ^ depth)
    (h : (leafList array entries valid depth b)[entries ^ depth - 1]? = some x) :
    (leafList array entries valid depth b).length = entries ^ depth := by
  have hlt := (List.getElem?_eq_some_iff.mp h).1
  have hle : (leafList array entries valid depth b).length ≤ entries ^ depth := by
    rw [length_leafList]
    exact leafCount_le depth b
  omega

/-- The leaves below the entries of a table from entry `i` on, if the tree at each entry is listed
in order. -/
theorem getElem?_flatMap_leafList (hentries : 0 < entries) {entry : ℕ → ℕ}
    (htree : ∀ b j, j < entries ^ depth →
      (∀ m ≤ j, (leafAt array entries valid depth b m).isSome) →
      (leafList array entries valid depth b)[j]? = leafAt array entries valid depth b j)
    {left i j : ℕ} (hj : j < left * entries ^ depth)
    (hall : ∀ m ≤ j, (leafAt array entries valid depth (entry (i + m / entries ^ depth))
      (m % entries ^ depth)).isSome) :
    (((((List.range' i left).map entry).takeWhile valid).flatMap
      (leafList array entries valid depth))[j]?) =
        leafAt array entries valid depth (entry (i + j / entries ^ depth))
          (j % entries ^ depth) := by
  have hpos : 0 < entries ^ depth := Nat.pow_pos hentries
  induction left generalizing i j with
  | zero => exact absurd hj (by omega)
  | succ left ih =>
    have hfirst : ∀ m < entries ^ depth, m ≤ j →
        (leafAt array entries valid depth (entry i) m).isSome := by
      intro m hm hmj
      have hleaf := hall m hmj
      rwa [Nat.div_eq_of_lt hm, Nat.mod_eq_of_lt hm] at hleaf
    have hvalid := valid_of_leafAt (hfirst 0 hpos (Nat.zero_le j))
    rw [range'_succ, map_cons, takeWhile_cons_of_pos hvalid, flatMap_cons]
    by_cases hlt : j < entries ^ depth
    · have htree' := htree (entry i) j hlt fun m hm => hfirst m (by omega) hm
      obtain ⟨x, hx⟩ := Option.isSome_iff_exists.mp (hfirst j hlt (Nat.le_refl j))
      rw [hx] at htree'
      rw [getElem?_append_left (List.getElem?_eq_some_iff.mp htree').1, htree',
        Nat.div_eq_of_lt hlt, Nat.mod_eq_of_lt hlt]
      exact hx.symm
    · -- the first tree is complete, so that the index is one of the others
      obtain ⟨x, hx⟩ := Option.isSome_iff_exists.mp
        (hfirst (entries ^ depth - 1) (by omega) (by omega))
      have hlast := htree (entry i) _ (Nat.sub_lt hpos Nat.one_pos) fun m hm =>
        hfirst m (by omega) (by omega)
      rw [hx] at hlast
      have hshift : ∀ m, i + 1 + m / entries ^ depth =
          i + (m + entries ^ depth) / entries ^ depth :=
        fun m => by
          rw [Nat.add_div_right _ hpos]
          omega
      have hlen := length_leafList_of_getElem? hpos hlast
      have hnext := ih (i := i + 1) (j := j - entries ^ depth)
        (by
          rw [Nat.succ_mul] at hj
          omega)
        fun m hm => by
          have hleaf := hall (m + entries ^ depth) (by omega)
          rwa [Nat.add_mod_right, ← hshift] at hleaf
      rw [getElem?_append_right (by omega), hlen, hnext, hshift,
        ← Nat.add_mod_right (j - entries ^ depth), Nat.sub_add_cancel (by omega)]

/-- **The leaves of a tree are listed at their indices**, up to the first one that is missing. -/
theorem getElem?_leafList (hentries : 0 < entries) (hj : j < entries ^ depth)
    (hall : ∀ m ≤ j, (leafAt array entries valid depth b m).isSome) :
    (leafList array entries valid depth b)[j]? = leafAt array entries valid depth b j := by
  induction depth generalizing b j with
  | zero =>
    have hvalid := valid_of_leafAt (hall 0 (Nat.zero_le j))
    rw [Nat.pow_zero, Nat.lt_one_iff] at hj
    rw [hj, leafAt, if_pos hvalid]
    rfl
  | succ depth ih =>
    have hvalid := valid_of_leafAt (hall 0 (Nat.zero_le j))
    have hleaf : ∀ m, leafAt array entries valid (depth + 1) b m =
        leafAt array entries valid depth (array b (0 + m / entries ^ depth))
          (m % entries ^ depth) := fun m => by
      rw [leafAt, if_pos hvalid, Nat.zero_add]
    simp only [hleaf] at hall ⊢
    rw [leafList, entryRun, range_eq_range']
    exact getElem?_flatMap_leafList hentries (fun b j hj hall => ih hj hall)
      (by rwa [← Nat.pow_succ']) hall

/-- Listing trees leaves the leaves that are known. -/
theorem getElem?_treesList_of_lt (trees : List (ℕ × ℕ)) (hj : j < leaves.length) :
    (treesList array entries valid k trees leaves)[j]? = leaves[j]? := by
  induction trees generalizing leaves with
  | nil => rfl
  | cons tree rest ih =>
    rw [treesList]
    split_ifs
    · rw [ih (by rw [length_append]; omega), getElem?_append_left hj]
    · exact ih hj

/-- **The leaves of several trees are listed at their indices**, up to the first one that is
missing. -/
theorem getElem?_treesList (hentries : 0 < entries) (trees : List (ℕ × ℕ))
    (hj : leaves.length + j < k) (hall : ∀ m ≤ j, (treesAt array entries valid trees m).isSome) :
    (treesList array entries valid k trees leaves)[leaves.length + j]? =
      treesAt array entries valid trees j := by
  induction trees generalizing leaves j with
  | nil => exact absurd (hall 0 (Nat.zero_le j)) (by simp [treesAt])
  | cons tree rest ih =>
    obtain ⟨b, depth⟩ := tree
    have hpos : 0 < entries ^ depth := Nat.pow_pos hentries
    have hfirst : ∀ m < entries ^ depth, m ≤ j →
        (leafAt array entries valid depth b m).isSome := fun m hm hmj => by
      have hleaf := hall m hmj
      rwa [treesAt, if_pos hm] at hleaf
    rw [treesList, if_pos (by omega)]
    by_cases hlt : j < entries ^ depth
    · have htree := getElem?_leafList hentries hlt fun m hm => hfirst m (by omega) hm
      obtain ⟨x, hx⟩ := Option.isSome_iff_exists.mp (hfirst j hlt (Nat.le_refl j))
      rw [hx] at htree
      have hlen := (List.getElem?_eq_some_iff.mp htree).1
      rw [getElem?_treesList_of_lt _ (by rw [length_append]; omega),
        getElem?_append_right (by omega), Nat.add_sub_cancel_left, htree, treesAt, if_pos hlt,
        hx]
    · obtain ⟨x, hx⟩ := Option.isSome_iff_exists.mp
        (hfirst (entries ^ depth - 1) (by omega) (by omega))
      have hlast := getElem?_leafList hentries (Nat.sub_lt hpos Nat.one_pos) fun m hm =>
        hfirst m (by omega) (by omega)
      rw [hx] at hlast
      have hlen := length_leafList_of_getElem? hpos hlast
      have hnext := @ih (j - entries ^ depth) (leaves ++ leafList array entries valid depth b)
        (by
          rw [length_append, hlen]
          omega)
        fun m hm => by
          have hleaf := hall (m + entries ^ depth) (by omega)
          rwa [treesAt, if_neg (by omega), Nat.add_sub_cancel] at hleaf
      rw [length_append, hlen, show leaves.length + entries ^ depth + (j - entries ^ depth) =
        leaves.length + j by omega] at hnext
      rw [hnext, treesAt, if_neg hlt]

/-! ### Filled trees -/

/-- The trees have exactly the first `k` leaves, and the numbers on the way to them are valid. -/
structure Filled (array : ℕ → ℕ → ℕ) (entries : ℕ) (valid : ℕ → Bool) (depth : ℕ) (blocks : ℕ → ℕ)
    (max k : ℕ) : Prop where
  holds : HoldsLeaves array entries depth blocks max k
  leafIn : ∀ j < k, LeafIn array entries (valid ·) (valid ·) depth blocks j

/-- The leaves below the entries of a table from entry `i` on, if the tree at each entry is listed
as a whole. -/
theorem Filled.flatMap_leafList (hentries : 0 < entries) (hzero : ¬ valid 0) {entry : ℕ → ℕ}
    (htree : ∀ b k, 0 < k → k ≤ entries ^ depth →
      Filled array entries valid depth (fun _ => b) 1 k → leafList array entries valid depth b =
        (List.range k).map (leafBlock array entries depth fun _ => b))
    (hk : k ≤ entries ^ (depth + 1)) (h : Filled array entries valid depth entry entries k)
    {left i : ℕ} (hleft : i + left = entries) :
    (((List.range' i left).map entry).takeWhile valid).flatMap
        (leafList array entries valid depth) =
      (List.range' (i * entries ^ depth) (k - i * entries ^ depth)).map
        (leafBlock array entries depth entry) := by
  have hpos : 0 < entries ^ depth := Nat.pow_pos hentries
  induction left generalizing i with
  | zero =>
    obtain rfl : i = entries := hleft
    rw [Nat.pow_succ'] at hk
    rw [Nat.sub_eq_zero_of_le hk]
    rfl
  | succ left ih =>
    have hi : i < entries := by omega
    have hnonzero := h.holds.ne_zero_iff hi
    rw [range'_succ, map_cons]
    by_cases hlt : i * entries ^ depth < k
    · have hfilled : Filled array entries valid depth (fun _ => entry i) 1
          (min (entries ^ depth) (k - i * entries ^ depth)) :=
        ⟨(holdsLeaves_iff_forall hentries).mp h.holds i hi, fun j hj =>
          (leafIn_mul_add (by omega)).mp (h.leafIn _ (by omega))⟩
      -- the first leaf of the entry shows that its number is valid
      have hvalid : valid (entry i) := by
        have hleaf := hfilled.leafIn 0 (Nat.lt_min.mpr ⟨hpos, by omega⟩)
        cases depth with
        | zero => exact hleaf
        | succ depth => exact hleaf.1
      rw [takeWhile_cons_of_pos hvalid, flatMap_cons, ih (by omega), htree _ _
        (Nat.lt_min.mpr ⟨hpos, by omega⟩) (Nat.min_le_left _ _) hfilled, map_leafBlock_append]
    · have hnone : entry i = 0 := not_not.mp fun hne => hlt (hnonzero.mp hne)
      rw [takeWhile_cons_of_neg (by rwa [hnone]), Nat.sub_eq_zero_of_le (Nat.not_lt.mp hlt)]
      rfl

/-- **A tree that holds exactly the first leaves** is listed as these. -/
theorem Filled.leafList_eq (hentries : 0 < entries) (hzero : ¬ valid 0) (hpos : 0 < k)
    (hk : k ≤ entries ^ depth) (h : Filled array entries valid depth (fun _ => b) 1 k) :
    leafList array entries valid depth b =
      (List.range k).map (leafBlock array entries depth fun _ => b) := by
  induction depth generalizing b k with
  | zero =>
    rw [Nat.pow_zero] at hk
    rw [show k = 1 by omega]
    rfl
  | succ depth ih =>
    have hmod : ∀ j < k, j % entries ^ (depth + 1) = j := fun j hj =>
      Nat.mod_eq_of_lt (Nat.lt_of_lt_of_le hj hk)
    have hinner : Filled array entries valid depth (array b) entries k := by
      refine ⟨?_, fun j hj => hmod j hj ▸ (h.leafIn j hj).2⟩
      have htable := (h.holds 0 Nat.one_pos).2
      rw [Nat.zero_mul, Nat.sub_zero, Nat.min_eq_right hk] at htable
      exact htable hpos
    have hlist := hinner.flatMap_leafList hentries hzero (fun b k hpos hk hb => ih hpos hk hb) hk
      (Nat.zero_add _)
    rw [Nat.zero_mul, ← range_eq_range', ← range_eq_range'] at hlist
    refine hlist.trans (map_congr_left fun j hj => ?_)
    rw [leafBlock, hmod j (mem_range.mp hj)]

/-- Trees as stages of one tree each. -/
def treeStages (trees : List (ℕ × ℕ)) : List Stage := trees.map fun t => ⟨t.2, fun _ => t.1, 1⟩

theorem treeStages_cons (b depth : ℕ) (rest : List (ℕ × ℕ)) :
    treeStages ((b, depth) :: rest) = ⟨depth, fun _ => b, 1⟩ :: treeStages rest := rfl

/-- **Several trees that hold exactly the first leaves** are listed as these. -/
theorem treesList_eq (hentries : 0 < entries) (hzero : ¬ valid 0) {trees : List (ℕ × ℕ)}
    (hholds : StagesHold array entries (treeStages trees) k)
    (hin : ∀ j < k, StagesIn array entries (valid ·) (valid ·) (treeStages trees) j)
    (leaves : List ℕ) :
    treesList array entries valid (leaves.length + k) trees leaves =
      leaves ++ (List.range k).map (stagesBlock array entries (treeStages trees)) := by
  induction trees generalizing k leaves with
  | nil =>
    obtain rfl : k = 0 := hholds
    exact (append_nil leaves).symm
  | cons tree rest ih =>
    obtain ⟨b, depth⟩ := tree
    rw [treeStages_cons, StagesHold, Stage.leaves_one] at hholds
    simp only [treeStages_cons, StagesIn, Stage.leaves_one] at hin
    have hpos : 0 < entries ^ depth := Nat.pow_pos hentries
    have hrest := ih hholds.2 fun j hj => by
      have hleaf := hin (j + entries ^ depth) (by omega)
      rwa [if_neg (by omega), Nat.add_sub_cancel] at hleaf
    rw [treesList, treeStages_cons, map_stagesBlock_cons, Stage.leaves_one]
    rcases Nat.eq_zero_or_pos k with rfl | hk
    · have hdone := hrest leaves
      rw [Nat.zero_sub, Nat.add_zero, range_zero] at hdone
      rw [Nat.add_zero, if_neg (Nat.lt_irrefl _), hdone, Nat.min_zero, Nat.zero_sub]
      rfl
    · have hfilled : Filled array entries valid depth (fun _ => b) 1 (min (entries ^ depth) k) := by
        refine ⟨(@holdsLeaves_level_iff _ _ _ _ 0 (fun _ => b) hentries).mp hholds.1,
          fun j hj => ?_⟩
        rw [Nat.lt_min] at hj
        have hleaf := hin j hj.2
        rwa [if_pos hj.1] at hleaf
      have hnext := hrest (leaves ++ (List.range (min (entries ^ depth) k)).map
        (leafBlock array entries depth fun _ => b))
      rw [length_append, length_map, length_range, Nat.add_assoc,
        show min (entries ^ depth) k + (k - entries ^ depth) = k by omega, append_assoc] at hnext
      rw [if_pos (by omega), hfilled.leafList_eq hentries hzero (Nat.lt_min.mpr ⟨hpos, hk⟩)
        (Nat.min_le_left _ _), hnext]

end Machine
