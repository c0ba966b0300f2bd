import Bloodmoon.Machine.BlockTree

/-!
# Trees that are filled from the left

The blocks of a file are the first leaves of its trees. `HoldsLeaves array entries d blocks max k`
says that the trees of depth `d` below the block numbers `blocks 0`, …, `blocks (max - 1)` have
exactly the first `k` leaves: a block number is zero just if no such leaf is below it. Then the
leaves that can be reached through block numbers other than zero are the first `k`
(`StagesHold.stagesIn_iff`).

`Made` describes a tree that has just been made: its tables have a property `T`, its leaves have a
property `N` and are a given list, and the entries of a table behind the last leaf are whatever the
memory held from which the table was written (`word`). Such a tree holds exactly its leaves just if
that memory was zero there (`Made.holdsLeaves_iff`). `LevelsMade` is the same for one tree of each
depth, where the leaves are distributed over the trees (`LevelsMade.stagesHold_iff`).
-/

namespace Machine

open List

section Defs

variable (array : ℕ → ℕ → ℕ) (entries : ℕ)

/-- The trees below an array of block numbers have exactly the first `k` leaves. -/
def HoldsLeaves : ℕ → (ℕ → ℕ) → ℕ → ℕ → Prop
  | 0, blocks, max, k => ∀ i < max, (blocks i ≠ 0 ↔ i < k)
  | depth + 1, blocks, max, k => ∀ i < max,
    (blocks i ≠ 0 ↔ i * entries ^ (depth + 1) < k) ∧
      (i * entries ^ (depth + 1) < k → HoldsLeaves depth (array (blocks i)) entries
        (min (entries ^ (depth + 1)) (k - i * entries ^ (depth + 1))))

/-- The trees of several stages have exactly the first `k` leaves. -/
def StagesHold : List Stage → ℕ → Prop
  | [], k => k = 0
  | stage :: rest, k => HoldsLeaves array entries stage.depth stage.blocks stage.length k ∧
    StagesHold rest (k - stage.leaves entries)

/-- A tree with the given leaves below the block number `p`. -/
def Made (word : ℕ → ℕ) (T N : ℕ → Prop) : ℕ → ℕ → List ℕ → Prop
  | 0, p, leaves => N p ∧ leaves = [p]
  | depth + 1, p, leaves => T p ∧ ∀ i < entries,
    if i * entries ^ depth < leaves.length then
      Made word T N depth (array p i) ((leaves.drop (i * entries ^ depth)).take (entries ^ depth))
    else array p i = word i

/-- The memory is zero behind the entries of each table of a tree with `k` leaves. -/
def TailClear (word : ℕ → ℕ) : ℕ → ℕ → Prop
  | 0, _ => True
  | depth + 1, k => ∀ i < entries,
    (k ≤ i * entries ^ depth → word i = 0) ∧
      (i * entries ^ depth < k →
        TailClear word depth (min (entries ^ depth) (k - i * entries ^ depth)))

/-- One tree of each depth from `depth` on, below the numbers that `new` has at the given indices.
-/
def levelStages (new : ℕ → ℕ) : ℕ → List ℕ → List Stage
  | _, [] => []
  | depth, i :: rest => ⟨depth, fun k => new (i + k), 1⟩ :: levelStages new (depth + 1) rest

/-- The trees of the levels have been made with the given leaves. A level without leaves keeps the
number it had. -/
def LevelsMade (word : ℕ → ℕ) (T N : ℕ → Prop) (old new : ℕ → ℕ) : ℕ → List ℕ → List ℕ → Prop
  | _, [], leaves => leaves = []
  | depth, i :: rest, leaves => (leaves = [] → new i = old i) ∧
    (leaves ≠ [] → Made array entries word T N depth (new i) (leaves.take (entries ^ depth))) ∧
    LevelsMade word T N old new (depth + 1) rest (leaves.drop (entries ^ depth))

/-- The memory is zero behind the entries of the tables of `m` levels with `k` leaves. -/
def LevelsClear (word : ℕ → ℕ) : ℕ → ℕ → ℕ → Prop
  | _, 0, _ => True
  | depth, m + 1, k => (0 < k → TailClear entries word depth (min (entries ^ depth) k)) ∧
    LevelsClear word (depth + 1) m (k - entries ^ depth)

end Defs

variable {array array' : ℕ → ℕ → ℕ} {entries depth k j p : ℕ} {blocks : ℕ → ℕ}
  {word : ℕ → ℕ} {T T' N N' : ℕ → Prop} {leaves : List ℕ}
variable {i max : ℕ} {stages stages' : List Stage}

/-! ### The leaves that can be reached -/

/-- **The leaves that can be reached are the first ones.** -/
theorem HoldsLeaves.leafIn_iff (hentries : 0 < entries)
    (h : HoldsLeaves array entries depth blocks max k) (hj : j < max * entries ^ depth) :
    LeafIn array entries (· ≠ 0) (· ≠ 0) depth blocks j ↔ j < k := by
  induction depth generalizing blocks max k j with
  | zero => exact h j (by simpa using hj)
  | succ depth ih =>
    have hpos : 0 < entries ^ (depth + 1) := Nat.pow_pos hentries
    obtain ⟨hzero, hinner⟩ := h _ ((Nat.div_lt_iff_lt_mul hpos).mpr hj)
    have hmod := Nat.mod_lt j hpos
    have hsplit := Nat.div_add_mod' j (entries ^ (depth + 1))
    rw [LeafIn, hzero]
    by_cases hk : j / entries ^ (depth + 1) * entries ^ (depth + 1) < k
    · rw [ih (hinner hk) (by rwa [← Nat.pow_succ'])]
      omega
    · simp only [hk, false_and, false_iff]
      exact fun hlt => hk (Nat.lt_of_le_of_lt (Nat.div_mul_le_self j _) hlt)

theorem StagesHold.stagesIn_iff (hentries : 0 < entries) (h : StagesHold array entries stages k) :
    StagesIn array entries (· ≠ 0) (· ≠ 0) stages j ↔ j < k := by
  induction stages generalizing k j with
  | nil =>
    rw [show k = 0 from h]
    exact ⟨False.elim, Nat.not_lt_zero j⟩
  | cons stage rest ih =>
    obtain ⟨hstage, hrest⟩ := h
    rw [StagesIn]
    split_ifs with hj
    · exact hstage.leafIn_iff hentries hj
    · rw [ih hrest]
      omega

/-! ### One tree of several -/

/-- The trees of an array one by one. -/
theorem holdsLeaves_iff_forall (hentries : 0 < entries) :
    HoldsLeaves array entries depth blocks max k ↔ ∀ i < max,
      HoldsLeaves array entries depth (fun _ => blocks i) 1
        (min (entries ^ depth) (k - i * entries ^ depth)) := by
  cases depth with
  | zero =>
    refine forall_congr' fun i => imp_congr_right fun _ => ?_
    simp only [HoldsLeaves, Nat.pow_zero, Nat.mul_one, Nat.lt_one_iff, forall_eq]
    refine iff_congr Iff.rfl ?_
    omega
  | succ depth =>
    refine forall_congr' fun i => imp_congr_right fun _ => ?_
    have hlt : 0 < min (entries ^ (depth + 1)) (k - i * entries ^ (depth + 1)) ↔
        i * entries ^ (depth + 1) < k := by
      have hpos : 0 < entries ^ (depth + 1) := Nat.pow_pos hentries
      omega
    simp only [HoldsLeaves, Nat.lt_one_iff, forall_eq, Nat.zero_mul, Nat.sub_zero, hlt,
      Nat.min_self_assoc]

theorem HoldsLeaves.ne_zero_iff (h : HoldsLeaves array entries depth blocks max k) (hi : i < max) :
    blocks i ≠ 0 ↔ i * entries ^ depth < k := by
  cases depth with
  | zero =>
    rw [Nat.pow_zero, Nat.mul_one]
    exact h i hi
  | succ depth => exact (h i hi).1

/-- A tree without leaves is not there. -/
theorem holdsLeaves_zero_iff : HoldsLeaves array entries depth (fun _ => p) 1 0 ↔ p = 0 := by
  cases depth with
  | zero => simp [HoldsLeaves]
  | succ depth => simp [HoldsLeaves]

/-- A leaf below an array is below one of its entries. -/
theorem leafIn_iff_const : LeafIn array entries N N' depth blocks j ↔
    LeafIn array entries N N' depth (fun _ => blocks (j / entries ^ depth))
      (j % entries ^ depth) := by
  cases depth with
  | zero => simp [LeafIn]
  | succ depth => simp only [LeafIn, Nat.mod_mod]

theorem leafBlock_eq_const : leafBlock array entries depth blocks j =
    leafBlock array entries depth (fun _ => blocks (j / entries ^ depth))
      (j % entries ^ depth) := by
  cases depth with
  | zero => simp [leafBlock]
  | succ depth => simp only [leafBlock, Nat.mod_mod]

/-- A leaf of an array of trees is a leaf of the tree of its entry. -/
theorem leafBlock_mul_add (hj : j < entries ^ depth) :
    leafBlock array entries depth blocks (i * entries ^ depth + j) =
      leafBlock array entries depth (fun _ => blocks i) j := by
  rw [leafBlock_eq_const, mul_add_div_of_lt hj, Nat.mul_add_mod_of_lt hj]

theorem leafIn_mul_add (hj : j < entries ^ depth) :
    LeafIn array entries N N' depth blocks (i * entries ^ depth + j) ↔
      LeafIn array entries N N' depth (fun _ => blocks i) j := by
  rw [leafIn_iff_const, mul_add_div_of_lt hj, Nat.mul_add_mod_of_lt hj]

/-- Trees with the same tables hold the same leaves. -/
theorem HoldsLeaves.congr (hentries : 0 < entries) {blocks' : ℕ → ℕ}
    (harray : ∀ b, N b → ∀ i < entries, array' b i = array b i)
    (hblocks : ∀ i < max, blocks' i = blocks i)
    (hpath : ∀ j < k, j < max * entries ^ depth → LeafIn array entries N N' depth blocks j)
    (h : HoldsLeaves array entries depth blocks max k) :
    HoldsLeaves array' entries depth blocks' max k := by
  induction depth generalizing blocks blocks' max k with
  | zero =>
    intro i hi
    rw [hblocks i hi]
    exact h i hi
  | succ depth ih =>
    intro i hi
    rw [hblocks i hi]
    refine ⟨(h i hi).1, fun hlt => ?_⟩
    have hpos : 0 < entries ^ (depth + 1) := Nat.pow_pos hentries
    have hend := Nat.mul_le_mul_right (entries ^ (depth + 1)) (Nat.succ_le_of_lt hi)
    rw [Nat.succ_mul] at hend
    have hin : ∀ j < entries ^ (depth + 1), i * entries ^ (depth + 1) + j < k →
        N (blocks i) ∧ LeafIn array entries N N' depth (array (blocks i)) j := by
      intro j hj hlt
      have hleaf := hpath _ hlt (by omega)
      rwa [leafIn_succ hj] at hleaf
    refine ih (harray _ (hin 0 hpos hlt).1) (fun j hj hj' => ?_) ((h i hi).2 hlt)
    rw [← Nat.pow_succ'] at hj'
    exact (hin j hj' (by omega)).2

/-- The leaves of an entry and those behind it. -/
theorem map_leafBlock_append (i : ℕ) :
    (List.range (min (entries ^ depth) (k - i * entries ^ depth))).map
        (leafBlock array entries depth fun _ => blocks i) ++
      (List.range' ((i + 1) * entries ^ depth) (k - (i + 1) * entries ^ depth)).map
        (leafBlock array entries depth blocks) =
      (List.range' (i * entries ^ depth) (k - i * entries ^ depth)).map
        (leafBlock array entries depth blocks) := by
  have hfirst : ∀ m ≤ entries ^ depth,
      (List.range m).map (leafBlock array entries depth fun _ => blocks i) =
        (List.range' (i * entries ^ depth) m).map (leafBlock array entries depth blocks) := by
    intro m hm
    rw [range'_eq_map_range, map_map]
    refine map_congr_left fun j hj => (leafBlock_mul_add ?_).symm
    exact Nat.lt_of_lt_of_le (mem_range.mp hj) hm
  rw [hfirst _ (Nat.min_le_left _ _), ← map_append, Nat.succ_mul]
  rcases Nat.le_total (entries ^ depth) (k - i * entries ^ depth) with hle | hle
  · rw [Nat.min_eq_left hle, range'_append_1]
    congr 2
    omega
  · rw [Nat.min_eq_right hle, show k - (i * entries ^ depth + entries ^ depth) = 0 by omega,
      range'_zero, append_nil]

/-! ### Trees that have been made -/

theorem Made.root (h : Made array entries word T N depth p leaves) : T p ∨ N p := by
  cases depth with
  | zero => exact .inr h.1
  | succ depth => exact .inl h.1

/-- A tree stays as it is as long as its tables do. -/
theorem Made.congr (harray : ∀ b, T b → ∀ i < entries, array' b i = array b i)
    (hT : ∀ b, T b → T' b) (hN : ∀ b, N b → N' b) (h : Made array entries word T N depth p leaves) :
    Made array' entries word T' N' depth p leaves := by
  induction depth generalizing p leaves with
  | zero => exact ⟨hN p h.1, h.2⟩
  | succ depth ih =>
    refine ⟨hT p h.1, fun i hi => ?_⟩
    have hentry := h.2 i hi
    rw [harray p h.1 i hi]
    split_ifs at hentry ⊢ with hlt
    · exact ih hentry
    · exact hentry

/-- **The leaves of a tree that has been made** are those of the list. -/
theorem Made.leaf (hentries : 0 < entries) (h : Made array entries word T N depth p leaves)
    (hlen : leaves.length ≤ entries ^ depth) (hj : j < leaves.length) :
    LeafIn array entries T N depth (fun _ => p) j ∧
      leaves[j]? = some (leafBlock array entries depth (fun _ => p) j) := by
  induction depth generalizing p leaves j with
  | zero =>
    obtain ⟨hp, rfl⟩ := h
    obtain rfl : j = 0 := by simpa using hj
    exact ⟨hp, rfl⟩
  | succ depth ih =>
    have hpos : 0 < entries ^ depth := Nat.pow_pos hentries
    have hi : j / entries ^ depth < entries := by
      rw [Nat.div_lt_iff_lt_mul hpos, ← Nat.pow_succ']
      exact Nat.lt_of_lt_of_le hj hlen
    have hmod := Nat.mod_lt j hpos
    have hsplit := Nat.div_add_mod' j (entries ^ depth)
    have hentry := h.2 _ hi
    rw [if_pos (Nat.lt_of_le_of_lt (Nat.div_mul_le_self j _) hj)] at hentry
    obtain ⟨hin, hleaf⟩ := ih hentry (length_take_le _ _) (j := j % entries ^ depth) (by
      rw [length_take, length_drop, Nat.lt_min]
      exact ⟨hmod, by omega⟩)
    rw [LeafIn, leafBlock, Nat.mod_eq_of_lt (Nat.lt_of_lt_of_le hj hlen), leafIn_iff_const,
      leafBlock_eq_const]
    rw [getElem?_take_of_lt hmod, getElem?_drop, hsplit] at hleaf
    exact ⟨⟨h.1, hin⟩, hleaf⟩

/-- **A tree that has been made holds exactly its leaves** if the memory behind them was zero. -/
theorem Made.holdsLeaves_iff (hentries : 0 < entries) (hT : ∀ b, T b → b ≠ 0)
    (hN : ∀ b, N b → b ≠ 0) (h : Made array entries word T N depth p leaves)
    (hlen : leaves.length ≤ entries ^ depth) (hpos : 0 < leaves.length) :
    HoldsLeaves array entries depth (fun _ => p) 1 leaves.length ↔
      TailClear entries word depth leaves.length := by
  induction depth generalizing p leaves with
  | zero =>
    obtain ⟨hp, rfl⟩ := h
    simpa [HoldsLeaves, TailClear] using hN p hp
  | succ depth ih =>
    have htable : HoldsLeaves array entries (depth + 1) (fun _ => p) 1 leaves.length ↔
        HoldsLeaves array entries depth (array p) entries leaves.length := by
      simp [HoldsLeaves, hT p h.1, hpos, Nat.min_eq_right hlen]
    rw [htable, holdsLeaves_iff_forall hentries, TailClear]
    refine forall_congr' fun i => imp_congr_right fun hi => ?_
    have hentry := h.2 i hi
    by_cases hlt : i * entries ^ depth < leaves.length
    · -- the tree of an entry before the end
      rw [if_pos hlt] at hentry
      have hslice : ((leaves.drop (i * entries ^ depth)).take (entries ^ depth)).length =
          min (entries ^ depth) (leaves.length - i * entries ^ depth) := by
        rw [length_take, length_drop]
      have hinner := ih hentry (length_take_le _ _) (by
        rw [hslice, Nat.lt_min]
        exact ⟨Nat.pow_pos hentries, by omega⟩)
      rw [hslice] at hinner
      rw [hinner]
      exact ⟨fun hclear => ⟨fun hle => absurd hlt (Nat.not_lt.mpr hle), fun _ => hclear⟩,
        fun hclear => hclear.2 hlt⟩
    · -- an entry behind the end is what the memory held
      rw [if_neg hlt] at hentry
      rw [Nat.sub_eq_zero_of_le (Nat.not_lt.mp hlt), Nat.min_zero, holdsLeaves_zero_iff, hentry]
      exact ⟨fun hzero => ⟨fun _ => hzero, fun h => absurd h hlt⟩,
        fun hclear => hclear.1 (Nat.not_lt.mp hlt)⟩

/-! ### Levels -/

/-- The stages have the same trees. -/
def Stage.Same (s s' : Stage) : Prop :=
  s'.depth = s.depth ∧ s'.length = s.length ∧ ∀ i < s.length, s'.blocks i = s.blocks i

theorem Stage.Same.leaves_eq {s s' : Stage} (h : s.Same s') (entries : ℕ) :
    s'.leaves entries = s.leaves entries := by
  rw [Stage.leaves, Stage.leaves, h.1, h.2.1]

/-- The leaves of the same trees. -/
theorem StagesIn.congr_stages (hstages : List.Forall₂ Stage.Same stages stages')
    (h : StagesIn array entries N N' stages j) :
    StagesIn array entries N N' stages' j ∧
      stagesBlock array entries stages' j = stagesBlock array entries stages j := by
  induction hstages generalizing j with
  | nil => exact absurd h id
  | @cons stage stage' _ _ hsame _ ih =>
    have hleaves := hsame.leaves_eq entries
    obtain ⟨hdepth, hlength, hblocks⟩ := hsame
    rw [StagesIn] at h
    rw [StagesIn, stagesBlock, stagesBlock, hleaves, hdepth]
    split_ifs at h ⊢ with hj
    · exact h.congr (fun _ _ _ _ => rfl) hblocks hj
    · exact ih h

theorem StagesHold.congr (hentries : 0 < entries)
    (hstages : List.Forall₂ Stage.Same stages stages')
    (harray : ∀ b, N b → ∀ i < entries, array' b i = array b i)
    (hpath : ∀ j < k, StagesIn array entries N N' stages j)
    (h : StagesHold array entries stages k) :
    StagesHold array' entries stages' k := by
  induction hstages generalizing k with
  | nil => exact h
  | @cons stage stage' _ _ hsame _ ih =>
    have hleaves := hsame.leaves_eq entries
    obtain ⟨hdepth, hlength, hblocks⟩ := hsame
    rw [StagesHold, hleaves, hdepth, hlength]
    have hfirst : ∀ j < k, j < stage.length * entries ^ stage.depth →
        LeafIn array entries N N' stage.depth stage.blocks j := by
      intro j hk hj
      have hin := hpath j hk
      rwa [StagesIn, if_pos (show j < stage.leaves entries from hj)] at hin
    refine ⟨h.1.congr hentries harray hblocks hfirst, ih (fun j hj => ?_) h.2⟩
    have hin := hpath (stage.leaves entries + j) (by omega)
    rwa [StagesIn, if_neg (by omega), Nat.add_sub_cancel_left] at hin

variable {old old' new new' : ℕ → ℕ} {is : List ℕ}

theorem Stage.leaves_one (entries depth : ℕ) (blocks : ℕ → ℕ) :
    Stage.leaves entries ⟨depth, blocks, 1⟩ = entries ^ depth := Nat.one_mul _

/-- The first leaves of a stage and of those after it. -/
theorem map_stagesBlock_cons (stage : Stage) (rest : List Stage) (k : ℕ) :
    (List.range k).map (stagesBlock array entries (stage :: rest)) =
      (List.range (min (stage.leaves entries) k)).map
        (leafBlock array entries stage.depth stage.blocks) ++
        (List.range (k - stage.leaves entries)).map (stagesBlock array entries rest) := by
  conv_lhs => rw [show k = min (stage.leaves entries) k + (k - stage.leaves entries) by omega]
  rw [range_add, map_append, map_map]
  congr 1
  · refine map_congr_left fun j hj => ?_
    rw [mem_range, Nat.lt_min] at hj
    rw [stagesBlock, if_pos hj.1]
  · refine map_congr_left fun j hj => ?_
    rw [mem_range] at hj
    rw [Function.comp_apply, Nat.min_eq_left (by omega), stagesBlock, if_neg (by omega),
      Nat.add_sub_cancel_left]

theorem levelsMade_nil (h : ∀ i ∈ is, new i = old i) :
    LevelsMade array entries word T N old new depth is [] := by
  induction is generalizing depth with
  | nil => rfl
  | cons i is ih =>
    refine ⟨fun _ => h i mem_cons_self, fun hne => absurd rfl hne, ?_⟩
    rw [drop_nil]
    exact ih (forall_mem_cons.1 h).2

theorem LevelsMade.congr (harray : ∀ b, T b → ∀ i < entries, array' b i = array b i)
    (hT : ∀ b, T b → T' b) (hN : ∀ b, N b → N' b) (hold : ∀ i ∈ is, old' i = old i)
    (hnew : ∀ i ∈ is, new' i = new i)
    (h : LevelsMade array entries word T N old new depth is leaves) :
    LevelsMade array' entries word T' N' old' new' depth is leaves := by
  induction is generalizing depth leaves with
  | nil => exact h
  | cons i is ih =>
    obtain ⟨hnone, hmade, hrest⟩ := h
    rw [LevelsMade, hold i mem_cons_self, hnew i mem_cons_self]
    refine ⟨hnone, fun hne => (hmade hne).congr harray hT hN, ?_⟩
    exact ih (forall_mem_cons.1 hold).2
      (forall_mem_cons.1 hnew).2 hrest

/-- Levels without leaves have no tables. -/
theorem levelsClear_zero (m : ℕ) : LevelsClear entries word depth m 0 := by
  induction m generalizing depth with
  | zero => trivial
  | succ m ih =>
    refine ⟨fun hpos => absurd hpos (Nat.lt_irrefl 0), ?_⟩
    rw [Nat.zero_sub]
    exact ih

/-- The tree of a level. -/
theorem holdsLeaves_level_iff (hentries : 0 < entries) :
    HoldsLeaves array entries depth (fun m => new (i + m)) 1 k ↔
      HoldsLeaves array entries depth (fun _ => new i) 1 (min (entries ^ depth) k) := by
  rw [holdsLeaves_iff_forall hentries]
  simp only [Nat.lt_one_iff, forall_eq, Nat.add_zero, Nat.zero_mul, Nat.sub_zero]

/-- The tree of the first level holds exactly its leaves if the memory behind them was zero. -/
theorem LevelsMade.holdsLeaves_iff (hentries : 0 < entries) (hT : ∀ b, T b → b ≠ 0)
    (hN : ∀ b, N b → b ≠ 0) (h : LevelsMade array entries word T N old new depth (i :: is) leaves)
    (hpos : 0 < leaves.length) :
    HoldsLeaves array entries depth (fun m => new (i + m)) 1 leaves.length ↔
      TailClear entries word depth (min (entries ^ depth) leaves.length) := by
  have hlen : (leaves.take (entries ^ depth)).length = min (entries ^ depth) leaves.length :=
    length_take
  have htree := (h.2.1 (length_pos_iff.mp hpos)).holdsLeaves_iff hentries hT hN
    (length_take_le _ _) (by
      rw [hlen, Nat.lt_min]
      exact ⟨Nat.pow_pos hentries, hpos⟩)
  rwa [hlen, ← holdsLeaves_level_iff hentries] at htree

/-- **The levels hold exactly the leaves** if the memory behind them was zero and the other numbers
are. -/
theorem LevelsMade.stagesHold_iff (hentries : 0 < entries) (hT : ∀ b, T b → b ≠ 0)
    (hN : ∀ b, N b → b ≠ 0) (hold : ∀ i ∈ is, old i = 0)
    (h : LevelsMade array entries word T N old new depth is leaves) :
    StagesHold array entries (levelStages new depth is) leaves.length ↔
      LevelsClear entries word depth is.length leaves.length := by
  induction is generalizing depth leaves with
  | nil =>
    rw [show leaves = [] from h]
    exact ⟨fun _ => trivial, fun _ => rfl⟩
  | cons i is ih =>
    have hinner := ih (forall_mem_cons.1 hold).2 h.2.2
    rw [length_drop] at hinner
    rw [levelStages, StagesHold, Stage.leaves_one, hinner, length_cons, LevelsClear]
    refine and_congr ?_ Iff.rfl
    -- the tree of the first level
    by_cases hnil : leaves = []
    · rw [holdsLeaves_level_iff hentries, h.1 hnil, hold i mem_cons_self, hnil, length_nil,
        Nat.min_zero, holdsLeaves_zero_iff]
      exact ⟨fun _ hpos => absurd hpos (Nat.lt_irrefl 0), fun _ => rfl⟩
    · have hpos : 0 < leaves.length := length_pos_iff.mpr hnil
      rw [h.holdsLeaves_iff hentries hT hN hpos]
      exact ⟨fun hclear _ => hclear, fun hclear => hclear hpos⟩

/-- **The leaves of the levels** are those of the list. -/
theorem LevelsMade.leaf (hentries : 0 < entries)
    (h : LevelsMade array entries word T N old new depth is leaves) (hj : j < leaves.length) :
    StagesIn array entries T N (levelStages new depth is) j ∧
      leaves[j]? = some (stagesBlock array entries (levelStages new depth is) j) := by
  induction is generalizing depth leaves j with
  | nil =>
    rw [show leaves = [] from h] at hj
    exact absurd hj (Nat.not_lt_zero j)
  | cons i is ih =>
    obtain ⟨-, hmade, hrest⟩ := h
    rw [levelStages, StagesIn, stagesBlock, Stage.leaves_one]
    split_ifs with hlt
    · have hleaf := (hmade (ne_nil_of_length_pos (Nat.zero_lt_of_lt hj))).leaf hentries
        (length_take_le _ _) (j := j) (by rw [length_take, Nat.lt_min]; exact ⟨hlt, hj⟩)
      rw [getElem?_take_of_lt hlt] at hleaf
      rw [leafIn_iff_const, leafBlock_eq_const, Nat.div_eq_of_lt hlt, Nat.mod_eq_of_lt hlt]
      exact hleaf
    · have hle := Nat.not_lt.mp hlt
      have hleaf := ih hrest (j := j - entries ^ depth) (by rw [length_drop]; omega)
      rw [getElem?_drop, Nat.add_sub_cancel' hle] at hleaf
      exact hleaf

/-! ### The number of nodes -/

/-- The number of blocks of a tree of depth `d` with `m` leaves, the leaves included: as many tables
of each level as the leaves below need. -/
def nodes (entries d m : ℕ) : ℕ := ∑ j ∈ Finset.range (d + 1), m ⌈/⌉ entries ^ j

/-- The number of blocks of `k` trees, one of each depth from `d` on, that are filled one after the
other with `m` leaves. -/
def levelNodes (entries : ℕ) : ℕ → ℕ → ℕ → ℕ
  | _, 0, _ => 0
  | d, k + 1, m => nodes entries d (min m (entries ^ d)) +
    levelNodes entries (d + 1) k (m - min m (entries ^ d))

/-- The number of leaves that they can have. -/
def levelLeaves (entries : ℕ) : ℕ → ℕ → ℕ
  | _, 0 => 0
  | d, k + 1 => entries ^ d + levelLeaves entries (d + 1) k

section Nodes

variable {entries d m m' : ℕ}

theorem nodes_no_leaves (entries d : ℕ) : nodes entries d 0 = 0 :=
  Finset.sum_eq_zero fun _ _ => zero_ceilDiv _

theorem levelNodes_no_leaves (entries d k : ℕ) : levelNodes entries d k 0 = 0 := by
  induction k generalizing d with
  | zero => rfl
  | succ k ih => rw [levelNodes, Nat.zero_min, nodes_no_leaves, Nat.zero_sub, ih]

theorem nodes_leaf (entries m : ℕ) : nodes entries 0 m = m := by
  rw [nodes, Finset.sum_range_one, Nat.pow_zero, ceilDiv_one]

theorem nodes_mono (he : 0 < entries) (h : m ≤ m') : nodes entries d m ≤ nodes entries d m' :=
  Finset.sum_le_sum fun _ _ => (gc_mul_ceilDiv (Nat.pow_pos he)).monotone_l h

/-- A tree with a single block at its top. -/
theorem nodes_succ (he : 0 < entries) (hm : 0 < m) (hle : m ≤ entries ^ (d + 1)) :
    nodes entries (d + 1) m = nodes entries d m + 1 := by
  have hpow : 0 < entries ^ (d + 1) := Nat.pow_pos he
  have hone : m ⌈/⌉ entries ^ (d + 1) = 1 := by
    refine Nat.le_antisymm ((ceilDiv_le_iff_le_mul hpow).mpr (by omega)) ?_
    by_contra hlt
    have hzero : m ⌈/⌉ entries ^ (d + 1) ≤ 0 := by omega
    have := (ceilDiv_le_iff_le_mul hpow).mp hzero
    omega
  rw [nodes, Finset.sum_range_succ, hone]
  rfl

/-- **Trees side by side**: leaves behind full trees need the nodes of a tree of their own. -/
theorem nodes_add (he : 0 < entries) (k m : ℕ) :
    nodes entries d (k * entries ^ d + m) =
      nodes entries d (k * entries ^ d) + nodes entries d m := by
  rw [nodes, nodes, nodes, ← Finset.sum_add_distrib]
  refine Finset.sum_congr rfl fun j hj => ?_
  have hpow : 0 < entries ^ j := Nat.pow_pos he
  have hsplit : k * entries ^ d = k * entries ^ (d - j) * entries ^ j := by
    rw [Nat.mul_assoc, ← Nat.pow_add, Nat.sub_add_cancel
      (Nat.lt_succ_iff.mp (Finset.mem_range.mp hj))]
  rw [hsplit, Nat.ceilDiv_eq_add_pred_div, Nat.ceilDiv_eq_add_pred_div, Nat.ceilDiv_eq_add_pred_div]
  generalize k * entries ^ (d - j) = c
  rw [show c * entries ^ j + m + entries ^ j - 1 = m + entries ^ j - 1 + c * entries ^ j by omega,
    show c * entries ^ j + entries ^ j - 1 = entries ^ j - 1 + c * entries ^ j by omega,
    Nat.add_mul_div_right _ _ hpow, Nat.add_mul_div_right _ _ hpow,
    Nat.div_eq_of_lt (show entries ^ j - 1 < entries ^ j by omega)]
  omega

end Nodes

end Machine
