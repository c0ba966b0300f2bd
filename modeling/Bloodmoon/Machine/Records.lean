import Mathlib

/-!
# Records one behind the other

A range of bytes is often cut into records that give their own lengths: the next record begins where
the length of the last one says. `Tiles len a ps b` says that the records at the positions `ps` cut
the range from `a` to `b` in this way. The positions are determined by the lengths (`Tiles.unique`),
so that a list of positions says nothing that is not in the bytes.

`walkRecords` is the loop that such a range is read with. It ends, and visits just the records
(`Tiles.walkRecords_eq`). A tiling can be cut at any record (`tiles_append`), so that an edit of a
few records leaves the others.
-/

namespace Machine

open List

/-- The records at the positions `ps`, with the lengths `len`, lie one behind the other from `a` to
`b`, and none is empty. -/
def Tiles (len : ℕ → ℕ) : ℕ → List ℕ → ℕ → Prop
  | a, [], b => a = b
  | a, p :: ps, b => p = a ∧ 0 < len a ∧ Tiles len (a + len a) ps b

instance Tiles.decidable (len : ℕ → ℕ) : ∀ a ps b, Decidable (Tiles len a ps b)
  | a, [], b => inferInstanceAs (Decidable (a = b))
  | a, p :: ps, b =>
    have := Tiles.decidable len (a + len a) ps b
    inferInstanceAs (Decidable (p = a ∧ 0 < len a ∧ Tiles len (a + len a) ps b))

/-- The loop over the records below `size` from `pos` on, where `next` is the position behind a
record, with bounded fuel: the position where it ends, and what has been made of the records. -/
def walkRecords {σ : Type*} (next : ℕ → ℕ) (size : ℕ) (step : σ → ℕ → σ) :
    ℕ → ℕ → σ → Option (ℕ × σ)
  | 0, _, _ => none
  | fuel + 1, pos, s =>
    if pos < size then walkRecords next size step fuel (next pos) (step s pos) else some (pos, s)

variable {len len' : ℕ → ℕ} {a b c p q : ℕ} {ps qs : List ℕ}

theorem tiles_append : Tiles len a (ps ++ qs) c ↔ ∃ b, Tiles len a ps b ∧ Tiles len b qs c := by
  induction ps generalizing a with
  | nil => exact ⟨fun h => ⟨a, rfl, h⟩, fun ⟨_, heq, h⟩ => heq ▸ h⟩
  | cons p ps ih =>
    rw [cons_append, Tiles, ih]
    constructor
    · rintro ⟨hp, hpos, b, h, h'⟩
      exact ⟨b, ⟨hp, hpos, h⟩, h'⟩
    · rintro ⟨b, ⟨hp, hpos, h⟩, h'⟩
      exact ⟨hp, hpos, b, h, h'⟩

namespace Tiles

variable {next : ℕ → ℕ}

theorem le (h : Tiles len a ps b) : a ≤ b := by
  induction ps generalizing a with
  | nil => exact Nat.le_of_eq h
  | cons p ps ih =>
    have := ih h.2.2
    omega

/-- Every record is in the range. -/
theorem mem (h : Tiles len a ps b) (hp : p ∈ ps) : a ≤ p ∧ 0 < len p ∧ p + len p ≤ b := by
  induction ps generalizing a with
  | nil => exact absurd hp not_mem_nil
  | cons q ps ih =>
    obtain ⟨rfl, hpos, hrest⟩ := h
    rcases mem_cons.mp hp with rfl | hp
    · exact ⟨Nat.le_refl p, hpos, hrest.le⟩
    · have := ih hrest hp
      omega

/-- Only the lengths of the records matter. -/
theorem congr (h : Tiles len a ps b) (hlen : ∀ p ∈ ps, len' p = len p) : Tiles len' a ps b := by
  induction ps generalizing a with
  | nil => exact h
  | cons p ps ih =>
    obtain ⟨rfl, hpos, hrest⟩ := h
    have hfirst := hlen p mem_cons_self
    refine ⟨rfl, hfirst ▸ hpos, ?_⟩
    rw [hfirst]
    exact ih hrest (forall_mem_cons.1 hlen).2

/-- **The lengths determine the records.** -/
theorem unique (h : Tiles len a ps b) (h' : Tiles len a qs b) : ps = qs := by
  induction ps generalizing a qs with
  | nil =>
    obtain rfl : a = b := h
    cases qs with
    | nil => rfl
    | cons q qs =>
      have := h'.2.2.le
      have := h'.2.1
      omega
  | cons p ps ih =>
    obtain ⟨rfl, hpos, hrest⟩ := h
    cases qs with
    | nil =>
      obtain rfl : p = b := h'
      have := hrest.le
      omega
    | cons q qs => rw [show q = p from h'.1, ih hrest h'.2.2]

/-- The records before a record end at it or before it, and those behind it begin behind it. -/
theorem split (h : Tiles len a (ps ++ p :: qs) b) : Tiles len a ps p ∧ 0 < len p ∧
    Tiles len (p + len p) qs b := by
  obtain ⟨c, hbefore, rfl, hpos, hrest⟩ := tiles_append.mp h
  exact ⟨hbefore, hpos, hrest⟩

/-- A position that is reached by records, and is not the end, is one of a record. -/
theorem mem_of_tiles (h : Tiles len a ps b) (h' : Tiles len a qs c) (hlt : c < b) : c ∈ ps := by
  induction ps generalizing a qs with
  | nil =>
    obtain rfl : a = b := h
    have := h'.le
    omega
  | cons p ps ih =>
    obtain ⟨rfl, hpos, hrest⟩ := h
    cases qs with
    | nil =>
      obtain rfl : p = c := h'
      exact mem_cons_self
    | cons q qs => exact mem_cons_of_mem _ (ih hrest h'.2.2)

/-- A range that is not empty has a last record. -/
theorem exists_concat (h : Tiles len a ps b) (hlt : a < b) :
    ∃ qs p, ps = qs ++ [p] ∧ Tiles len a qs p ∧ 0 < len p ∧ p + len p = b := by
  rcases eq_nil_or_concat ps with rfl | ⟨qs, p, rfl⟩
  · obtain rfl : a = b := h
    omega
  · rw [concat_eq_append] at h ⊢
    obtain ⟨hbefore, hpos, hend⟩ := h.split
    exact ⟨qs, p, rfl, hbefore, hpos, hend⟩

/-- **The loop** visits the records and ends. -/
theorem walkRecords_eq {σ : Type*} (h : Tiles len a ps b) {step : σ → ℕ → σ}
    (hnext : ∀ p ∈ ps, next p = p + len p) {fuel : ℕ} (hfuel : b < a + fuel) (s : σ) :
    walkRecords next b step fuel a s = some (b, ps.foldl step s) := by
  induction ps generalizing a fuel s with
  | nil =>
    obtain rfl : a = b := h
    obtain _ | fuel := fuel
    · omega
    rw [walkRecords, if_neg (Nat.lt_irrefl a)]
    rfl
  | cons p ps ih =>
    obtain ⟨rfl, hpos, hrest⟩ := h
    have hle := hrest.le
    obtain _ | fuel := fuel
    · omega
    rw [walkRecords, if_pos (by omega), hnext p mem_cons_self,
      ih hrest (forall_mem_cons.1 hnext).2 (by omega)]
    rfl

/-- The loop does not end behind a record at which it stays. -/
theorem walkRecords_eq_none {σ : Type*} (h : Tiles len a ps c) (hlt : c < b) {step : σ → ℕ → σ}
    (hnext : ∀ p ∈ ps, next p = p + len p) (hstay : next c = c) (fuel : ℕ) (s : σ) :
    walkRecords next b step fuel a s = none := by
  induction fuel generalizing a ps s with
  | zero => rfl
  | succ fuel ih =>
    have hle := h.le
    rw [walkRecords, if_pos (by omega)]
    cases ps with
    | nil =>
      have heq : a = c := h
      subst heq
      rw [hstay]
      exact ih h hnext _
    | cons p ps =>
      obtain ⟨rfl, -, hrest⟩ := h
      rw [hnext p mem_cons_self]
      exact ih hrest (forall_mem_cons.1 hnext).2 _

end Tiles

end Machine
