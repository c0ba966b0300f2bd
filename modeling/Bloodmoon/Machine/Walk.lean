import Mathlib

/-!
# Walks that end

A walk goes from a position to the next one as long as a condition holds there. `Ends next active a`
says that a walk from `a` comes to a position where it stops. If the positions are bounded, it does
so exactly when it never comes back to where it has been (`ends_iff`). If the next position is a
length away, it is enough to look at the lengths: the walk ends exactly when none of those it uses
is zero (`ends_iff_of_lengths`).
-/

namespace Machine

variable {next len : ℕ → ℕ} {active : ℕ → Prop} {a bound : ℕ}

/-- The walk comes to a position where it does not go on. -/
def Ends (next : ℕ → ℕ) (active : ℕ → Prop) (a : ℕ) : Prop := ∃ k, ¬ active (next^[k] a)

/-- The first rounds of the walk, up to the one with number `k`, go on. -/
def Passes (next : ℕ → ℕ) (active : ℕ → Prop) (a k : ℕ) : Prop := ∀ j ≤ k, active (next^[j] a)

/-- A walk that comes back goes round forever. -/
theorem not_ends_of_return {i j : ℕ} (hij : i < j) (hpass : Passes next active a j)
    (hreturn : next^[i] a = next^[j] a) : ¬ Ends next active a := by
  -- every position is one of the first ones
  have hround : ∀ k, ∃ m ≤ j, next^[k] a = next^[m] a := by
    intro k
    induction k with
    | zero => exact ⟨0, Nat.zero_le j, rfl⟩
    | succ k ih =>
      obtain ⟨m, hm, heq⟩ := ih
      have hstep : ∀ n, next^[k] a = next^[n] a → next^[k + 1] a = next^[n + 1] a := fun n hn => by
        rw [Function.iterate_succ_apply', Function.iterate_succ_apply', hn]
      rcases Nat.lt_or_eq_of_le hm with hlt | rfl
      · exact ⟨m + 1, hlt, hstep m heq⟩
      · exact ⟨i + 1, hij, hstep i (heq.trans hreturn.symm)⟩
  rintro ⟨k, hstop⟩
  obtain ⟨m, hm, heq⟩ := hround k
  exact hstop (heq ▸ hpass m hm)

/-- **A walk over bounded positions ends** exactly when it never comes back. -/
theorem ends_iff (hbound : ∀ p, next p < bound) :
    Ends next active a ↔
      ∀ i j, i < j → Passes next active a j → next^[i] a ≠ next^[j] a := by
  constructor
  · intro hends i j hij hpass hreturn
    exact not_ends_of_return hij hpass hreturn hends
  · intro hnever
    by_contra hnot
    have hall : ∀ k, active (next^[k] a) := fun k => by_contra fun hstop => hnot ⟨k, hstop⟩
    -- there are more rounds than positions
    have hlt : ∀ k, next^[k + 1] a < bound := fun k => by
      rw [Function.iterate_succ_apply']
      exact hbound _
    refine not_injective_infinite_finite (fun k : ℕ => (⟨next^[k + 1] a, hlt k⟩ : Fin bound)) ?_
    intro i j heq
    have heq : next^[i + 1] a = next^[j + 1] a := congrArg Fin.val heq
    rcases Nat.lt_trichotomy i j with hij | hij | hij
    · exact absurd heq (hnever _ _ (Nat.succ_lt_succ hij) fun k _ => hall k)
    · exact hij
    · exact absurd heq.symm (hnever _ _ (Nat.succ_lt_succ hij) fun k _ => hall k)

/-- **A walk by lengths ends** exactly when it uses no length that is zero. -/
theorem ends_iff_of_lengths (hnext : ∀ p, active p → next p = p + len p)
    (hbound : ∀ p, active p → p < bound) :
    Ends next active a ↔ ∀ k, Passes next active a k → len (next^[k] a) ≠ 0 := by
  constructor
  · intro hends k hpass hzero
    have hstay : next^[k + 1] a = next^[k] a := by
      rw [Function.iterate_succ_apply', hnext _ (hpass k (Nat.le_refl k)), hzero, Nat.add_zero]
    refine not_ends_of_return (Nat.lt_succ_self k) (fun j hj => ?_) hstay.symm hends
    rcases Nat.lt_or_eq_of_le hj with hlt | rfl
    · exact hpass j (Nat.lt_succ_iff.1 hlt)
    · exact hstay ▸ hpass k (Nat.le_refl k)
  · intro hpos
    by_contra hnot
    have hall : ∀ k, active (next^[k] a) := fun k => by_contra fun hstop => hnot ⟨k, hstop⟩
    have hgrow : ∀ k, k ≤ next^[k] a := by
      intro k
      induction k with
      | zero => exact Nat.zero_le _
      | succ k ih =>
        have hlen := hpos k fun j _ => hall j
        rw [Function.iterate_succ_apply', hnext _ (hall k)]
        omega
    exact absurd (hbound _ (hall bound)) (Nat.not_lt.2 (hgrow bound))

/-- A walk over the positions below a bound ends in as many rounds, if it ends. -/
theorem Ends.within (h : Ends next active a) (hbound : ∀ p, active p → p < bound) :
    ∃ k ≤ bound, ¬ active (next^[k] a) := by
  classical
  refine ⟨Nat.find h, ?_, Nat.find_spec h⟩
  have hpass : ∀ j < Nat.find h, active (next^[j] a) := fun j hj => not_not.1 (Nat.find_min h hj)
  -- the positions before the last are all different
  have hinj : Function.Injective
      (fun j : Fin (Nat.find h) => (⟨next^[j] a, hbound _ (hpass j j.2)⟩ : Fin bound)) := by
    intro i j heq
    have heq : next^[i] a = next^[j] a := congrArg Fin.val heq
    have hpasses : ∀ j : Fin (Nat.find h), Passes next active a j :=
      fun j m hm => hpass m (Nat.lt_of_le_of_lt hm j.2)
    rcases Nat.lt_trichotomy i j with hij | hij | hij
    · exact absurd h (not_ends_of_return hij (hpasses j) heq)
    · exact Fin.ext hij
    · exact absurd h (not_ends_of_return hij (hpasses i) heq.symm)
  simpa using Fintype.card_le_of_injective _ hinj

/-! ### Loops that walk -/

section Loops

variable {σ ρ : Type*} {run : ℕ → ℕ → σ → Option ρ} {update : σ → ℕ → σ} {s : σ} {fuel : ℕ}

/-- A loop with bounded fuel that goes on with the next position where the walk is active, and
returns where it is not. -/
structure IsWalk (next : ℕ → ℕ) (active : ℕ → Prop) (update : σ → ℕ → σ)
    (run : ℕ → ℕ → σ → Option ρ) : Prop where
  zero : ∀ p s, run 0 p s = none
  go : ∀ fuel p s, active p → run (fuel + 1) p s = run fuel (next p) (update s p)
  stop : ∀ fuel p s, ¬ active p → (run (fuel + 1) p s).isSome

section

variable (h : IsWalk next active update run)

include h

/-- The loop comes to the end of the walk, if it returns. -/
theorem IsWalk.ends (hrun : (run fuel a s).isSome) : Ends next active a := by
  induction fuel generalizing a s with
  | zero =>
    rw [h.zero] at hrun
    cases hrun
  | succ fuel ih =>
    by_cases hactive : active a
    · rw [h.go fuel a s hactive] at hrun
      obtain ⟨k, hk⟩ := ih hrun
      exact ⟨k + 1, by rwa [Function.iterate_succ_apply]⟩
    · exact ⟨0, hactive⟩

/-- The loop returns with more fuel than the walk has rounds. -/
theorem IsWalk.isSome_of_lt {k : ℕ} (hk : k < fuel) (hend : ¬ active (next^[k] a)) :
    (run fuel a s).isSome := by
  induction k generalizing a s fuel with
  | zero =>
    obtain ⟨fuel, rfl⟩ := Nat.exists_eq_succ_of_ne_zero (Nat.ne_of_gt hk)
    exact h.stop fuel a s hend
  | succ k ih =>
    obtain ⟨fuel, rfl⟩ := Nat.exists_eq_succ_of_ne_zero (Nat.ne_of_gt (Nat.zero_lt_of_lt hk))
    by_cases hactive : active a
    · rw [h.go fuel a s hactive]
      exact ih (Nat.lt_of_succ_lt_succ hk) (by rwa [Function.iterate_succ_apply] at hend)
    · exact h.stop fuel a s hactive

/-- **A loop that walks returns** with some fuel exactly when the walk ends. -/
theorem IsWalk.isSome_iff : (∃ fuel, (run fuel a s).isSome) ↔ Ends next active a := by
  constructor
  · rintro ⟨fuel, hrun⟩
    exact h.ends hrun
  · rintro ⟨k, hend⟩
    exact ⟨k + 1, h.isSome_of_lt (Nat.lt_succ_self k) hend⟩

/-- More fuel than there are positions is enough for every walk that ends. -/
theorem IsWalk.isSome_iff_of_bound (hbound : ∀ p, active p → p < bound) (hfuel : bound < fuel) :
    (run fuel a s).isSome ↔ Ends next active a := by
  refine ⟨h.ends, fun hends => ?_⟩
  obtain ⟨k, hk, hend⟩ := hends.within hbound
  exact h.isSome_of_lt (Nat.lt_of_le_of_lt hk hfuel) hend

end

end Loops

end Machine
