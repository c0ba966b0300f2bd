import Mathlib

/-!
# Trees of tables in memory

A memory of tables holds, at each node and index, an entry that may lead to another node.
`follow next t r p` is the node that the path `p` of indices leads to from the root `r`. Tables may
be reached from several roots, and nothing keeps the memory from having cycles; what a write does
to the paths is found from `follow_congr`: a path is kept when the entries along it are.

`Forest F roots d` says of the paths `F` of several roots, down to the depth `d`, that the tables
above that depth are not shared at all, and that no table stands at that depth and above it too.
The tables at depth `d` themselves may be shared. Such a forest grows by attaching a node that no
path reaches (`follow_attach`, `Forest.extend`), and a write to a table at depth `d` changes no
path (`follow_setAt`).
-/

namespace Machine

open List Option

variable {N I E : Type}

/-- The node that a path of indices leads to. -/
def follow (next : E → Option N) (t : N → I → E) (r : N) : List I → Option N
  | [] => some r
  | i :: p => (next (t r i)).bind fun n => follow next t n p

variable {next : E → Option N} {t t' : N → I → E} {r r' n : N} {i : I} {p q : List I}

@[simp]
theorem follow_nil : follow next t r [] = some r := rfl

theorem follow_cons :
    follow next t r (i :: p) = (next (t r i)).bind fun n => follow next t n p := rfl

theorem follow_append :
    follow next t r (p ++ q) = (follow next t r p).bind fun n => follow next t n q := by
  induction p generalizing r with
  | nil => rfl
  | cons i p ih =>
    rw [cons_append, follow_cons, follow_cons]
    cases next (t r i) with
    | none => rfl
    | some n => exact ih

theorem follow_concat :
    follow next t r (p ++ [i]) = (follow next t r p).bind fun n => next (t n i) := by
  rw [follow_append]
  refine Option.bind_congr fun n _ => ?_
  rw [follow_cons]
  cases next (t n i) <;> rfl

/-- **A path is kept when the entries along it lead where they led.** -/
theorem follow_congr (h : ∀ q i s, p = q ++ i :: s → ∀ n, follow next t r q = some n →
    next (t' n i) = next (t n i)) : follow next t' r p = follow next t r p := by
  induction p generalizing r with
  | nil => rfl
  | cons i p ih =>
    rw [follow_cons, follow_cons, h [] i p rfl r rfl]
    cases hn : next (t r i) with
    | none => rfl
    | some n =>
      refine ih fun q j s hp m hm => h (i :: q) j s (by rw [hp, cons_append]) m ?_
      rw [follow_cons, hn]
      exact hm

/-! ### Forests -/

/-- No path of the forest leads to `f`. -/
def Unreached (F : N → List I → Option N) (roots : List N) (d : ℕ) (f : N) : Prop :=
  ∀ r ∈ roots, ∀ p, p.length ≤ d → F r p ≠ some f

/-- The tables above depth `d` are not shared, and stand at no other depth than those at `d`. -/
structure Forest (F : N → List I → Option N) (roots : List N) (d : ℕ) : Prop where
  inj : ∀ {r r' q q' n}, r ∈ roots → r' ∈ roots → q.length < d → q'.length < d →
    F r q = some n → F r' q' = some n → r = r' ∧ q = q'
  leveled : ∀ {r r' q p n}, r ∈ roots → r' ∈ roots → q.length < d → p.length = d →
    F r q = some n → F r' p ≠ some n

namespace Forest

variable {F F' : N → List I → Option N} {roots : List N} {d : ℕ} {f : N}

/-- Only the paths down to the depth matter. -/
theorem congr (h : Forest F roots d)
    (hF : ∀ r ∈ roots, ∀ p, p.length ≤ d → F' r p = F r p) : Forest F' roots d where
  inj hr hr' hq hq' hn hn' := by
    rw [hF _ hr _ (Nat.le_of_lt hq)] at hn
    rw [hF _ hr' _ (Nat.le_of_lt hq')] at hn'
    exact h.inj hr hr' hq hq' hn hn'
  leveled hr hr' hq hp hn := by
    rw [hF _ hr _ (Nat.le_of_lt hq)] at hn
    rw [hF _ hr' _ (Nat.le_of_eq hp)]
    exact h.leveled hr hr' hq hp hn

/-- **A forest grows** by one path to a node that was not reached. -/
theorem extend [DecidableEq N] [DecidableEq I] (h : Forest F roots d)
    (hf : Unreached F roots d f) {p₀ : List I}
    (hF : ∀ r' ∈ roots, ∀ p, p.length ≤ d →
      F' r' p = if r' = r ∧ p = p₀ then some f else F r' p) : Forest F' roots d := by
  refine ⟨fun {a b q q' n} ha hb hq hq' hn hn' => ?_, fun {a b q p n} ha hb hq hp hn hn' => ?_⟩
  · rw [hF a ha q (Nat.le_of_lt hq)] at hn
    rw [hF b hb q' (Nat.le_of_lt hq')] at hn'
    split_ifs at hn hn' with h₁ h₂ h₂
    · exact ⟨h₁.1.trans h₂.1.symm, h₁.2.trans h₂.2.symm⟩
    · exact absurd (hn'.trans hn.symm) (hf b hb q' (Nat.le_of_lt hq'))
    · exact absurd (hn.trans hn'.symm) (hf a ha q (Nat.le_of_lt hq))
    · exact h.inj ha hb hq hq' hn hn'
  · rw [hF a ha q (Nat.le_of_lt hq)] at hn
    rw [hF b hb p (Nat.le_of_eq hp)] at hn'
    split_ifs at hn hn' with h₁ h₂ h₂
    · rw [h₁.2, ← h₂.2] at hq
      exact absurd hp (Nat.ne_of_lt hq)
    · exact hf b hb p (Nat.le_of_eq hp) (hn'.trans hn.symm)
    · exact hf a ha q (Nat.le_of_lt hq) (hn.trans hn'.symm)
    · exact h.leveled ha hb hq hp hn hn'

/-- **A forest gets another root**, whose upper tables are new and whose tables at the bottom are
tables of the forest. -/
theorem cons (h : Forest F roots d) {P : N → Prop}
    (hold : ∀ {r p n}, r ∈ roots → p.length ≤ d → F r p = some n → ¬ P n)
    (hnew : ∀ {p n}, p.length < d → F r p = some n → P n)
    (hinj : ∀ {p q n}, p.length < d → q.length < d → F r p = some n → F r q = some n → p = q)
    (hleaf : ∀ {p n}, p.length = d → F r p = some n → ∃ r' ∈ roots, F r' p = some n) :
    Forest F (r :: roots) d := by
  refine ⟨fun {a b q q' n} ha hb hq hq' hn hn' => ?_, fun {a b q p n} ha hb hq hp hn hn' => ?_⟩
  · rcases mem_cons.mp ha with har | har <;> rcases mem_cons.mp hb with hbr | hbr
    · rw [har] at hn ⊢
      rw [hbr] at hn' ⊢
      exact ⟨rfl, hinj hq hq' hn hn'⟩
    · rw [har] at hn
      exact absurd (hnew hq hn) (hold hbr (Nat.le_of_lt hq') hn')
    · rw [hbr] at hn'
      exact absurd (hnew hq' hn') (hold har (Nat.le_of_lt hq) hn)
    · exact h.inj har hbr hq hq' hn hn'
  · -- a table at the bottom is one of an old root
    obtain ⟨c, hc, hcn⟩ : ∃ c ∈ roots, F c p = some n := by
      rcases mem_cons.mp hb with rfl | hb
      · exact hleaf hp hn'
      · exact ⟨b, hb, hn'⟩
    rcases mem_cons.mp ha with rfl | ha
    · exact hold hc (Nat.le_of_eq hp) hcn (hnew hq hn)
    · exact h.leveled ha hc hq hp hn hcn

end Forest

/-! ### Writes to a forest -/

section Writes

variable [DecidableEq N] {roots : List N} {d : ℕ} {f : N} {e blank : E}
variable {j : I} {m : N}

/-- The memory after the table `f` is made blank. -/
def clearAt (t : N → I → E) (f : N) (blank : E) : N → I → E :=
  fun m j => if m = f then blank else t m j

@[simp]
theorem clearAt_self : clearAt t f blank f j = blank := if_pos rfl

theorem clearAt_of_ne (h : m ≠ f) : clearAt t f blank m j = t m j := if_neg h

/-- The memory after the table `n` is copied to `f`. -/
def copyAt (t : N → I → E) (f n : N) : N → I → E := fun m j => if m = f then t n j else t m j

@[simp]
theorem copyAt_self : copyAt t f n f j = t n j := if_pos rfl

theorem copyAt_of_ne (h : m ≠ f) : copyAt t f n m j = t m j := if_neg h

variable [DecidableEq I]

/-- The memory after one entry is written. -/
def setAt (t : N → I → E) (n : N) (i : I) (e : E) : N → I → E :=
  fun m j => if m = n ∧ j = i then e else t m j

@[simp]
theorem setAt_self : setAt t n i e n i = e := if_pos ⟨rfl, rfl⟩

theorem setAt_of_ne (h : m ≠ n ∨ j ≠ i) : setAt t n i e m j = t m j :=
  if_neg fun hc => h.elim (absurd hc.1) (absurd hc.2)

/-- **A write to a table at the bottom of the forest changes no path.** -/
theorem follow_setAt (h : Forest (follow next t) roots d) (hr : r ∈ roots) (hq : q.length = d)
    (hn : follow next t r q = some n) (hr' : r' ∈ roots) (hp : p.length ≤ d) :
    follow next (setAt t n i e) r' p = follow next t r' p := by
  refine follow_congr fun q' j s hsplit m hm => ?_
  have hlen : q'.length < d := by
    rw [hsplit, length_append, length_cons] at hp
    omega
  rw [setAt_of_ne (.inl ?_)]
  rintro rfl
  exact h.leveled hr' hr hlen hq hm hn

/-- **Attaching a node**: a blank table `f` that no path reached is put below `n`, which is reached
by `q`, at an index that led nowhere. The path to it is the only one that changes. -/
theorem follow_attach (h : Forest (follow next t) roots d) (hr : r ∈ roots) (hq : q.length < d)
    (hn : follow next t r q = some n) (hnone : next (t n i) = none)
    (hf : Unreached (follow next t) roots d f) (hblank : next blank = none)
    (he : next e = some f) (hr' : r' ∈ roots) (hp : p.length ≤ d) :
    follow next (setAt (clearAt t f blank) n i e) r' p =
      if r' = r ∧ p = q ++ [i] then some f else follow next t r' p := by
  -- the entries along a path are kept unless it goes on from `q` through `i`
  have hkeep : ∀ {r'}, r' ∈ roots → ∀ {p}, p.length ≤ d → (r' = r → ¬ ∃ s, p = q ++ i :: s) →
      follow next (setAt (clearAt t f blank) n i e) r' p = follow next t r' p := by
    intro r' hr' p hp hnot
    refine follow_congr fun q' j s hsplit m hm => ?_
    have hlen : q'.length < d := by
      rw [hsplit, length_append, length_cons] at hp
      omega
    have hmf : m ≠ f := by
      rintro rfl
      exact hf r' hr' q' (Nat.le_of_lt hlen) hm
    rw [setAt_of_ne, clearAt_of_ne hmf]
    by_contra hboth
    obtain ⟨rfl, rfl⟩ : m = n ∧ j = i := by
      simpa only [not_or, not_not] using hboth
    obtain ⟨rfl, rfl⟩ := h.inj hr' hr hlen hq hm hn
    exact hnot rfl ⟨s, hsplit⟩
  have hroot : follow next (setAt (clearAt t f blank) n i e) r q = some n := by
    rw [hkeep hr (Nat.le_of_lt hq) ?_, hn]
    rintro - ⟨s, hs⟩
    have := congrArg List.length hs
    rw [length_append, length_cons] at this
    omega
  by_cases hthrough : r' = r ∧ ∃ s, p = q ++ i :: s
  · obtain ⟨rfl, s, rfl⟩ := hthrough
    have hold : follow next t r' (q ++ i :: s) = none := by
      rw [follow_append, hn, bind_some, follow_cons, hnone, bind_none]
    rw [follow_append, hroot, bind_some, follow_cons, setAt_self, he, bind_some, hold]
    cases s with
    | nil => rw [if_pos ⟨rfl, rfl⟩, follow_nil]
    | cons j s =>
      have hfn : f ≠ n := by
        rintro rfl
        exact hf _ hr q (Nat.le_of_lt hq) hn
      rw [follow_cons, setAt_of_ne (.inl hfn), clearAt_self, hblank, bind_none, if_neg]
      rintro ⟨-, hs⟩
      simp at hs
  · rw [hkeep hr' hp fun hrr hs => hthrough ⟨hrr, hs⟩, if_neg]
    rintro ⟨hrr, hpq⟩
    exact hthrough ⟨hrr, [], hpq⟩

end Writes

end Machine
