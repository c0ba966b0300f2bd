import Bloodmoon.Paging.Isolation

/-!
# The copies and their originals

Right after `duplicate_current_pml4` or `duplicate_current_kernel_pml4` the copy translates as the
original does (`duplicate_translations`). It does not stay so apart from it: the loops of
`_duplicate_pd` copy three levels of tables, and the page tables are those of the original.

What a later operation on one space does to the other is decided by what it writes
(`SpaceEdit.outside`): tables on the walk of its address, and pages of the allocator. If the other
space reaches none of those tables (`Unseen`), it is left alone, whatever the tables look like. In
a forest of tables that is also the only way to leave it alone, unless the operation asks for the
translation that is there already.
-/

namespace Bloodmoon

open Machine Relation PageEntry PagingState
open List hiding lookup next

/-! ### Right after the call -/

/-- An address of the upper half, in which bit 47 is set. -/
def UpperHalf (v : ℕ) : Prop := 2 ^ 47 ≤ v % 2 ^ 48

instance (v : ℕ) : Decidable (UpperHalf v) := inferInstanceAs (Decidable (_ ≤ _))

theorem upperHalf_iff {v : ℕ} : UpperHalf v ↔ 256 ≤ (addressToMap v).pdpI.val := by
  simp only [UpperHalf, addressToMap, Fin.val_ofNat, Nat.shiftRight_eq_div_pow]
  omega

/-- **The copies translate as the original does**, the one of the kernel in the upper half only,
and the original is left as it was. -/
theorem duplicate_translations {s s' : PagingState} {pml : ℕ} (hs : FreshPool s [s.cr3]) :
    (s.duplicateCurrentPml4 = .ok (s', pml) → ∀ v,
      SameTranslation s s.cr3 s' pml v ∧ SameTranslation s s.cr3 s' s.cr3 v) ∧
    (s.duplicateCurrentKernelPml4 = .ok (s', pml) → ∀ v,
      (UpperHalf v → SameTranslation s s.cr3 s' pml v) ∧
      (¬ UpperHalf v → s'.virtualToPhysical pml v = 0) ∧
      SameTranslation s s.cr3 s' s.cr3 v) := by
  have hcurrent : s.cr3 ∈ [s.cr3] := mem_singleton_self _
  refine ⟨fun hok v => ?_, fun hok v => ?_⟩
  · have hcopy := hs.duplicatePd hcurrent hok
    have hall := (hcopy.copyLookup v).trans (if_pos ⟨Nat.zero_le _, Fin.isLt _⟩)
    exact ⟨sameTranslation_of_lookup hall, sameTranslation_of_lookup (hcopy.lookup _ hcurrent v)⟩
  · have hcopy := hs.duplicatePd hcurrent hok
    refine ⟨fun hv => ?_, fun hv => ?_, sameTranslation_of_lookup (hcopy.lookup _ hcurrent v)⟩
    · rw [upperHalf_iff] at hv
      exact sameTranslation_of_lookup ((hcopy.copyLookup v).trans (if_pos ⟨hv, Fin.isLt _⟩))
    · rw [upperHalf_iff] at hv
      rw [virtualToPhysical_eq, (hcopy.copyLookup v).trans (if_neg fun hi => hv hi.1)]
      rfl

/-- A page is mapped in each half of a space, and the space is copied in both ways. -/
theorem duplicate_translations_bareKernel : ∃ s s₁ s₂ : PagingState,
    s.duplicateCurrentPml4 = .ok (s₁, 0x8000) ∧
      s.duplicateCurrentKernelPml4 = .ok (s₂, 0x8000) ∧
      s₁.virtualToPhysical 0x8000 0x400000 = 0x100000 ∧
      s₁.virtualToPhysical 0x8000 0xffff800000000000 = 0x200000 ∧
      s₂.virtualToPhysical 0x8000 0x400000 = 0 ∧
      s₂.virtualToPhysical 0x8000 0xffff800000000000 = 0x200000 := by
  have hmem : (0x1000 : ℕ) ∈ [0x1000] := by decide
  obtain ⟨s, hlow, t, hhigh, ⟨s₁, _⟩, hcopy, ⟨s₂, _⟩, hkernel, rfl, rfl, hpage, hpage'⟩ :
      ∃ s, bareKernel.mapMemory 0x1000 0x400000 0x100000 3 = .ok s ∧
      ∃ t, s.mapMemory 0x1000 0xffff800000000000 0x200000 1 = .ok t ∧
      ∃ r₁, t.duplicateCurrentPml4 = .ok r₁ ∧ ∃ r₂, t.duplicateCurrentKernelPml4 = .ok r₂ ∧
      r₁.2 = 0x8000 ∧ r₂.2 = 0x8000 ∧ t.virtualToPhysical 0x1000 0x400000 = 0x100000 ∧
      t.virtualToPhysical 0x1000 0xffff800000000000 = 0x200000 := by
    decide +kernel
  obtain ⟨-, hup, -⟩ := spaces_bareKernel.mapMemoryHh hmem hlow
  obtain ⟨-, hup', -⟩ := hup.spaces.mapMemoryHh hmem hhigh
  have hcr3 : t.cr3 = 0x1000 := hup'.cr3.trans hup.cr3
  have hs : FreshPool t [t.cr3] := by
    rw [hcr3]
    exact hup'.spaces.freshPool
  have hboth := (duplicate_translations hs).1 hcopy
  have hupper := (duplicate_translations hs).2 hkernel
  simp only [hcr3] at hboth hupper
  exact ⟨t, s₁, s₂, hcopy, hkernel, (hboth 0x400000).1.1.trans hpage,
    (hboth 0xffff800000000000).1.1.trans hpage', (hupper 0x400000).2.1 (by decide),
    ((hupper 0xffff800000000000).1 (by decide)).1.trans hpage'⟩

/-! ### What an operation writes -/

/-- An operation on the address `v` of the space `a` that asks for the translation `target`, the
null pointer for none. -/
inductive SpaceEdit (a v : ℕ) (s : PagingState) : ℕ → PagingState → Prop
  | map {physical flags : ℕ} {s' : PagingState} (hok : s.mapMemory a v physical flags = .ok s') :
      SpaceEdit a v s (physical % 2 ^ 40) s'
  | unmap : SpaceEdit a v s 0 (s.unmapMemory a v)

/-- The levels of `map_memory_hh` from `a` down the indices `q`, at the table `n`. As long as there
are tables nothing is written; a table that is made is blank, so that all below it are made. -/
structure Walked (s : PagingState) (a : ℕ) (q : List (Fin 512)) (s₁ : PagingState) (n : ℕ) :
    Prop where
  arrives : s₁ = s ∧ s.paths a q = some n ∨
    n ∈ s.pool ∧ n ∉ s₁.pool ∧ ∀ i, s₁.tables n i = .blank
  pool : s₁.pool <:+ s.pool
  outside : ∀ m, m ∉ s.pool → (∀ q', q' <+: q → s.paths a q' ≠ some m) → s₁.tables m = s.tables m

section Edit

variable {s s₁ s₂ s' : PagingState} {a b v n m target : ℕ} {q : List (Fin 512)} {i : Fin 512}
  {msg : String}
variable {roots : List ℕ}

/-- One level more. -/
theorem Walked.ensureTable (hs : FreshPool s [a]) (hq : q.length < 3) (h : Walked s a q s₁ n)
    (hok : s₁.ensureTable n i msg = .ok (s₂, m)) : Walked s a (q ++ [i]) s₂ m := by
  have hkept : ∀ {m'}, (∀ q', q' <+: q ++ [i] → s.paths a q' ≠ some m') →
      ∀ q', q' <+: q → s.paths a q' ≠ some m' :=
    fun hm q' hq' => hm q' (hq'.trans (prefix_append q [i]))
  rcases ensureTable_eq_ok hok with ⟨hnext, rfl⟩ | ⟨-, pool, e, hpool, -, rfl⟩
  · refine ⟨?_, h.pool, fun m' hm' hwalk => h.outside m' hm' (hkept hwalk)⟩
    rcases h.arrives with ⟨rfl, hn⟩ | ⟨-, -, hblank⟩
    · exact .inl ⟨rfl, (Spaces.paths_concat hn).trans hnext⟩
    · rw [hblank i] at hnext
      exact absurd hnext (by simp [next, blank])
  · have hsuffix : pool <:+ s₁.pool := by
      rw [hpool]
      exact suffix_cons m _
    have hm : m ∈ s₁.pool := by
      rw [hpool]
      exact mem_cons_self
    have hnodup := hs.nodup.sublist h.pool.sublist
    rw [hpool, nodup_cons] at hnodup
    -- the table with the new entry is not the new table
    have hmn : m ≠ n := by
      rintro rfl
      rcases h.arrives with ⟨rfl, hn⟩ | ⟨-, hn, -⟩
      · exact hs.fresh m hm a (mem_singleton_self a) q (Nat.le_of_lt hq) hn
      · exact hn hm
    refine ⟨.inr ⟨h.pool.subset hm, hnodup.1, fun j => ?_⟩, hsuffix.trans h.pool,
      fun m' hm' hwalk => ?_⟩
    · exact (setAt_of_ne (.inl hmn)).trans clearAt_self
    · have hmm : m' ≠ m := by
        rintro rfl
        exact hm' (h.pool.subset hm)
      have hmn' : m' ≠ n := by
        rintro rfl
        rcases h.arrives with ⟨rfl, hn⟩ | ⟨hn, -, -⟩
        · exact hwalk q (prefix_append q [i]) hn
        · exact hm' hn
      rw [← h.outside m' hm' (hkept hwalk)]
      funext j
      exact (setAt_of_ne (.inl hmn')).trans (clearAt_of_ne hmm)

/-- **An operation writes the tables on the walk of its address**, and pages of the allocator. -/
theorem SpaceEdit.outside (h : SpaceEdit a v s target s') (hs : FreshPool s [a])
    (hm : m ∉ s.pool) (hwalk : ∀ q, q <+: path v → s.paths a q ≠ some m) :
    s'.tables m = s.tables m := by
  cases h with
  | map hok =>
    rw [mapMemory, mapMemoryHh] at hok
    split_ifs at hok with hvirtual hphysical
    · exact absurd hok kpanic_ne_ok
    · exact absurd hok kpanic_ne_ok
    obtain ⟨⟨s₁, pdp⟩, h₁, hok⟩ := bind_eq_ok.mp hok
    obtain ⟨⟨s₂, pd⟩, h₂, hok⟩ := bind_eq_ok.mp hok
    obtain ⟨⟨s₃, pt⟩, h₃, hok⟩ := bind_eq_ok.mp hok
    obtain rfl := Except.ok.inj hok
    have hroot : Walked s a [] s a := ⟨.inl ⟨rfl, rfl⟩, suffix_rfl, fun _ _ _ => rfl⟩
    have hwalked : Walked s a (path v) s₃ pt :=
      ((hroot.ensureTable hs (by simp) h₁).ensureTable hs (by simp) h₂).ensureTable hs (by simp) h₃
    have hne : m ≠ pt := by
      rintro rfl
      rcases hwalked.arrives with ⟨-, hpt⟩ | ⟨hpt, -, -⟩
      · exact hwalk _ prefix_rfl hpt
      · exact hm hpt
    rw [← hwalked.outside m hm hwalk]
    funext j
    exact setAt_of_ne (.inl hne)
  | unmap =>
    rw [unmapMemory_eq]
    cases hpt : s.paths a (path v) with
    | none => rfl
    | some pt =>
      have hne : m ≠ pt := by
        rintro rfl
        exact hwalk _ prefix_rfl hpt
      funext j
      exact setAt_of_ne (.inl hne)

/-! ### Who sees it -/

/-- The space `b` reaches no table on the walk of `v` in the space `a`. -/
def Unseen (s : PagingState) (a b v : ℕ) : Prop :=
  ∀ q, q <+: path v → ∀ n, s.paths a q = some n → ∀ p, p.length ≤ 3 → s.paths b p ≠ some n

/-- An operation on `a` that `b` does not see leaves the translations of `b`. -/
theorem SpaceEdit.lookup_of_unseen (h : SpaceEdit a v s target s') (hs : FreshPool s [a, b])
    (hunseen : Unseen s a b v) (w : ℕ) : s'.lookup b w = s.lookup b w := by
  have hrow : ∀ q n, q.length ≤ 3 → s.paths b q = some n → s'.tables n = s.tables n := by
    intro q n hq hn
    have ha : FreshPool s [a] := ⟨fun f hf r hr => hs.fresh f hf r (by simp_all),
      hs.nodup, hs.pages⟩
    refine h.outside ha (fun hin => hs.fresh n hin b (by simp) q hq hn) fun q' hq' hn' => ?_
    exact hunseen q' hq' n hn' q hq hn
  exact lookup_of_reached hrow (paths_of_reached hrow (Nat.le_of_eq (length_path w)))

/-- In a forest an operation is an update of its page. -/
theorem SpaceEdit.updates (h : SpaceEdit a v s target s') (hs : Spaces s roots) (ha : a ∈ roots) :
    ∃ e : Option PageEntry, (e.map page).getD 0 = target ∧
      Updates s s' roots a v fun _ => e := by
  cases h with
  | @map physical flags _ hok =>
    obtain ⟨halign, hup, -⟩ := hs.mapMemoryHh ha hok
    refine ⟨_, ?_, hup⟩
    have h4096 : pageSize = 4096 := rfl
    rw [h4096] at halign
    simp only [mappedEntry, withPage, withPerms, page, Option.map_some,
      Option.getD_some, Nat.shiftRight_eq_div_pow, Nat.shiftLeft_eq]
    omega
  | unmap => exact ⟨none, rfl, hs.unmapMemory ha⟩

/-- Every path and slot are those of an address. -/
theorem exists_address {p : List (Fin 512)} (hp : p.length = 3) (k : Fin 512) :
    ∃ w, path w = p ∧ slot w = k := by
  obtain ⟨x, y, z, rfl⟩ := length_eq_three.mp hp
  refine ⟨((x.val * 512 + y.val) * 512 + z.val) * 2 ^ 21 + k.val * 2 ^ 12, ?_⟩
  simp only [path, slot, addressToMap, List.cons.injEq, and_true, Fin.ext_iff, Fin.val_ofNat,
    Nat.shiftRight_eq_div_pow]
  omega

/-- In a forest two spaces have only page tables in common. -/
theorem unseen_iff (hs : Spaces s roots) (ha : a ∈ roots) (hb : b ∈ roots) (hab : a ≠ b) :
    Unseen s a b v ↔
      ∀ n, s.paths a (path v) = some n → ∀ p, p.length = 3 → s.paths b p ≠ some n := by
  refine ⟨fun h n hn p hp => h _ prefix_rfl n hn p (Nat.le_of_eq hp), fun h => ?_⟩
  intro q hq n hn p hp hpn
  have hlen : q.length ≤ 3 := (length_path v) ▸ hq.length_le
  rcases Nat.lt_or_eq_of_le hlen with hlt | heq
  · rcases Nat.lt_or_eq_of_le hp with hplt | hpeq
    · exact hab (hs.forest.inj ha hb hlt hplt hn hpn).1
    · exact hs.forest.leveled ha hb hlt hpeq hn hpn
  · obtain rfl : q = path v := hq.eq_of_length (heq.trans (length_path v).symm)
    rcases Nat.lt_or_eq_of_le hp with hplt | hpeq
    · exact hs.forest.leveled hb ha hplt heq hpn hn
    · exact h n hn p hpeq hpn

/-- Addresses with the same page table and slot have the same entry. -/
theorem lookup_eq_lookup {w : ℕ} (hpath : s.paths b (path w) = s.paths a (path v))
    (hslot : slot w = slot v) : s.lookup b w = s.lookup a v := by
  rw [lookup, lookup, hpath, hslot]

/-- **An operation on `a` leaves the translations of `b` just if `b` does not see it**, or if it
asks for the translation that is there. -/
theorem SpaceEdit.translations_iff (h : SpaceEdit a v s target s') (hs : Spaces s roots)
    (ha : a ∈ roots) (hb : b ∈ roots) (hab : a ≠ b) :
    (∀ w, s'.virtualToPhysical b w = s.virtualToPhysical b w) ↔
      Unseen s a b v ∨ s.virtualToPhysical a v = target := by
  obtain ⟨e, he, hup⟩ := h.updates hs ha
  have hpaths : ∀ {p}, p.length = 3 → s'.paths b p = s.paths b p := fun hp =>
    (hup.paths b hb _ hp).resolve_right fun hnew => hab hnew.1.symm
  -- what the operation puts wherever its page table is reached
  have hput : ∀ {w}, s'.paths b (path w) = s'.paths a (path v) → slot w = slot v →
      s'.virtualToPhysical b w = target := by
    intro w hpath hslot
    rw [virtualToPhysical_eq, hup.lookup b hb w, if_pos ⟨hpath, hslot⟩, he]
  constructor
  · intro hall
    refine or_iff_not_imp_left.mpr fun hseen => ?_
    rw [unseen_iff hs ha hb hab] at hseen
    push Not at hseen
    obtain ⟨n, hn, p, hp, hpn⟩ := hseen
    obtain ⟨w, hw, hslot⟩ := exists_address hp (slot v)
    rw [← hw] at hpn
    have hkept : s'.paths a (path v) = some n := by
      rcases hup.paths a ha _ (length_path v) with hsame | ⟨-, -, hnone, -⟩
      · exact hsame.trans hn
      · exact absurd (hn.symm.trans hnone) (by simp)
    rw [← hput (((hpaths (length_path w)).trans hpn).trans hkept.symm) hslot, hall w,
      virtualToPhysical_eq, virtualToPhysical_eq, lookup_eq_lookup (hpn.trans hn.symm) hslot]
  · rintro (hunseen | hsame) w
    · have hfresh : FreshPool s [a, b] :=
        ⟨fun f hf r hr => hs.fresh f hf r (by
          rcases mem_pair.mp hr with rfl | rfl
          · exact ha
          · exact hb), hs.nodup, hs.pages⟩
      rw [virtualToPhysical_eq, virtualToPhysical_eq, h.lookup_of_unseen hfresh hunseen]
    · by_cases hmeet : s'.paths b (path w) = s'.paths a (path v) ∧ slot w = slot v
      · rw [hput hmeet.1 hmeet.2, ← hsame, virtualToPhysical_eq, virtualToPhysical_eq]
        have hold := (hpaths (length_path w)).symm.trans hmeet.1
        rcases hup.paths a ha _ (length_path v) with hkept | ⟨-, -, -, pt, hpt, hnew⟩
        · rw [lookup_eq_lookup (hold.trans hkept) hmeet.2]
        · exact absurd (hold.trans hnew) (hs.fresh pt hpt b hb _ (Nat.le_of_eq (length_path w)))
      · rw [virtualToPhysical_eq, virtualToPhysical_eq, hup.lookup b hb w, if_neg hmeet]

end Edit

/-- Operations on `a`, each at an address and in a state with `P`. -/
def Edits (P : ℕ → ℕ → PagingState → Prop) (a : ℕ) : PagingState → PagingState → Prop :=
  ReflTransGen fun s s' => ∃ v target, P v target s ∧ SpaceEdit a v s target s'

/-- **When a copy is independent.** After `duplicate_current_pml4`, operations on one of the two
spaces that the other does not see leave all translations of the other. If the tables are a forest,
then in every state that operations on the one lead to, an operation leaves the other just if it is
not seen there, or asks for the translation that is there. -/
theorem copy_translations {s s₁ : PagingState} {pml a b : ℕ} (hs : FreshPool s [s.cr3])
    (hok : s.duplicateCurrentPml4 = .ok (s₁, pml))
    (hab : a = pml ∧ b = s.cr3 ∨ a = s.cr3 ∧ b = pml) :
    (∀ s₂, Edits (fun v _ s => FreshPool s [a, b] ∧ Unseen s a b v) a s₁ s₂ →
      ∀ w, s₂.virtualToPhysical b w = s₁.virtualToPhysical b w) ∧
    (Spaces s [s.cr3] → ∀ s₂, Edits (fun _ _ _ => True) a s₁ s₂ →
      ∀ v target s₃, SpaceEdit a v s₂ target s₃ →
        ((∀ w, s₃.virtualToPhysical b w = s₂.virtualToPhysical b w) ↔
          Unseen s₂ a b v ∨ s₂.virtualToPhysical a v = target)) := by
  refine ⟨fun s₂ hrun w => ?_, fun hforest s₂ hrun v target s₃ hedit => ?_⟩
  · induction hrun with
    | refl => rfl
    | tail _ hstep ih =>
      obtain ⟨v, target, ⟨hfresh, hunseen⟩, hedit⟩ := hstep
      rw [virtualToPhysical_eq, hedit.lookup_of_unseen hfresh hunseen, ← virtualToPhysical_eq, ih]
  · have hdup := hforest.duplicatePd (mem_singleton_self _) hok
    have hne : pml ≠ s.cr3 := by
      rintro rfl
      exact hs.fresh _ hdup.new _ (mem_singleton_self _) [] (by simp) rfl
    have ha : a ∈ [pml, s.cr3] := by
      rcases hab with ⟨rfl, -⟩ | ⟨rfl, -⟩ <;> simp
    have hb : b ∈ [pml, s.cr3] := by
      rcases hab with ⟨-, rfl⟩ | ⟨-, rfl⟩ <;> simp
    have hab' : a ≠ b := by
      rcases hab with ⟨rfl, rfl⟩ | ⟨rfl, rfl⟩
      · exact hne
      · exact hne.symm
    -- every operation keeps the forest
    have hspaces : Spaces s₂ [pml, s.cr3] := by
      clear hedit
      induction hrun with
      | refl => exact hdup.spaces
      | tail _ hstep ih =>
        obtain ⟨v, target, -, hstep⟩ := hstep
        obtain ⟨e, -, hup⟩ := hstep.updates ih ha
        exact hup.spaces
    exact hedit.translations_iff hspaces ha hb hab'

/-- A page is mapped in a directory of its own after the copy was made: the original does not see
it. -/
theorem copy_translations_bareKernel : ∃ s s₁ s₂ : PagingState,
    s.duplicateCurrentPml4 = .ok (s₁, 0x5000) ∧
      s₁.mapMemory 0x5000 0x40000000 0x200000 3 = .ok s₂ ∧
      s₂.virtualToPhysical 0x5000 0x40000000 = 0x200000 ∧
      s₂.virtualToPhysical 0x1000 0x40000000 = 0 ∧
      s₂.virtualToPhysical 0x1000 0x400000 = 0x100000 := by
  obtain ⟨s, hlow, ⟨s₁, _⟩, hcopy, s₂, hmap, rfl, hpath, hnew, hother, hpage⟩ :
      ∃ s, bareKernel.mapMemory 0x1000 0x400000 0x100000 3 = .ok s ∧
      ∃ r, s.duplicateCurrentPml4 = .ok r ∧
      ∃ s', r.1.mapMemory 0x5000 0x40000000 0x200000 3 = .ok s' ∧ r.2 = 0x5000 ∧
      r.1.paths 0x5000 (path 0x40000000) = none ∧
      s'.virtualToPhysical 0x5000 0x40000000 = 0x200000 ∧
      r.1.virtualToPhysical 0x1000 0x40000000 = 0 ∧
      r.1.virtualToPhysical 0x1000 0x400000 = 0x100000 := by
    decide +kernel
  obtain ⟨-, hup, -⟩ := spaces_bareKernel.mapMemoryHh (mem_singleton_self _) hlow
  have hcr3 : s.cr3 = 0x1000 := hup.cr3
  have hs : Spaces s [s.cr3] := by
    rw [hcr3]
    exact hup.spaces
  have hboth := (hs.duplicatePd (mem_singleton_self _) hcopy).spaces
  rw [hcr3] at hboth
  have hunseen : Unseen s₁ 0x5000 0x1000 0x40000000 := by
    refine (unseen_iff hboth (by simp) (by simp) (by decide)).mpr fun n hn => ?_
    exact absurd (hn.symm.trans hpath) (by simp)
  have hkeep := (copy_translations hs.freshPool hcopy (.inl ⟨rfl, hcr3.symm⟩)).1 s₂
    (.single ⟨_, _, ⟨hboth.freshPool, hunseen⟩, .map hmap⟩)
  exact ⟨s, s₁, s₂, hcopy, hmap, hnew, (hkeep _).trans hother, (hkeep _).trans hpage⟩

/-- A page that was mapped when the copy was made is unmapped in the copy, and is gone in the
original too. -/
theorem copy_translations_shared : ∃ s s₁ : PagingState, Spaces s [s.cr3] ∧ s.cr3 = 0x1000 ∧
    s.duplicateCurrentPml4 = .ok (s₁, 0x5000) ∧
      s₁.virtualToPhysical 0x1000 0x400000 = 0x100000 ∧
      (s₁.unmapMemory 0x5000 0x400000).virtualToPhysical 0x1000 0x400000 = 0 := by
  obtain ⟨s, hlow, ⟨s₁, _⟩, hcopy, rfl, hbefore, hafter⟩ :
      ∃ s, bareKernel.mapMemory 0x1000 0x400000 0x100000 3 = .ok s ∧
      ∃ r, s.duplicateCurrentPml4 = .ok r ∧ r.2 = 0x5000 ∧
      r.1.virtualToPhysical 0x1000 0x400000 = 0x100000 ∧
      (r.1.unmapMemory 0x5000 0x400000).virtualToPhysical 0x1000 0x400000 = 0 := by
    decide +kernel
  obtain ⟨-, hup, -⟩ := spaces_bareKernel.mapMemoryHh (mem_singleton_self _) hlow
  have hcr3 : s.cr3 = 0x1000 := hup.cr3
  refine ⟨s, s₁, ?_, hcr3, hcopy, hbefore, hafter⟩
  rw [hcr3]
  exact hup.spaces

end Bloodmoon
