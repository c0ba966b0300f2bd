import Bloodmoon.Paging.Duplicate
import Bloodmoon.Paging.FlatMap

/-!
# Isolation of address spaces

`duplicate_current_kernel_pml4` makes an address space with the kernel half of the current one and
an empty lower half. The page tables of the kernel half are shared, those of the lower half are made
later, from fresh pages, and belong to one address space (`OwnLower`). So what is done in the lower
half of one address space is not seen in any other.
-/

namespace Bloodmoon

open Machine Relation List

/-! ### Operations and histories -/

/-- An operation on addresses with `P` of the address space `r`. Permissions are changed on pages
that are mapped. -/
inductive SpaceOp (P : ℕ → Prop) (r : ℕ) (s : PagingState) : PagingState → Prop
  | map {virtual physical flags : ℕ} {s' : PagingState} (hP : P virtual)
      (hok : s.mapMemory r virtual physical flags = .ok s') : SpaceOp P r s s'
  | unmap {virtual : ℕ} (hP : P virtual) : SpaceOp P r s (s.unmapMemory r virtual)
  | mprotect {address size permissions : ℕ}
      (hP : ∀ v, address - address % pageSize ≤ v → v < address + size → P v)
      (hmapped : ∀ v, address - address % pageSize ≤ v → v < address + size → s.lookup r v ≠ none) :
      SpaceOp P r s (s.mprotect r address size permissions)

/-- The states that are reached from `s₀`, with the address spaces `created` by
`duplicate_current_kernel_pml4` on the way: the current one is duplicated, another one becomes the
current one, and operations are made on any of them. -/
inductive SpaceHistory (s₀ : PagingState) (roots₀ : List ℕ) : PagingState → List ℕ → Prop
  | init : SpaceHistory s₀ roots₀ s₀ []
  | create {s s' : PagingState} {created : List ℕ} {pml : ℕ}
      (hist : SpaceHistory s₀ roots₀ s created)
      (hok : s.duplicateCurrentKernelPml4 = .ok (s', pml)) :
      SpaceHistory s₀ roots₀ s' (pml :: created)
  | switch {s : PagingState} {created : List ℕ} {r : ℕ} (hist : SpaceHistory s₀ roots₀ s created)
      (hr : r ∈ created ++ roots₀) : SpaceHistory s₀ roots₀ { s with cr3 := r } created
  | operate {s s' : PagingState} {created : List ℕ} {r : ℕ}
      (hist : SpaceHistory s₀ roots₀ s created) (hr : r ∈ created ++ roots₀)
      (hop : SpaceOp (fun _ => True) r s s') : SpaceHistory s₀ roots₀ s' created

/-! ### Operations as updates of pages -/

section Operations

variable {P : ℕ → Prop} {s s' : PagingState} {roots : List ℕ} {r permissions : ℕ}

/-- An update of one page of the space `r`. -/
def PageUpdate (P : ℕ → Prop) (roots : List ℕ) (r : ℕ) (s s' : PagingState) : Prop :=
  ∃ v f, P v ∧ Updates s s' roots r v f

/-- The loop of `mprotect` updates its pages one by one. -/
theorem protectPages_updates (hr : r ∈ roots) (n : ℕ) : ∀ {i s}, Spaces s roots →
    (∀ k < n, P (i + k * pageSize) ∧ s.lookup r (i + k * pageSize) ≠ none) →
    ReflTransGen (PageUpdate P roots r) s (s.protectPages r permissions i n) := by
  induction n with
  | zero => exact fun _ _ => .refl
  | succ n ih =>
    intro i s hs hpages
    have hfirst := hpages 0 (Nat.succ_pos n)
    have hup : Updates s (s.setPagePerms r i permissions) roots r i _ := hs.setPagePerms hr hfirst.2
    refine .head ⟨i, _, hfirst.1, hup⟩ (ih hup.spaces fun k hk => ?_)
    have hnext := hpages (k + 1) (Nat.succ_lt_succ hk)
    rw [Nat.succ_mul, Nat.add_comm (k * pageSize), ← Nat.add_assoc] at hnext
    refine ⟨hnext.1, ?_⟩
    -- new permissions leave a page mapped
    rw [hup.lookup r hr]
    split_ifs
    · simpa using hnext.2
    · exact hnext.2

/-- The pages that `mprotect` goes through are those of its range, even where the sum wraps. -/
private theorem mprotect_page_lt {start size stop k : ℕ} (hstop : stop ≤ start + size + 0xfff)
    (hk : k < (stop - stop % pageSize - (start - start % pageSize)) / pageSize) :
    start - start % pageSize + k * pageSize < start + size := by
  have h4096 : pageSize = 4096 := rfl
  rw [h4096] at hk ⊢
  omega

/-- **An operation updates pages of its address space**, one after another. -/
theorem SpaceOp.updates (hop : SpaceOp P r s s') (hs : Spaces s roots) (hr : r ∈ roots) :
    ReflTransGen (PageUpdate P roots r) s s' := by
  cases hop with
  | map hP hok => exact .single ⟨_, _, hP, (hs.mapMemoryHh hr hok).2.1⟩
  | unmap hP => exact .single ⟨_, _, hP, hs.unmapMemory hr⟩
  | @mprotect address size permissions hP hmapped =>
    have hwrap : ∀ n, wrap n ≤ n := fun n => Nat.mod_le n _
    have hstop := Nat.le_trans (hwrap (wrap (address + size) + 0xfff))
      (Nat.add_le_add_right (hwrap (address + size)) 0xfff)
    refine protectPages_updates hr _ hs fun k hk => ?_
    have hlt := mprotect_page_lt hstop hk
    exact ⟨hP _ (Nat.le_add_right _ _) hlt, hmapped _ (Nat.le_add_right _ _) hlt⟩

end Operations

/-! ### Page tables of the lower half -/

/-- The page tables in the lower half of the space `r` are on no other path of any space. -/
structure OwnLower (s : PagingState) (roots : List ℕ) (r : ℕ) : Prop where
  unshared : ∀ {a p q n}, a ∈ roots → p.length = 3 → q.length = 3 →
    (∀ i ∈ p.head?, i.val < 256) → s.paths r p = some n → s.paths a q = some n → a = r ∧ q = p

section OwnLower

variable {s s' : PagingState} {roots : List ℕ} {r pml a v w : ℕ}
  {f : Option PageEntry → Option PageEntry}
variable {father : ℕ}

theorem OwnLower.updates (h : OwnLower s roots r) (hs : Spaces s roots) (hr : r ∈ roots)
    (hup : Updates s s' roots a v f) : OwnLower s' roots r := by
  refine ⟨fun {b p q n} hb hp hq hlow hpn hqn => ?_⟩
  rcases hup.meet hs hr hb hp hq hpn hqn with ⟨hpn, hqn⟩ | ⟨rfl, rfl⟩
  · exact h.unshared hb hp hq hlow hpn hqn
  · exact ⟨rfl, rfl⟩

/-- A new space has copies of paths of the upper half only. -/
private theorem kernel_half (h : Duplicates s s' roots father pml 256 512) {p : List (Fin 512)}
    {n : ℕ} (hp : p.length = 3) (hn : s'.paths pml p = some n) :
    s.paths father p = some n ∧ ∀ i ∈ p.head?, 256 ≤ i.val := by
  obtain ⟨i, j, k, rfl⟩ := length_eq_three.mp hp
  rw [h.copyPaths] at hn
  split_ifs at hn with hi
  exact ⟨hn, by simpa using hi.1⟩

theorem OwnLower.duplicates (h : OwnLower s roots r) (hr : r ∈ roots) (hfather : father ∈ roots)
    (hdup : Duplicates s s' roots father pml 256 512) :
    OwnLower s' (pml :: roots) r := by
  refine ⟨fun {b p q n} hb hp hq hlow hpn hqn => ?_⟩
  rw [hdup.paths r hr p (Nat.le_of_eq hp)] at hpn
  rcases mem_cons.mp hb with rfl | hb
  · -- a path of the copy is one of the upper half of the original
    obtain ⟨hqn, hhigh⟩ := kernel_half hdup hq hqn
    obtain ⟨-, rfl⟩ := h.unshared hfather hp hq hlow hpn hqn
    obtain ⟨i, j, k, rfl⟩ := length_eq_three.mp hq
    exact absurd (hlow i rfl) (Nat.not_lt.mpr (hhigh i rfl))
  · rw [hdup.paths b hb q (Nat.le_of_eq hq)] at hqn
    exact h.unshared hb hp hq hlow hpn hqn

/-- A new space has no page tables in the lower half. -/
theorem OwnLower.new (hdup : Duplicates s s' roots father pml 256 512) :
    OwnLower s' (pml :: roots) pml := by
  refine ⟨fun {b p q n} _ hp _ hlow hpn _ => ?_⟩
  obtain ⟨-, hhigh⟩ := kernel_half hdup hp hpn
  obtain ⟨i, j, k, rfl⟩ := length_eq_three.mp hp
  exact absurd (hlow i rfl) (Nat.not_lt.mpr (hhigh i rfl))

/-- The index of an address of the lower half in the directory. -/
theorem pdpI_lt (hv : v < 2 ^ 47) : ∀ i ∈ (path v).head?, i.val < 256 := by
  intro i hi
  obtain rfl := Option.some.inj hi
  simp only [addressToMap, Fin.val_ofNat, Nat.shiftRight_eq_div_pow]
  omega

/-- **An update in the lower half of one space is not seen in another.** -/
theorem OwnLower.lookup_eq (h : OwnLower s' roots r) (hup : Updates s s' roots r v f)
    (hv : v < 2 ^ 47) (ha : a ∈ roots) (hne : a ≠ r) (w : ℕ) :
    s'.lookup a w = s.lookup a w := by
  cases hpt : s'.paths a (path w) with
  | none => exact hup.lookup_of_none ha hpt
  | some n =>
    -- the page table of `v` is on no path of another space
    rw [hup.lookup a ha w, if_neg]
    rintro ⟨hpath, -⟩
    exact hne (h.unshared ha (length_path v) (length_path w) (pdpI_lt hv) (hpath.symm.trans hpt)
      hpt).1

end OwnLower

/-! ### Isolation -/

/-- What holds after every history: the lower halves of the spaces that were created are their
own. -/
structure IsolatedSpaces (s : PagingState) (roots created : List ℕ) : Prop where
  spaces : Spaces s roots
  current : s.cr3 ∈ roots
  own : ∀ r ∈ created, OwnLower s roots r

namespace IsolatedSpaces

variable {s s' s₀ : PagingState} {roots roots₀ created : List ℕ} {P : ℕ → Prop} {r a : ℕ}

theorem update (h : IsolatedSpaces s roots created) (hsub : created ⊆ roots)
    (hup : PageUpdate P roots a s s') : IsolatedSpaces s' roots created := by
  obtain ⟨v, f, -, hup⟩ := hup
  exact ⟨hup.spaces, hup.cr3 ▸ h.current, fun r hr => (h.own r hr).updates h.spaces (hsub hr) hup⟩

theorem updates (h : IsolatedSpaces s roots created) (hsub : created ⊆ roots)
    (hrun : ReflTransGen (PageUpdate P roots a) s s') : IsolatedSpaces s' roots created := by
  induction hrun with
  | refl => exact h
  | tail _ hup ih => exact ih.update hsub hup

/-- **Every history keeps the lower halves apart.** -/
theorem history (h₀ : Spaces s₀ roots₀) (hcurrent : s₀.cr3 ∈ roots₀)
    (hist : SpaceHistory s₀ roots₀ s created) :
    IsolatedSpaces s (created ++ roots₀) created := by
  induction hist with
  | init => exact ⟨h₀, hcurrent, by simp⟩
  | create _ hok ih =>
    have hdup := ih.spaces.duplicatePd ih.current hok
    refine ⟨hdup.spaces, ?_, fun r hr => ?_⟩
    · rw [hdup.cr3]
      exact mem_cons_of_mem _ ih.current
    · rcases mem_cons.mp hr with rfl | hr
      · exact .new hdup
      · exact (ih.own r hr).duplicates (mem_append_left _ hr) ih.current hdup
  | switch _ hr ih =>
    exact ⟨⟨ih.spaces.forest, ih.spaces.fresh, ih.spaces.nodup, ih.spaces.pages⟩, hr,
      fun b hb => ⟨(ih.own b hb).unshared⟩⟩
  | operate _ hr hop ih =>
    exact ih.updates (subset_append_left _ _) (hop.updates ih.spaces hr)

/-- **Operations in the lower half of one space** are not seen in another. -/
theorem lookup_eq (h : IsolatedSpaces s roots created) (hsub : created ⊆ roots) (hr : r ∈ created)
    (ha : a ∈ roots) (hne : a ≠ r) (hrun : ReflTransGen (PageUpdate (· < 2 ^ 47) roots r) s s')
    (w : ℕ) : s'.lookup a w = s.lookup a w := by
  induction hrun with
  | refl => rfl
  | tail hbefore hlast ih =>
    have hown := ((h.updates hsub hbefore).update hsub hlast).own r hr
    obtain ⟨v, f, hv, hup⟩ := hlast
    rw [hown.lookup_eq hup hv ha hne w, ih]

/-- A sequence of operations is a sequence of updates. -/
theorem run (h : IsolatedSpaces s roots created) (hsub : created ⊆ roots) (hr : r ∈ roots)
    (hrun : ReflTransGen (SpaceOp P r) s s') : ReflTransGen (PageUpdate P roots r) s s' := by
  induction hrun with
  | refl => exact .refl
  | tail _ hop ih => exact ih.trans (hop.updates (h.updates hsub ih).spaces hr)

end IsolatedSpaces

/-- **Address spaces are isolated.** From any state that is reached by duplicating the kernel half
of the current address space, switching, and operations on any address space, whatever is mapped,
unmapped or protected in the lower half of a space that was created leaves every translation, and
the permissions of every page, of every other space as they were. -/
theorem spaces_isolated {s₀ s s' : PagingState} {roots₀ created : List ℕ} {r a : ℕ}
    (h₀ : Spaces s₀ roots₀) (hcurrent : s₀.cr3 ∈ roots₀)
    (hist : SpaceHistory s₀ roots₀ s created) (hr : r ∈ created) (ha : a ∈ created ++ roots₀)
    (hne : a ≠ r) (hrun : ReflTransGen (SpaceOp (· < 2 ^ 47) r) s s') (w : ℕ) :
    s'.virtualToPhysical a w = s.virtualToPhysical a w ∧
      (s'.lookup a w).isSome = (s.lookup a w).isSome ∧
      (s.lookup a w ≠ none → s'.getPagePerms a w = s.getPagePerms a w) := by
  have h := IsolatedSpaces.history h₀ hcurrent hist
  have hsub : created ⊆ created ++ roots₀ := subset_append_left _ _
  have hkeep := h.lookup_eq hsub hr ha hne (h.run hsub (hsub hr) hrun) w
  exact sameTranslation_of_lookup hkeep

/-- A directory at `0x1000` without entries, and pages for the tables of several spaces. -/
def bareKernel : PagingState where
  tables := fun _ _ => .blank
  pool := [0x2000, 0x3000, 0x4000, 0x5000, 0x6000, 0x7000, 0x8000, 0x9000, 0xa000, 0xb000, 0xc000,
    0xd000]
  cr3 := 0x1000

theorem spaces_bareKernel : Spaces bareKernel [0x1000] :=
  (Refines.empty ⟨fun _ => rfl, by decide, by decide, by decide⟩).spaces

/-- Two spaces are made from a kernel with one page; a page is mapped in the first one. -/
theorem spaces_isolated_bareKernel : ∃ s s',
    SpaceHistory bareKernel [0x1000] s [0x8000, 0x5000] ∧
      ReflTransGen (SpaceOp (· < 2 ^ 47) 0x5000) s s' ∧
      s'.virtualToPhysical 0x5000 0x400000 = 0x100000 ∧
      s'.virtualToPhysical 0x8000 0x400000 = 0 ∧
      s'.virtualToPhysical 0x8000 0xffff800000000000 = 0x200000 := by
  -- the whole run, with the translations before and after the last operation
  obtain ⟨s₁, hkernel, ⟨s₂, _⟩, hfirst, ⟨s₃, _⟩, hsecond, s₄, hmap, rfl, rfl, htranslate, hlower,
      hupper⟩ :
      ∃ s, bareKernel.mapMemory 0x1000 0xffff800000000000 0x200000 1 = .ok s ∧
      ∃ r₁, s.duplicateCurrentKernelPml4 = .ok r₁ ∧
      ∃ r₂, r₁.1.duplicateCurrentKernelPml4 = .ok r₂ ∧
      ∃ s', r₂.1.mapMemory 0x5000 0x400000 0x100000 3 = .ok s' ∧ r₁.2 = 0x5000 ∧ r₂.2 = 0x8000 ∧
      s'.virtualToPhysical 0x5000 0x400000 = 0x100000 ∧
      r₂.1.virtualToPhysical 0x8000 0x400000 = 0 ∧
      r₂.1.virtualToPhysical 0x8000 0xffff800000000000 = 0x200000 := by
    decide +kernel
  have hist : SpaceHistory bareKernel [0x1000] s₃ [0x8000, 0x5000] :=
    .create (.create (.operate .init (by decide) (.map trivial hkernel)) hfirst) hsecond
  have hop : ReflTransGen (SpaceOp (· < 2 ^ 47) 0x5000) s₃ s₄ := .single (.map (by decide) hmap)
  have hisolated := spaces_isolated spaces_bareKernel (by decide) hist (by decide) (a := 0x8000)
    (by decide) (by decide) hop
  exact ⟨s₃, s₄, hist, hop, htranslate, (hisolated 0x400000).1.trans hlower,
    (hisolated 0xffff800000000000).1.trans hupper⟩

end Bloodmoon
