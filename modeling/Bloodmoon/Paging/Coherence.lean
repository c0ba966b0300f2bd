import Bloodmoon.Heap.Model
import Bloodmoon.Paging.Duplicate
import Bloodmoon.Paging.FlatMap

/-!
# The kernel half of the address spaces

All tasks use one kernel heap, each in its own address space. The copies that `_duplicate_pd` makes
share the page tables of the kernel half (`SharesKernel`), so a page that `expand_heap` maps in the
current address space appears in all of them as long as its page table was there before. A page
table that has to be made is linked into the tree of the current address space only: from then on
the kernel halves differ.
-/

namespace Bloodmoon

open Machine Relation PagingState
open List hiding lookup next

/-! ### Spaces and the kernel heap -/

/-- An address of the kernel half: an entry of the upper half of the directory leads to it. -/
def KernelHalf (v : ℕ) : Prop := 256 ≤ (addressToMap v).pdpI.val

/-- The physical page of an address. -/
def PagingState.translation (s : PagingState) (r v : ℕ) : Option ℕ :=
  (s.lookup r v).map PageEntry.page

/-- The loop of `expand_heap` over its pages, for the kernel heap: `kmalloc` passes the directory
in use, so that a page is mapped there and nowhere else. -/
def PagingState.growKernelHeap (s : PagingState) (heapEnd : ℕ) : ℕ → Outcome (PagingState × ℕ)
  | 0 => .ok (s, heapEnd)
  | pages + 1 => do
    let (s, newPage) ← s.requestPage
    let heapEnd := wsub heapEnd pageSize
    let s ← s.mapCurrentMemory heapEnd newPage pageWriteBit
    if heapEnd = 0 then kpanic "Failed to expand heap" else s.growKernelHeap heapEnd pages

/-- The number of pages of `expand_heap`. -/
def expandPages (length : ℕ) : ℕ :=
  let length := HeapState.expandLength length
  length / pageSize + if length % pageSize ≠ 0 then 1 else 0

/-- The address spaces, and the end of the kernel heap. -/
structure KernelSpaces where
  mem : PagingState
  spaces : List ℕ
  heapEnd : ℕ

/-- What tasks do with the address spaces and the heap of the kernel. -/
inductive KernelOp where
  | duplicate
  | duplicateKernel
  | switch (r : ℕ)
  | expand (length : ℕ)

/-- One operation that returns. -/
inductive KernelStep (k : KernelSpaces) : KernelOp → KernelSpaces → Prop
  | duplicate {mem : PagingState} {pml : ℕ} (hok : k.mem.duplicateCurrentPml4 = .ok (mem, pml)) :
      KernelStep k .duplicate { k with mem := mem, spaces := pml :: k.spaces }
  | duplicateKernel {mem : PagingState} {pml : ℕ}
      (hok : k.mem.duplicateCurrentKernelPml4 = .ok (mem, pml)) :
      KernelStep k .duplicateKernel { k with mem := mem, spaces := pml :: k.spaces }
  | switch {r : ℕ} (hr : r ∈ k.spaces) :
      KernelStep k (.switch r) { k with mem := { k.mem with cr3 := r } }
  | expand {length : ℕ} {mem : PagingState} {heapEnd : ℕ}
      (hok : k.mem.growKernelHeap k.heapEnd (expandPages length) = .ok (mem, heapEnd)) :
      KernelStep k (.expand length) { k with mem := mem, heapEnd := heapEnd }

/-- All address spaces translate the kernel half alike. -/
def Coherent (k : KernelSpaces) : Prop :=
  ∀ r ∈ k.spaces, ∀ r' ∈ k.spaces, ∀ v, KernelHalf v →
    k.mem.translation r v = k.mem.translation r' v

/-- The operation needs no new page table in the kernel half, or there is one address space. -/
def NoNewTable (k : KernelSpaces) : KernelOp → Prop
  | .expand length => (∀ r ∈ k.spaces, r = k.mem.cr3) ∨ ∀ i < expandPages length,
      KernelHalf (wsub k.heapEnd ((i + 1) * pageSize)) →
        k.mem.paths k.mem.cr3 (path (wsub k.heapEnd ((i + 1) * pageSize))) ≠ none
  | _ => True

/-! ### What an expansion maps -/

/-- The pages of `n` rounds are mapped in the current space, and no table of another one was
made. -/
structure Expands (s s' : PagingState) (roots : List ℕ) (heapEnd n : ℕ) : Prop where
  spaces : Spaces s' roots
  cr3 : s'.cr3 = s.cr3
  others : ∀ r ∈ roots, r ≠ s.cr3 → ∀ p, p.length = 3 → s'.paths r p = s.paths r p
  current : ∀ p, p.length = 3 → s'.paths s.cr3 p = s.paths s.cr3 p ∨
    s.paths s.cr3 p = none ∧ ∃ i < n, p = path (wsub heapEnd ((i + 1) * pageSize))
  kept : ∀ v, s.lookup s.cr3 v ≠ none → s'.lookup s.cr3 v ≠ none
  mapped : ∀ i < n, s'.lookup s.cr3 (wsub heapEnd ((i + 1) * pageSize)) ≠ none

section Expand

variable {s s' : PagingState} {roots : List ℕ} {heapEnd heapEnd' : ℕ}
variable {s₁ s₂ : PagingState}

/-- The page of a later round is one page further from the end of the heap before. -/
private theorem page_succ (heapEnd i : ℕ) :
    wsub (wsub heapEnd pageSize) ((i + 1) * pageSize) = wsub heapEnd ((i + 1 + 1) * pageSize) := by
  rw [wsub_wsub, Nat.succ_mul (i + 1), Nat.add_comm pageSize]

theorem Spaces.requestPage {f : ℕ} (hs : Spaces s roots) (hreq : s.requestPage = .ok (s₁, f)) :
    Spaces s₁ roots := by
  obtain ⟨hpool, htables, -⟩ := requestPage_eq_ok hreq
  have hmem : ∀ g ∈ s₁.pool, g ∈ s.pool := fun g hg => by
    rw [hpool]
    exact mem_cons_of_mem _ hg
  have hnodup := hs.nodup
  rw [hpool] at hnodup
  refine ⟨?_, fun g hg => ?_, hnodup.of_cons, fun g hg => hs.pages g (hmem g hg)⟩
  · rw [paths, htables]
    exact hs.forest
  · rw [paths, htables]
    exact hs.fresh g (hmem g hg)

/-- One round of the loop. -/
private theorem expands_round {newPage : ℕ} (hs : Spaces s roots) (hcr3 : s.cr3 ∈ roots)
    (hreq : s.requestPage = .ok (s₁, newPage))
    (hmap : s₁.mapCurrentMemory (wsub heapEnd pageSize) newPage pageWriteBit = .ok s₂) :
    Expands s s₂ roots heapEnd 1 := by
  obtain ⟨-, htables, hcr3'⟩ := requestPage_eq_ok hreq
  obtain ⟨-, hup, pt, hpt⟩ := (hs.requestPage hreq).mapMemoryHh (hcr3' ▸ hcr3) hmap
  have hpaths : s₁.paths = s.paths := by rw [paths, paths, htables]
  have hlookup : s₁.lookup = s.lookup := by
    funext r v
    rw [lookup, lookup, hpaths, htables]
  have hlast : ∀ i < 1, wsub heapEnd ((i + 1) * pageSize) = wsub heapEnd pageSize := by
    intro i hi
    rw [Nat.lt_one_iff.mp hi, Nat.zero_add, Nat.one_mul]
  rw [hcr3'] at hup
  have hsome : ∀ v, s₁.lookup s.cr3 v ≠ none → s₂.lookup s.cr3 v ≠ none := by
    intro v hv
    rw [hup.lookup _ hcr3 v]
    split_ifs
    · simp
    · exact hv
  refine ⟨hup.spaces, hup.cr3.trans hcr3', fun r hr hne p hp => ?_, fun p hp => ?_,
    hlookup ▸ hsome, fun i hi => ?_⟩
  · rcases hup.paths r hr p hp with heq | ⟨heq, -⟩
    · rw [heq, hpaths]
    · exact absurd heq hne
  · rcases hup.paths s.cr3 hcr3 p hp with heq | ⟨-, heq, hnone, -⟩
    · exact .inl (by rw [heq, hpaths])
    · exact .inr ⟨hpaths ▸ hnone, 0, Nat.one_pos, by rw [heq, hlast 0 Nat.one_pos]⟩
  · rw [hlast i hi, hup.lookup _ hcr3, if_pos ⟨rfl, rfl⟩]
    simp

/-- A round and the rounds after it. -/
private theorem Expands.succ {n : ℕ} (h : Expands s s₂ roots heapEnd 1)
    (hrest : Expands s₂ s' roots (wsub heapEnd pageSize) n) :
    Expands s s' roots heapEnd (n + 1) := by
  obtain ⟨hspaces, hcr3, hothers, hcurrent, hkept, hmapped⟩ := hrest
  rw [h.cr3] at hcr3 hothers hcurrent hkept hmapped
  refine ⟨hspaces, hcr3, fun r hr hne p hp => ?_, fun p hp => ?_, fun v hv => ?_, fun i hi => ?_⟩
  · rw [hothers r hr hne p hp, h.others r hr hne p hp]
  · rcases h.current p hp with heq | ⟨hnone, i, hi, hpi⟩
    · rcases hcurrent p hp with heq' | ⟨hnone, i, hi, hpi⟩
      · exact .inl (heq'.trans heq)
      · exact .inr ⟨heq ▸ hnone, i + 1, Nat.succ_lt_succ hi, by rw [hpi, page_succ]⟩
    · exact .inr ⟨hnone, i, Nat.lt_of_lt_of_le hi (Nat.succ_le_succ (Nat.zero_le n)), hpi⟩
  · exact hkept v (h.kept v hv)
  · cases i with
    | zero => exact hkept _ (h.mapped 0 Nat.one_pos)
    | succ i =>
      rw [← page_succ]
      exact hmapped i (Nat.lt_of_succ_lt_succ hi)

/-- **The loop of `expand_heap`** maps its pages in the current space. -/
theorem Spaces.growKernelHeap (n : ℕ) : ∀ {s heapEnd}, Spaces s roots → s.cr3 ∈ roots →
    s.growKernelHeap heapEnd n = .ok (s', heapEnd') → Expands s s' roots heapEnd n := by
  induction n with
  | zero =>
    intro s heapEnd hs hcr3 hok
    obtain ⟨rfl, -⟩ := ok_inj hok
    exact ⟨hs, rfl, fun _ _ _ _ _ => rfl, fun _ _ => .inl rfl, fun _ h => h, by simp⟩
  | succ n ih =>
    intro s heapEnd hs hcr3 hok
    rw [PagingState.growKernelHeap] at hok
    obtain ⟨⟨s₁, newPage⟩, hreq, hok⟩ := bind_eq_ok.mp hok
    obtain ⟨s₂, hmap, hok⟩ := bind_eq_ok.mp hok
    split_ifs at hok
    · exact absurd hok kpanic_ne_ok
    have hround := expands_round hs hcr3 hreq hmap
    exact hround.succ (ih hround.spaces (hround.cr3 ▸ hcr3) hok)

end Expand

/-! ### Coherence -/

/-- The spaces have the same page tables in the kernel half. -/
def SharesKernel (s : PagingState) (roots : List ℕ) : Prop :=
  ∀ r ∈ roots, ∀ r' ∈ roots, ∀ p, p.length = 3 → (∀ i ∈ p.head?, 256 ≤ i.val) →
    s.paths r p = s.paths r' p

/-- What holds in every state reached without new page tables. -/
structure SharedSpaces (k : KernelSpaces) : Prop where
  spaces : Spaces k.mem k.spaces
  current : k.mem.cr3 ∈ k.spaces
  shares : SharesKernel k.mem k.spaces

namespace SharedSpaces

variable {k k' : KernelSpaces} {op : KernelOp}
variable {heapEnd length : ℕ} {mem : PagingState}

private theorem head_path {v : ℕ} (hv : KernelHalf v) : ∀ i ∈ (path v).head?, 256 ≤ i.val := by
  intro i hi
  obtain rfl := Option.some.inj hi
  exact hv

/-- Shared page tables translate alike. -/
theorem coherent (h : SharedSpaces k) : Coherent k := by
  intro r hr r' hr' v hv
  have hpath := h.shares r hr r' hr' _ (length_path v) (head_path hv)
  rw [translation, translation, lookup, lookup, hpath]

/-- A copy has the page tables of the original in the kernel half. -/
theorem duplicates (h : SharedSpaces k) {pml start : ℕ} (hstart : start ≤ 256)
    (hdup : Duplicates k.mem mem k.spaces k.mem.cr3 pml start 512) :
    SharedSpaces { k with mem := mem, spaces := pml :: k.spaces } := by
  -- every space has the paths of the one that was current
  have hcopy : ∀ r ∈ pml :: k.spaces, ∀ p, p.length = 3 → (∀ i ∈ p.head?, 256 ≤ i.val) →
      mem.paths r p = k.mem.paths k.mem.cr3 p := by
    intro r hr p hp hhigh
    rcases mem_cons.mp hr with rfl | hr
    · obtain ⟨i, j, l, rfl⟩ := length_eq_three.mp hp
      rw [hdup.copyPaths, if_pos ⟨Nat.le_trans hstart (hhigh i rfl), i.isLt⟩]
    · rw [hdup.paths r hr p (Nat.le_of_eq hp)]
      exact h.shares r hr _ h.current p hp hhigh
  refine ⟨hdup.spaces, ?_, fun r hr r' hr' p hp hhigh => ?_⟩
  · exact hdup.cr3 ▸ mem_cons_of_mem _ h.current
  · exact (hcopy r hr p hp hhigh).trans (hcopy r' hr' p hp hhigh).symm

/-- An expansion that makes no page table keeps them shared. -/
theorem expands (h : SharedSpaces k)
    (hexp : Expands k.mem mem k.spaces k.heapEnd (expandPages length))
    (hnew : NoNewTable k (.expand length)) :
    SharedSpaces { k with mem := mem, heapEnd := heapEnd } := by
  refine ⟨hexp.spaces, hexp.cr3 ▸ h.current, ?_⟩
  rcases hnew with hsingle | htables
  · intro r hr r' hr' p _ _
    rw [hsingle r hr, hsingle r' hr']
  · have hkept : ∀ r ∈ k.spaces, ∀ p, p.length = 3 → (∀ i ∈ p.head?, 256 ≤ i.val) →
        mem.paths r p = k.mem.paths r p := by
      intro r hr p hp hhigh
      by_cases hcur : r = k.mem.cr3
      · rw [hcur]
        rcases hexp.current p hp with heq | ⟨hnone, i, hi, rfl⟩
        · exact heq
        · exact absurd hnone (htables i hi (hhigh _ rfl))
      · exact hexp.others r hr hcur p hp
    intro r hr r' hr' p hp hhigh
    rw [hkept r hr p hp hhigh, hkept r' hr' p hp hhigh]
    exact h.shares r hr r' hr' p hp hhigh

/-- **A step without new page tables keeps the kernel half shared.** -/
theorem step (h : SharedSpaces k) (hstep : KernelStep k op k') (hnew : NoNewTable k op) :
    SharedSpaces k' := by
  cases hstep with
  | duplicate hok => exact h.duplicates (Nat.zero_le _) (h.spaces.duplicatePd h.current hok)
  | duplicateKernel hok => exact h.duplicates (Nat.le_refl _) (h.spaces.duplicatePd h.current hok)
  | switch hr =>
    exact ⟨⟨h.spaces.forest, h.spaces.fresh, h.spaces.nodup, h.spaces.pages⟩, hr, h.shares⟩
  | expand hok => exact h.expands (h.spaces.growKernelHeap _ h.current hok) hnew

/-- **A new page table breaks coherence**: it is seen in the current space alone. -/
theorem not_coherent (h : SharedSpaces k)
    (hexp : Expands k.mem mem k.spaces k.heapEnd (expandPages length))
    (hnew : ¬ NoNewTable k (.expand length)) :
    ¬ Coherent { k with mem := mem, heapEnd := heapEnd } := by
  simp only [NoNewTable, not_or, not_forall, not_not] at hnew
  obtain ⟨⟨r, hr, hne⟩, i, hi, hv, hnone⟩ := hnew
  have hmapped := hexp.mapped i hi
  generalize wsub k.heapEnd ((i + 1) * pageSize) = v at hv hnone hmapped
  have hother : mem.lookup r v = none := by
    rw [lookup, hexp.others r hr hne _ (length_path v),
      h.shares r hr _ h.current _ (length_path v) (head_path hv), hnone]
    rfl
  intro hcoherent
  have heq : mem.translation k.mem.cr3 v = mem.translation r v := hcoherent _ h.current r hr v hv
  rw [translation, translation, hother, Option.map_none, Option.map_eq_none_iff] at heq
  exact hmapped heq

/-- A kernel with one address space shares it with nobody. -/
theorem init {s : PagingState} {kernel : ℕ} (hs : Spaces s [kernel]) (hcr3 : s.cr3 = kernel) :
    SharedSpaces ⟨s, [kernel], heapEnd⟩ := by
  refine ⟨hs, by simp [hcr3], fun r hr r' hr' p _ _ => ?_⟩
  rw [mem_singleton.mp hr, mem_singleton.mp hr']

end SharedSpaces

/-- **When the kernel half stays the same in all address spaces**: in every run of duplications,
switches and expansions in which no expansion needs a new page table while there is more than one
address space; and the first expansion that does need one makes them differ. -/
theorem kernelHalf_coherent_iff {s₀ : PagingState} {kernel heapEnd : ℕ} {k : KernelSpaces}
    (h₀ : Spaces s₀ [kernel]) (hcr3 : s₀.cr3 = kernel)
    (hrun : ReflTransGen (fun k k' => ∃ op, KernelStep k op k' ∧ NoNewTable k op)
      ⟨s₀, [kernel], heapEnd⟩ k) :
    Coherent k ∧ ∀ op k', KernelStep k op k' → (Coherent k' ↔ NoNewTable k op) := by
  have h : SharedSpaces k := by
    induction hrun with
    | refl => exact .init h₀ hcr3
    | tail _ hlast ih =>
      obtain ⟨op, hstep, hnew⟩ := hlast
      exact ih.step hstep hnew
  refine ⟨h.coherent, fun op k' hstep => ⟨fun hcoherent => ?_, fun hnew =>
    (h.step hstep hnew).coherent⟩⟩
  cases hstep with
  | expand hok =>
    by_contra hnew
    exact h.not_coherent (h.spaces.growKernelHeap _ h.current hok) hnew hcoherent
  | duplicate | duplicateKernel | switch => exact trivial

/-- A directory at `0x1000` without entries, and pages for tables and for the heap. -/
def kernelDirectory : PagingState where
  tables := fun _ _ => .blank
  pool := [0x2000, 0x3000, 0x4000, 0x5000, 0x6000, 0x7000, 0x8000, 0x9000]
  cr3 := 0x1000

private theorem spaces_kernelDirectory : Spaces kernelDirectory [0x1000] :=
  (Refines.empty ⟨fun _ => rfl, by decide, by decide, by decide⟩).spaces

/-- The kernel makes a space at `0x5000`, and expands its heap there. -/
private theorem kernelSteps_of {s s' t : PagingState} {e e' : ℕ}
    (hdup : s.duplicateCurrentPml4 = .ok (s', 0x5000))
    (hexp : { s' with cr3 := 0x5000 : PagingState }.growKernelHeap e (expandPages 64) =
      .ok (t, e')) :
    KernelStep ⟨s, [0x1000], e⟩ .duplicate ⟨s', [0x5000, 0x1000], e⟩ ∧
    KernelStep ⟨s', [0x5000, 0x1000], e⟩ (.switch 0x5000)
      ⟨{ s' with cr3 := 0x5000 }, [0x5000, 0x1000], e⟩ ∧
    KernelStep ⟨{ s' with cr3 := 0x5000 }, [0x5000, 0x1000], e⟩ (.expand 64)
      ⟨t, [0x5000, 0x1000], e'⟩ :=
  ⟨.duplicate hdup, .switch mem_cons_self, .expand hexp⟩

/-- The page below the first page of the kernel heap has the same page table, and is seen in both
spaces. -/
theorem kernelHalf_coherent_kernelDirectory : ∃ s k, Spaces s [0x1000] ∧
    ReflTransGen (fun k k' => ∃ op, KernelStep k op k' ∧ NoNewTable k op)
      ⟨s, [0x1000], 0xffffffff6fffe000⟩ k ∧ Coherent k ∧
    k.spaces = [0x5000, 0x1000] ∧ k.heapEnd = 0xffffffff6fffd000 ∧
    k.mem.virtualToPhysical 0x1000 0xffffffff6fffd000 = 0x8000 := by
  obtain ⟨s, hmap, ⟨s', _⟩, hdup, ⟨t, _⟩, hexp, hcr3, rfl, htable, rfl, htranslate⟩ :
      ∃ s, kernelDirectory.mapMemory 0x1000 0xffffffff6fffe000 0x100000 1 = .ok s ∧
      ∃ r, s.duplicateCurrentPml4 = .ok r ∧ ∃ t, { r.1 with cr3 := 0x5000 : PagingState
        }.growKernelHeap 0xffffffff6fffe000 (expandPages 64) = .ok t ∧ s.cr3 = 0x1000 ∧
      r.2 = 0x5000 ∧ r.1.paths 0x5000 (path (wsub 0xffffffff6fffe000 ((0 + 1) * pageSize))) ≠
        none ∧ t.2 = 0xffffffff6fffd000 ∧ t.1.virtualToPhysical 0x1000 t.2 = 0x8000 := by
    decide +kernel
  have hspaces := (spaces_kernelDirectory.mapMemoryHh (by decide) hmap).2.1.spaces
  have hpages : expandPages 64 = 1 := by decide
  have hsteps : ReflTransGen (fun k k' => ∃ op, KernelStep k op k' ∧ NoNewTable k op)
      ⟨s, [0x1000], 0xffffffff6fffe000⟩ ⟨t, [0x5000, 0x1000], 0xffffffff6fffd000⟩ := by
    obtain ⟨hfirst, hsecond, hthird⟩ := kernelSteps_of hdup hexp
    refine ((ReflTransGen.single ⟨_, hfirst, trivial⟩).tail ⟨_, hsecond, trivial⟩).tail
      ⟨_, hthird, Or.inr fun i hi _ => ?_⟩
    rw [hpages, Nat.lt_one_iff] at hi
    subst hi
    exact htable
  exact ⟨s, _, hspaces, hsteps, (kernelHalf_coherent_iff hspaces hcr3 hsteps).1, rfl, rfl,
    htranslate⟩

/-- With the heap at the lowest page of a page table, a task expands it in its own space. The page
is mapped there, and not in the space of the kernel. -/
theorem kernelHalf_not_coherent_kernelDirectory : ∃ s k, Spaces s [0x1000] ∧ s.cr3 = 0x1000 ∧
    s.virtualToPhysical 0x1000 0xffffffff6fe00000 = 0x100000 ∧
    ReflTransGen (fun k k' => ∃ op, KernelStep k op k') ⟨s, [0x1000], 0xffffffff6fe00000⟩ k ∧
    k.spaces = [0x5000, 0x1000] ∧ k.heapEnd = 0xffffffff6fdff000 ∧
    k.mem.virtualToPhysical 0x5000 0xffffffff6fdff000 = 0x8000 ∧
    k.mem.virtualToPhysical 0x1000 0xffffffff6fdff000 = 0 := by
  obtain ⟨s, hmap, ⟨s', _⟩, hdup, ⟨t, _⟩, hexp, hcr3, hfirst, rfl, rfl, htask, hkernel⟩ :
      ∃ s, kernelDirectory.mapMemory 0x1000 0xffffffff6fe00000 0x100000 1 = .ok s ∧
      ∃ r, s.duplicateCurrentPml4 = .ok r ∧ ∃ t, { r.1 with cr3 := 0x5000 : PagingState
        }.growKernelHeap 0xffffffff6fe00000 (expandPages 64) = .ok t ∧ s.cr3 = 0x1000 ∧
      s.virtualToPhysical 0x1000 0xffffffff6fe00000 = 0x100000 ∧ r.2 = 0x5000 ∧
      t.2 = 0xffffffff6fdff000 ∧ t.1.virtualToPhysical 0x5000 t.2 = 0x8000 ∧
      t.1.virtualToPhysical 0x1000 t.2 = 0 := by
    decide +kernel
  have hspaces := (spaces_kernelDirectory.mapMemoryHh (by decide) hmap).2.1.spaces
  have hsteps : ReflTransGen (fun k k' => ∃ op, KernelStep k op k')
      ⟨s, [0x1000], 0xffffffff6fe00000⟩ ⟨t, [0x5000, 0x1000], 0xffffffff6fdff000⟩ := by
    obtain ⟨hfirst, hsecond, hthird⟩ := kernelSteps_of hdup hexp
    exact ((ReflTransGen.single ⟨_, hfirst⟩).tail ⟨_, hsecond⟩).tail ⟨_, hthird⟩
  exact ⟨s, _, hspaces, hcr3, hfirst, hsteps, rfl, rfl, htask, hkernel⟩

end Bloodmoon
