import Bloodmoon.Heap.Regions

/-!
# The stacks of a heap

`_stackalloc` moves `lastStack` down over the pages of the new stack, and then over one page more
that it does not map. The addresses are those of a 64-bit machine, and the cursor may run past
address zero between two stacks. Counted without that, from a height well above zero, it only goes
down, and the stacks lie below each other with a page between them (`Placed`).

Each page takes a frame of physical memory, of which there are at most `2 ^ 40`. So the cursor
never comes around to the first stack again.
-/

namespace Bloodmoon

open Machine List

/-! ### Sequences of calls -/

/-- A stack: the address that `_stackalloc` returned, the length it was asked for, and the pages it
mapped. -/
structure Stack where
  addr : ℕ
  length : ℕ
  pages : List (ℕ × ℕ)

/-- The length of a stack in whole pages. -/
def Stack.size (s : Stack) : ℕ := (s.length + (pageSize - 1)) / pageSize * pageSize

/-- The frames that page requests are served with: different pages of physical memory, whose
addresses have 52 bits. -/
structure PhysicalFrames (frames : List ℕ) : Prop where
  nodup : frames.Nodup
  aligned : ∀ f ∈ frames, f % pageSize = 0
  lt : ∀ f ∈ frames, f < 2 ^ 52

theorem PhysicalFrames.length_le {frames : List ℕ} (h : PhysicalFrames frames) :
    frames.length ≤ 2 ^ 40 := by
  have hinj : ∀ f ∈ frames, ∀ g ∈ frames, f / pageSize = g / pageSize → f = g := by
    intro f hf g hg heq
    have hfmod := h.aligned f hf
    have hgmod := h.aligned g hg
    rw [pageSize_eq] at *
    omega
  have hnodup : (frames.map (· / pageSize)).Nodup := h.nodup.map_on hinj
  have hsub : frames.map (· / pageSize) ⊆ List.range (2 ^ 40) := by
    intro n hn
    obtain ⟨f, hf, rfl⟩ := mem_map.mp hn
    have hlt := h.lt f hf
    rw [mem_range, pageSize_eq]
    omega
  have hle := (List.Nodup.subperm hnodup hsub).length_le
  rwa [length_map, length_range] at hle

/-- A sequence of calls of `_stackalloc` on one heap, with the frames that are used up. Between the
calls the heap may be used otherwise, as long as `lastStack` is left alone. -/
inductive StackRun : List ℕ → HeapState → List Stack → HeapState → Prop
  | nil {h : HeapState} : StackRun [] h [] h
  | stackalloc {h h₁ h' : HeapState} {fresh : Bytes} {s : Stack} {taken frames : List ℕ}
      {later : List Stack} (hlength : 0 < s.length)
      (hok : h.stackalloc fresh s.length = .ok (h₁, s.addr))
      (hpages : h₁.mapped = s.pages ++ h.mapped) (htaken : taken.length = s.pages.length)
      (hrest : StackRun frames h₁ later h') : StackRun (taken ++ frames) h (s :: later) h'
  | other {h h₁ h' : HeapState} {frames : List ℕ} {later : List Stack}
      (hlast : h₁.lastStack = h.lastStack) (hmapped : h.mapped ⊆ h₁.mapped)
      (hrest : StackRun frames h₁ later h') : StackRun frames h later h'

/-! ### One call -/

section Call

variable {h h' : HeapState} {fresh : Bytes} {length p : ℕ}

/-- The first page below address zero is the last one of the address space. -/
private theorem stackalloc_zero (hzero : h.lastStack = 0) (hlength : 0 < length) :
    h.stackalloc fresh length =
      HeapState.stackalloc { h with lastStack := 2 ^ 64 } fresh length := by
  obtain ⟨n, hn⟩ : ∃ n, length / pageSize + (if length % pageSize ≠ 0 then 1 else 0) = n + 1 := by
    rw [pageSize_eq]
    refine Nat.exists_eq_add_one_of_ne_zero ?_
    split_ifs <;> omega
  have hfirst : wsub h.lastStack pageSize = wsub (2 ^ 64) pageSize := by
    rw [hzero]
    decide
  simp only [HeapState.stackalloc, hn, HeapState.stackPages, hfirst]

/-- **A stack ends where the cursor stood**, and leaves the cursor a page below its first page. -/
theorem stackalloc_eq_of_ok (halign : h.lastStack % pageSize = 0) (hlt : h.lastStack < 2 ^ 64)
    (hlength : 0 < length) (hok : h.stackalloc fresh length = .ok (h', p)) :
    pageSize ≤ p ∧ p + (length + (pageSize - 1)) / pageSize * pageSize =
        (if h.lastStack = 0 then 2 ^ 64 else h.lastStack) ∧
      h'.lastStack = p - pageSize ∧
      h'.mapped = (List.range ((length + (pageSize - 1)) / pageSize)).map
        (fun i => (p + i * pageSize, h.perms)) ++ h.mapped := by
  have hge : ∀ last, last % pageSize = 0 → 0 < p →
      p + (length + (pageSize - 1)) / pageSize * pageSize = last → pageSize ≤ p := by
    rintro last hmod hp rfl
    rw [Nat.add_mul_mod_self_right] at hmod
    exact Nat.le_of_dvd hp (Nat.dvd_of_mod_eq_zero hmod)
  by_cases hzero : h.lastStack = 0
  · rw [stackalloc_zero hzero hlength] at hok
    have hmod : 2 ^ 64 % pageSize = 0 := by decide
    have hpos : 0 < 2 ^ 64 := by decide
    obtain ⟨hp, hend, rfl⟩ := (stackalloc_eq_ok_iff hmod hpos (Nat.le_refl _)).mp hok
    rw [if_pos hzero]
    exact ⟨hge _ hmod hp hend, hend, rfl, rfl⟩
  · obtain ⟨hp, hend, rfl⟩ := (stackalloc_eq_ok_iff halign (Nat.pos_of_ne_zero hzero)
      (Nat.le_of_lt hlt)).mp hok
    rw [if_neg hzero]
    exact ⟨hge _ halign hp hend, hend, rfl, rfl⟩

end Call

/-! ### Stacks below each other -/

/-- The stacks lie below the height `y`, each a page below the one before. The pages of a stack are
those from its address on. -/
def Placed : ℕ → List Stack → Prop
  | _, [] => True
  | y, s :: later => ∃ base, base + s.size = y ∧ base % 2 ^ 64 = s.addr ∧
      s.addr + s.size ≤ 2 ^ 64 ∧ Placed (base - pageSize) later

/-- The pages of a stack are those from its address on. -/
def Stack.Backed (s : Stack) : Prop :=
  ∃ perms, s.pages = (List.range (s.size / pageSize)).map fun i => (s.addr + i * pageSize, perms)

/-- What the stacks take, with the page below each of them. -/
def span (made : List Stack) : ℕ := (made.map fun s => s.size + pageSize).sum

@[simp]
theorem span_cons (s : Stack) (later : List Stack) :
    span (s :: later) = s.size + pageSize + span later := sum_cons

@[simp]
theorem span_append (xs ys : List Stack) : span (xs ++ ys) = span xs + span ys := by
  rw [span, map_append, sum_append]
  rfl

namespace Stack

variable {s : Stack}

theorem length_le_size (s : Stack) : s.length ≤ s.size := by
  unfold size
  rw [pageSize_eq]
  omega

theorem size_mod (s : Stack) : s.size % pageSize = 0 := Nat.mul_mod_left _ _

theorem size_div_mul (s : Stack) : s.size / pageSize * pageSize = s.size :=
  Nat.div_mul_cancel (Nat.dvd_of_mod_eq_zero s.size_mod)

/-- What a call of `_stackalloc` returns and maps. -/
theorem of_stackalloc {h h₁ : HeapState} {fresh : Bytes} (halign : h.lastStack % pageSize = 0)
    (hlt : h.lastStack < 2 ^ 64) (hlength : 0 < s.length)
    (hok : h.stackalloc fresh s.length = .ok (h₁, s.addr))
    (hpages : h₁.mapped = s.pages ++ h.mapped) :
    pageSize ≤ s.addr ∧ s.addr + s.size = (if h.lastStack = 0 then 2 ^ 64 else h.lastStack) ∧
      h₁.lastStack = s.addr - pageSize ∧ s.Backed := by
  obtain ⟨hp, hend, hlast, hmapped⟩ := stackalloc_eq_of_ok halign hlt hlength hok
  have hcount : s.size / pageSize = (s.length + (pageSize - 1)) / pageSize :=
    Nat.mul_div_cancel _ (by decide)
  refine ⟨hp, hend, hlast, h.perms, ?_⟩
  rw [hcount]
  exact append_cancel_right (hpages.symm.trans hmapped)

theorem Backed.length_eq (hs : s.Backed) : s.pages.length * pageSize = s.size := by
  obtain ⟨perms, hpages⟩ := hs
  rw [hpages, length_map, length_range, s.size_div_mul]

/-- The pages of a stack cover it. -/
theorem Backed.exists_page (hs : s.Backed) (halign : s.addr % pageSize = 0) {x : ℕ}
    (hle : s.addr ≤ x) (hlt : x < s.addr + s.size) :
    ∃ flags, (x / pageSize * pageSize, flags) ∈ s.pages := by
  obtain ⟨perms, hpages⟩ := hs
  have hsize := s.size_mod
  refine ⟨perms, ?_⟩
  rw [hpages]
  refine mem_map.mpr ⟨(x - s.addr) / pageSize, ?_, Prod.ext ?_ rfl⟩
  all_goals
    simp only [pageSize_eq, mem_range] at *
    omega

/-- The pages of a stack lie in it. -/
theorem Backed.le_of_mem (hs : s.Backed) {page : ℕ × ℕ} (hpage : page ∈ s.pages) :
    s.addr ≤ page.1 ∧ page.1 < s.addr + s.size := by
  obtain ⟨perms, hpages⟩ := hs
  rw [hpages] at hpage
  obtain ⟨i, hi, rfl⟩ := mem_map.mp hpage
  have hlt : (i + 1) * pageSize ≤ s.size / pageSize * pageSize :=
    Nat.mul_le_mul_right pageSize (mem_range.mp hi)
  rw [s.size_div_mul, Nat.succ_mul, pageSize_eq] at hlt
  simp only [pageSize_eq]
  omega

end Stack

namespace StackRun

variable {h h' : HeapState} {frames : List ℕ} {made : List Stack}

/-- The cursor stays on page boundaries of the address space. -/
private theorem cursor_next {s : Stack} {last : ℕ} (halign : last % pageSize = 0)
    (hlt : last < 2 ^ 64) (hp : pageSize ≤ s.addr)
    (hend : s.addr + s.size = if last = 0 then 2 ^ 64 else last) :
    s.addr % pageSize = 0 ∧ (s.addr - pageSize) % pageSize = 0 ∧ s.addr - pageSize < 2 ^ 64 := by
  have hsize := s.size_mod
  rw [pageSize_eq] at *
  split_ifs at hend <;> omega

section

variable (hrun : StackRun frames h made h') (halign : h.lastStack % pageSize = 0)
  (hlt : h.lastStack < 2 ^ 64)

include hrun halign hlt

/-- The stacks and the pages below them take at most two pages for each frame. -/
theorem span_le : span made ≤ 2 * (frames.length * pageSize) := by
  induction hrun with
  | nil => exact Nat.zero_le _
  | @stackalloc h h₁ h' fresh s taken frames later hlength hok hpages htaken hrest ih =>
    obtain ⟨hp, hend, hlast, hbacked⟩ := Stack.of_stackalloc halign hlt hlength hok hpages
    obtain ⟨-, hnext, hnextlt⟩ := cursor_next halign hlt hp hend
    have hsize := hbacked.length_eq
    have hpos := s.length_le_size
    rw [span_cons, length_append, htaken, Nat.add_mul, hsize]
    rw [pageSize_eq] at *
    omega
  | other hlast hmapped hrest ih => exact ih (hlast ▸ halign) (hlast ▸ hlt)

/-- **The stacks of a run lie below each other.** -/
theorem placed {y : ℕ} (hy : y % 2 ^ 64 = h.lastStack) (hspan : span made ≤ y) : Placed y made := by
  induction hrun generalizing y with
  | nil => exact trivial
  | @stackalloc h h₁ h' fresh s taken frames later hlength hok hpages htaken hrest ih =>
    obtain ⟨hp, hend, hlast, -⟩ := Stack.of_stackalloc halign hlt hlength hok hpages
    obtain ⟨-, hnext, hnextlt⟩ := cursor_next halign hlt hp hend
    rw [span_cons] at hspan
    have hsize := s.length_le_size
    refine ⟨y - s.size, by omega, ?_, ?_, ih (hlast ▸ hnext) (hlast ▸ hnextlt) ?_ (by omega)⟩
    all_goals split_ifs at hend <;> omega
  | other hlast hmapped hrest ih =>
    exact ih (hlast ▸ halign) (hlast ▸ hlt) (hy.trans hlast.symm) hspan

/-- Each stack of a run has its pages, which stay mapped. -/
theorem backed :
    h.mapped ⊆ h'.mapped ∧
      ∀ s ∈ made, s.Backed ∧ s.addr % pageSize = 0 ∧ s.pages ⊆ h'.mapped := by
  induction hrun with
  | nil => exact ⟨List.Subset.refl _, nofun⟩
  | @stackalloc h h₁ h' fresh s taken frames later hlength hok hpages htaken hrest ih =>
    obtain ⟨hp, hend, hlast, hbacked⟩ := Stack.of_stackalloc halign hlt hlength hok hpages
    obtain ⟨haddr, hnext, hnextlt⟩ := cursor_next halign hlt hp hend
    obtain ⟨hsub, hlater⟩ := ih (hlast ▸ hnext) (hlast ▸ hnextlt)
    rw [hpages, append_subset] at hsub
    exact ⟨hsub.2, forall_mem_cons.mpr ⟨⟨hbacked, haddr, hsub.1⟩, hlater⟩⟩
  | other hlast hmapped hrest ih =>
    obtain ⟨hsub, hlater⟩ := ih (hlast ▸ halign) (hlast ▸ hlt)
    exact ⟨List.Subset.trans hmapped hsub, hlater⟩

end

end StackRun

/-! ### Distances -/

namespace Placed

variable {y : ℕ} {made xs ys : List Stack} {s t : Stack}

/-- Where a stack lies below `y`. -/
theorem exists_base (hplaced : Placed y made) (hspan : span made ≤ y) (hs : s ∈ made) :
    ∃ base, base % 2 ^ 64 = s.addr ∧ s.addr + s.size ≤ 2 ^ 64 ∧ base + s.size ≤ y ∧
      y + pageSize ≤ base + span made := by
  induction made generalizing y with
  | nil => exact absurd hs not_mem_nil
  | cons u later ih =>
    obtain ⟨base, hbase, haddr, hfits, hlater⟩ := hplaced
    rw [span_cons] at hspan ⊢
    rcases mem_cons.mp hs with rfl | hs
    · exact ⟨base, haddr, hfits, by omega, by omega⟩
    · obtain ⟨b, hb, hbfits, hbtop, hblow⟩ := ih hlater (by omega) hs
      exact ⟨b, hb, hbfits, by omega, by omega⟩

/-- The stacks after the first ones lie below those. -/
theorem drop (hplaced : Placed y (xs ++ ys)) (hspan : span (xs ++ ys) ≤ y) :
    Placed y xs ∧ Placed (y - span xs) ys := by
  induction xs generalizing y with
  | nil => exact ⟨trivial, hplaced⟩
  | cons u xs ih =>
    obtain ⟨base, hbase, haddr, hfits, hlater⟩ := hplaced
    rw [cons_append, span_cons] at hspan
    obtain ⟨hxs, hys⟩ := ih hlater (by omega)
    refine ⟨⟨base, hbase, haddr, hfits, hxs⟩, ?_⟩
    rw [span_cons]
    have hsub : y - (u.size + pageSize + span xs) = base - pageSize - span xs := by omega
    rwa [hsub]

/-- **Different stacks do not overlap**, as long as they do not go around the address space. -/
theorem pairwise (hplaced : Placed y made) (hspan : span made ≤ y) (haround : span made ≤ 2 ^ 64) :
    made.Pairwise fun s t => s.addr + s.size ≤ t.addr ∨ t.addr + t.size ≤ s.addr := by
  induction made generalizing y with
  | nil => exact List.Pairwise.nil
  | cons s later ih =>
    obtain ⟨base, hbase, haddr, hfits, hlater⟩ := hplaced
    rw [span_cons] at hspan haround
    refine pairwise_cons.mpr ⟨fun t ht => ?_, ih hlater (by omega) (by omega)⟩
    obtain ⟨b, hb, hbfits, hbtop, hblow⟩ := hlater.exists_base (by omega) ht
    omega

/-- **The page between two stacks** that follow each other belongs to no stack. -/
theorem guard (hplaced : Placed y (xs ++ s :: t :: ys)) (hspan : span (xs ++ s :: t :: ys) ≤ y)
    (haround : span (xs ++ s :: t :: ys) ≤ 2 ^ 64) :
    ∃ g, wrap (t.addr + t.size) = g ∧ wrap (g + pageSize) = s.addr ∧
      ∀ u ∈ xs ++ s :: t :: ys, g < u.addr ∨ u.addr + u.size ≤ g := by
  obtain ⟨hxs, hrest⟩ := hplaced.drop hspan
  rw [span_append, span_cons, span_cons] at hspan haround
  obtain ⟨base, hbase, haddr, hfits, hlater⟩ := hrest
  obtain ⟨base', hbase', haddr', hfits', hys⟩ := id hlater
  have h4096 := pageSize_eq
  refine ⟨(base - pageSize) % 2 ^ 64, ?_, ?_, fun u hu => ?_⟩
  · unfold wrap
    omega
  · unfold wrap
    omega
  · -- above the first of the two, the first itself, or below
    rcases mem_append.mp hu with hu | hu
    · obtain ⟨b, hb, hbfits, hbtop, hblow⟩ := hxs.exists_base (by omega) hu
      omega
    · rcases mem_cons.mp hu with rfl | hu
      · omega
      · obtain ⟨b, hb, hbfits, hbtop, hblow⟩ := hlater.exists_base
          (by rw [span_cons]; omega) hu
        rw [span_cons] at hblow
        omega

end Placed

/-- `_initHeap` puts the cursor on a page boundary. -/
theorem initHeap_lastStack {h₀ h : HeapState} {fresh : Bytes} {heapEnd stackEnd : ℕ} {user : Bool}
    (hinit : h₀.initHeap fresh heapEnd stackEnd user = .ok h) :
    h.lastStack % pageSize = 0 ∧ h.lastStack < 2 ^ 64 := by
  rw [HeapState.initHeap] at hinit
  obtain ⟨h₁, hheap, hinit⟩ := bind_eq_ok.mp hinit
  obtain ⟨h₂, hstack, hinit⟩ := bind_eq_ok.mp hinit
  obtain ⟨halign, rfl⟩ := mapPage_eq_ok_iff.mp hstack
  obtain rfl := Except.ok.inj hinit
  exact ⟨halign, wsub_lt _ _⟩

/-- **Stacks are apart, mapped and guarded.** Of all stacks made on a heap, no two overlap, every
byte of each is mapped, and between two that are made after each other there is a page that none
of the calls maps. -/
theorem stacks_apart {h₀ h h' : HeapState} {fresh : Bytes} {heapEnd stackEnd : ℕ} {user : Bool}
    {frames : List ℕ} {made : List Stack}
    (hinit : h₀.initHeap fresh heapEnd stackEnd user = .ok h) (hframes : PhysicalFrames frames)
    (hrun : StackRun frames h made h') :
    (made.Pairwise fun s t => s.addr + s.length ≤ t.addr ∨ t.addr + t.length ≤ s.addr) ∧
    (∀ s ∈ made, s.addr + s.length ≤ 2 ^ 64 ∧ ∀ x, s.addr ≤ x → x < s.addr + s.length →
      ∃ flags, (x / pageSize * pageSize, flags) ∈ h'.mapped) ∧
    ∀ xs s t ys, made = xs ++ s :: t :: ys → ∃ g, wrap (t.addr + t.size) = g ∧
      wrap (g + pageSize) = s.addr ∧ ∀ u ∈ made, ∀ flags, (g, flags) ∉ u.pages := by
  obtain ⟨halign, hlt⟩ := initHeap_lastStack hinit
  obtain ⟨-, hbacked⟩ := hrun.backed halign hlt
  -- two pages for each frame are far less than the address space
  have haround : span made ≤ 2 ^ 64 := by
    have hspan := hrun.span_le halign hlt
    have hcount := hframes.length_le
    rw [pageSize_eq] at hspan
    omega
  have hplaced : Placed (2 ^ 64 + h.lastStack) made := hrun.placed halign hlt (by omega) (by omega)
  refine ⟨?_, fun s hs => ?_, ?_⟩
  · refine (hplaced.pairwise (by omega) haround).imp fun {s t} hst => ?_
    have hs := s.length_le_size
    have ht := t.length_le_size
    omega
  · obtain ⟨base, -, hfits, -, -⟩ := hplaced.exists_base (by omega) hs
    obtain ⟨hpages, haddr, hsub⟩ := hbacked s hs
    have hlen := s.length_le_size
    refine ⟨by omega, fun x hle hlt => ?_⟩
    obtain ⟨flags, hmem⟩ := hpages.exists_page haddr hle (by omega)
    exact ⟨flags, hsub hmem⟩
  · rintro xs s t ys rfl
    obtain ⟨g, hg, hs, hfree⟩ := hplaced.guard (by omega) haround
    refine ⟨g, hg, hs, fun u hu flags hmem => ?_⟩
    have hinside := (hbacked u hu).1.le_of_mem hmem
    have := hfree u hu
    omega

/-- Two stacks on the heap at the addresses of `kernelGlobalHeap`. -/
theorem stacks_apart_kernelHeap : ∃ h h' made, kernelHeap = .ok h ∧
    StackRun [0x1000, 0x2000, 0x3000] h made h' ∧ made.map Stack.addr =
      [0xffffffff7fffc000, 0xffffffff7fffa000] ∧
    (∃ s ∈ made, s.addr = 0xffffffff7fffc000 ∧ s.length = 5000) ∧
    made.Pairwise fun s t => s.addr + s.length ≤ t.addr ∨ t.addr + t.length ≤ s.addr := by
  obtain ⟨h, hinit, ⟨h₁, _⟩, hfirst, ⟨h₂, _⟩, hsecond, rfl, rfl, hm₁, hm₂⟩ :
      ∃ h, kernelHeap = .ok h ∧ ∃ r₁, h.stackalloc (fun _ => 0#8) 5000 = .ok r₁ ∧
      ∃ r₂, r₁.1.stackalloc (fun _ => 0#8) 1 = .ok r₂ ∧ r₁.2 = 0xffffffff7fffc000 ∧
      r₂.2 = 0xffffffff7fffa000 ∧
      r₁.1.mapped = [(0xffffffff7fffc000, 1), (0xffffffff7fffd000, 1)] ++ h.mapped ∧
      r₂.1.mapped = [(0xffffffff7fffa000, 1)] ++ r₁.1.mapped := by
    decide +kernel
  have hlater : StackRun ([0x3000] ++ []) h₁ [⟨0xffffffff7fffa000, 1, [(0xffffffff7fffa000, 1)]⟩]
      h₂ :=
    .stackalloc (by decide) hsecond hm₂ rfl .nil
  have hrun : StackRun ([0x1000, 0x2000] ++ [0x3000]) h
      [⟨0xffffffff7fffc000, 5000, [(0xffffffff7fffc000, 1), (0xffffffff7fffd000, 1)]⟩,
        ⟨0xffffffff7fffa000, 1, [(0xffffffff7fffa000, 1)]⟩] h₂ :=
    .stackalloc (by decide) hfirst hm₁ rfl hlater
  have hframes : PhysicalFrames [0x1000, 0x2000, 0x3000] := ⟨by decide, by decide, by decide⟩
  exact ⟨h, h₂, _, hinit, hrun, rfl, ⟨_, mem_cons_self, rfl, rfl⟩,
    (stacks_apart hinit hframes hrun).1⟩

end Bloodmoon
