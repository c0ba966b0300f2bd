import Bloodmoon.Proc.Frames

/-!
# What a loaded executable finds in its address space

Every page that a segment reaches is mapped to a new page, which holds the bytes of this segment and
is zero around them. A page that two segments reach is mapped twice, and what the first of them had
there is lost. `Shows` is the refinement: the bytes of an address space are an `Image`, and a
segment puts whole pages over it.
-/

namespace Bloodmoon

open Machine LoaderState List

/-! ### Images -/

/-- The bytes of an address space, as far as they are known. -/
abbrev Image := ℕ → Option (BitVec 8)

/-- The image with the pages in `P` put over it. -/
def Image.overlay (m : Image) (P : ℕ → Prop) [DecidablePred P] (c : Bytes) : Image :=
  fun a => if P (a / pageSize) then some (c a) else m a

namespace ProgramHeader

/-- The page is one of those that the segment reaches; a segment that is empty reaches the page it
begins in, unless it begins with the page. -/
def Touches (h : ProgramHeader) (base p : ℕ) : Prop :=
  (h.vaddr + base) / pageSize ≤ p ∧ p * pageSize < h.vaddr + base + h.memsz

instance (h : ProgramHeader) (base : ℕ) : DecidablePred (h.Touches base) :=
  fun _ => inferInstanceAs (Decidable (_ ∧ _))

/-- The byte of the file at an address of the segment, and zero behind the end of the file. -/
def byte (h : ProgramHeader) (base : ℕ) (buffer : Bytes) : Bytes :=
  blit (fun _ => 0#8) (h.vaddr + base) buffer h.offset h.filesz

/-- What a segment needs: it is in userland, and has room for its part of the file. -/
structure Fits (h : ProgramHeader) (base : ℕ) : Prop where
  userland : h.vaddr + base + h.memsz ≤ userlandEnd
  filesz_le : h.filesz ≤ h.memsz

end ProgramHeader

/-- The image with a segment put over it. -/
def Image.place (base : ℕ) (buffer : Bytes) (m : Image) (h : ProgramHeader) : Image :=
  if h.type = ptLoad then m.overlay (h.Touches base) (h.byte base buffer) else m

/-! ### The refinement -/

/-- The address space of the task has the bytes of the image. -/
def Shows (s : LoaderState) (roots : List ℕ) (R : Side → ℕ) (m : Image) : Prop :=
  ∃ F, Frames s.paging roots R F ∧ ∀ a < userlandEnd, ∀ b, m a = some b →
    ∃ f, F .task (a / pageSize) = some f ∧ s.memory (f + a % pageSize) = b

namespace Shows

variable {s s' : LoaderState} {roots : List ℕ} {R : Side → ℕ} {m : Image} {v perms b : ℕ}
  {src buffer : Bytes} {h : ProgramHeader} {base : ℕ}
variable {a f g k n : ℕ} {F : Side → ℕ → Option ℕ} {paging : PagingState}

/-- Pages do not overlap. -/
theorem page_apart {x y : ℕ} (hf : f % pageSize = 0) (hg : g % pageSize = 0) (hne : f ≠ g)
    (hx : x < pageSize) (hn : n ≤ pageSize) (hy : y = f + x) : y < g ∨ g + n ≤ y := by
  rw [pageSize] at *
  omega

theorem mod_lt (a : ℕ) : a % pageSize < pageSize := Nat.mod_lt a (by decide)

/-- A store to a page that is not known leaves the bytes of those that are. -/
theorem blit_other {p : ℕ} {memory : Bytes} (hF : Frames paging roots R F) (hf : f % pageSize = 0)
    (hg : F .task p = some g) (hne : g ≠ f) (hn : n ≤ pageSize) (a : ℕ) :
    blit memory f src b n (g + a % pageSize) = memory (g + a % pageSize) :=
  blit_apply_of_outside
    (page_apart (hF.frame _ _ _ hg).aligned hf hne (mod_lt a) hn rfl)

/-- A store goes to the physical page of its address. -/
theorem store_eq_ok (htranslation : s.paging.translation s.paging.cr3 v = some f)
    (hok : s.store v src b n = .ok s') :
    f ≠ 0 ∧ s' = { s with memory := blit s.memory f src b n } := by
  simp only [store, virtualToPhysical_of_translation htranslation] at hok
  split_ifs at hok with hzero
  · exact absurd hok kpanic_ne_ok
  · exact ⟨hzero, (Except.ok.inj hok).symm⟩

/-- **A round of `allocate_segment`** puts one page over the image. -/
theorem allocatePage (hs : Shows s roots R m) (hv : v < userlandEnd)
    (hok : s.allocatePage (R .task) v perms src b = .ok s') :
    Shows s' roots R (m.overlay (· = v / pageSize) fun a => src (b + a % pageSize)) := by
  obtain ⟨F, hF, hbytes⟩ := hs
  rw [LoaderState.allocatePage] at hok
  obtain ⟨⟨paging, f⟩, hreq, hok⟩ := bind_eq_ok.1 hok
  obtain ⟨hF₁, hlt, hown, hnew, hdirect⟩ := hF.requestPage hreq
  obtain ⟨paging₂, hmap, hok⟩ := bind_eq_ok.1 hok
  rw [virtualToPhysical_of_translation hdirect] at hmap
  obtain ⟨hzero, rfl⟩ := store_eq_ok
    ((hF₁.translation_toKernelMap hv hlt hmap hlt).trans hdirect) hok
  have hf := hown hzero
  have hF₂ := hF₁.map hv hf (fun c p hp => absurd hp (hnew c p)) hmap
  refine ⟨_, hF₂, fun a ha x hx => ?_⟩
  rw [Image.overlay] at hx
  by_cases hpage : a / pageSize = v / pageSize
  · rw [if_pos hpage] at hx
    refine ⟨f, by rw [hpage, setFrame_self], ?_⟩
    rw [← Option.some.inj hx]
    refine (blit_apply_of_mem (Nat.le_add_right _ _)
      (Nat.add_lt_add_left (mod_lt a) f)).trans ?_
    rw [Nat.add_sub_cancel_left]
  · rw [if_neg hpage] at hx
    obtain ⟨g, hg, hbyte⟩ := hbytes a ha x hx
    refine ⟨g, by rw [setFrame_of_ne _ _ (.inr hpage), hg], ?_⟩
    rw [← hbyte]
    exact blit_other hF₁ hf.aligned hg (fun heq => hnew _ _ (heq ▸ hg)) (Nat.le_refl _) a

/-- The pages of a segment are those from its first one up to where it ends. -/
theorem lt_segmentPages_iff (hfits : h.Fits base) (hbase : base % pageSize = 0) (k : ℕ) :
    k < segmentPages h ↔
      ((h.vaddr + base) / pageSize + k) * pageSize < h.vaddr + base + h.memsz := by
  have hend := hfits.userland
  have htotal : wrap (h.memsz + h.vaddr % pageSize) = h.memsz + h.vaddr % pageSize :=
    wrap_of_lt (by rw [userlandEnd] at hend; rw [pageSize]; omega)
  simp only [segmentPages, htotal]
  rw [pageSize] at *
  split_ifs <;> omega

/-- The buffer holds the bytes of the segment, from the first page on. -/
theorem completeBuffer_eq (hbase : base % pageSize = 0)
    (hpage : a / pageSize = (h.vaddr + base) / pageSize + k) :
    completeBuffer h buffer (k * pageSize + a % pageSize) = h.byte base buffer a := by
  have hdiv := Nat.div_add_mod' a pageSize
  have hstart := Nat.div_add_mod' (h.vaddr + base) pageSize
  have hmod : (h.vaddr + base) % pageSize = h.vaddr % pageSize := by
    rw [Nat.add_mod, hbase, Nat.add_zero, Nat.mod_mod]
  rw [hpage, Nat.add_mul] at hdiv
  refine if_congr (by omega) ?_ rfl
  rw [show k * pageSize + a % pageSize - h.vaddr % pageSize = a - (h.vaddr + base) by omega]

/-- The address of a page of the segment. -/
theorem pageAddress_eq (hbase : base % pageSize = 0)
    (hlt : ((h.vaddr + base) / pageSize + k) * pageSize < userlandEnd) :
    wrap (wrap (h.vaddr - h.vaddr % pageSize + base) + k * pageSize) =
      ((h.vaddr + base) / pageSize + k) * pageSize := by
  have hstart : h.vaddr - h.vaddr % pageSize + base = (h.vaddr + base) / pageSize * pageSize := by
    rw [pageSize] at *
    omega
  rw [Nat.add_mul] at hlt ⊢
  rw [hstart, wrap_wrap_add]
  exact wrap_of_lt (by rw [userlandEnd] at hlt; omega)

/-- After `n` rounds the first `n` pages of the segment are over the image. -/
theorem allocatePages (hs : Shows s roots R m) (hfits : h.Fits base) (hbase : base % pageSize = 0)
    (hn : n ≤ segmentPages h)
    (hok : (List.range n).foldlM (fun s i => s.allocatePage (R .task) (wrap (wrap (h.vaddr -
      h.vaddr % pageSize + base) + i * pageSize)) perms (completeBuffer h buffer) (i *
      pageSize)) s = .ok s') :
    Shows s' roots R (m.overlay (fun p => (h.vaddr + base) / pageSize ≤ p ∧
      p < (h.vaddr + base) / pageSize + n) (h.byte base buffer)) := by
  induction n generalizing s' with
  | zero =>
    obtain rfl := Except.ok.inj hok
    convert hs using 1
    funext a
    exact if_neg (by omega)
  | succ n ih =>
    rw [range_succ, foldlM_append] at hok
    obtain ⟨t, hbefore, hok⟩ := bind_eq_ok.1 hok
    rw [foldlM_cons] at hok
    obtain ⟨t', hlast, hok⟩ := bind_eq_ok.1 hok
    obtain rfl := Except.ok.inj hok
    have hend := (lt_segmentPages_iff hfits hbase n).1 hn
    have hlt := Nat.lt_of_lt_of_le hend hfits.userland
    rw [pageAddress_eq hbase hlt] at hlast
    have hshows := (ih (Nat.le_of_succ_le hn) hbefore).allocatePage hlt hlast
    convert hshows using 1
    funext a
    rw [Nat.mul_div_cancel _ (by decide : 0 < pageSize)]
    simp only [Image.overlay]
    by_cases hpage : a / pageSize = (h.vaddr + base) / pageSize + n
    · rw [if_pos (by omega), if_pos hpage, completeBuffer_eq hbase hpage]
    · rw [if_neg hpage]
      exact if_congr (by omega) rfl rfl

/-- **`allocate_segment`** puts the pages of the segment over the image. -/
theorem allocateSegment (hs : Shows s roots R m) (hfits : h.Fits base)
    (hbase : base % pageSize = 0)
    (hok : s.allocateSegment (R .task) h buffer base = .ok s') :
    Shows s' roots R (m.place base buffer h) := by
  rw [LoaderState.allocateSegment] at hok
  rw [Image.place]
  by_cases htype : h.type = ptLoad
  · rw [if_neg (not_not.2 htype)] at hok
    rw [if_pos htype]
    convert hs.allocatePages hfits hbase (Nat.le_refl _) hok using 2
    funext p
    refine propext (and_congr_right fun hle => ?_)
    obtain ⟨k, rfl⟩ := Nat.exists_eq_add_of_le hle
    rw [Nat.add_lt_add_iff_left, lt_segmentPages_iff hfits hbase]
  · rw [if_pos htype] at hok
    rw [if_neg htype]
    obtain rfl := Except.ok.inj hok
    exact hs

/-- The loop over the program headers puts the segments over the image, one after the other. There
is a linker if there was one, or if one of the headers is `PT_INTERP`. -/
theorem loadHeaders {hs : List ProgramHeader} {ldPath ldPath' : Option ℕ}
    (hshows : Shows s roots R m)
    (hfits : ∀ h ∈ hs, h.type = ptLoad → h.Fits 0)
    (hok : loadHeaders buffer (R .task) hs s ldPath = .ok (some (s', ldPath'))) :
    Shows s' roots R (hs.foldl (Image.place 0 buffer) m) ∧
      (ldPath' = none ↔ ldPath = none ∧ ∀ h ∈ hs, h.type ≠ ptInterp) := by
  induction hs generalizing s ldPath m with
  | nil =>
    obtain ⟨rfl, rfl⟩ := some_inj (Except.ok.inj hok)
    exact ⟨hshows, by simp⟩
  | cons h hs ih =>
    have hrest : ∀ k ∈ hs, k.type = ptLoad → k.Fits 0 := (forall_mem_cons.1 hfits).2
    rw [loadHeaders] at hok
    split_ifs at hok with hload hinterp hset hlong
    · obtain ⟨t, hseg, hok⟩ := bind_eq_ok.1 hok
      have hne : h.type ≠ ptInterp := by
        rw [hload]
        decide
      have hstep := hshows.allocateSegment (hfits h mem_cons_self hload) rfl hseg
      simpa [hne] using ih hstep hrest hok
    · cases hok
    · cases hok
    · obtain ⟨⟨paging, f⟩, hreq, hok⟩ := bind_eq_ok.1 hok
      obtain ⟨t, hstore, hok⟩ := bind_eq_ok.1 hok
      obtain ⟨F, hF, hbytes⟩ := hshows
      obtain ⟨hF₁, -, hown, hnew, hdirect⟩ := hF.requestPage hreq
      obtain ⟨hzero, rfl⟩ := store_eq_ok hdirect hstore
      -- the path of the linker is on a page of its own
      have hstep : Shows ⟨paging, blit s.memory f buffer h.offset h.filesz⟩ roots R m := by
        refine ⟨F, hF₁, fun a ha x hx => ?_⟩
        obtain ⟨g, hg, hbyte⟩ := hbytes a ha x hx
        refine ⟨g, hg, ?_⟩
        rw [← hbyte]
        exact blit_other hF₁ (hown hzero).aligned hg (fun heq => hnew _ _ (heq ▸ hg))
          (Nat.not_lt.1 hlong) a
      have hplace : m.place 0 buffer h = m := if_neg hload
      simpa [hplace, hinterp] using ih hstep hrest hok
    · have hplace : m.place 0 buffer h = m := if_neg hload
      simpa [hplace, hinterp] using ih hshows hrest hok

/-- The segments of the linker are put over the image. -/
theorem loadLinker {ldBuffer : Bytes} (hshows : Shows s roots R m)
    (hfits : ∀ h ∈ programHeaders ldBuffer, h.type = ptLoad → h.Fits dynamicLinkerBaseAddress)
    (hok : s.loadLinker (R .task) buffer ldBuffer = .ok (some s')) :
    Shows s' roots R ((programHeaders ldBuffer).foldl
      (Image.place dynamicLinkerBaseAddress ldBuffer) m) := by
  rw [LoaderState.loadLinker] at hok
  split_ifs at hok
  · cases hok
  · cases hok
  · cases hok
  obtain ⟨t, hfold, hok⟩ := bind_eq_ok.1 hok
  obtain rfl := Option.some.inj (Except.ok.inj hok)
  refine foldlM_ok (P := fun done t => Shows t roots R
    (done.foldl (Image.place dynamicLinkerBaseAddress ldBuffer) m)) ?_ hshows hfold
  intro done h rest t t' hlist hdone hround
  rw [foldl_append, foldl_cons, foldl_nil]
  split_ifs at hround with hload
  · exact hdone.allocateSegment (hfits h (by rw [hlist]; simp) hload) (by decide) hround
  · obtain rfl := Except.ok.inj hround
    rw [Image.place, if_neg hload]
    exact hdone

/-- Filling pages of the task changes the bytes of these pages. -/
theorem fill_apply (hF : Frames paging roots R F) {L : List ℕ}
    (huser : ∀ v ∈ L, v < userlandEnd ∧ v % pageSize = 0)
    (hshared : ∀ v ∈ L, ∃ f, F .task (v / pageSize) = some f ∧ F .current (v / pageSize) = some f)
    (fill memory : Bytes) (hf : F .task (a / pageSize) = some f) :
    L.foldl (fun memory v => blit memory (paging.virtualToPhysical paging.cr3 v) fill v pageSize)
      memory (f + a % pageSize) =
        if ∃ v ∈ L, a / pageSize = v / pageSize then fill a else memory (f + a % pageSize) := by
  induction L generalizing memory with
  | nil => simp
  | cons v L ih =>
    have hrest := ih (forall_mem_cons.1 huser).2
      (forall_mem_cons.1 hshared).2
    rw [foldl_cons, hrest]
    simp only [exists_mem_cons_iff]
    by_cases hlater : ∃ w ∈ L, a / pageSize = w / pageSize
    · rw [if_pos hlater, if_pos (.inr hlater)]
    obtain ⟨hv, halign⟩ := huser v mem_cons_self
    obtain ⟨g, htask, hcurrent⟩ := hshared v mem_cons_self
    have hphysical : paging.virtualToPhysical paging.cr3 v = g := by
      rw [hF.cr3]
      exact virtualToPhysical_of_translation (hF.mapped .current v hv g hcurrent)
    rw [if_neg hlater, hphysical]
    by_cases hpage : a / pageSize = v / pageSize
    · -- the page of `a` is the one that is filled
      obtain rfl : f = g := Option.some.inj (hf.symm.trans (hpage ▸ htask))
      rw [if_pos (.inl hpage), blit_apply_of_mem (Nat.le_add_right _ _)
        (Nat.add_lt_add_left (mod_lt a) f)]
      have hdiv := Nat.div_add_mod' a pageSize
      have hdiv' := Nat.div_add_mod' v pageSize
      rw [hpage] at hdiv
      exact congrArg fill (by omega)
    · rw [if_neg (not_or.2 ⟨hpage, hlater⟩)]
      refine blit_other hF (hF.frame _ _ _ htask).aligned hf (fun heq => hpage ?_) (Nat.le_refl _) a
      exact hF.inj _ _ _ _ _ (heq ▸ hf) htask

/-- **`create_task`** puts the pages of the heap and the stack over the image. -/
theorem createTask {fill : Bytes} (hshows : Shows s roots R m)
    (hok : s.createTask (R .task) fill = .ok s') :
    Shows s' roots R (m.overlay (fun p => ∃ v ∈ taskPages, p = v / pageSize) fill) := by
  obtain ⟨F, hF, hbytes⟩ := hshows
  rw [LoaderState.createTask] at hok
  obtain ⟨⟨p₁, f⟩, hreq, hok⟩ := bind_eq_ok.1 hok
  obtain ⟨p₂, hheap, hok⟩ := bind_eq_ok.1 hok
  obtain ⟨p₃, hstack, hok⟩ := bind_eq_ok.1 hok
  obtain rfl := Except.ok.inj hok
  obtain ⟨F₂, hF₂, hshared₂⟩ := (hF.requestPage hreq).1.createUserHeap hheap
  obtain ⟨F₃, hF₃, hshared⟩ := hF₂.ustackalloc hshared₂ hstack
  have huser : ∀ v ∈ taskPages, v < userlandEnd ∧ v % pageSize = 0 := by decide
  refine ⟨F₃, hF₃, fun a ha x hx => ?_⟩
  rw [Image.overlay] at hx
  by_cases hpage : ∃ v ∈ taskPages, a / pageSize = v / pageSize
  · rw [if_pos hpage] at hx
    obtain ⟨v, hv, heq⟩ := hpage
    obtain ⟨g, hg, -⟩ := hshared.shared v hv
    rw [← heq] at hg
    refine ⟨g, hg, ?_⟩
    rw [← Option.some.inj hx]
    exact (fill_apply hF₃ huser hshared.shared fill _ hg).trans (if_pos ⟨v, hv, heq⟩)
  · rw [if_neg hpage] at hx
    obtain ⟨g, hg, hbyte⟩ := hbytes a ha x hx
    rw [← hshared.others _ fun v hv heq => hpage ⟨v, hv, heq⟩] at hg
    refine ⟨g, hg, ?_⟩
    rw [← hbyte]
    exact (fill_apply hF₃ huser hshared.shared fill _ hg).trans (if_neg hpage)

theorem byteAt_eq (hshows : Shows s roots R m) {x : BitVec 8} (ha : a < userlandEnd)
    (hx : m a = some x) : s.byteAt (R .task) a = some x := by
  obtain ⟨F, hF, hbytes⟩ := hshows
  obtain ⟨f, hf, hbyte⟩ := hbytes a ha x hx
  rw [byteAt, virtualToPhysical_of_translation (hF.mapped _ a ha f hf),
    if_neg (hF.frame _ _ _ hf).ne_zero, hbyte]

end Shows

/-! ### The segments of an executable -/

section Place

variable {base : ℕ} {buffer : Bytes} {hs : List ProgramHeader} {a : ℕ}

/-- Segments are put over an image as they are over nothing. -/
theorem foldl_place_apply (m : Image) : hs.foldl (Image.place base buffer) m a =
    (hs.foldl (Image.place base buffer) (fun _ => none) a).or (m a) := by
  induction hs generalizing m with
  | nil => rfl
  | cons h hs ih =>
    rw [foldl_cons, foldl_cons, ih, ih (Image.place base buffer (fun _ => none) h), Option.or_assoc]
    congr 1
    rw [Image.place, Image.place]
    split_ifs with htype
    · rw [Image.overlay, Image.overlay]
      split_ifs <;> rfl
    · rfl

/-- Segments that have nothing at an address leave zero there if they reach its page. -/
theorem foldl_place_of_zero (m : Image)
    (hzero : ∀ k ∈ hs, k.type = ptLoad → k.byte base buffer a = 0#8) :
    hs.foldl (Image.place base buffer) m a =
      if ∃ k ∈ hs, k.type = ptLoad ∧ k.Touches base (a / pageSize) then some 0#8 else m a := by
  induction hs generalizing m with
  | nil => simp
  | cons h hs ih =>
    rw [foldl_cons, ih _ (forall_mem_cons.1 hzero).2]
    simp only [exists_mem_cons_iff]
    by_cases hlater : ∃ k ∈ hs, k.type = ptLoad ∧ k.Touches base (a / pageSize)
    · rw [if_pos hlater, if_pos (.inr hlater)]
    · rw [if_neg hlater]
      by_cases hfirst : h.type = ptLoad ∧ h.Touches base (a / pageSize)
      · rw [if_pos (.inl hfirst), Image.place, if_pos hfirst.1, Image.overlay, if_pos hfirst.2,
          hzero h mem_cons_self hfirst.1]
      · rw [if_neg (not_or.2 ⟨hfirst, hlater⟩), Image.place]
        split_ifs with htype
        · exact if_neg fun htouch => hfirst ⟨htype, htouch⟩
        · rfl

end Place

variable {pd size x : ℕ} {after before : List ProgramHeader} {buffer fill : Bytes}
  {h : ProgramHeader} {ldFile : Option Bytes} {roots : List ℕ}

/-- The byte that a segment should have `x` bytes after its beginning. -/
def ProgramHeader.contents (h : ProgramHeader) (buffer : Bytes) (x : ℕ) : BitVec 8 :=
  if x < h.filesz then buffer (h.offset + x) else 0#8

theorem ProgramHeader.byte_eq (h : ProgramHeader) (buffer : Bytes) (x : ℕ) :
    h.byte 0 buffer (h.vaddr + x) = h.contents buffer x := by
  rw [byte, contents, blit, Nat.add_zero, Nat.add_sub_cancel_left]
  exact if_congr (by omega) rfl rfl

/-- The segments of an image of `size` bytes are disjoint, in userland and in the image. -/
structure WellFormedElf (buffer : Bytes) (size : ℕ) : Prop where
  fits : ∀ h ∈ programHeaders buffer, h.type = ptLoad → h.Fits 0
  inside : ∀ h ∈ programHeaders buffer, h.type = ptLoad → h.offset + h.filesz ≤ size
  disjoint : (programHeaders buffer).Pairwise fun h k => h.type = ptLoad → k.type = ptLoad →
    h.vaddr + h.memsz ≤ k.vaddr ∨ k.vaddr + k.memsz ≤ h.vaddr

/-- The image that is left of the linker. -/
def linkerImage (buffer : Bytes) (ldFile : Option Bytes) : Image :=
  match ldFile with
  | none => fun _ => none
  | some ldBuffer =>
    if ∃ h ∈ programHeaders buffer, h.type = ptInterp then
      (programHeaders ldBuffer).foldl (Image.place dynamicLinkerBaseAddress ldBuffer) fun _ => none
    else fun _ => none

/-- Every segment is in the address space. -/
def Loaded (s : LoaderState) (pd : ℕ) (buffer : Bytes) : Prop :=
  ∀ h ∈ programHeaders buffer, h.type = ptLoad → ∀ x < h.memsz,
    s.byteAt pd (h.vaddr + x) = some (h.contents buffer x)

/-- The image of the new task: the pages of the heap and the stack over the linker, and the linker
over the executable. -/
def taskImage (buffer : Bytes) (ldFile : Option Bytes) (fill : Bytes) : Image :=
  Image.overlay (fun a => (linkerImage buffer ldFile a).or
    ((programHeaders buffer).foldl (Image.place 0 buffer) (fun _ => none) a))
    (fun p => ∃ v ∈ taskPages, p = v / pageSize) fill

/-- A byte of the segment `h` is not hidden by what is mapped after it: in the pages of the heap and
the stack and in those of the linker the same byte stands, and in other pages that a later segment
reaches the byte is zero. -/
def Visible (buffer : Bytes) (ldFile : Option Bytes) (fill : Bytes) (h : ProgramHeader)
    (after : List ProgramHeader) (x : ℕ) : Prop :=
  if ∃ v ∈ taskPages, (h.vaddr + x) / pageSize = v / pageSize then
    fill (h.vaddr + x) = h.contents buffer x
  else match linkerImage buffer ldFile (h.vaddr + x) with
    | some b => b = h.contents buffer x
    | none => (∃ k ∈ after, k.type = ptLoad ∧ k.Touches 0 ((h.vaddr + x) / pageSize)) →
        h.contents buffer x = 0#8

/-- Nothing that is mapped later hides a byte of a segment. -/
def Unhidden (buffer : Bytes) (ldFile : Option Bytes) (fill : Bytes) : Prop :=
  ∀ before h after, programHeaders buffer = before ++ h :: after → h.type = ptLoad →
    ∀ x < h.memsz, Visible buffer ldFile fill h after x

section

variable (hwf : WellFormedElf buffer size) (hlist : programHeaders buffer = before ++ h :: after)
  (hload : h.type = ptLoad)

include hwf hlist hload

/-- What a later segment has at an address of a segment is zero. -/
theorem WellFormedElf.byte_later {k : ProgramHeader} (hk : k ∈ after) (hkload : k.type = ptLoad)
    (hx : x < h.memsz) :
    k.byte 0 buffer (h.vaddr + x) = 0#8 := by
  have hpair := hwf.disjoint
  rw [hlist, pairwise_append, pairwise_cons] at hpair
  have hdisjoint := hpair.2.1.1 k hk hload hkload
  have hfile := (hwf.fits k (by rw [hlist]; simp [hk]) hkload).filesz_le
  exact blit_apply_of_outside (by omega)

/-- The bytes of an executable whose segments are put over each other. -/
theorem WellFormedElf.place_apply (hx : x < h.memsz) (m : Image) :
    (programHeaders buffer).foldl (Image.place 0 buffer) m (h.vaddr + x) =
      if ∃ k ∈ after, k.type = ptLoad ∧ k.Touches 0 ((h.vaddr + x) / pageSize) then some 0#8
      else some (h.contents buffer x) := by
  have htouches : h.Touches 0 ((h.vaddr + x) / pageSize) := by
    refine ⟨Nat.div_le_div_right (by omega), ?_⟩
    have := Nat.div_mul_le_self (h.vaddr + x) pageSize
    omega
  rw [hlist, foldl_append, foldl_cons, foldl_place_of_zero _ fun k hk hkload =>
    hwf.byte_later hlist hload hk hkload hx, Image.place, if_pos hload, Image.overlay,
    if_pos htouches, h.byte_eq]

/-- The byte of the image at an address of a segment, and when it is the one of the segment. -/
theorem WellFormedElf.taskImage_apply (hx : x < h.memsz) :
    ∃ b, taskImage buffer ldFile fill (h.vaddr + x) = some b ∧
      (b = h.contents buffer x ↔ Visible buffer ldFile fill h after x) := by
  have hplace := hwf.place_apply hlist hload hx fun _ => none
  simp only [taskImage, Image.overlay, Visible, hplace]
  by_cases hpage : ∃ v ∈ taskPages, (h.vaddr + x) / pageSize = v / pageSize
  · rw [if_pos hpage, if_pos hpage]
    exact ⟨_, rfl, Iff.rfl⟩
  rw [if_neg hpage, if_neg hpage]
  cases linkerImage buffer ldFile (h.vaddr + x) with
  | some b => exact ⟨b, rfl, Iff.rfl⟩
  | none =>
    by_cases hlater : ∃ k ∈ after, k.type = ptLoad ∧ k.Touches 0 ((h.vaddr + x) / pageSize)
    · rw [if_pos hlater]
      exact ⟨_, rfl, fun heq _ => heq.symm, fun hzero => (hzero hlater).symm⟩
    · rw [if_neg hlater]
      exact ⟨_, rfl, fun _ hmem => absurd hmem hlater, fun _ => rfl⟩

end

/-- The tables before an executable is loaded: the current address space has its lower half for
itself, and the identity map leads to every page that `request_page` may return. -/
structure LoaderReady (s : LoaderState) (roots : List ℕ) : Prop where
  spaces : Spaces s.paging roots
  current : s.paging.cr3 ∈ roots
  own : OwnLower s.paging roots s.paging.cr3
  direct : ∀ f ∈ s.paging.pool, s.paging.translation s.paging.cr3 (toKernelMap f) = some f

/-- The new address space begins with nothing. -/
theorem LoaderReady.duplicate {s : LoaderState} {paging : PagingState} (h : LoaderReady s roots)
    (hok : s.paging.duplicateCurrentKernelPml4 = .ok (paging, pd)) :
    ∃ R : Side → ℕ, R .task = pd ∧
      Shows { s with paging := paging } (pd :: roots) R fun _ => none := by
  have hdup := h.spaces.duplicatePd h.current hok
  refine ⟨fun | .task => pd | .current => s.paging.cr3, rfl, fun _ _ => none, ?_, nofun⟩
  refine ⟨hdup.spaces, ?_, ?_, hdup.cr3, ?_, ?_, nofun, nofun, nofun⟩
  · rintro (_ | _)
    · exact mem_cons_self
    · exact mem_cons_of_mem _ h.current
  · -- the directory is a page that no path has led to
    exact fun heq => h.spaces.fresh pd hdup.new _ h.current [] (by decide) (congrArg some heq.symm)
  · rintro (_ | _)
    · exact .new hdup
    · exact h.own.duplicates h.current h.current hdup
  · intro f hf
    rw [hdup.cr3, PagingState.translation, hdup.lookup _ h.current]
    exact h.direct f (hdup.pool.subset hf)

/-- **`elf_load_elf`** puts the segments of the executable, those of the linker and the pages of the
task over each other. -/
theorem LoaderReady.elfLoadElf {s s' : LoaderState} (h : LoaderReady s roots)
    (hfits : ∀ h ∈ programHeaders buffer, h.type = ptLoad → h.Fits 0)
    (hld : ∀ ldBuffer ∈ ldFile, ∀ h ∈ programHeaders ldBuffer, h.type = ptLoad → h.Fits
      dynamicLinkerBaseAddress) (hok : s.elfLoadElf buffer ldFile fill = .ok (some (s', pd))) :
    ∃ R : Side → ℕ, R .task = pd ∧
      Shows s' (pd :: roots) R (taskImage buffer ldFile fill) := by
  rw [LoaderState.elfLoadElf] at hok
  split_ifs at hok
  all_goals try cases hok
  obtain ⟨⟨paging, root⟩, hdup, hok⟩ := bind_eq_ok.1 hok
  obtain ⟨R, hR, hstart⟩ := h.duplicate hdup
  obtain ⟨r, hheaders, hok⟩ := bind_eq_ok.1 hok
  subst hR
  match r, hheaders, hok with
  | some (t, none), hheaders, hok =>
    obtain ⟨t', htask, hok⟩ := bind_eq_ok.1 hok
    obtain ⟨rfl, rfl⟩ := some_inj (Except.ok.inj hok)
    obtain ⟨hloaded, hinterp⟩ := hstart.loadHeaders hfits hheaders
    have hnone : linkerImage buffer ldFile = fun _ => none := by
      have hno : ¬ ∃ h ∈ programHeaders buffer, h.type = ptInterp := fun ⟨h, hh, htype⟩ =>
        (hinterp.1 rfl).2 h hh htype
      cases ldFile with
      | none => rfl
      | some ldBuffer => exact if_neg hno
    refine ⟨R, rfl, ?_⟩
    rw [taskImage, hnone]
    exact hloaded.createTask htask
  | some (t, some path), hheaders, hok =>
    obtain ⟨hloaded, hinterp⟩ := hstart.loadHeaders hfits hheaders
    cases ldFile with
    | none => cases hok
    | some ldBuffer =>
      obtain ⟨u, hlinker, hok⟩ := bind_eq_ok.1 hok
      cases u with
      | none => cases hok
      | some u =>
        obtain ⟨t', htask, hok⟩ := bind_eq_ok.1 hok
        obtain ⟨rfl, rfl⟩ := some_inj (Except.ok.inj hok)
        have hsome : ∃ h ∈ programHeaders buffer, h.type = ptInterp := by
          by_contra hno
          exact absurd (hinterp.2 ⟨rfl, fun h hh htype => hno ⟨h, hh, htype⟩⟩)
            (Option.some_ne_none _)
        have hshows := (hloaded.loadLinker (hld ldBuffer rfl) hlinker).createTask htask
        refine ⟨R, rfl, ?_⟩
        rw [taskImage, linkerImage, if_pos hsome]
        convert hshows using 2
        funext a
        rw [foldl_place_apply (List.foldl _ _ _)]

/-- **Loading** brings every segment of a well-formed executable to its place, exactly when nothing
that is mapped later hides a byte of it. -/
theorem loaded_iff {s s' : LoaderState} {roots : List ℕ} {buffer fill : Bytes} {size pd : ℕ}
    {ldFile : Option Bytes} (hready : LoaderReady s roots) (hwf : WellFormedElf buffer size)
    (hld : ∀ ldBuffer ∈ ldFile, ∀ h ∈ programHeaders ldBuffer, h.type = ptLoad →
      h.Fits dynamicLinkerBaseAddress)
    (hok : s.elfLoadElf buffer ldFile fill = .ok (some (s', pd))) :
    Loaded s' pd buffer ↔ Unhidden buffer ldFile fill := by
  obtain ⟨R, rfl, hshows⟩ := hready.elfLoadElf hwf.fits hld hok
  have hbyte : ∀ {before h after}, programHeaders buffer = before ++ h :: after →
      h.type = ptLoad → ∀ x < h.memsz,
        (s'.byteAt (R .task) (h.vaddr + x) = some (h.contents buffer x) ↔
          Visible buffer ldFile fill h after x) := by
    intro before h after hlist hload x hx
    obtain ⟨b, himage, hvisible⟩ := hwf.taskImage_apply hlist hload hx
    have huser := (hwf.fits h (by rw [hlist]; simp) hload).userland
    rw [hshows.byteAt_eq (by omega) himage, Option.some_inj, hvisible]
  constructor
  · intro hloaded before h after hlist hload x hx
    exact (hbyte hlist hload x hx).1 (hloaded h (by rw [hlist]; simp) hload x hx)
  · intro hunhidden h hh hload x hx
    obtain ⟨before, after, hlist⟩ := append_of_mem hh
    exact (hbyte hlist hload x hx).2 (hunhidden before h after hlist hload x hx)

/-! ### Two executables -/

/-- The pages that `request_page` returns while the executables are loaded. -/
def loaderPages : List ℕ := (List.range 26).map fun i => 0x5000 + i * pageSize

/-- An empty directory, with three more pages for the tables of the identity map. -/
def emptyKernel : PagingState where
  tables := fun _ _ => .blank
  pool := [0x2000, 0x3000, 0x4000] ++ loaderPages
  cr3 := 0x1000

/-- The identity map for the pages. -/
def mapLoaderPages : Outcome PagingState :=
  loaderPages.foldlM (fun s f => s.mapMemory 0x1000 (toKernelMap f) f pageWriteBit) emptyKernel

theorem ready_mapLoaderPages {s : PagingState} (hok : mapLoaderPages = .ok s)
    (hcr3 : s.cr3 = 0x1000) (hpool : s.pool = loaderPages) (memory : Bytes) :
    LoaderReady ⟨s, memory⟩ [0x1000] := by
  have hempty : EmptySpace emptyKernel 0x1000 := ⟨fun _ => rfl, by decide, by decide, by decide⟩
  have hrun := foldlM_ok (P := fun done t => PageRun 0x1000 emptyKernel
    (done.map fun f => .map (toKernelMap f) f pageWriteBit) t) (fun {done f rest t t'} hlist hdone
    hround => by
      have hlt : ∀ f ∈ loaderPages, f < 2 ^ 40 := by decide
      rw [map_append]
      exact .step hdone (.map (hlt f (by rw [hlist]; simp)) hround)) .nil hok
  have hrefines := Refines.run hempty hrun
  have hflat : ∀ f ∈ loaderPages, (flat (loaderPages.map fun f => .map (toKernelMap f) f
      pageWriteBit) (virtualPage (toKernelMap f))).map Mapping.physical = some f := by
    decide +kernel
  refine ⟨hrefines.spaces, by rw [hcr3]; simp, ⟨fun {a p q n} ha hp hq _ hpn hqn => ?_⟩,
    fun f hf => ?_⟩
  · rw [mem_singleton.1 ha] at hqn ⊢
    rw [hcr3] at hpn ⊢
    exact ⟨rfl, hrefines.unshared hq hp hqn hpn⟩
  · rw [hpool] at hf
    have hagrees := congrArg (Option.map Mapping.physical) (hrefines.agrees (toKernelMap f))
    rw [hflat f hf, Option.map_map] at hagrees
    rw [hcr3]
    exact hagrees

/-- The image of an executable with the given program headers, and one byte at `0x200`. -/
def executable (hs : List ProgramHeader) : Bytes :=
  let header := elfHeader.set (elfHeader.set (elfHeader.set (storeLE (fun _ => 0#8) 0 4 0x464c457f)
    0 .type etExec) 0 .phoff elfHeader.size) 0 .phnum hs.length
  (hs.zipIdx).foldl (fun buffer (h, i) =>
    let a := elfHeader.size + programHeader.size * i
    programHeader.set (programHeader.set (programHeader.set (programHeader.set (programHeader.set
      buffer a .type h.type) a .offset h.offset) a .vaddr h.vaddr) a .filesz h.filesz) a .memsz
      h.memsz) (storeLE header 0x200 1 0xaa)

/-- The byte of the file at `a`, and a zero behind it. -/
def segmentAt (a : ℕ) : ProgramHeader := ⟨ptLoad, 0, 0x200, a, 1, 2⟩

/-- An executable with a segment at `0x400000` and a second one at `a`. -/
def twoSegments (a : ℕ) : Bytes := executable [segmentAt 0x400000, segmentAt a]

theorem wellFormedElf_twoSegments {a : ℕ} (ha : a = 0x400800 ∨ a = 0x401000) :
    programHeaders (twoSegments a) = [segmentAt 0x400000, segmentAt a] ∧
      WellFormedElf (twoSegments a) 0x201 := by
  have hheaders : programHeaders (twoSegments a) = [segmentAt 0x400000, segmentAt a] := by
    rcases ha with rfl | rfl <;> decide +kernel
  refine ⟨hheaders, ?_, ?_, ?_⟩ <;> rw [hheaders]
  · intro h hh _
    rw [mem_cons, mem_singleton] at hh
    rcases ha with rfl | rfl <;> rcases hh with rfl | rfl <;> exact ⟨by decide, by decide⟩
  · simp [segmentAt]
  · rcases ha with rfl | rfl <;> decide

/-- Both executables are loaded to the directory `0x5000`. -/
def loadExecutable (a : ℕ) : Outcome (ℕ × List ℕ × Option (ℕ × Option (BitVec 8))) := do
  let s ← mapLoaderPages
  let r ← LoaderState.elfLoadElf ⟨s, fun _ => 0#8⟩ (twoSegments a) none fun _ => 0#8
  return (s.cr3, s.pool, r.map fun (s, pd) => (pd, s.byteAt pd 0x400000))

theorem exists_load (a pd : ℕ) (b : Option (BitVec 8))
    (hrun : loadExecutable a = .ok (0x1000, loaderPages, some (pd, b))) :
    ∃ s s', LoaderReady s [0x1000] ∧
      s.elfLoadElf (twoSegments a) none (fun _ => 0#8) = .ok (some (s', pd)) ∧
      s'.byteAt pd 0x400000 = b := by
  obtain ⟨s, hmap, hrun⟩ := bind_eq_ok.1 hrun
  obtain ⟨r, hload, hrun⟩ := bind_eq_ok.1 hrun
  obtain ⟨hcr3, hrest⟩ := ok_inj hrun
  obtain ⟨hpool, hr⟩ := Prod.mk.inj hrest
  obtain ⟨⟨s', pd'⟩, rfl, heq⟩ := Option.map_eq_some_iff.1 hr
  obtain ⟨rfl, hbyte⟩ := Prod.mk.inj heq
  exact ⟨_, s', ready_mapLoaderPages hmap hcr3 hpool _, hload, hbyte⟩

/-- Two segments in different pages are loaded. -/
theorem loaded_twoSegments : ∃ s s' pd, LoaderReady s [0x1000] ∧
    WellFormedElf (twoSegments 0x401000) 0x201 ∧
    s.elfLoadElf (twoSegments 0x401000) none (fun _ => 0#8) = .ok (some (s', pd)) ∧
    Loaded s' pd (twoSegments 0x401000) := by
  obtain ⟨s, s', hready, hload, -⟩ := exists_load 0x401000 0x5000 (some 0xaa#8) (by decide +kernel)
  obtain ⟨hheaders, hwf⟩ := wellFormedElf_twoSegments (.inr rfl)
  refine ⟨s, s', _, hready, hwf, hload, (loaded_iff hready hwf
    (fun _ hmem => absurd hmem (Option.not_mem_none _)) hload).2 ?_⟩
  intro before h after hlist hload x hx
  rw [hheaders] at hlist
  have hcases : h = segmentAt 0x400000 ∧ after = [segmentAt 0x401000] ∨
      h = segmentAt 0x401000 ∧ after = [] := by
    rcases before with _ | ⟨_, _ | ⟨_, before⟩⟩
    · exact .inl ⟨(List.cons.inj hlist).1.symm, (List.cons.inj hlist).2.symm⟩
    · have hlist := (List.cons.inj hlist).2
      exact .inr ⟨(List.cons.inj hlist).1.symm, (List.cons.inj hlist).2.symm⟩
    · simp at hlist
  have hpage : ¬ ∃ v ∈ taskPages, (h.vaddr + x) / pageSize = v / pageSize := by
    have hlow : ∀ v ∈ taskPages, 0x402000 ≤ v := by decide
    rintro ⟨v, hv, heq⟩
    have := hlow v hv
    rw [pageSize] at heq
    rcases hcases with ⟨rfl, -⟩ | ⟨rfl, -⟩ <;> simp only [segmentAt] at hx heq <;> omega
  rw [Visible, if_neg hpage]
  rintro ⟨k, hk, -, hlow, -⟩
  rcases hcases with ⟨rfl, rfl⟩ | ⟨rfl, rfl⟩
  · rw [mem_singleton.1 hk] at hlow
    simp only [segmentAt, pageSize] at hx hlow
    omega
  · exact absurd hk not_mem_nil

/-- With the second segment in the page of the first one, the byte at `0x400000` is lost. -/
theorem not_loaded_twoSegments : ∃ s s' pd, LoaderReady s [0x1000] ∧
    WellFormedElf (twoSegments 0x400800) 0x201 ∧
    s.elfLoadElf (twoSegments 0x400800) none (fun _ => 0#8) = .ok (some (s', pd)) ∧
    s'.byteAt pd 0x400000 = some 0#8 ∧
    (segmentAt 0x400000).contents (twoSegments 0x400800) 0 = 0xaa#8 ∧
    ¬ Loaded s' pd (twoSegments 0x400800) := by
  obtain ⟨s, s', hready, hload, hbyte⟩ := exists_load 0x400800 0x5000 (some 0#8) (by decide +kernel)
  obtain ⟨hheaders, hwf⟩ := wellFormedElf_twoSegments (.inl rfl)
  have hcontents : (segmentAt 0x400000).contents (twoSegments 0x400800) 0 = 0xaa#8 := by
    decide +kernel
  refine ⟨s, s', _, hready, hwf, hload, hbyte, hcontents, fun hloaded => ?_⟩
  have hfirst := hloaded (segmentAt 0x400000) (by rw [hheaders]; simp) rfl 0 (by decide)
  exact absurd (hbyte.symm.trans hfirst) (by decide)

end Bloodmoon
