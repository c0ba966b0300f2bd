import Bloodmoon.Paging.Coherence
import Bloodmoon.Paging.Isolation
import Bloodmoon.Proc.Loader

/-!
# The pages of a new address space

While an executable is loaded, pages are mapped in the lower halves of two address spaces, that of
the new task and the current one. `Frames` says which physical page each of their pages is on, as
two functions; every page that `request_page` returns is on its own.
-/

namespace Bloodmoon

open Machine PagingState
open List hiding lookup

variable {f p q v : ℕ} {c side : Side}

section Map

variable {s s' : PagingState} {roots : List ℕ} {r v physical flags : ℕ}

theorem virtualToPhysical_of_translation {w f : ℕ} (h : s.translation r w = some f) :
    s.virtualToPhysical r w = f := by
  rw [virtualToPhysical_eq]
  exact congrArg (Option.getD · 0) h

/-- What a page mapped in the lower half of a space changes. -/
structure MapsLower (s s' : PagingState) (roots : List ℕ) (r v physical : ℕ) : Prop where
  spaces : Spaces s' roots
  cr3 : s'.cr3 = s.cr3
  pool : s'.pool <:+ s.pool
  own : ∀ a ∈ roots, OwnLower s roots a → OwnLower s' roots a
  others : ∀ a ∈ roots, a ≠ r → ∀ w, s'.translation a w = s.translation a w
  translation : ∀ w, s'.translation r w =
    if virtualPage w = virtualPage v then some physical else s.translation r w

/-- **`map_memory` in the lower half** changes one page of one space. -/
theorem Spaces.mapsLower (hs : Spaces s roots) (hr : r ∈ roots) (hown : OwnLower s roots r)
    (hv : v < 2 ^ 47) (hphysical : physical < 2 ^ 40)
    (hok : s.mapMemory r v physical flags = .ok s') : MapsLower s s' roots r v physical := by
  obtain ⟨halign, hup, pt, hpt⟩ := hs.mapMemoryHh hr hok
  have hown' := hown.updates hs hr hup
  have hpage : (mappedEntry physical flags).page = physical :=
    PageEntry.page_withPage (e := .blank) halign hphysical
  refine ⟨hup.spaces, hup.cr3, hup.pool, fun a ha h => h.updates hs ha hup,
    fun a ha hne w => congrArg _ (hown'.lookup_eq hup hv ha hne w), fun w => ?_⟩
  rw [translation, hup.lookup r hr w]
  by_cases hsame : s'.paths r (path w) = s'.paths r (path v) ∧ slot w = slot v
  · -- the page table of `v` is on one path only
    obtain ⟨-, hpath⟩ := hown'.unshared hr (length_path v) (length_path w) (pdpI_lt hv) hpt
      (hsame.1.trans hpt)
    rw [if_pos hsame, if_pos (virtualPage_eq_iff.2 ⟨hpath, hsame.2⟩), Option.map_some, hpage]
  · have hne : virtualPage w ≠ virtualPage v := by
      intro heq
      obtain ⟨hpath, hslot⟩ := virtualPage_eq_iff.1 heq
      exact hsame ⟨by rw [hpath], hslot⟩
    rw [if_neg hsame, if_neg hne]
    rfl

end Map

/-- The pages of userland are the pages of its addresses. -/
theorem virtualPage_of_userland (hv : v < userlandEnd) : virtualPage v = v / pageSize := by
  rw [userlandEnd] at hv
  rw [virtualPage, pageSize]
  omega

/-- The identity map is not in userland. -/
theorem virtualPage_toKernelMap_ne (hf : f < 2 ^ 40) (hv : v < userlandEnd) :
    virtualPage (toKernelMap f) ≠ virtualPage v := by
  rw [userlandEnd] at hv
  simp only [virtualPage, toKernelMap, identityMapStart, wrap]
  omega

/-- A page that is on its own: it is a page, and `request_page` will not return it. -/
structure OwnPage (s : PagingState) (f : ℕ) : Prop where
  ne_zero : f ≠ 0
  aligned : f % pageSize = 0
  lt : f < 2 ^ 40
  not_mem : f ∉ s.pool

theorem OwnPage.mono {s s' : PagingState} (h : OwnPage s f) (hpool : s'.pool ⊆ s.pool) :
    OwnPage s' f :=
  ⟨h.ne_zero, h.aligned, h.lt, fun hin => h.not_mem (hpool hin)⟩

/-- The two address spaces: that of the new task, and the current one. -/
inductive Side where
  | task
  | current
  deriving DecidableEq

/-- The physical pages of the two address spaces `R`: `F` gives them for the pages of userland that
are known. Two pages share a physical page only if they are the same page of the two spaces. -/
structure Frames (s : PagingState) (roots : List ℕ) (R : Side → ℕ) (F : Side → ℕ → Option ℕ) :
    Prop where
  spaces : Spaces s roots
  mem : ∀ side, R side ∈ roots
  ne : R .task ≠ R .current
  cr3 : s.cr3 = R .current
  own : ∀ side, OwnLower s roots (R side)
  direct : ∀ f ∈ s.pool, s.translation s.cr3 (toKernelMap f) = some f
  mapped : ∀ side, ∀ a < userlandEnd, ∀ f, F side (a / pageSize) = some f →
    s.translation (R side) a = some f
  frame : ∀ side p f, F side p = some f → OwnPage s f
  inj : ∀ side side' p q f, F side p = some f → F side' q = some f → p = q

/-- The pages after one more is known. -/
def setFrame (F : Side → ℕ → Option ℕ) (side : Side) (p f : ℕ) : Side → ℕ → Option ℕ :=
  fun c q => if c = side ∧ q = p then some f else F c q

theorem setFrame_self (F : Side → ℕ → Option ℕ) (side : Side) (p f : ℕ) :
    setFrame F side p f side p = some f := if_pos ⟨rfl, rfl⟩

theorem setFrame_of_ne (F : Side → ℕ → Option ℕ) (f : ℕ) (h : c ≠ side ∨ q ≠ p) :
    setFrame F side p f c q = F c q := if_neg (by tauto)

theorem setFrame_comm (F : Side → ℕ → Option ℕ) (f g : ℕ) (h : c ≠ side ∨ q ≠ p) :
    setFrame (setFrame F side p f) c q g = setFrame (setFrame F c q g) side p f := by
  funext d r
  simp only [setFrame]
  split_ifs with hc hside
  · obtain ⟨rfl, rfl⟩ := hc
    obtain ⟨rfl, rfl⟩ := hside
    simp at h
  all_goals rfl

namespace Frames

variable {s s' : PagingState} {roots : List ℕ} {R : Side → ℕ} {F : Side → ℕ → Option ℕ}
  {side : Side} {v f flags : ℕ}

/-- The page that `request_page` returns is not one of those that are known. -/
theorem requestPage (h : Frames s roots R F) (hreq : s.requestPage = .ok (s', f)) :
    Frames s' roots R F ∧ f < 2 ^ 40 ∧ (f ≠ 0 → OwnPage s' f) ∧ (∀ c p, F c p ≠ some f) ∧
      s'.translation s'.cr3 (toKernelMap f) = some f := by
  obtain ⟨hpool, htables, hcr3⟩ := requestPage_eq_ok hreq
  have hsub : s'.pool ⊆ s.pool := by
    rw [hpool]
    exact subset_cons_self _ _
  have hf : f ∈ s.pool := by
    rw [hpool]
    exact mem_cons_self
  have hpaths : s'.paths = s.paths := by rw [paths, paths, htables]
  have htranslation : s'.translation = s.translation := by
    funext a w
    rw [translation, translation, lookup, lookup, hpaths, htables]
  have hnodup := h.spaces.nodup
  rw [hpool] at hnodup
  refine ⟨⟨h.spaces.requestPage hreq, h.mem, h.ne, hcr3.trans h.cr3,
    fun c => ⟨hpaths ▸ (h.own c).unshared⟩, ?_, htranslation ▸ h.mapped,
    fun c p g hg => (h.frame c p g hg).mono hsub, h.inj⟩, (h.spaces.pages f hf).2,
    fun hzero => ?_, fun c p hp => ?_, ?_⟩
  · rw [htranslation, hcr3]
    exact fun g hg => h.direct g (hsub hg)
  · exact ⟨hzero, (h.spaces.pages f hf).1, (h.spaces.pages f hf).2, (nodup_cons.1 hnodup).1⟩
  · exact (h.frame c p f hp).not_mem hf
  · rw [htranslation, hcr3]
    exact h.direct f hf

section

variable (h : Frames s roots R F) (hv : v < userlandEnd)

include h hv

/-- What a page mapped in one of the address spaces changes in both. -/
theorem translation_map (hf : f < 2 ^ 40) (hok : s.mapMemory (R side) v f flags = .ok s')
    (c : Side) (w : ℕ) :
    s'.translation (R c) w =
      if c = side ∧ virtualPage w = virtualPage v then some f else s.translation (R c) w := by
  have hmap := h.spaces.mapsLower (h.mem side) (h.own side) hv hf hok
  by_cases hc : c = side
  · rw [hc, hmap.translation]
    simp only [true_and]
  · have hne : R c ≠ R side := by
      have := h.ne
      cases c <;> cases side <;> first | exact absurd rfl hc | tauto
    rw [hmap.others _ (h.mem c) hne, if_neg fun hand => hc hand.1]

/-- The identity map stays. -/
theorem translation_toKernelMap (hf : f < 2 ^ 40) (hok : s.mapMemory (R side) v f flags = .ok s')
    {g : ℕ} (hg : g < 2 ^ 40) :
    s'.translation s'.cr3 (toKernelMap g) = s.translation s.cr3 (toKernelMap g) := by
  have hcr3 := (h.spaces.mapsLower (h.mem side) (h.own side) hv hf hok).cr3
  rw [hcr3, h.cr3, h.translation_map hv hf hok]
  exact if_neg fun hand => virtualPage_toKernelMap_ne hg hv hand.2

/-- **A page is mapped** in one of the address spaces. -/
theorem map (hf : OwnPage s f) (hF : ∀ c p, F c p = some f → p = v / pageSize)
    (hok : s.mapMemory (R side) v f flags = .ok s') :
    Frames s' roots R (setFrame F side (v / pageSize) f) := by
  have hmap := h.spaces.mapsLower (h.mem side) (h.own side) hv hf.lt hok
  have hsub : s'.pool ⊆ s.pool := hmap.pool.subset
  have hnew : ∀ {c p g}, setFrame F side (v / pageSize) f c p = some g →
      F c p = some g ∨ p = v / pageSize ∧ g = f := by
    intro c p g hg
    rw [setFrame] at hg
    split_ifs at hg with heq
    · exact .inr ⟨heq.2, (Option.some.inj hg).symm⟩
    · exact .inl hg
  refine ⟨hmap.spaces, h.mem, h.ne, hmap.cr3.trans h.cr3, fun c => hmap.own _ (h.mem c) (h.own c),
    fun g hg => ?_, fun c a ha g hg => ?_, fun c p g hg => ?_, fun c c' p q g hp hq => ?_⟩
  · rw [h.translation_toKernelMap hv hf.lt hok (h.spaces.pages g (hsub hg)).2]
    exact h.direct g (hsub hg)
  · rw [h.translation_map hv hf.lt hok, virtualPage_of_userland ha, virtualPage_of_userland hv]
    rw [setFrame] at hg
    split_ifs at hg ⊢
    · exact hg
    · exact h.mapped c a ha g hg
  · rcases hnew hg with hg | ⟨-, rfl⟩
    · exact (h.frame c p g hg).mono hsub
    · exact hf.mono hsub
  · rcases hnew hp with hp' | ⟨rfl, rfl⟩ <;> rcases hnew hq with hq' | ⟨rfl, hg⟩
    · exact h.inj c c' p q g hp' hq'
    · exact hF c p (hg ▸ hp')
    · exact (hF c' q hq').symm
    · rfl

/-- A new page of the current address space. -/
theorem requestCurrentPageAt {w : ℕ} (hok : s.requestCurrentPageAt v flags = .ok (s', w)) :
    ∃ f, Frames s' roots R (setFrame F .current (v / pageSize) f) := by
  rw [PagingState.requestCurrentPageAt, PagingState.requestPageAt] at hok
  obtain ⟨⟨s₁, f⟩, hreq, hok⟩ := bind_eq_ok.1 hok
  obtain ⟨h₁, -, hown, hnew, -⟩ := h.requestPage hreq
  simp only at hok
  split_ifs at hok with hzero
  · exact absurd hok kpanic_ne_ok
  obtain ⟨s₂, hmap, hok⟩ := bind_eq_ok.1 hok
  obtain ⟨rfl, -⟩ := ok_inj hok
  rw [h.cr3] at hmap
  exact ⟨f, h₁.map hv (hown hzero) (fun c p hp => absurd hp (hnew c p)) hmap⟩

/-- The new address space gets the page that the current one has. -/
theorem share (hf : F .current (v / pageSize) = some f)
    (hok : s.mapMemory (R .task) v (s.virtualToPhysical s.cr3 v) flags = .ok s') :
    Frames s' roots R (setFrame F .task (v / pageSize) f) := by
  have htranslation := h.mapped .current v hv f hf
  rw [← h.cr3] at htranslation
  rw [virtualToPhysical_of_translation htranslation] at hok
  exact h.map hv (h.frame _ _ _ hf) (fun c p hp => h.inj c .current _ _ _ hp hf) hok

end

end Frames

/-! ### The pages of the task -/

/-- The pages in `L` have become the same in both address spaces, and the others of the task are as
they were. -/
structure SharedPages (F F' : Side → ℕ → Option ℕ) (L : List ℕ) : Prop where
  shared : ∀ v ∈ L, ∃ f, F' .task (v / pageSize) = some f ∧ F' .current (v / pageSize) = some f
  others : ∀ p, (∀ v ∈ L, p ≠ v / pageSize) → F' .task p = F .task p

namespace SharedPages

variable {F F' : Side → ℕ → Option ℕ} {L : List ℕ}

theorem nil (F : Side → ℕ → Option ℕ) : SharedPages F F [] :=
  ⟨fun _ hv => absurd hv not_mem_nil, fun _ _ => rfl⟩

/-- One more page is put in both address spaces. -/
theorem concat (h : SharedPages F F' L) (v f : ℕ) :
    SharedPages F (setFrame (setFrame F' .current (v / pageSize) f) .task (v / pageSize) f)
      (L ++ [v]) := by
  have hsame : ∀ side, setFrame (setFrame F' .current (v / pageSize) f) .task (v / pageSize) f side
      (v / pageSize) = some f := by
    intro side
    cases side with
    | task => exact setFrame_self _ _ _ _
    | current =>
      exact setFrame_self _ _ _ _
  have hother : ∀ side p, p ≠ v / pageSize →
      setFrame (setFrame F' .current (v / pageSize) f) .task (v / pageSize) f side p = F' side p :=
    fun side p hp => by rw [setFrame_of_ne _ _ (.inr hp), setFrame_of_ne _ _ (.inr hp)]
  refine ⟨fun w hw => ?_, fun p hp => ?_⟩
  · by_cases heq : w / pageSize = v / pageSize
    · rw [heq]
      exact ⟨f, hsame _, hsame _⟩
    · rw [hother _ _ heq, hother _ _ heq]
      refine h.shared w ((mem_append.1 hw).resolve_right fun hmem => heq ?_)
      rw [mem_singleton.1 hmem]
  · rw [hother _ _ (hp v (by simp))]
    exact h.others p fun w hw => hp w (mem_append_left _ hw)

end SharedPages

section Task

variable {s s' : PagingState} {roots : List ℕ} {R : Side → ℕ} {F : Side → ℕ → Option ℕ}

open LoaderState

/-- The pages of `create_user_heap`. -/
theorem Frames.createUserHeap (h : Frames s roots R F)
    (hok : LoaderState.createUserHeap s (R .task) = .ok s') :
    ∃ F', Frames s' roots R F' ∧ SharedPages F F' [userHeapPage, userStackPage] := by
  rw [LoaderState.createUserHeap] at hok
  obtain ⟨⟨s₁, w₁⟩, hreq₁, hok⟩ := bind_eq_ok.1 hok
  obtain ⟨f, h₁⟩ := h.requestCurrentPageAt (by decide) hreq₁
  obtain ⟨⟨s₂, w₂⟩, hreq₂, hok⟩ := bind_eq_ok.1 hok
  obtain ⟨g, h₂⟩ := h₁.requestCurrentPageAt (by decide) hreq₂
  simp only at hok
  rw [if_pos (by rw [h₂.cr3]; exact h₂.ne)] at hok
  obtain ⟨s₃, hmap₁, hok⟩ := bind_eq_ok.1 hok
  have hne : userHeapPage / pageSize ≠ userStackPage / pageSize := by decide
  have h₃ := h₂.share (f := f) (by decide)
    (by rw [setFrame_of_ne _ _ (.inr hne), setFrame_self]) hmap₁
  have h₄ := h₃.share (f := g) (by decide)
    (by rw [setFrame_of_ne _ _ (.inl (by decide)), setFrame_self]) hok
  refine ⟨_, h₄, ?_⟩
  -- the first page may as well have been shared before the second one was requested
  rw [setFrame_comm (setFrame F _ _ _) _ _ (.inl (by decide))]
  exact ((SharedPages.nil F).concat _ f).concat _ g

/-- The pages of `ustackalloc`. -/
theorem Frames.ustackalloc {F' : Side → ℕ → Option ℕ} {L : List ℕ} (h : Frames s roots R F')
    (hshared : SharedPages F F' L) (hok : LoaderState.ustackalloc s (R .task) = .ok s') :
    ∃ F', Frames s' roots R F' ∧ SharedPages F F' (L ++ userStack) := by
  have huser : ∀ v ∈ userStack, v < userlandEnd := by decide
  refine foldlM_ok (P := fun done t => ∃ F', Frames t roots R F' ∧ SharedPages F F' (L ++ done))
    ?_ ⟨F', h, by rwa [append_nil]⟩ hok
  intro done v rest t t' hlist ⟨F₁, h₁, hshared⟩ hround
  have hv := huser v (by rw [hlist]; simp)
  obtain ⟨⟨t₁, w⟩, hreq, hround⟩ := bind_eq_ok.1 hround
  obtain ⟨f, h₂⟩ := h₁.requestCurrentPageAt hv hreq
  simp only at hround
  rw [if_pos (by rw [h₂.cr3]; exact h₂.ne)] at hround
  rw [← append_assoc]
  exact ⟨_, h₂.share hv (setFrame_self _ _ _ _) hround, hshared.concat v f⟩

end Task

end Bloodmoon
