import Bloodmoon.Paging.Translate

/-!
# One address space as a flat map

What an address space is for: a finite map from virtual pages to physical pages with permissions
(`FlatMap`), which operations change at one page. The four levels of tables refine it. That an
operation on one page leaves the others alone rests on no page table being reached by two paths.
-/

namespace Bloodmoon

open Machine PageEntry PagingState Option
open List hiding lookup next

/-! ### The flat map -/

/-- A physical page and the permissions on it. -/
structure Mapping where
  physical : ℕ
  permissions : ℕ
  deriving DecidableEq

/-- The mapping of each virtual page. -/
abbrev FlatMap := ℕ → Option Mapping

/-- The operations on an address space. -/
inductive PageOp where
  | map (virtual physical flags : ℕ)
  | unmap (virtual : ℕ)
  | protect (virtual permissions : ℕ)

/-- The page that an operation is on. -/
def PageOp.page : PageOp → ℕ
  | .map virtual _ _ => virtualPage virtual
  | .unmap virtual => virtualPage virtual
  | .protect virtual _ => virtualPage virtual

/-- What an operation makes of the mapping of its page. Permissions are four bits. -/
def PageOp.effect : PageOp → Option Mapping → Option Mapping
  | .map _ physical flags, _ => some ⟨physical, flags % 16⟩
  | .unmap _, _ => none
  | .protect _ permissions, x => x.map fun x => { x with permissions := permissions % 16 }

/-- The map after an operation. -/
def FlatMap.apply (m : FlatMap) (op : PageOp) : FlatMap :=
  Function.update m op.page (op.effect (m op.page))

/-- The map after a sequence of operations: of each page the latest mapping, unless it was taken
away later. -/
def flat (ops : List PageOp) : FlatMap := ops.foldl FlatMap.apply fun _ => none

/-! ### Runs of the code -/

/-- An operation of the code on the address space `r`, while the mappings are `m`. -/
inductive PageStep (r : ℕ) (m : FlatMap) (s : PagingState) : PageOp → PagingState → Prop
  | map {virtual physical flags : ℕ} {s' : PagingState} (hphysical : physical < 2 ^ 40)
      (hok : s.mapMemory r virtual physical flags = .ok s') :
      PageStep r m s (.map virtual physical flags) s'
  | unmap {virtual : ℕ} : PageStep r m s (.unmap virtual) (s.unmapMemory r virtual)
  | protect {virtual permissions : ℕ} (hmapped : m (virtualPage virtual) ≠ none) :
      PageStep r m s (.protect virtual permissions) (s.setPagePerms r virtual permissions)

/-- A sequence of operations that return. -/
inductive PageRun (r : ℕ) (s₀ : PagingState) : List PageOp → PagingState → Prop
  | nil : PageRun r s₀ [] s₀
  | step {ops : List PageOp} {op : PageOp} {s s' : PagingState} (hrun : PageRun r s₀ ops s)
      (hstep : PageStep r (flat ops) s op s') : PageRun r s₀ (ops ++ [op]) s'

/-- A directory without entries, and pages for tables. -/
structure EmptySpace (s : PagingState) (r : ℕ) : Prop where
  empty : ∀ i, (s.tables r i).present = false
  root : r ∉ s.pool
  nodup : s.pool.Nodup
  pages : ∀ f ∈ s.pool, f % pageSize = 0 ∧ f < 2 ^ 40

/-! ### Refinement -/

/-- The mapping in an entry. -/
def PageEntry.view (e : PageEntry) : Mapping := ⟨e.page, e.perms⟩

/-- The permissions written are those read. -/
theorem perms_withPerms (e : PageEntry) (permissions : ℕ) :
    (e.withPerms permissions).perms = permissions % 16 := by
  have hbit : ∀ i < 4, permissions.testBit i = (permissions % 16).testBit i := by
    intro i hi
    rw [show 16 = 2 ^ 4 from rfl, Nat.testBit_mod_two_pow, decide_eq_true hi, Bool.true_and]
  simp only [perms, withPerms, hbit 0 (by decide), hbit 1 (by decide),
    hbit 2 (by decide), hbit 3 (by decide)]
  have hall : ∀ k < 16, (k.testBit 0).toNat ||| (k.testBit 1).toNat <<< 1 |||
      (k.testBit 2).toNat <<< 2 ||| (k.testBit 3).toNat <<< 3 = k := by decide
  exact hall _ (Nat.mod_lt _ (by decide))

theorem view_mappedEntry {physical flags : ℕ} (halign : physical % pageSize = 0)
    (hlt : physical < 2 ^ 40) : (mappedEntry physical flags).view = ⟨physical, flags % 16⟩ := by
  have hpage : (blank.withPage physical).page = physical := page_withPage halign hlt
  exact Mapping.mk.injEq .. ▸ ⟨hpage, perms_withPerms (blank.withPage physical) flags⟩

/-- The tables of the space `r` hold the map `m`, and no page table is reached by two paths. -/
structure Refines (s : PagingState) (r : ℕ) (m : FlatMap) : Prop where
  spaces : Spaces s [r]
  unshared : ∀ {p q : List (Fin 512)} {n}, p.length = 3 → q.length = 3 →
    s.paths r p = some n → s.paths r q = some n → p = q
  agrees : ∀ v, (s.lookup r v).map view = m (virtualPage v)

namespace Refines

variable {s s' : PagingState} {r v w : ℕ} {m : FlatMap}

/-- A directory without entries holds the empty map. -/
theorem empty (h : EmptySpace s r) : Refines s r fun _ => none := by
  have hnone : ∀ p, p ≠ [] → s.paths r p = none := by
    intro p hp
    cases p with
    | nil => exact absurd rfl hp
    | cons i p =>
      have hnext : (s.tables r i).next = none := by simp [next, h.empty i]
      rw [paths, follow_cons, hnext, bind_none]
  have hsome : ∀ {p n}, s.paths r p = some n → p = [] ∧ n = r := by
    intro p n hpn
    by_cases hp : p = []
    · rw [hp] at hpn
      exact ⟨hp, (Option.some.inj hpn).symm⟩
    · rw [hnone p hp] at hpn
      exact absurd hpn (by simp)
  refine ⟨⟨⟨?_, ?_⟩, ?_, h.nodup, h.pages⟩, ?_, fun v => ?_⟩
  · intro a b q q' n ha hb _ _ hq hq'
    rw [mem_singleton] at ha hb
    rw [ha] at hq
    rw [hb] at hq'
    exact ⟨ha.trans hb.symm, (hsome hq).1.trans (hsome hq').1.symm⟩
  · intro a b q p n _ hb _ hp _ hpn
    rw [mem_singleton.mp hb] at hpn
    rw [(hsome hpn).1] at hp
    exact absurd hp (by simp)
  · intro f hf a ha p _ hpf
    rw [mem_singleton.mp ha] at hpf
    exact h.root ((hsome hpf).2 ▸ hf)
  · intro p q n hp _ hpn _
    rw [(hsome hpn).1] at hp
    exact absurd hp (by simp)
  · rw [lookup, hnone _ (by simp [path])]
    rfl

/-- **An operation on the tables is one on the map.** -/
theorem update (h : Refines s r m) {f : Option PageEntry → Option PageEntry}
    {g : Option Mapping → Option Mapping} (hup : Updates s s' [r] r v f)
    (hfg : (f (s.lookup r v)).map view = g (m (virtualPage v))) :
    Refines s' r (Function.update m (virtualPage v) (g (m (virtualPage v)))) := by
  have hr : r ∈ [r] := mem_singleton_self r
  have hunshared : ∀ {p q : List (Fin 512)} {n}, p.length = 3 → q.length = 3 →
      s'.paths r p = some n → s'.paths r q = some n → p = q := by
    intro p q n hp hq hpn hqn
    rcases hup.meet h.spaces hr hr hp hq hpn hqn with ⟨hpn, hqn⟩ | ⟨-, heq⟩
    · exact h.unshared hp hq hpn hqn
    · exact heq
  refine ⟨hup.spaces, hunshared, fun w => ?_⟩
  by_cases hpage : virtualPage w = virtualPage v
  · obtain ⟨hpath, hslot⟩ := virtualPage_eq_iff.mp hpage
    have hsame : s.lookup r w = s.lookup r v := by
      rw [lookup, lookup, hpath, hslot]
    rw [hup.lookup r hr w, if_pos ⟨by rw [hpath], hslot⟩, hpage, Function.update_self, hsame, hfg]
  · rw [Function.update_of_ne hpage, ← h.agrees w]
    cases hw : s'.paths r (path w) with
    | none => rw [hup.lookup_of_none hr hw]
    | some n =>
      -- another page has another page table or another slot
      rw [hup.lookup r hr w, if_neg]
      rintro ⟨hpath, hslot⟩
      exact hpage (virtualPage_eq_iff.mpr ⟨hunshared (length_path w) (length_path v) hw
        (hpath.symm.trans hw), hslot⟩)

/-- **Each operation of the code is the operation on the map.** -/
theorem step {op : PageOp} (h : Refines s r m) (hstep : PageStep r m s op s') :
    Refines s' r (m.apply op) := by
  have hr : r ∈ [r] := mem_singleton_self r
  cases hstep with
  | map hphysical hok =>
    obtain ⟨halign, hup, -⟩ := h.spaces.mapMemoryHh hr hok
    exact h.update hup (congrArg some (view_mappedEntry halign hphysical))
  | unmap => exact h.update (h.spaces.unmapMemory hr) rfl
  | @protect v permissions hmapped =>
    have hlookup : s.lookup r v ≠ none := by
      intro hnone
      rw [← h.agrees v, hnone] at hmapped
      exact hmapped rfl
    refine h.update (h.spaces.setPagePerms hr hlookup) ?_
    rw [← h.agrees v, Option.map_map, PageOp.effect, Option.map_map]
    exact Option.map_congr fun e _ => congrArg (Mapping.mk e.page) (perms_withPerms e permissions)

/-- **Every run of the code is the run on the map.** -/
theorem run {s₀ : PagingState} {ops : List PageOp} (h : EmptySpace s₀ r)
    (hrun : PageRun r s₀ ops s) : Refines s r (flat ops) := by
  induction hrun with
  | nil => exact empty h
  | step _ hstep ih =>
    rw [flat, foldl_append]
    exact ih.step hstep

theorem virtualToPhysical_eq (h : Refines s r m) (v : ℕ) :
    s.virtualToPhysical r v = ((m (virtualPage v)).map Mapping.physical).getD 0 := by
  rw [Bloodmoon.virtualToPhysical_eq, ← h.agrees v, Option.map_map]
  rfl

theorem getPagePerms_eq (h : Refines s r m) {x : Mapping} (hx : m (virtualPage v) = some x) :
    s.getPagePerms r v = x.permissions := by
  rw [← h.agrees v] at hx
  obtain ⟨e, he, rfl⟩ := map_eq_some_iff.mp hx
  exact Bloodmoon.getPagePerms_eq he

end Refines

/-- **The tables are a flat map.** After any sequence of operations on an address space that was
empty, with pages below `2 ^ 40` and tables from fresh pages, an address is translated to the page
of its latest mapping, with the permissions set last, and to null if it has none. A further
operation leaves the translation and the permissions of every other page as they were. -/
theorem translation_flat {s₀ s : PagingState} {r : ℕ} {ops : List PageOp}
    (hempty : EmptySpace s₀ r) (hrun : PageRun r s₀ ops s) :
    (∀ v, s.virtualToPhysical r v = ((flat ops (virtualPage v)).map Mapping.physical).getD 0) ∧
    (∀ v x, flat ops (virtualPage v) = some x → s.getPagePerms r v = x.permissions) ∧
    ∀ op s', PageStep r (flat ops) s op s' → ∀ w, virtualPage w ≠ op.page →
      s'.virtualToPhysical r w = s.virtualToPhysical r w ∧
      (flat ops (virtualPage w) ≠ none → s'.getPagePerms r w = s.getPagePerms r w) := by
  have h := Refines.run hempty hrun
  refine ⟨h.virtualToPhysical_eq, fun v x => h.getPagePerms_eq, fun op s' hstep w hw => ?_⟩
  have h' := h.step hstep
  have hkept : (flat ops).apply op (virtualPage w) = flat ops (virtualPage w) :=
    Function.update_of_ne hw _ _
  refine ⟨by rw [h'.virtualToPhysical_eq, hkept, h.virtualToPhysical_eq], fun hmapped => ?_⟩
  obtain ⟨x, hx⟩ := ne_none_iff_exists'.mp hmapped
  rw [h.getPagePerms_eq hx, h'.getPagePerms_eq (hkept.trans hx)]

/-- An empty directory at `0x1000`, with three pages for tables. -/
def emptyDirectory : PagingState where
  tables := fun _ _ => .blank
  pool := [0x2000, 0x3000, 0x4000]
  cr3 := 0x1000

theorem translation_flat_emptyDirectory : ∃ s,
    PageRun 0x1000 emptyDirectory [.map 0x400000 0x5000 3, .protect 0x400000 1] s ∧
      s.virtualToPhysical 0x1000 0x400123 = 0x5000 ∧ s.getPagePerms 0x1000 0x400000 = 1 ∧
      s.virtualToPhysical 0x1000 0x401000 = 0 := by
  have hempty : EmptySpace emptyDirectory 0x1000 := ⟨fun _ => rfl, by decide, by decide, by decide⟩
  obtain ⟨s, hmap⟩ : ∃ s, emptyDirectory.mapMemory 0x1000 0x400000 0x5000 3 = .ok s := ⟨_, rfl⟩
  have hrun : PageRun 0x1000 emptyDirectory [.map 0x400000 0x5000 3, .protect 0x400000 1] _ :=
    .step (.step .nil (.map (by decide) hmap)) (.protect (by decide))
  obtain ⟨htranslate, hperms, -⟩ := translation_flat hempty hrun
  exact ⟨_, hrun, htranslate 0x400123, hperms 0x400000 ⟨0x5000, 1⟩ (by decide), htranslate 0x401000⟩

end Bloodmoon
