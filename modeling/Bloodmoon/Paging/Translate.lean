import Bloodmoon.Paging.Model

/-!
# Translation

An address space is the forest of tables below its directory. A virtual address is a path of three
indices, which leads to a page table, and the index of an entry in it (`path`, `slot`);
`PagingState.lookup` is that entry, if everything on the way and the entry itself are present.
What `virtual_to_physical` and `get_page_perms` return is read from it.

`Spaces s roots` is what all operations keep for the address spaces with the directories `roots`:
their tables form a forest, in which only page tables may be shared, and `request_page` returns
pages that are no tables yet. For each operation there is one theorem on what it does to the paths
and to `lookup` in all address spaces.
-/

namespace Bloodmoon

open Machine PagingState PageEntry Option
open List hiding lookup next

variable {roots : List ℕ}

/-- The indices that lead to the page table of an address. -/
def path (address : ℕ) : List (Fin 512) :=
  [(addressToMap address).pdpI, (addressToMap address).pdI, (addressToMap address).ptI]

/-- The index of the entry of an address in its page table. -/
def slot (address : ℕ) : Fin 512 := (addressToMap address).pI

@[simp]
theorem length_path (address : ℕ) : (path address).length = 3 := rfl

/-- The page of a virtual address: its bits 12 to 47. -/
def virtualPage (address : ℕ) : ℕ := address / 2 ^ 12 % 2 ^ 36

/-- The indices of an address are the bits of its page. -/
theorem virtualPage_eq_iff {v w : ℕ} :
    virtualPage v = virtualPage w ↔ path v = path w ∧ slot v = slot w := by
  simp only [virtualPage, path, slot, addressToMap, List.cons.injEq, and_true, Fin.ext_iff,
    Fin.val_ofNat, Nat.shiftRight_eq_div_pow]
  omega

namespace PageEntry

variable {e : PageEntry}

theorem page_withPage {a : ℕ} (halign : a % pageSize = 0) (hlt : a < 2 ^ 40) :
    (e.withPage a).page = a := by
  have h4096 : pageSize = 4096 := rfl
  rw [h4096] at halign
  simp only [withPage, page, Nat.shiftRight_eq_div_pow, Nat.shiftLeft_eq]
  omega

theorem next_of_not_present (h : e.present = false) : e.next = none := by
  simp [next, h]

theorem next_of_present (h : e.present = true) : e.next = some e.page := by
  simp [next, h]

/-- An entry that is present leads to the page put in it. -/
theorem next_withPage {a : ℕ} (h : e.present = true) (halign : a % pageSize = 0)
    (hlt : a < 2 ^ 40) : (e.withPage a).next = some a := by
  have hpresent : (e.withPage a).present = true := h
  rw [next_of_present hpresent, page_withPage halign hlt]

end PageEntry

namespace PagingState

/-- The tables that the paths lead to. -/
abbrev paths (s : PagingState) : ℕ → List (Fin 512) → Option ℕ := follow next s.tables

/-- The entry of a virtual address, if there is a translation. -/
def lookup (s : PagingState) (pml4 address : ℕ) : Option PageEntry :=
  ((s.paths pml4 (path address)).map fun pt => s.tables pt (slot address)).filter (·.present)

end PagingState

/-! ### The functions that walk the tables -/

section Walk

variable {s : PagingState} {r v pt : ℕ} {e : PageEntry}
variable {s' : PagingState}

/-- The walk that the functions make: down three levels to the page table, or out at the first
entry that is not present. -/
private theorem walk_eq {α : Type} (s : PagingState) (r v : ℕ) (out : α) (found : ℕ → α) :
    (let map := addressToMap v
    let pde := s.tables r map.pdpI
    if !pde.present then out
    else
      let pde := s.tables pde.page map.pdI
      if !pde.present then out
      else
        let pde := s.tables pde.page map.ptI
        if !pde.present then out else found pde.page) =
      match s.paths r (path v) with
      | none => out
      | some pt => found pt := by
  simp only [paths, path, follow_cons, follow_nil]
  generalize addressToMap v = map
  cases h₁ : (s.tables r map.pdpI).present with
  | false => simp [next_of_not_present h₁]
  | true =>
    rw [next_of_present h₁, bind_some]
    generalize (s.tables r map.pdpI).page = pdp
    cases h₂ : (s.tables pdp map.pdI).present with
    | false => simp [next_of_not_present h₂]
    | true =>
      rw [next_of_present h₂, bind_some]
      generalize (s.tables pdp map.pdI).page = pd
      cases h₃ : (s.tables pd map.ptI).present with
      | false => simp [next_of_not_present h₃]
      | true => simp [next_of_present h₃]

/-- **`virtual_to_physical` returns the page of the entry**, and null if there is none. -/
theorem virtualToPhysical_eq : s.virtualToPhysical r v = ((s.lookup r v).map page).getD 0 := by
  refine (walk_eq s r v 0 fun pt =>
    if !(s.tables pt (slot v)).present then 0 else (s.tables pt (slot v)).page).trans ?_
  rw [lookup]
  cases s.paths r (path v) with
  | none => rfl
  | some pt =>
    cases hpt : (s.tables pt (slot v)).present
    all_goals simp [Option.filter, hpt]

/-- `_unmap_memory` takes the entry away, if there is a page table. -/
theorem unmapMemory_eq :
    s.unmapMemory r v = match s.paths r (path v) with
      | none => s
      | some pt => s.setEntry pt (slot v) { s.tables pt (slot v) with present := false } :=
  walk_eq s r v s fun pt =>
    s.setEntry pt (slot v) { s.tables pt (slot v) with present := false }

/-- The walk that does not look at the present bits arrives at the page table if there is one. -/
theorem pageTableOf_eq (h : s.paths r (path v) = some pt) : s.pageTableOf r v = pt := by
  have hpresent : ∀ {e : PageEntry} {n : ℕ}, e.next = some n → e.page = n := by
    intro e n he
    unfold next at he
    split_ifs at he
    exact Option.some.inj he
  simp only [paths, path, follow_cons, follow_nil, bind_eq_some_iff] at h
  obtain ⟨pdp, h₁, pd, h₂, pt', h₃, heq⟩ := h
  obtain rfl := Option.some.inj heq
  simp only [pageTableOf, hpresent h₁, hpresent h₂, hpresent h₃]

theorem setPagePerms_eq {permissions : ℕ} (h : s.paths r (path v) = some pt) :
    s.setPagePerms r v permissions =
      s.setEntry pt (slot v) ((s.tables pt (slot v)).withPerms permissions) := by
  simp only [setPagePerms, pageTableOf_eq h, slot]

/-- A translation has a page table with its entry. -/
theorem lookup_eq_some_iff :
    s.lookup r v = some e ↔ ∃ pt, s.paths r (path v) = some pt ∧ s.tables pt (slot v) = e ∧
      e.present = true := by
  simp only [lookup, filter_eq_some_iff, map_eq_some_iff]
  constructor
  · rintro ⟨⟨pt, hpt, he⟩, hpresent⟩
    exact ⟨pt, hpt, he, hpresent⟩
  · rintro ⟨pt, hpt, he, hpresent⟩
    exact ⟨⟨pt, hpt, he⟩, hpresent⟩

/-- **Paths depend on the tables that are reached.** -/
theorem paths_of_reached {p : List (Fin 512)}
    (h : ∀ q n, q.length ≤ 3 → s.paths r q = some n → s'.tables n = s.tables n)
    (hp : p.length ≤ 3) : s'.paths r p = s.paths r p := by
  refine follow_congr fun q i rest hsplit n hn => ?_
  rw [h q n ?_ hn]
  rw [hsplit, length_append] at hp
  omega

/-- An address with the path of another one, to a page table that is kept, has its entry. -/
theorem lookup_of_reached {r' : ℕ}
    (h : ∀ q n, q.length ≤ 3 → s.paths r q = some n → s'.tables n = s.tables n)
    (hpath : s'.paths r' (path v) = s.paths r (path v)) : s'.lookup r' v = s.lookup r v := by
  rw [lookup, lookup, hpath]
  cases hpt : s.paths r (path v) with
  | none => rfl
  | some pt => rw [map_some, map_some, h _ pt (Nat.le_of_eq (length_path v)) hpt]

/-- **`get_page_perms` returns the permissions of the entry** of a page that is mapped. -/
theorem getPagePerms_eq (h : s.lookup r v = some e) : s.getPagePerms r v = e.perms := by
  obtain ⟨pt, hpt, rfl, -⟩ := lookup_eq_some_iff.mp h
  simp only [getPagePerms, pageTableOf_eq hpt, slot]

/-- The entry that leads to a new table. -/
private theorem next_new {e : PageEntry} {f : ℕ} (halign : f % pageSize = 0) (hlt : f < 2 ^ 40) :
    ({ e.withPage f with present := true, writeable := true, userAccess := true } :
      PageEntry).next = some f := by
  have hpage : (e.withPage f).page = f := page_withPage halign hlt
  exact (next_of_present rfl).trans (congrArg some hpage)

theorem requestPage_eq_ok {s s₁ : PagingState} {f : ℕ} (h : s.requestPage = .ok (s₁, f)) :
    s.pool = f :: s₁.pool ∧ s₁.tables = s.tables ∧ s₁.cr3 = s.cr3 := by
  rw [requestPage] at h
  cases hpool : s.pool with
  | nil =>
    rw [hpool] at h
    exact absurd h kpanic_ne_ok
  | cons page pool =>
    rw [hpool] at h
    obtain ⟨rfl, rfl⟩ := ok_inj h
    exact ⟨rfl, rfl, rfl⟩

/-- What one level of `map_memory_hh` does: a table that is missing is made of a fresh page. -/
theorem ensureTable_eq_ok {n m : ℕ} {i : Fin 512} {msg : String}
    (hok : s.ensureTable n i msg = .ok (s', m)) :
    ((s.tables n i).next = some m ∧ s' = s) ∨
      (s.tables n i).next = none ∧ ∃ pool e, s.pool = m :: pool ∧
        (m % pageSize = 0 → m < 2 ^ 40 → e.next = some m) ∧
        s' = (({ s with pool := pool } : PagingState).clearTable m).setEntry n i e := by
  rw [PagingState.ensureTable] at hok
  cases hpresent : (s.tables n i).present with
  | true =>
    simp only [hpresent, Bool.not_true, Bool.false_eq_true, if_false] at hok
    obtain ⟨rfl, rfl⟩ := ok_inj hok
    exact .inl ⟨next_of_present hpresent, rfl⟩
  | false =>
    simp only [hpresent, Bool.not_false, if_true] at hok
    obtain ⟨⟨s₁, f⟩, hreq, hok⟩ := bind_eq_ok.mp hok
    obtain ⟨hpool, htables, hcr3⟩ := requestPage_eq_ok hreq
    split_ifs at hok with hnull
    · exact absurd hok kpanic_ne_ok
    obtain ⟨rfl, rfl⟩ := ok_inj hok
    refine .inr ⟨next_of_not_present hpresent, s₁.pool, _, hpool, next_new (e := s.tables n i), ?_⟩
    rw [setEntry, clearTable, htables, hcr3]
    rfl

/-- The address has the same translation in `r'` as in `r`: it is mapped in both or in neither, to
the same page, and with the same permissions if it is. -/
def SameTranslation (s : PagingState) (r : ℕ) (s' : PagingState) (r' v : ℕ) : Prop :=
  s'.virtualToPhysical r' v = s.virtualToPhysical r v ∧
    (s'.lookup r' v).isSome = (s.lookup r v).isSome ∧
    (s.lookup r v ≠ none → s'.getPagePerms r' v = s.getPagePerms r v)

theorem sameTranslation_of_lookup {r' : ℕ} (h : s'.lookup r' v = s.lookup r v) :
    SameTranslation s r s' r' v := by
  refine ⟨by rw [virtualToPhysical_eq, virtualToPhysical_eq, h], by rw [h], fun hmapped => ?_⟩
  obtain ⟨e, he⟩ := ne_none_iff_exists'.mp hmapped
  rw [getPagePerms_eq he, getPagePerms_eq (h.trans he)]

end Walk

/-! ### What the operations keep -/

/-- The tables of the address spaces form a forest, and `request_page` returns other pages. -/
structure Spaces (s : PagingState) (roots : List ℕ) : Prop where
  forest : Forest s.paths roots 3
  fresh : ∀ f ∈ s.pool, Unreached s.paths roots 3 f
  nodup : s.pool.Nodup
  pages : ∀ f ∈ s.pool, f % pageSize = 0 ∧ f < 2 ^ 40

/-- The pages that `request_page` will return are different pages of memory, and on no path of the
address spaces. -/
structure FreshPool (s : PagingState) (roots : List ℕ) : Prop where
  fresh : ∀ f ∈ s.pool, Unreached s.paths roots 3 f
  nodup : s.pool.Nodup
  pages : ∀ f ∈ s.pool, f % pageSize = 0 ∧ f < 2 ^ 40

theorem Spaces.freshPool {s : PagingState} (hs : Spaces s roots) :
    FreshPool s roots := ⟨hs.fresh, hs.nodup, hs.pages⟩

namespace Spaces

variable {s s' : PagingState} {roots : List ℕ} {r r' v w n m pt : ℕ} {i : Fin 512}
  {q p : List (Fin 512)} {e : PageEntry}

/-- **A write to a page table** changes no path, and one entry wherever the table is reached. -/
theorem setLeaf (hs : Spaces s roots) (hr : r ∈ roots) (hp : p.length = 3)
    (hpt : s.paths r p = some pt) :
    Spaces (s.setEntry pt i e) roots ∧
      (∀ r' ∈ roots, ∀ q, q.length ≤ 3 → (s.setEntry pt i e).paths r' q = s.paths r' q) ∧
      ∀ r' ∈ roots, ∀ w, (s.setEntry pt i e).lookup r' w =
        if s.paths r' (path w) = some pt ∧ slot w = i then (some e).filter (·.present)
        else s.lookup r' w := by
  have hpaths : ∀ r' ∈ roots, ∀ q, q.length ≤ 3 → (s.setEntry pt i e).paths r' q = s.paths r' q :=
    fun r' hr' q hq => follow_setAt hs.forest hr hp hpt hr' hq
  refine ⟨⟨hs.forest.congr hpaths, fun f hf r' hr' q hq => ?_, hs.nodup, hs.pages⟩, hpaths,
    fun r' hr' w => ?_⟩
  · rw [hpaths r' hr' q hq]
    exact hs.fresh f hf r' hr' q hq
  · rw [lookup, lookup, hpaths r' hr' _ (Nat.le_of_eq (length_path w))]
    cases hw : s.paths r' (path w) with
    | none => simp
    | some pt' =>
      by_cases hsame : pt' = pt ∧ slot w = i
      · obtain ⟨rfl, hslot⟩ := hsame
        rw [if_pos ⟨rfl, hslot⟩, map_some, ← hslot]
        exact congrArg (fun e => (some e).filter _) setAt_self
      · rw [if_neg fun hc => hsame ⟨Option.some.inj hc.1, hc.2⟩, map_some, map_some]
        have hkeep : (s.setEntry pt i e).tables pt' (slot w) = s.tables pt' (slot w) :=
          setAt_of_ne (not_and_or.mp hsame)
        rw [hkeep]

/-! ### Making tables -/

theorem paths_concat (hn : s.paths r q = some n) : s.paths r (q ++ [i]) = (s.tables n i).next := by
  refine follow_concat.trans ?_
  change (s.paths r q).bind _ = _
  rw [hn, bind_some]

/-- The state after the new table `f` is attached at entry `i` of `n`. -/
private theorem attach {f : ℕ} {pool : List ℕ} (hs : Spaces s roots) (hpool : s.pool = f :: pool)
    (hr : r ∈ roots) (hq : q.length < 3) (hn : s.paths r q = some n)
    (hnone : (s.tables n i).next = none) (he : e.next = some f)
    (hs' : s' = (({ s with pool := pool } : PagingState).clearTable f).setEntry n i e) :
    Spaces s' roots ∧
      (∀ r' ∈ roots, ∀ p, p.length ≤ 3 →
        s'.paths r' p = if r' = r ∧ p = q ++ [i] then some f else s.paths r' p) ∧
      ∀ r' ∈ roots, ∀ w, s'.lookup r' w = s.lookup r' w := by
  have hfresh := hs.fresh f (by rw [hpool]; exact mem_cons_self)
  have hnodup := hs.nodup
  rw [hpool, nodup_cons] at hnodup
  have hmem : ∀ g ∈ pool, g ∈ s.pool := fun g hg => by
    rw [hpool]
    exact mem_cons_of_mem _ hg
  have hpaths : ∀ r' ∈ roots, ∀ p, p.length ≤ 3 →
      s'.paths r' p = if r' = r ∧ p = q ++ [i] then some f else s.paths r' p := by
    intro r' hr' p hp
    rw [hs']
    have hblank := next_of_not_present (e := .blank) rfl
    exact follow_attach hs.forest hr hq hn hnone hfresh hblank he hr' hp
  refine ⟨⟨hs.forest.extend hfresh hpaths, fun g hg r' hr' p hp => ?_, ?_, fun g hg => ?_⟩, hpaths,
    fun r' hr' w => ?_⟩
  · rw [hs'] at hg
    rw [hpaths r' hr' p hp]
    split_ifs
    · rintro heq
      exact hnodup.1 (Option.some.inj heq ▸ hg)
    · exact hs.fresh g (hmem g hg) r' hr' p hp
  · rw [hs']
    exact hnodup.2
  · rw [hs'] at hg
    exact hs.pages g (hmem g hg)
  · rw [lookup, lookup, hpaths r' hr' _ (Nat.le_of_eq (length_path w))]
    have hnf : f ≠ n := by
      rintro rfl
      exact hfresh r hr q (Nat.le_of_lt hq) hn
    split_ifs with hnew
    · -- the address had no page table, and has an empty one now
      have hold : s.paths r' (path w) = none := by
        rw [hnew.1, hnew.2, paths_concat hn, hnone]
      have hblank : s'.tables f (slot w) = .blank := by
        rw [hs']
        exact (setAt_of_ne (.inl hnf)).trans clearAt_self
      rw [hold, map_some, hblank]
      rfl
    · cases hw : s.paths r' (path w) with
      | none => rfl
      | some pt =>
        have hptf : pt ≠ f := by
          rintro rfl
          exact hfresh r' hr' _ (Nat.le_of_eq (length_path w)) hw
        have hptn : pt ≠ n := by
          rintro rfl
          exact hs.forest.leveled hr hr' hq (length_path w) hn hw
        have hkeep : s'.tables pt (slot w) = s.tables pt (slot w) := by
          rw [hs']
          exact (setAt_of_ne (.inl hptn)).trans (clearAt_of_ne hptf)
        rw [map_some, map_some, hkeep]

/-- **One level of `map_memory_hh`** gives the path its table and changes no translation. -/
theorem ensureTable {msg : String} (hs : Spaces s roots) (hr : r ∈ roots) (hq : q.length < 3)
    (hn : s.paths r q = some n) (hok : s.ensureTable n i msg = .ok (s', m)) :
    Spaces s' roots ∧ s'.cr3 = s.cr3 ∧ s'.pool <:+ s.pool ∧
      (s.paths r (q ++ [i]) = some m ∨ s.paths r (q ++ [i]) = none ∧ m ∈ s.pool) ∧
      (∀ r' ∈ roots, ∀ p, p.length ≤ 3 →
        s'.paths r' p = if r' = r ∧ p = q ++ [i] then some m else s.paths r' p) ∧
      ∀ r' ∈ roots, ∀ w, s'.lookup r' w = s.lookup r' w := by
  have hqi : s.paths r (q ++ [i]) = (s.tables n i).next := paths_concat hn
  rcases ensureTable_eq_ok hok with ⟨hm, rfl⟩ | ⟨hnone, pool, e, hpool, he, rfl⟩
  · rw [hm] at hqi
    refine ⟨hs, rfl, suffix_rfl, .inl hqi, fun r' hr' p hp => ?_, fun _ _ _ => rfl⟩
    split_ifs with hnew
    · rw [hnew.1, hnew.2, hqi]
    · rfl
  · have hm : m ∈ s.pool := by
      rw [hpool]
      exact mem_cons_self
    obtain ⟨halign, hlt⟩ := hs.pages m hm
    obtain ⟨hspaces, hpaths, hlookup⟩ := hs.attach hpool hr hq hn hnone (he halign hlt) rfl
    refine ⟨hspaces, rfl, ?_, .inr ⟨hqi.trans hnone, hm⟩, hpaths, hlookup⟩
    rw [hpool]
    exact suffix_cons m pool

end Spaces

/-! ### The operations -/

/-- The entry that `map_memory_hh` writes. -/
def mappedEntry (physicalMemory flags : ℕ) : PageEntry :=
  { (blank.withPage physicalMemory).withPerms flags with present := true }

/-- **The effect of an operation** on the page of `v` in the address space `r`: the entry changes
by `f`, in every address space that reaches it. The operation may have made the page table of `v`,
from a page of the allocator; all other page tables are where they were. -/
structure Updates (s s' : PagingState) (roots : List ℕ) (r v : ℕ)
    (f : Option PageEntry → Option PageEntry) : Prop where
  spaces : Spaces s' roots
  cr3 : s'.cr3 = s.cr3
  pool : s'.pool <:+ s.pool
  paths : ∀ r' ∈ roots, ∀ p, p.length = 3 → s'.paths r' p = s.paths r' p ∨
    r' = r ∧ p = path v ∧ s.paths r p = none ∧ ∃ pt ∈ s.pool, s'.paths r p = some pt
  lookup : ∀ r' ∈ roots, ∀ w, s'.lookup r' w =
    if s'.paths r' (path w) = s'.paths r (path v) ∧ slot w = slot v then f (s.lookup r' w)
    else s.lookup r' w

/-- **Paths that meet in a page table** met there before: a page table that was made is on one
path. -/
theorem Updates.meet {s s' : PagingState} {r v : ℕ} {f : Option PageEntry → Option PageEntry}
    (h : Updates s s' roots r v f) (hs : Spaces s roots) {a b : ℕ} {p q : List (Fin 512)} {n : ℕ}
    (ha : a ∈ roots) (hb : b ∈ roots) (hp : p.length = 3) (hq : q.length = 3)
    (hpn : s'.paths a p = some n) (hqn : s'.paths b q = some n) :
    (s.paths a p = some n ∧ s.paths b q = some n) ∨ (a = b ∧ p = q) := by
  -- a page of the allocator was on no path before
  have hfresh : ∀ {c p}, c ∈ roots → p.length = 3 → n ∈ s.pool → s.paths c p ≠ some n :=
    fun hc hp hn => hs.fresh n hn _ hc _ (Nat.le_of_eq hp)
  rcases h.paths a ha p hp with hp' | ⟨rfl, rfl, -, pt, hpt, hp'⟩ <;>
    rcases h.paths b hb q hq with hq' | ⟨rfl, rfl, -, pt', hpt', hq'⟩
  · exact .inl ⟨hp'.symm.trans hpn, hq'.symm.trans hqn⟩
  · obtain rfl := mem_unique hq' hqn
    exact absurd (hp'.symm.trans hpn) (hfresh ha hp hpt')
  · obtain rfl := mem_unique hp' hpn
    exact absurd (hq'.symm.trans hqn) (hfresh hb hq hpt)
  · exact .inr ⟨rfl, rfl⟩

/-- An address without a page table had none before. -/
theorem Updates.lookup_of_none {s s' : PagingState} {r v : ℕ}
    {f : Option PageEntry → Option PageEntry} (h : Updates s s' roots r v f) {a w : ℕ}
    (ha : a ∈ roots) (hnone : s'.paths a (path w) = none) : s'.lookup a w = s.lookup a w := by
  have hold : s.paths a (path w) = none := by
    rcases h.paths a ha _ (length_path w) with heq | ⟨rfl, -, -, pt, -, hpt⟩
    · exact heq.symm.trans hnone
    · exact absurd (hnone.symm.trans hpt) (by simp)
  rw [PagingState.lookup, PagingState.lookup, hnone, hold]
  rfl

namespace Spaces

variable {s s' : PagingState} {roots : List ℕ} {r v pt : ℕ} {e : PageEntry}

section

variable (hs : Spaces s roots) (hr : r ∈ roots)

include hs hr

/-- A write to the entry of an address that has a page table. -/
theorem updates_setEntry (hpt : s.paths r (path v) = some pt)
    {f : Option PageEntry → Option PageEntry}
    (hf : ∀ r' ∈ roots, ∀ w, s.paths r' (path w) = some pt → slot w = slot v → f (s.lookup r' w) =
      (some e).filter (·.present)) :
    Updates s (s.setEntry pt (slot v) e) roots r v f := by
  obtain ⟨hspaces, hpaths, hlookup⟩ := hs.setLeaf hr (length_path v) hpt
  refine ⟨hspaces, rfl, suffix_rfl, fun r' hr' p hp =>
    .inl (hpaths r' hr' p (Nat.le_of_eq hp)), fun r' hr' w => ?_⟩
  rw [hlookup r' hr' w, hpaths r' hr' _ (Nat.le_of_eq (length_path w)),
    hpaths r hr _ (Nat.le_of_eq (length_path v)), hpt]
  split_ifs with hsame
  · exact (hf r' hr' w hsame.1 hsame.2).symm
  · rfl

/-- **`_unmap_memory`** takes the translation away. -/
theorem unmapMemory : Updates s (s.unmapMemory r v) roots r v fun _ => none := by
  rw [unmapMemory_eq]
  cases hpt : s.paths r (path v) with
  | none =>
    refine ⟨hs, rfl, suffix_rfl, fun _ _ _ _ => .inl rfl, fun r' hr' w => ?_⟩
    split_ifs with hsame
    · rw [lookup, hsame.1, hpt]
      rfl
    · rfl
  | some pt => exact hs.updates_setEntry hr hpt fun _ _ _ _ _ => rfl

/-- **`set_page_perms`** of a page that is mapped changes its permissions. -/
theorem setPagePerms {permissions : ℕ} (hmapped : s.lookup r v ≠ none) :
    Updates s (s.setPagePerms r v permissions) roots r v
      (Option.map fun e => e.withPerms permissions) := by
  obtain ⟨e, he⟩ := ne_none_iff_exists'.mp hmapped
  obtain ⟨pt, hpt, rfl, hpresent⟩ := lookup_eq_some_iff.mp he
  rw [setPagePerms_eq hpt]
  refine hs.updates_setEntry hr hpt fun r' hr' w hw hslot => ?_
  rw [lookup_eq_some_iff.mpr ⟨pt, hw, congrArg _ hslot, hpresent⟩]
  have hkept : ((s.tables pt (slot v)).withPerms permissions).present = true := hpresent
  exact (filter_some_pos hkept).symm

/-- **`map_memory_hh`** translates the page to the physical one. -/
theorem mapMemoryHh {physicalMemory flags : ℕ}
    (hok : s.mapMemoryHh r v physicalMemory flags = .ok s') :
    physicalMemory % pageSize = 0 ∧
      Updates s s' roots r v (fun _ => some (mappedEntry physicalMemory flags)) ∧
      ∃ pt, s'.paths r (path v) = some pt := by
  rw [PagingState.mapMemoryHh] at hok
  split_ifs at hok with hvirtual hphysical
  · exact absurd hok kpanic_ne_ok
  · exact absurd hok kpanic_ne_ok
  obtain ⟨⟨s₁, pdp⟩, h₁, hok⟩ := bind_eq_ok.mp hok
  obtain ⟨⟨s₂, pd⟩, h₂, hok⟩ := bind_eq_ok.mp hok
  obtain ⟨⟨s₃, pt⟩, h₃, hok⟩ := bind_eq_ok.mp hok
  obtain rfl := Except.ok.inj hok
  -- the three levels, from the directory down
  obtain ⟨hs₁, hcr₁, hpool₁, -, hpaths₁, hlookup₁⟩ := hs.ensureTable (q := []) hr (by simp) rfl h₁
  have hpdp : s₁.paths r [(addressToMap v).pdpI] = some pdp :=
    (hpaths₁ r hr _ (by simp)).trans (if_pos ⟨rfl, rfl⟩)
  obtain ⟨hs₂, hcr₂, hpool₂, -, hpaths₂, hlookup₂⟩ := hs₁.ensureTable hr (by simp) hpdp h₂
  have hpd : s₂.paths r [(addressToMap v).pdpI, (addressToMap v).pdI] = some pd :=
    (hpaths₂ r hr _ (by simp)).trans (if_pos ⟨rfl, rfl⟩)
  obtain ⟨hs₃, hcr₃, hpool₃, htable, hpaths₃, hlookup₃⟩ := hs₂.ensureTable hr (by simp) hpd h₃
  have hpt : s₃.paths r (path v) = some pt := (hpaths₃ r hr _ (by simp)).trans (if_pos ⟨rfl, rfl⟩)
  have hpool : s₃.pool <:+ s.pool := hpool₃.trans (hpool₂.trans hpool₁)
  -- the upper two levels make no page table
  have hold : ∀ r' ∈ roots, ∀ p, p.length = 3 → s₂.paths r' p = s.paths r' p := by
    intro r' hr' p hp
    rw [hpaths₂ r' hr' p (Nat.le_of_eq hp), if_neg, hpaths₁ r' hr' p (Nat.le_of_eq hp), if_neg]
    · rintro ⟨-, rfl⟩
      exact absurd hp (by simp)
    · rintro ⟨-, rfl⟩
      exact absurd hp (by simp)
  have hwrite := hs₃.updates_setEntry hr hpt (e := mappedEntry physicalMemory flags)
    (f := fun _ => some (mappedEntry physicalMemory flags)) fun _ _ _ _ _ => rfl
  obtain ⟨hspaces, hpaths, -⟩ := hs₃.setLeaf hr (length_path v) hpt (i := slot v)
    (e := mappedEntry physicalMemory flags)
  refine ⟨not_not.mp hphysical, ⟨hspaces, ?_, hpool, fun r' hr' p hp => ?_, fun r' hr' w => ?_⟩,
    pt, (hpaths r hr _ (Nat.le_of_eq (length_path v))).trans hpt⟩
  · exact (hcr₃.trans hcr₂).trans hcr₁
  · by_cases hnew : r' = r ∧ p = path v
    · obtain ⟨rfl, rfl⟩ := hnew
      have hpt' := (hpaths r' hr' _ (Nat.le_of_eq hp)).trans hpt
      rcases htable with hsome | ⟨hnone, hmem⟩
      · exact .inl (hpt'.trans ((hold r' hr' _ hp).symm.trans hsome).symm)
      · exact .inr ⟨rfl, rfl, (hold r' hr' _ hp).symm.trans hnone, pt,
          (hpool₂.trans hpool₁).subset hmem, hpt'⟩
    · have h₃ := (hpaths₃ r' hr' p (Nat.le_of_eq hp)).trans (if_neg hnew)
      exact .inl ((hpaths r' hr' p (Nat.le_of_eq hp)).trans (h₃.trans (hold r' hr' p hp)))
  · have hkept : s₃.lookup r' w = s.lookup r' w :=
      ((hlookup₃ r' hr' w).trans (hlookup₂ r' hr' w)).trans (hlookup₁ r' hr' w)
    rw [← hkept]
    exact hwrite.lookup r' hr' w

end

end Spaces

end Bloodmoon
