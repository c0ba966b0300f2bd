import Bloodmoon.Paging.Translate

/-!
# Copies of address spaces

`_duplicate_pd` makes a new directory and copies the two levels below it for a range of entries of
the old one; the page tables are not copied, but shared. The copy has the paths of the original in
the range and no others, the original is left alone, and the new tables are reached by one path
each.

The proof follows the two loops: `EntriesDone` is what the inner one has done to the copy of a
table of the second level, `DirectoriesDone` what the outer one has done to the new directory.
-/

namespace Bloodmoon

open Machine PageEntry PagingState List Option

/-- The innermost loop writes what is already there. -/
private theorem copyPresent_eq {s : PagingState} {dst src : ℕ}
    (h : ∀ k, s.tables dst k = s.tables src k) : s.copyPresent dst src = s := by
  refine foldl_fixed' (fun k => ?_) _
  have hsame : setAt s.tables dst k (s.tables src k) = s.tables := by
    funext n i
    unfold setAt
    split_ifs with hn
    · rw [hn.1, hn.2, h k]
    · rfl
  split_ifs
  · rw [setEntry, hsame]
  · rfl

/-! ### The inner loop -/

/-- The present entries of `pd` among `J` have got tables of their own in its copy `newPd`, from
the pages `used`. -/
structure EntriesDone (t t' : ℕ → Fin 512 → PageEntry) (pd newPd : ℕ) (J : List (Fin 512))
    (used : List ℕ) : Prop where
  outside : ∀ n, n ∉ used → n ≠ newPd → t' n = t n
  rest : ∀ j, j ∉ J ∨ (t pd j).next = none → t' newPd j = t newPd j
  copied : ∀ j ∈ J, ∀ pt, (t pd j).next = some pt →
    ∃ q ∈ used, (t' newPd j).next = some q ∧ t' q = t pt
  inj : ∀ j ∈ J, ∀ j' ∈ J, (t pd j).next ≠ none → (t pd j').next ≠ none →
    (t' newPd j).next = (t' newPd j').next → j = j'

namespace EntriesDone

variable {t t' : ℕ → Fin 512 → PageEntry} {pd newPd f pt : ℕ} {J : List (Fin 512)} {used : List ℕ}
  {j : Fin 512} {e : PageEntry}

/-- An entry that is not present is left as it is. -/
theorem skip (h : EntriesDone t t' pd newPd J used) (hnone : (t pd j).next = none) :
    EntriesDone t t' pd newPd (J ++ [j]) used := by
  have hmem : ∀ {i}, i ∈ J ++ [j] → (t pd i).next ≠ none → i ∈ J := by
    intro i hi hsome
    rcases mem_append.mp hi with hi | hi
    · exact hi
    · rw [mem_singleton.mp hi] at hsome
      exact absurd hnone hsome
  refine ⟨h.outside, fun i hi => h.rest i ?_, fun i hi n hn => ?_, fun i hi i' hi' hs hs' => ?_⟩
  · exact hi.imp (fun hnot hi => hnot (mem_append_left _ hi)) id
  · exact h.copied i (hmem hi (by simp [hn])) n hn
  · exact h.inj i (hmem hi hs) i' (hmem hi' hs') hs hs'

/-- An entry that is present gets the page `f`, a copy of the table it led to. -/
theorem copy (h : EntriesDone t t' pd newPd J used) (hj : j ∉ J) (hpt : (t pd j).next = some pt)
    (hf : f ∉ used) (hfNew : f ≠ newPd) (hnew : newPd ∉ used) (hptUsed : pt ∉ used)
    (hptNew : pt ≠ newPd) (he : e.next = some f) :
    EntriesDone t (setAt (copyAt t' f pt) newPd j e) pd newPd (J ++ [j]) (used ++ [f]) := by
  have hrow : ∀ {n}, n ≠ f → n ≠ newPd → setAt (copyAt t' f pt) newPd j e n = t' n := by
    intro n hnf hn
    funext k
    rw [setAt_of_ne (.inl hn), copyAt_of_ne hnf]
  have hentry : ∀ {i}, i ≠ j → setAt (copyAt t' f pt) newPd j e newPd i = t' newPd i := by
    intro i hi
    rw [setAt_of_ne (.inr hi), copyAt_of_ne hfNew.symm]
  have hcopy : setAt (copyAt t' f pt) newPd j e f = t pt := by
    funext k
    rw [setAt_of_ne (.inl hfNew), copyAt_self, h.outside pt hptUsed hptNew]
  have hnot : ∀ {i}, i ∈ J → i ≠ j := fun hi hij => hj (hij ▸ hi)
  -- the page of an entry done before is another one
  have hold : ∀ {i}, i ∈ J → (t pd i).next ≠ none →
      (setAt (copyAt t' f pt) newPd j e newPd i).next ≠ some f := by
    intro i hi hs hif
    obtain ⟨n, hn⟩ := ne_none_iff_exists'.mp hs
    obtain ⟨q, hq, hnext, -⟩ := h.copied i hi n hn
    rw [hentry (hnot hi), hnext] at hif
    exact hf (Option.some.inj hif ▸ hq)
  refine ⟨fun n hn hnNew => ?_, fun i hi => ?_, fun i hi n hn => ?_,
    fun i hi i' hi' hs hs' heq => ?_⟩
  · simp only [mem_append, mem_singleton, not_or] at hn
    rw [hrow hn.2 hnNew, h.outside n hn.1 hnNew]
  · have hij : i ≠ j := by
      rintro rfl
      rcases hi with hi | hi
      · exact hi (mem_append_right _ (mem_singleton_self _))
      · exact absurd (hpt.symm.trans hi) (by simp)
    rw [hentry hij]
    exact h.rest i (hi.imp (fun hnot hi => hnot (mem_append_left _ hi)) id)
  · rcases mem_append.mp hi with hi | hi
    · obtain ⟨q, hq, hnext, htable⟩ := h.copied i hi n hn
      refine ⟨q, mem_append_left _ hq, by rw [hentry (hnot hi), hnext], ?_⟩
      rw [hrow (fun hqf => hf (hqf ▸ hq)) (fun hqn => hnew (hqn ▸ hq)), htable]
    · obtain rfl := mem_singleton.mp hi
      obtain rfl := mem_unique hpt hn
      exact ⟨f, mem_append_right _ (mem_singleton_self f), by rw [setAt_self, he], hcopy⟩
  · rcases mem_append.mp hi with hiJ | hij <;> rcases mem_append.mp hi' with hiJ' | hij'
    · rw [hentry (hnot hiJ), hentry (hnot hiJ')] at heq
      exact h.inj i hiJ i' hiJ' hs hs' heq
    · rw [mem_singleton.mp hij', setAt_self, he] at heq
      exact absurd heq (hold hiJ hs)
    · rw [mem_singleton.mp hij, setAt_self, he] at heq
      exact absurd heq.symm (hold hiJ' hs')
    · rw [mem_singleton.mp hij, mem_singleton.mp hij']

end EntriesDone

section Inner

variable {s s' : PagingState} {pd newPd : ℕ} {j : Fin 512}

/-- One round of the inner loop, for a table that is no page of the allocator. -/
private theorem duplicateEntry_eq_ok (hok : duplicateEntry pd newPd s j = .ok s')
    (hpages : ∀ f ∈ s.pool, f % pageSize = 0 ∧ f < 2 ^ 40) (hnew : newPd ∉ s.pool)
    (hchild : ∀ pt, (s.tables pd j).next = some pt → pt ∉ s.pool ∧ pt ≠ newPd) :
    ((s.tables pd j).next = none ∧ s' = s) ∨
      ∃ pt f e, (s.tables pd j).next = some pt ∧ s.pool = f :: s'.pool ∧ s'.cr3 = s.cr3 ∧
        e.next = some f ∧ s'.tables = setAt (copyAt s.tables f pt) newPd j e := by
  rw [duplicateEntry] at hok
  cases hpresent : (s.tables pd j).present with
  | false =>
    simp only [hpresent, Bool.false_eq_true, if_false] at hok
    exact .inl ⟨next_of_not_present hpresent, (Except.ok.inj hok).symm⟩
  | true =>
    have hnext := next_of_present hpresent
    simp only [hpresent, if_true] at hok
    obtain ⟨⟨s₁, f⟩, hreq, hok⟩ := bind_eq_ok.mp hok
    obtain ⟨hpool, htables, hcr3⟩ := requestPage_eq_ok hreq
    have hf : f ∈ s.pool := by
      rw [hpool]
      exact mem_cons_self
    obtain ⟨hpt, hptNew⟩ := hchild _ hnext
    have hptf : (s.tables pd j).page ≠ f := fun h => hpt (h ▸ hf)
    have hfNew : f ≠ newPd := fun h => hnew (h ▸ hf)
    split_ifs at hok
    · exact absurd hok kpanic_ne_ok
    · rw [copyPresent_eq] at hok
      · obtain rfl := Except.ok.inj hok
        refine .inr ⟨_, f, (s.tables pd j).withPage f, hnext, hpool, hcr3, ?_, ?_⟩
        · exact next_withPage hpresent (hpages f hf).1 (hpages f hf).2
        · rw [← htables]
          rfl
      · intro k
        simp only [setEntry, copyTable]
        rw [setAt_of_ne (.inl hfNew), setAt_of_ne (.inl hptNew), copyAt_self, copyAt_of_ne hptf]

/-- **The inner loop** copies the tables below a table. -/
theorem duplicateEntries_eq_ok
    (hok : (List.finRange 512).foldlM (duplicateEntry pd newPd) s = .ok s')
    (hpages : ∀ f ∈ s.pool, f % pageSize = 0 ∧ f < 2 ^ 40) (hnodup : s.pool.Nodup)
    (hpd : pd ∉ s.pool) (hne : pd ≠ newPd) (hnew : newPd ∉ s.pool)
    (hchild : ∀ j pt, (s.tables pd j).next = some pt → pt ∉ s.pool ∧ pt ≠ newPd) :
    s'.cr3 = s.cr3 ∧ ∃ used, s.pool = used ++ s'.pool ∧
      EntriesDone s.tables s'.tables pd newPd (List.finRange 512) used := by
  refine foldlM_ok (s := s) (P := fun J u => u.cr3 = s.cr3 ∧ ∃ used, s.pool = used ++ u.pool ∧
    EntriesDone s.tables u.tables pd newPd J used) ?_ ?_ hok
  · intro done j rest u u' hlist ⟨hcr3, used, hpool, hdone⟩ hround
    have hmem : ∀ {n}, n ∈ used → n ∈ s.pool := fun hn => by
      rw [hpool]
      exact mem_append_left _ hn
    have hmem' : ∀ {n}, n ∈ u.pool → n ∈ s.pool := fun hn => by
      rw [hpool]
      exact mem_append_right _ hn
    have hj : j ∉ done := by
      have := nodup_finRange 512
      rw [hlist, nodup_append] at this
      exact fun hj => this.2.2 j hj j mem_cons_self rfl
    have hsame : u.tables pd = s.tables pd := hdone.outside pd (fun h => hpd (hmem h)) hne
    have hchild' : ∀ pt, (u.tables pd j).next = some pt → pt ∉ s.pool ∧ pt ≠ newPd := by
      rw [hsame]
      exact hchild j
    rcases duplicateEntry_eq_ok hround (fun f hf => hpages f (hmem' hf)) (fun h => hnew (hmem' h))
      (fun pt hpt => (hchild' pt hpt).imp_left fun h hpt => h (hmem' hpt)) with
      ⟨hnone, rfl⟩ | ⟨pt, f, e, hpt, hpool', hcr3', he, htables⟩
    · rw [hsame] at hnone
      exact ⟨hcr3, used, hpool, hdone.skip hnone⟩
    · obtain ⟨hptPool, hptNew⟩ := hchild' pt hpt
      rw [hsame] at hpt
      have hf : f ∈ u.pool := by
        rw [hpool']
        exact mem_cons_self
      have hfUsed : f ∉ used := by
        rw [hpool, nodup_append] at hnodup
        exact fun hfu => hnodup.2.2 f hfu f hf rfl
      refine ⟨hcr3'.trans hcr3, used ++ [f], ?_, ?_⟩
      · rw [hpool, hpool', append_assoc, singleton_append]
      · rw [htables]
        exact hdone.copy hj hpt hfUsed (fun h => hnew (h ▸ hmem' hf)) (fun h => hnew (hmem h))
          (fun h => hptPool (hmem h)) hptNew he
  · exact ⟨rfl, [], rfl, fun _ _ _ => rfl, fun _ _ => rfl, by simp, by simp⟩

end Inner

/-! ### The outer loop -/

/-- Entry `i` of the directory `pml` leads to the copy `f` of the table `pd`, and the entries of
the copy to copies of what the entries of `pd` lead to. -/
structure DirectoryCopied (t t' : ℕ → Fin 512 → PageEntry) (pml : ℕ) (i : Fin 512) (pd f : ℕ)
    (used : List ℕ) : Prop where
  outside : ∀ n, n ∉ f :: used → n ≠ pml → t' n = t n
  others : ∀ i', i' ≠ i → t' pml i' = t pml i'
  entry : (t' pml i).next = some f
  absent : ∀ j, (t pd j).next = none → (t' f j).next = none
  copied : ∀ j pt, (t pd j).next = some pt → ∃ q ∈ used, (t' f j).next = some q ∧ t' q = t pt
  inj : ∀ j j', (t' f j).next ≠ none → (t' f j).next = (t' f j').next → j = j'

section Outer

variable {s s' : PagingState} {father pml : ℕ} {i : Fin 512}

/-- **One round of the outer loop.** -/
theorem duplicateDirectory_eq_ok (hok : duplicateDirectory father pml s i = .ok s')
    (hpages : ∀ f ∈ s.pool, f % pageSize = 0 ∧ f < 2 ^ 40) (hnodup : s.pool.Nodup)
    (hpml : pml ∉ s.pool)
    (hpd : ∀ pd, (s.tables father i).next = some pd → pd ∉ s.pool ∧ pd ≠ pml ∧
      ∀ j pt, (s.tables pd j).next = some pt → pt ∉ s.pool ∧ pt ≠ pml) :
    ((s.tables father i).next = none ∧ s' = s) ∨
      ∃ pd f used, (s.tables father i).next = some pd ∧ s.pool = f :: (used ++ s'.pool) ∧
        s'.cr3 = s.cr3 ∧ DirectoryCopied s.tables s'.tables pml i pd f used := by
  rw [duplicateDirectory] at hok
  cases hpresent : (s.tables father i).present with
  | false =>
    simp only [hpresent, Bool.false_eq_true, if_false] at hok
    exact .inl ⟨next_of_not_present hpresent, (Except.ok.inj hok).symm⟩
  | true =>
    have hnext := next_of_present hpresent
    simp only [hpresent, if_true] at hok
    obtain ⟨⟨s₁, f⟩, hreq, hok⟩ := bind_eq_ok.mp hok
    obtain ⟨hpool, htables, hcr3⟩ := requestPage_eq_ok hreq
    obtain ⟨hpdPool, hpdPml, hchild⟩ := hpd _ hnext
    generalize (s.tables father i).page = pd at *
    rw [hpool, forall_mem_cons] at hpages
    rw [hpool, nodup_cons] at hnodup
    rw [hpool, mem_cons, not_or] at hpml hpdPool
    simp only [hpool, mem_cons, not_or] at hchild
    split_ifs at hok with hnull
    · exact absurd hok kpanic_ne_ok
    -- the state in which the inner loop starts
    obtain ⟨u, hu, hok⟩ : ∃ u : PagingState, u = (s₁.copyTable f pd).setEntry pml i
        ((s.tables father i).withPage f) ∧
        (List.finRange 512).foldlM (duplicateEntry pd f) u = .ok s' := ⟨_, rfl, hok⟩
    have hupool : u.pool = s₁.pool := by
      rw [hu]
      rfl
    have hutables : u.tables =
        setAt (copyAt s.tables f pd) pml i ((s.tables father i).withPage f) := by
      rw [hu, ← htables]
      rfl
    have hrow : ∀ {n}, n ≠ f → n ≠ pml → u.tables n = s.tables n := by
      intro n hnf hn
      funext k
      rw [hutables, setAt_of_ne (.inl hn), copyAt_of_ne hnf]
    have hnew : u.tables f = s.tables pd := by
      funext k
      rw [hutables, setAt_of_ne (.inl (Ne.symm hpml.1)), copyAt_self]
    have hpdRow := hrow hpdPool.1 hpdPml
    obtain ⟨hcr3', used, hused, hdone⟩ := duplicateEntries_eq_ok hok (hupool ▸ hpages.2)
      (hupool ▸ hnodup.2) (hupool ▸ hpdPool.2) hpdPool.1 (hupool ▸ hnodup.1) fun j pt hpt => by
        rw [hpdRow] at hpt
        rw [hupool]
        exact ⟨(hchild j pt hpt).1.2, (hchild j pt hpt).1.1⟩
    have hall : ∀ j, j ∈ List.finRange 512 := mem_finRange
    have hpmlRow : s'.tables pml = u.tables pml := by
      refine hdone.outside pml (fun hin => hpml.2 ?_) hpml.1
      rw [← hupool, hused]
      exact mem_append_left _ hin
    have habsent : ∀ j, (s.tables pd j).next = none → (s'.tables f j).next = none := by
      intro j hj
      rw [hdone.rest j (.inr (hpdRow ▸ hj)), hnew, hj]
    refine .inr ⟨pd, f, used, hnext, ?_, ?_, fun n hn hnp => ?_, fun i' hi' => ?_, ?_, habsent,
      fun j pt hpt => ?_, fun j j' hj heq => ?_⟩
    · rw [hpool, ← hupool, hused]
    · rw [hcr3', hu]
      exact hcr3
    · rw [mem_cons, not_or] at hn
      rw [hdone.outside n hn.2 hn.1, hrow hn.1 hnp]
    · rw [hpmlRow, hutables, setAt_of_ne (.inr hi'), copyAt_of_ne hpml.1]
    · rw [hpmlRow, hutables, setAt_self]
      exact next_withPage hpresent hpages.1.1 hpages.1.2
    · obtain ⟨q, hq, hqnext, hqrow⟩ := hdone.copied j (hall j) pt (hpdRow ▸ hpt)
      exact ⟨q, hq, hqnext, hqrow.trans (hrow (hchild j pt hpt).1.1 (hchild j pt hpt).2)⟩
    · refine hdone.inj j (hall j) j' (hall j') ?_ ?_ heq
      · exact fun hnone => hj (habsent j (hpdRow ▸ hnone))
      · exact fun hnone => hj (heq.trans (habsent j' (hpdRow ▸ hnone)))

end Outer

/-- The present entries of `father` among `L` have got copies in the new directory `pml`, from the
pages `used`; its other entries are blank. -/
structure DirectoriesDone (t t' : ℕ → Fin 512 → PageEntry) (father pml : ℕ) (L : List (Fin 512))
    (used : List ℕ) : Prop where
  outside : ∀ n, n ∉ used → n ≠ pml → t' n = t n
  blank : ∀ i, i ∉ L → (t' pml i).next = none
  reach : ∀ {p n}, p ≠ [] → p.length < 3 → follow next t' pml p = some n → n ∈ used
  inj : ∀ {p q n}, p ≠ [] → q ≠ [] → p.length < 3 → q.length < 3 →
    follow next t' pml p = some n → follow next t' pml q = some n → p = q
  copy : ∀ i ∈ L, ∀ j k, follow next t' pml [i, j, k] = follow next t father [i, j, k]

namespace DirectoryCopied

variable {t t' : ℕ → Fin 512 → PageEntry} {pml pd f : ℕ} {i : Fin 512} {used : List ℕ}

section

variable (h : DirectoryCopied t t' pml i pd f used)

include h

/-- The paths through the copy. -/
theorem follow_nil : follow next t' pml [i] = some f := by
  rw [follow_cons, h.entry]
  rfl

theorem follow_one (j : Fin 512) : follow next t' pml [i, j] = (t' f j).next := by
  rw [follow_cons, h.entry, bind_some, follow_cons]
  cases (t' f j).next <;> rfl

/-- The copy leads to the page tables that the table led to. -/
theorem follow_two (j k : Fin 512) : follow next t' pml [i, j, k] = follow next t pd [j, k] := by
  rw [follow_cons, h.entry, bind_some, follow_cons, follow_cons]
  cases hj : (t pd j).next with
  | none => rw [h.absent j hj, bind_none, bind_none]
  | some pt =>
    obtain ⟨q, -, hq, hrow⟩ := h.copied j pt hj
    rw [hq, bind_some, bind_some, follow_cons, follow_cons, hrow]
    rfl

/-- The tables of the copy. -/
theorem reach {p : List (Fin 512)} {n : ℕ} (hp : (i :: p).length < 3)
    (hn : follow next t' pml (i :: p) = some n) :
    p = [] ∧ n = f ∨ n ∈ used := by
  match p with
  | [] => exact .inl ⟨rfl, mem_unique hn h.follow_nil⟩
  | [j] =>
    rw [h.follow_one] at hn
    cases hj : (t pd j).next with
    | none => exact absurd (hn.symm.trans (h.absent j hj)) (by simp)
    | some pt =>
      obtain ⟨q, hq, hnext, -⟩ := h.copied j pt hj
      exact .inr (mem_unique hnext hn ▸ hq)
  | _ :: _ :: _ => exact absurd hp (by simp)

/-- They are reached by one path each. -/
theorem path_unique (hf : f ∉ used) {p q : List (Fin 512)} {n : ℕ} (hp : (i :: p).length < 3)
    (hq : (i :: q).length < 3) (hpn : follow next t' pml (i :: p) = some n)
    (hqn : follow next t' pml (i :: q) = some n) : p = q := by
  have htop : ∀ {j}, follow next t' pml [i, j] ≠ some f := by
    intro j hj
    rcases h.reach (by simp) hj with ⟨hnil, -⟩ | hin
    · exact absurd hnil (by simp)
    · exact hf hin
  match p, q with
  | [], [] => rfl
  | [], [j] => exact absurd (hqn.trans (hpn.symm.trans h.follow_nil)) htop
  | [j], [] => exact absurd (hpn.trans (hqn.symm.trans h.follow_nil)) htop
  | [j], [j'] =>
    rw [h.follow_one] at hpn hqn
    rw [h.inj j j' (by simp [hpn]) (hpn.trans hqn.symm)]
  | _ :: _ :: _, _ => exact absurd hp (by simp)
  | _, _ :: _ :: _ => exact absurd hq (by simp)

end

end DirectoryCopied

namespace DirectoriesDone

variable {t t₁ t' : ℕ → Fin 512 → PageEntry} {father pml pd f : ℕ} {i : Fin 512}
  {L : List (Fin 512)} {used new : List ℕ}

section

variable (h : DirectoriesDone t t₁ father pml L used)

include h

theorem follow_of_not_mem (hi : i ∉ L) (p : List (Fin 512)) :
    follow next t₁ pml (i :: p) = none := by
  rw [follow_cons, h.blank i hi, bind_none]

/-- An entry that is not present is left blank. -/
theorem skip (hi : i ∉ L) (hnone : (t father i).next = none) :
    DirectoriesDone t t₁ father pml (L ++ [i]) used := by
  refine ⟨h.outside, fun i' hi' => h.blank i' fun hmem => hi' (mem_append_left _ hmem),
    h.reach, h.inj, fun i' hi' j k => ?_⟩
  rcases mem_append.mp hi' with hi' | hi'
  · exact h.copy i' hi' j k
  · rw [mem_singleton.mp hi', h.follow_of_not_mem hi, follow_cons, hnone, bind_none]

/-- The paths through the other entries are kept when one more is copied. -/
private theorem follow_keep (hd : DirectoryCopied t₁ t' pml i pd f new)
    (hnodup : (pml :: used ++ f :: new).Nodup) {i' : Fin 512} (hi' : i' ≠ i) {p : List (Fin 512)}
    (hp : (i' :: p).length ≤ 3) :
    follow next t' pml (i' :: p) = follow next t₁ pml (i' :: p) := by
  refine follow_congr fun q j r hsplit n hn => ?_
  cases q with
  | nil =>
    obtain rfl := Option.some.inj hn
    rw [← (List.cons.inj hsplit).1, hd.others i' hi']
  | cons a q =>
    have hlen : (a :: q).length < 3 := by
      rw [hsplit, length_append, length_cons (a := j)] at hp
      omega
    have hin : n ∈ used := h.reach (by simp) hlen hn
    rw [nodup_append, nodup_cons] at hnodup
    rw [hd.outside n]
    · exact fun hnew => hnodup.2.2 n (mem_cons_of_mem _ hin) n hnew rfl
    · exact fun heq => hnodup.1.1 (heq ▸ hin)

/-- An entry that is present gets a copy. -/
theorem extend (hi : i ∉ L) (hd : DirectoryCopied t₁ t' pml i pd f new)
    (hnodup : (pml :: used ++ f :: new).Nodup) (hpd : (t father i).next = some pd)
    (hrow : ∀ j k, follow next t₁ pd [j, k] = follow next t pd [j, k]) :
    DirectoriesDone t t' father pml (L ++ [i]) (used ++ f :: new) := by
  have hkeep : ∀ {i' p}, i' ≠ i → (i' :: p).length ≤ 3 →
      follow next t' pml (i' :: p) = follow next t₁ pml (i' :: p) :=
    fun hi' hp => h.follow_keep hd hnodup hi' hp
  rw [nodup_append, nodup_cons, nodup_cons] at hnodup
  obtain ⟨⟨hpml, -⟩, ⟨hf, -⟩, hdisjoint⟩ := hnodup
  -- a path through `i` leads to a new table, any other path to an old one
  have hnew : ∀ {p n}, (i :: p).length < 3 → follow next t' pml (i :: p) = some n →
      n ∈ f :: new := by
    intro p n hp hn
    rcases hd.reach hp hn with ⟨-, rfl⟩ | hin
    · exact mem_cons_self
    · exact mem_cons_of_mem _ hin
  have hold : ∀ {i' p n}, i' ≠ i → (i' :: p).length < 3 →
      follow next t' pml (i' :: p) = some n → n ∈ used := by
    intro i' p n hi' hp hn
    rw [hkeep hi' (Nat.le_of_lt hp)] at hn
    exact h.reach (by simp) hp hn
  have hapart : ∀ {n}, n ∈ used → n ∉ f :: new :=
    fun hin hin' => hdisjoint _ (mem_cons_of_mem _ hin) _ hin' rfl
  refine ⟨fun n hn hnp => ?_, fun i' hi' => ?_, fun {p n} hne hp hn => ?_,
    fun {p q n} hne hne' hp hq hpn hqn => ?_, fun i' hi' j k => ?_⟩
  · rw [mem_append, not_or] at hn
    rw [hd.outside n hn.2 hnp, h.outside n hn.1 hnp]
  · rw [mem_append, not_or, mem_singleton] at hi'
    rw [hd.others i' hi'.2, h.blank i' hi'.1]
  · obtain ⟨a, p, rfl⟩ := exists_cons_of_ne_nil hne
    by_cases ha : a = i
    · subst ha
      exact mem_append_right _ (hnew hp hn)
    · exact mem_append_left _ (hold ha hp hn)
  · obtain ⟨a, p, rfl⟩ := exists_cons_of_ne_nil hne
    obtain ⟨b, q, rfl⟩ := exists_cons_of_ne_nil hne'
    by_cases ha : a = i <;> by_cases hb : b = i
    · subst ha hb
      rw [hd.path_unique (fun hin => hf hin) hp hq hpn hqn]
    · subst ha
      exact absurd (hnew hp hpn) (hapart (hold hb hq hqn))
    · subst hb
      exact absurd (hnew hq hqn) (hapart (hold ha hp hpn))
    · rw [hkeep ha (Nat.le_of_lt hp)] at hpn
      rw [hkeep hb (Nat.le_of_lt hq)] at hqn
      exact h.inj hne hne' hp hq hpn hqn
  · rcases mem_append.mp hi' with hi' | hi'
    · have hne : i' ≠ i := fun heq => hi (heq ▸ hi')
      rw [hkeep hne (by simp), h.copy i' hi' j k]
    · obtain rfl := mem_singleton.mp hi'
      rw [hd.follow_two, hrow, follow_cons (i := i'), hpd, bind_some]

end

end DirectoriesDone

/-! ### The copy of an address space -/

/-- What `_duplicate_pd` does whether or not the tables of the address spaces are a forest: the new
directory `pml` has the paths of `father` that start in the range, and the same page tables; all
other address spaces are as before. -/
structure CopyMade (s s' : PagingState) (roots : List ℕ) (father pml start stop : ℕ) : Prop where
  freshPool : FreshPool s' (pml :: roots)
  cr3 : s'.cr3 = s.cr3
  pool : s'.pool <:+ s.pool
  new : pml ∈ s.pool
  paths : ∀ r ∈ roots, ∀ p, p.length ≤ 3 → s'.paths r p = s.paths r p
  lookup : ∀ r ∈ roots, ∀ v, s'.lookup r v = s.lookup r v
  copyPaths : ∀ i j k, s'.paths pml [i, j, k] =
    if start ≤ i.val ∧ i.val < stop then s.paths father [i, j, k] else none
  copyLookup : ∀ v, s'.lookup pml v =
    if start ≤ (addressToMap v).pdpI.val ∧ (addressToMap v).pdpI.val < stop then s.lookup father v
    else none
  upper : ∀ {p n}, p.length < 3 → s'.paths pml p = some n → n ∈ s.pool
  inj : ∀ {p q n}, p.length < 3 → q.length < 3 → s'.paths pml p = some n →
    s'.paths pml q = some n → p = q
  leaf : ∀ {p n}, p.length = 3 → s'.paths pml p = some n → s.paths father p = some n

/-- **What `_duplicate_pd` does** where the tables of the address spaces are a forest. -/
structure Duplicates (s s' : PagingState) (roots : List ℕ) (father pml start stop : ℕ) : Prop
    extends CopyMade s s' roots father pml start stop where
  spaces : Spaces s' (pml :: roots)

section Duplicate

variable {s s' : PagingState} {roots : List ℕ} {father pml start stop : ℕ}

/-- The two loops of `_duplicate_pd`. -/
theorem duplicateDirectories_eq_ok {L : List (Fin 512)} (hL : L.Nodup)
    (hok : L.foldlM (duplicateDirectory father pml) s = .ok s')
    (hpages : ∀ f ∈ s.pool, f % pageSize = 0 ∧ f < 2 ^ 40) (hnodup : (pml :: s.pool).Nodup)
    (hblank : ∀ i, (s.tables pml i).next = none)
    (hold : ∀ {p n}, p.length ≤ 3 → s.paths father p = some n → n ∉ pml :: s.pool) :
    s'.cr3 = s.cr3 ∧ ∃ used, s.pool = used ++ s'.pool ∧
      DirectoriesDone s.tables s'.tables father pml L used := by
  refine foldlM_ok (s := s) (P := fun L u => u.cr3 = s.cr3 ∧ ∃ used, s.pool = used ++ u.pool ∧
    DirectoriesDone s.tables u.tables father pml L used) ?_ ?_ hok
  · intro done i rest u u' hlist ⟨hcr3, used, hpool, hdone⟩ hround
    have hi : i ∉ done := by
      rw [hlist, nodup_append] at hL
      exact fun hi => hL.2.2 i hi i mem_cons_self rfl
    have hmem : ∀ {n}, n ∈ u.pool → n ∈ s.pool := fun hn => by
      rw [hpool]
      exact mem_append_right _ hn
    -- the tables of the original are as they were
    have hrow : ∀ {n}, n ∉ pml :: s.pool → u.tables n = s.tables n := by
      intro n hn
      rw [mem_cons, not_or, hpool, mem_append, not_or] at hn
      exact hdone.outside n hn.2.1 hn.1
    have hfather : u.tables father = s.tables father := hrow (hold (p := []) (by simp) rfl)
    have hout : ∀ {n}, n ∉ pml :: s.pool → n ∉ u.pool ∧ n ≠ pml := by
      intro n hn
      rw [mem_cons, not_or] at hn
      exact ⟨fun h => hn.2 (hmem h), hn.1⟩
    have hbelow : ∀ {pd q n}, (s.tables father i).next = some pd → (i :: q).length ≤ 3 →
        follow next s.tables pd q = some n → n ∉ pml :: s.pool := by
      intro pd q n hpd hq hn
      refine hold hq ?_
      rw [paths, follow_cons, hpd]
      exact hn
    have hnodup' : u.pool.Nodup := by
      rw [hpool, nodup_cons, nodup_append] at hnodup
      exact hnodup.2.2.1
    have hpd' : ∀ pd, (u.tables father i).next = some pd → pd ∉ u.pool ∧ pd ≠ pml ∧
        ∀ j pt, (u.tables pd j).next = some pt → pt ∉ u.pool ∧ pt ≠ pml := by
      intro pd hpd
      rw [hfather] at hpd
      have hpdOut := hbelow (q := []) hpd (by simp) rfl
      refine ⟨(hout hpdOut).1, (hout hpdOut).2, fun j pt hpt => hout ?_⟩
      rw [hrow hpdOut] at hpt
      exact hbelow (q := [j]) hpd (by simp) ((Spaces.paths_concat (q := []) rfl).trans hpt)
    rcases duplicateDirectory_eq_ok hround (fun f hf => hpages f (hmem hf)) hnodup'
      (fun h => (nodup_cons.mp hnodup).1 (hmem h)) hpd' with
      ⟨hnone, rfl⟩ | ⟨pd, f, new, hpd, hpool', hcr3', hd⟩
    · rw [hfather] at hnone
      exact ⟨hcr3, used, hpool, hdone.skip hi hnone⟩
    · rw [hfather] at hpd
      refine ⟨hcr3'.trans hcr3, used ++ f :: new, ?_, hdone.extend hi hd ?_ hpd fun j k => ?_⟩
      · rw [hpool, hpool', append_assoc, cons_append]
      · refine hnodup.sublist ((List.Sublist.cons_cons pml ?_))
        rw [hpool, hpool', ← cons_append, ← append_assoc]
        exact sublist_append_left _ _
      · refine follow_congr fun q j' r hsplit n hn => ?_
        rw [hrow (hbelow hpd ?_ hn)]
        have hlen := congrArg List.length hsplit
        rw [length_append, length_cons (a := j')] at hlen
        simp only [length_cons, length_nil] at hlen ⊢
        omega
  · have hnone : ∀ {p n}, p ≠ [] → s.paths pml p ≠ some n := by
      intro p n hp
      obtain ⟨i, p, rfl⟩ := exists_cons_of_ne_nil hp
      rw [paths, follow_cons, hblank i, bind_none]
      simp
    exact ⟨rfl, [], rfl, fun _ _ _ => rfl, fun i _ => hblank i,
      fun hp _ hn => absurd hn (hnone hp), fun hp _ _ _ hn => absurd hn (hnone hp), by simp⟩

/-- Writes to pages of the allocator change no table that is reached. -/
theorem FreshPool.rows_of_reached (hs : FreshPool s roots)
    (hrow : ∀ n, n ∉ s.pool → s'.tables n = s.tables n) {r : ℕ} (hr : r ∈ roots)
    (q : List (Fin 512)) (n : ℕ) (hq : q.length ≤ 3) (hn : s.paths r q = some n) :
    s'.tables n = s.tables n :=
  hrow n fun hin => hs.fresh n hin r hr q hq hn

/-- What the loops of `_duplicate_pd` do, from its start. -/
theorem FreshPool.duplicatePd_eq_ok (hs : FreshPool s roots) (hfather : father ∈ roots)
    (hok : s.duplicatePd father start stop = .ok (s', pml)) :
    s'.cr3 = s.cr3 ∧ ∃ used, s.pool = pml :: (used ++ s'.pool) ∧
      DirectoriesDone s.tables s'.tables father pml
        ((List.finRange 512).filter fun i => start ≤ i.val ∧ i.val < stop) used := by
  rw [duplicatePd] at hok
  obtain ⟨⟨s₁, page⟩, hreq, hok⟩ := bind_eq_ok.mp hok
  obtain ⟨hpool, htables, hcr3⟩ := requestPage_eq_ok hreq
  simp only at hok
  split_ifs at hok with hnull
  · exact absurd hok kpanic_ne_ok
  obtain ⟨u, hloop, hok⟩ := bind_eq_ok.mp hok
  obtain ⟨rfl, rfl⟩ := ok_inj hok
  -- the cleared page is on no path
  have hrow : ∀ n, n ≠ page → (s₁.clearTable page).tables n = s.tables n := by
    intro n hn
    funext k
    rw [← htables]
    exact clearAt_of_ne hn
  have hpaths : ∀ {p}, p.length ≤ 3 → (s₁.clearTable page).paths father p = s.paths father p := by
    intro p hp
    refine paths_of_reached (hs.rows_of_reached (fun n hn => hrow n ?_) hfather) hp
    rintro rfl
    rw [hpool] at hn
    exact hn mem_cons_self
  have hpages := hs.pages
  rw [hpool, forall_mem_cons] at hpages
  have hnodup := hs.nodup
  rw [hpool] at hnodup
  obtain ⟨hcr3', used, hused, hdone⟩ := duplicateDirectories_eq_ok
    ((nodup_finRange 512).filter _) hloop hpages.2 hnodup
    (fun i => congrArg next clearAt_self)
    (fun {p n} hp hn hin => by
      rw [hpaths hp] at hn
      exact hs.fresh n (hpool ▸ hin) father hfather p hp hn)
  refine ⟨hcr3'.trans hcr3, used, by rw [hpool, ← hused]; rfl, fun n hn hnp => ?_, hdone.blank,
    hdone.reach, hdone.inj, fun i hi j k => ?_⟩
  · rw [hdone.outside n hn hnp, hrow n hnp]
  · exact (hdone.copy i hi j k).trans (hpaths (by simp))

/-- **`_duplicate_pd` copies an address space** into fresh pages, and shares its page tables. -/
theorem FreshPool.duplicatePd (hs : FreshPool s roots) (hfather : father ∈ roots)
    (hok : s.duplicatePd father start stop = .ok (s', pml)) :
    CopyMade s s' roots father pml start stop := by
  obtain ⟨hcr3, used, hpool, hdone⟩ := hs.duplicatePd_eq_ok hfather hok
  have hnew : pml ∈ s.pool := by
    rw [hpool]
    exact mem_cons_self
  have hmem : ∀ {n}, n ∈ pml :: used → n ∈ s.pool := fun hn => by
    rw [hpool, ← cons_append]
    exact mem_append_left _ hn
  have hsuffix : s'.pool <:+ s.pool := by
    rw [hpool]
    exact (suffix_append used _).trans (suffix_cons _ _)
  have hrow : ∀ n, n ∉ s.pool → s'.tables n = s.tables n := by
    intro n hn
    rw [hpool, mem_cons, not_or, mem_append, not_or] at hn
    exact hdone.outside n hn.2.1 hn.1
  have hpaths : ∀ r ∈ roots, ∀ p, p.length ≤ 3 → s'.paths r p = s.paths r p :=
    fun r hr p hp => paths_of_reached (hs.rows_of_reached hrow hr) hp
  have hcopy : ∀ i j k, s'.paths pml [i, j, k] =
      if start ≤ i.val ∧ i.val < stop then s.paths father [i, j, k] else none := by
    intro i j k
    split_ifs with hi
    · exact hdone.copy i (by simpa using hi) j k
    · exact hdone.follow_of_not_mem (by simpa using hi) _
  have hlookup : ∀ v, s'.lookup pml v = if start ≤ (addressToMap v).pdpI.val ∧
      (addressToMap v).pdpI.val < stop then s.lookup father v else none := by
    intro v
    have hv := hcopy (addressToMap v).pdpI (addressToMap v).pdI (addressToMap v).ptI
    split_ifs at hv ⊢ with hi
    · exact lookup_of_reached (hs.rows_of_reached hrow hfather) hv
    · exact congrArg (fun o => (Option.map _ o).filter _) hv
  -- the upper tables of the copy are new, its page tables those of the original
  have hupper : ∀ {p n}, p.length < 3 → s'.paths pml p = some n → n ∈ pml :: used := by
    intro p n hp hn
    cases p with
    | nil =>
      obtain rfl := Option.some.inj hn
      exact mem_cons_self
    | cons i p => exact mem_cons_of_mem _ (hdone.reach (by simp) hp hn)
  have hleaf : ∀ {p n}, p.length = 3 → s'.paths pml p = some n → s.paths father p = some n := by
    intro p n hp hn
    obtain ⟨i, j, k, rfl⟩ := length_eq_three.mp hp
    rw [hcopy] at hn
    split_ifs at hn
    exact hn
  have hinj : ∀ {p q n}, p.length < 3 → q.length < 3 → s'.paths pml p = some n →
      s'.paths pml q = some n → p = q := by
    intro p q n hp hq hpn hqn
    have hpml : pml ∉ used := by
      have := hs.nodup
      rw [hpool, nodup_cons, mem_append, not_or] at this
      exact this.1.1
    cases p <;> cases q
    · rfl
    · obtain rfl := Option.some.inj hpn
      exact absurd (hdone.reach (by simp) hq hqn) hpml
    · obtain rfl := Option.some.inj hqn
      exact absurd (hdone.reach (by simp) hp hpn) hpml
    · exact hdone.inj (by simp) (by simp) hp hq hpn hqn
  refine ⟨⟨fun f hf r hr p hp hn => ?_, hs.nodup.sublist hsuffix.sublist,
    fun f hf => hs.pages f (hsuffix.subset hf)⟩, hcr3, hsuffix, hnew, hpaths,
    fun r hr v => lookup_of_reached (hs.rows_of_reached hrow hr)
      (hpaths r hr _ (Nat.le_of_eq (length_path v))),
    hcopy, hlookup, fun hp hn => hmem (hupper hp hn), hinj, hleaf⟩
  have hfs := hsuffix.subset hf
  rcases mem_cons.mp hr with rfl | hr
  · rcases Nat.lt_or_eq_of_le hp with hlt | heq
    · have hnodup := hs.nodup
      rw [hpool, ← cons_append, nodup_append] at hnodup
      exact hnodup.2.2 f (hupper hlt hn) f hf rfl
    · exact hs.fresh f hfs father hfather p hp (hleaf heq hn)
  · rw [hpaths r hr p hp] at hn
    exact hs.fresh f hfs r hr p hp hn

/-- **`_duplicate_pd` adds an address space to a forest.** -/
theorem Spaces.duplicatePd (hs : Spaces s roots) (hfather : father ∈ roots)
    (hok : s.duplicatePd father start stop = .ok (s', pml)) :
    Duplicates s s' roots father pml start stop := by
  have hcopy := hs.freshPool.duplicatePd hfather hok
  have hforest : Forest s'.paths (pml :: roots) 3 := by
    refine (hs.forest.congr hcopy.paths).cons (P := (· ∈ s.pool)) ?_ hcopy.upper hcopy.inj ?_
    · intro r p n hr hp hn hin
      rw [hcopy.paths r hr p hp] at hn
      exact hs.fresh n hin r hr p hp hn
    · intro p n hp hn
      exact ⟨father, hfather,
        (hcopy.paths father hfather p (Nat.le_of_eq hp)).trans (hcopy.leaf hp hn)⟩
  obtain ⟨hfresh, hnodup, hpages⟩ := hcopy.freshPool
  exact { hcopy with spaces := ⟨hforest, hfresh, hnodup, hpages⟩ }

end Duplicate

end Bloodmoon
