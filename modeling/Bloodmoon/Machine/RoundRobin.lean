import Mathlib

/-!
# Taking turns around a list

`turnOrder l c` is the order in which a scheduler that last served `c` looks at the elements of `l`:
those after `c`, then those before it, and `c` itself in the end. It depends only on the cycle that
the list is (`turnOrder_comm`), so that serving `t` next turns the order at `t` (`turnOrder_turn`)
and everything that came after `t` has moved up. The place of an element that waits, `idxOf` in the
order, is therefore what bounds its waiting (`idxOf_turnOrder_lt`).
-/

namespace Machine

open List

variable {α : Type*} [DecidableEq α] {l as bs us vs : List α} {c t x : α}

/-- The elements of `l` in cyclic order after `c`, with `c` at the end. -/
def turnOrder (l : List α) (c : α) : List α :=
  (l.dropWhile (· ≠ c)).tail ++ l.takeWhile (· ≠ c) ++ [c]

theorem turnOrder_append (hl : (as ++ c :: bs).Nodup) :
    turnOrder (as ++ c :: bs) c = bs ++ as ++ [c] := by
  have hall : ∀ a ∈ as, decide (a ≠ c) = true := fun a ha =>
    decide_eq_true ((nodup_append.1 hl).2.2 a ha c mem_cons_self)
  rw [turnOrder, dropWhile_append_of_pos hall, takeWhile_append_of_pos hall,
    dropWhile_cons_of_neg (by simp), takeWhile_cons_of_neg (by simp), append_nil,
    tail_cons]

theorem perm_turnOrder (hc : c ∈ l) (hl : l.Nodup) : (turnOrder l c).Perm l := by
  obtain ⟨as, bs, rfl⟩ := append_of_mem hc
  rw [turnOrder_append hl, append_assoc]
  exact perm_append_comm.trans (by simp)

theorem mem_turnOrder (hc : c ∈ l) (hl : l.Nodup) : x ∈ turnOrder l c ↔ x ∈ l :=
  (perm_turnOrder hc hl).mem_iff

/-- Nothing comes after the element that was served last. -/
theorem turnOrder_last (hc : c ∈ l) (hl : l.Nodup) (h : turnOrder l c = us ++ c :: vs) :
    vs = [] := by
  have hnodup : (us ++ c :: vs).Nodup := h ▸ (perm_turnOrder hc hl).nodup_iff.2 hl
  by_contra hne
  have hlast : (us ++ c :: vs).getLast? = some c := by
    rw [← h, turnOrder, getLast?_concat]
  rw [getLast?_append_of_ne_nil _ (cons_ne_nil c vs), getLast?_cons,
    getLast?_eq_some_getLast hne] at hlast
  have hmem : c ∈ vs := Option.some.inj hlast ▸ getLast_mem hne
  exact (nodup_cons.1 (nodup_append.1 hnodup).2.1).1 hmem

theorem turnOrder_comm_of_mem (hl : (as ++ bs).Nodup) (ht : t ∈ as) :
    turnOrder (as ++ bs) t = turnOrder (bs ++ as) t := by
  obtain ⟨us, vs, rfl⟩ := append_of_mem ht
  have hl' : (bs ++ (us ++ t :: vs)).Nodup := perm_append_comm.nodup_iff.1 hl
  rw [append_assoc, cons_append] at hl ⊢
  rw [← append_assoc] at hl' ⊢
  rw [turnOrder_append hl, turnOrder_append hl']
  simp

/-- Where the list is cut open does not matter. -/
theorem turnOrder_comm (hl : (as ++ bs).Nodup) (ht : t ∈ as ++ bs) :
    turnOrder (as ++ bs) t = turnOrder (bs ++ as) t := by
  rcases mem_append.1 ht with ht | ht
  · exact turnOrder_comm_of_mem hl ht
  · exact (turnOrder_comm_of_mem (perm_append_comm.nodup_iff.1 hl) ht).symm

/-- **Serving `t` turns the order at `t`.** -/
theorem turnOrder_turn (hc : c ∈ l) (hl : l.Nodup) (h : turnOrder l c = us ++ t :: vs) :
    turnOrder l t = vs ++ us ++ [t] := by
  have ht : t ∈ l := (mem_turnOrder hc hl).1 (h ▸ by simp)
  have hnodup : (us ++ t :: vs).Nodup := h ▸ (perm_turnOrder hc hl).nodup_iff.2 hl
  obtain ⟨as, bs, rfl⟩ := append_of_mem hc
  have hcut : as ++ c :: bs = (as ++ [c]) ++ bs := by simp
  rw [turnOrder_append hl, append_assoc] at h
  rw [hcut] at hl ht ⊢
  rw [turnOrder_comm hl ht, h, turnOrder_append hnodup]

/-- **Whoever is passed over moves up.** -/
theorem idxOf_turnOrder_lt {p : α → Bool} (hc : c ∈ l) (hl : l.Nodup) (hx : x ∈ l) (hp : p x = true)
    (hfind : (turnOrder l c).find? p = some t) (hne : t ≠ x) :
    (turnOrder l t).idxOf x < (turnOrder l c).idxOf x := by
  obtain ⟨-, us, vs, heq, hus⟩ := find?_eq_some_iff_append.1 hfind
  have hmem : x ∈ us ++ t :: vs := heq ▸ (mem_turnOrder hc hl).2 hx
  have hnot : x ∉ us := fun hmem => by simpa [hp] using hus x hmem
  have hvs : x ∈ vs := by simpa [hnot, hne.symm] using hmem
  rw [turnOrder_turn hc hl heq, heq, append_assoc, idxOf_append_of_mem hvs,
    idxOf_append_of_notMem hnot, idxOf_cons_ne _ hne]
  omega

end Machine
