import Mathlib

/-!
# Subscribers

The model of the lists of subscribers in `tty.c` and in `serial.c`. Both begin with a node that has
no handler. `remove_subscriber` of the serial driver compares the node behind the current one and
unlinks that node. `_tty_remove_subscriber` compares the current node and unlinks the one behind it,
so that the wrong handler goes, or none does (`subscribers_iff`).
-/

namespace Bloodmoon

open List

variable {α : Type} [DecidableEq α] {h : α} {l : List α}

/-- The loop of `_tty_remove_subscriber` at a node with the handler `current`: what is behind the
node at the end. -/
def ttyRemoveBehind (h : α) : Option α → List α → List α
  | _, [] => []
  | current, next :: rest =>
    if current = some h then rest else next :: ttyRemoveBehind h (some next) rest

/-- `_tty_remove_subscriber`. -/
def ttyRemoveSubscriber (l : List α) (h : α) : List α := ttyRemoveBehind h none l

/-- The loop of `remove_subscriber`: what is behind the current node at the end. A subscriber is
a handler with its parent. -/
def removeSubscriber (h : α) : List α → List α
  | [] => []
  | next :: rest => if next = h then rest else next :: removeSubscriber h rest

/-- The calls; `_tty_add_subscriber` and `add_subscriber` put the handler at the end. -/
inductive SubscriberOp (α : Type) where
  | add (h : α)
  | remove (h : α)

/-- A call on a list whose way to remove a handler is `remove`. -/
def subscriberStep (remove : List α → α → List α) (l : List α) : SubscriberOp α → List α
  | .add h => l ++ [h]
  | .remove h => remove l h

/-- After every call the list of the terminal is the sequence that it should be. -/
def Follows (l : List α) : List (SubscriberOp α) → Prop
  | [] => True
  | op :: ops => subscriberStep ttyRemoveSubscriber l op = subscriberStep List.erase l op ∧
      Follows (subscriberStep List.erase l op) ops

/-- A handler that is removed is not in the list, or the first one is followed by another. -/
def Doubled (l : List α) : SubscriberOp α → Prop
  | .add _ => True
  | .remove h => h ∈ l → (l.dropWhile (· ≠ h)).tail.head? = some h

/-- That holds of all calls. -/
def AllDoubled (l : List α) : List (SubscriberOp α) → Prop
  | [] => True
  | op :: ops => Doubled l op ∧ AllDoubled (subscriberStep List.erase l op) ops

/-- **When `_tty_remove_subscriber` removes the right handler**, from a node with another one. -/
theorem ttyRemoveBehind_eq_iff {current : Option α} (hcur : current ≠ some h) :
    ttyRemoveBehind h current l = l.erase h ↔ Doubled l (.remove h) := by
  unfold Doubled
  induction l generalizing current with
  | nil => exact iff_of_true rfl fun hmem => absurd hmem not_mem_nil
  | cons x rest ih =>
    rw [ttyRemoveBehind, if_neg hcur]
    by_cases hx : x = h
    · -- the node behind the first `h` goes, if there is one
      subst hx
      cases rest with
      | nil => simp [ttyRemoveBehind]
      | cons y ys => simp [ttyRemoveBehind, eq_comm]
    · rw [erase_cons_tail (by simpa using hx), cons_inj_right, ih (by simpa using hx)]
      simp [hx, Ne.symm hx]

theorem removeSubscriber_eq : removeSubscriber h l = l.erase h := by
  induction l with
  | nil => rfl
  | cons x rest ih => simp only [removeSubscriber, ih, erase_cons, beq_iff_eq]

theorem follows_iff (ops : List (SubscriberOp α)) : Follows l ops ↔ AllDoubled l ops := by
  induction ops generalizing l with
  | nil => rfl
  | cons op ops ih =>
    rw [Follows, AllDoubled, ih]
    refine and_congr_left fun _ => ?_
    cases op with
    | add h => exact iff_of_true rfl trivial
    | remove h => exact ttyRemoveBehind_eq_iff (Option.some_ne_none h).symm

/-- **When the subscribers of a terminal are the right ones**: in every run, as long as a handler
that is removed is not there, or is there twice in a row. Those of a serial port always are. -/
theorem subscribers_iff (ops : List (SubscriberOp α)) :
    (Follows [] ops ↔ AllDoubled [] ops) ∧
      ops.foldl (subscriberStep fun l h => removeSubscriber h l) [] =
        ops.foldl (subscriberStep List.erase) [] := by
  have hremove : (fun (l : List α) h => removeSubscriber h l) = List.erase :=
    funext fun _ => funext fun _ => removeSubscriber_eq
  exact ⟨follows_iff ops, by rw [hremove]⟩

/-- The only subscriber stays. -/
theorem not_follows_last : ¬ Follows [] [.add 1, .remove 1] := fun h => absurd h.2.1 (by decide)

end Bloodmoon
