import Mathlib

/-!
# Doubly linked lists in memory

`Linked addr node m l xs r` says that the memory `m` holds the elements `xs` as a doubly linked
list: `node m x a b` is what it means for `x` to be stored with its backward link to the address
`a` and its forward link to `b`, the links of neighbours lead to each other, and the two ends are
linked to `l` and `r`.

An edit of such a list writes to a few nodes. `linked_append` takes the list apart around them, and
`Linked.congr` carries the parts that were not touched over to the new memory.
-/

namespace Machine

open List

variable {μ α : Type} (addr : α → ℕ) (node : μ → α → ℕ → ℕ → Prop)

/-- The address a link to the list `xs` leads to, which is `r` when there is nothing in it. -/
def firstAddr (r : ℕ) : List α → ℕ
  | [] => r
  | x :: _ => addr x

/-- The address a link back to the list leads to, which is `l` when there is nothing in it. -/
def lastAddr (l : ℕ) : List α → ℕ
  | [] => l
  | x :: xs => lastAddr (addr x) xs

/-- The memory `m` holds `xs` as a doubly linked list between the addresses `l` and `r`. -/
def Linked (m : μ) (l : ℕ) : List α → ℕ → Prop
  | [], _ => True
  | x :: xs, r => node m x l (firstAddr addr r xs) ∧ Linked m (addr x) xs r

variable {addr node} {m m' : μ} {l r : ℕ} {x : α} {xs ys : List α}

@[simp]
theorem firstAddr_nil : firstAddr addr r [] = r := rfl

@[simp]
theorem firstAddr_cons : firstAddr addr r (x :: xs) = addr x := rfl

@[simp]
theorem lastAddr_nil : lastAddr addr l [] = l := rfl

@[simp]
theorem lastAddr_cons : lastAddr addr l (x :: xs) = lastAddr addr (addr x) xs := rfl

@[simp]
theorem linked_nil : Linked addr node m l [] r := trivial

@[simp]
theorem linked_cons : Linked addr node m l (x :: xs) r ↔
    node m x l (firstAddr addr r xs) ∧ Linked addr node m (addr x) xs r := Iff.rfl

@[simp]
theorem firstAddr_append :
    firstAddr addr r (xs ++ ys) = firstAddr addr (firstAddr addr r ys) xs := by
  cases xs with
  | nil => rfl
  | cons x xs => rfl

@[simp]
theorem lastAddr_append : lastAddr addr l (xs ++ ys) = lastAddr addr (lastAddr addr l xs) ys := by
  induction xs generalizing l with
  | nil => rfl
  | cons x xs ih => exact ih

/-- **A list can be cut anywhere**: each part is linked to the nearest address of the other. -/
@[simp]
theorem linked_append : Linked addr node m l (xs ++ ys) r ↔
    Linked addr node m l xs (firstAddr addr r ys) ∧
      Linked addr node m (lastAddr addr l xs) ys r := by
  induction xs generalizing l with
  | nil => simp
  | cons x xs ih =>
    rw [cons_append, linked_cons, linked_cons, firstAddr_append, ih, and_assoc]
    rfl

/-- **A list whose nodes are all kept is kept.** -/
theorem Linked.congr (h : Linked addr node m l xs r)
    (hkeep : ∀ x ∈ xs, ∀ a b, node m x a b → node m' x a b) :
    Linked addr node m' l xs r := by
  induction xs generalizing l with
  | nil => trivial
  | cons x xs ih =>
    exact ⟨hkeep x mem_cons_self _ _ h.1, ih h.2 (forall_mem_cons.1 hkeep).2⟩

/-- Every element of a linked list is stored with some links. -/
theorem Linked.exists_node (h : Linked addr node m l xs r) (hx : x ∈ xs) : ∃ a b, node m x a b := by
  induction xs generalizing l with
  | nil => exact absurd hx (not_mem_nil)
  | cons y xs ih =>
    rcases mem_cons.mp hx with rfl | hx
    · exact ⟨_, _, h.1⟩
    · exact ih h.2 hx

/-- The last address of a list that is not empty is that of its last element. -/
theorem lastAddr_eq_getLast (hne : xs ≠ []) : lastAddr addr l xs = addr (xs.getLast hne) := by
  induction xs generalizing l with
  | nil => exact absurd rfl hne
  | cons y xs ih =>
    cases xs with
    | nil => rfl
    | cons z zs => exact ih (l := addr y) (by simp)

end Machine
