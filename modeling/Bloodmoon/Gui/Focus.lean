import Mathlib

/-!
# The window in front

The model of `set_window_focus` and `set_window_focus_explicit`. The windows before the one with the
focus move back by one place, and then it is copied to the front through a pointer into the array.
The pointer is to its old place, where the window before it is by then: that window is there twice,
and the one with the focus is lost.

A click goes through the components under it first and takes the focus from the parent of each
(`set_component_focus`), which a window that `create_window_component` has made does not have
(`windowFocus_iff`).
-/

namespace Bloodmoon

open List Option

/-- A `ux_component` without its flag: the parent, the children and everything else. A component is
given by its address, and null is nothing. -/
structure UxBody (α : Type) where
  parent : Option ℕ
  children : List (Option ℕ)
  content : α

/-- A `ux_component`. Those at the addresses from 0 on are the windows. -/
structure UxComponent (α : Type) where
  hasFocus : Bool
  body : UxBody α

variable {α : Type} {m m' ws : ℕ → UxComponent α} {c : Option ℕ} {i k : ℕ}
variable {collides : α → Bool}

/-! ### The components under a click -/

/-- Everything but the flags. -/
def bodies (m : ℕ → UxComponent α) (a : ℕ) : UxBody α := (m a).body

/-- The flag of a component is written. -/
def setFocus (m : ℕ → UxComponent α) (a : ℕ) (b : Bool) : ℕ → UxComponent α :=
  Function.update m a { m a with hasFocus := b }

/-- `set_component_focus`, where `collides` tells what is at the position. There is no value when a
null pointer is followed, or when there is not enough fuel for the depth of the tree. -/
def setComponentFocus (collides : α → Bool) (fuel : ℕ) (m : ℕ → UxComponent α) (c : Option ℕ) :
    Option (ℕ → UxComponent α) :=
  match fuel, c with
  | _, none => some m
  | 0, some _ => none
  | fuel + 1, some a =>
    if collides (m a).body.content then
      (m a).body.parent.bind fun p =>
        (m a).body.children.foldlM (setComponentFocus collides fuel)
          (setFocus (setFocus m p false) a true)
    else some (setFocus m a false)

/-- Every component under the click, from this one on down, has a parent. -/
inductive Focusable (collides : α → Bool) (body : ℕ → UxBody α) : Option ℕ → Prop
  | null : Focusable collides body none
  | miss {a : ℕ} (hmiss : ¬ collides (body a).content) : Focusable collides body (some a)
  | hit {a p : ℕ} (hhit : collides (body a).content) (hparent : (body a).parent = some p)
      (hchildren : ∀ c ∈ (body a).children, Focusable collides body c) :
      Focusable collides body (some a)

@[simp]
theorem bodies_setFocus (m : ℕ → UxComponent α) (a : ℕ) (b : Bool) :
    bodies (setFocus m a b) = bodies m := by
  funext k
  rw [bodies, setFocus, Function.update_apply]
  split_ifs with hk
  · rw [hk, bodies]
  · rfl

/-- What each call keeps is kept by the calls for a list, each of which is made. -/
theorem foldlM_bodies {f : (ℕ → UxComponent α) → Option ℕ → Option (ℕ → UxComponent α)}
    {P : (ℕ → UxBody α) → Option ℕ → Prop} {l : List (Option ℕ)}
    (hf : ∀ m c m', f m c = some m' → bodies m' = bodies m ∧ P (bodies m) c)
    (h : l.foldlM f m = some m') : bodies m' = bodies m ∧ ∀ c ∈ l, P (bodies m) c := by
  induction l generalizing m with
  | nil =>
    obtain rfl := Option.some.inj h
    exact ⟨rfl, fun c hc => absurd hc not_mem_nil⟩
  | cons c l ih =>
    obtain ⟨m₁, hc, h⟩ := bind_eq_some_iff.1 h
    obtain ⟨hsame, hP⟩ := hf m c m₁ hc
    obtain ⟨hrest, hall⟩ := ih h
    rw [hsame] at hrest hall
    exact ⟨hrest, forall_mem_cons.2 ⟨hP, hall⟩⟩

/-- **`set_component_focus` writes flags only**, and returns only when there is a parent of each
component under the click. -/
theorem focusable_of_setComponentFocus {fuel : ℕ}
    (h : setComponentFocus collides fuel m c = some m') :
    bodies m' = bodies m ∧ Focusable collides (bodies m) c := by
  induction fuel generalizing m m' c with
  | zero =>
    cases c with
    | none => exact ⟨congrArg bodies (Option.some.inj h).symm, .null⟩
    | some a => cases h
  | succ fuel ih =>
    cases c with
    | none => exact ⟨congrArg bodies (Option.some.inj h).symm, .null⟩
    | some a =>
      rw [setComponentFocus] at h
      split_ifs at h with hhit
      · obtain ⟨p, hparent, h⟩ := bind_eq_some_iff.1 h
        obtain ⟨hsame, hall⟩ := foldlM_bodies (fun _ _ _ => ih) h
        rw [bodies_setFocus, bodies_setFocus] at hsame hall
        exact ⟨hsame, .hit hhit hparent hall⟩
      · rw [← Option.some.inj h, bodies_setFocus]
        exact ⟨rfl, .miss hhit⟩

/-- The calls for a list are all made when each can be. -/
theorem exists_foldlM {f : (ℕ → UxComponent α) → Option ℕ → Option (ℕ → UxComponent α)}
    {body : ℕ → UxBody α} {l : List (Option ℕ)}
    (hf : ∀ c ∈ l, ∀ m, bodies m = body → ∃ m', f m c = some m' ∧ bodies m' = body)
    (hm : bodies m = body) : ∃ m', l.foldlM f m = some m' := by
  induction l generalizing m with
  | nil => exact ⟨m, rfl⟩
  | cons c l ih =>
    obtain ⟨⟨m₁, hm₁, hsame⟩, hrest⟩ := (forall_mem_cons.1 hf).imp_left fun h => h m hm
    rw [foldlM_cons, hm₁]
    exact ih hrest hsame

/-- With enough fuel it does return then. -/
theorem Focusable.setComponentFocus {body : ℕ → UxBody α} (h : Focusable collides body c) :
    ∀ᶠ fuel in Filter.atTop, ∀ m, bodies m = body →
      ∃ m', setComponentFocus collides fuel m c = some m' := by
  induction h with
  | null => exact .of_forall fun fuel m _ => ⟨m, by cases fuel <;> rfl⟩
  | @miss a hmiss =>
    refine Filter.eventually_atTop.2 ⟨1, fun fuel hfuel m hm => ?_⟩
    obtain ⟨fuel, rfl⟩ := Nat.exists_eq_add_of_le' hfuel
    subst hm
    exact ⟨_, if_neg hmiss⟩
  | @hit a p hhit hparent hchildren ih =>
    -- one round more than the children need
    obtain ⟨N, hN⟩ := Filter.eventually_atTop.1
      ((Filter.eventually_all_finite (finite_toSet (body a).children)).2 ih)
    refine Filter.eventually_atTop.2 ⟨N + 1, fun fuel hfuel m hm => ?_⟩
    obtain ⟨fuel, rfl⟩ := Nat.exists_eq_add_of_le' (Nat.le_of_add_left_le hfuel)
    subst hm
    have hchildren : ∀ c ∈ (m a).body.children, ∀ m₁, bodies m₁ = bodies m →
        ∃ m', Bloodmoon.setComponentFocus collides fuel m₁ c = some m' ∧ bodies m' = bodies m := by
      intro c hc m₁ hm₁
      obtain ⟨m', hm'⟩ := hN fuel (by omega) c hc m₁ hm₁
      exact ⟨m', hm', (focusable_of_setComponentFocus hm').1.trans hm₁⟩
    obtain ⟨m', hm'⟩ := exists_foldlM hchildren
      ((bodies_setFocus (setFocus m p false) a true).trans (bodies_setFocus m p false))
    exact ⟨m', (if_pos hhit).trans ((congrArg (Option.bind · _) hparent).trans hm')⟩

/-! ### The windows -/

/-- The loop that moves the first `i` windows back. -/
def moveBack (ws : ℕ → UxComponent α) : ℕ → ℕ → UxComponent α
  | 0 => ws
  | j + 1 => moveBack (Function.update ws (j + 1) (ws j)) j

/-- The window `*window` is moved to the front, where `window` points to the place `i`. -/
def moveToFront (ws : ℕ → UxComponent α) (i : ℕ) : ℕ → UxComponent α :=
  Function.update (moveBack ws i) 0 (moveBack ws i i)

/-- The first window at a position. -/
def firstHit (collides : α → Bool) (ws : ℕ → UxComponent α) (count : ℕ) : Option ℕ :=
  (List.range count).find? fun i => collides (ws i).body.content

/-- `set_window_focus`. -/
def setWindowFocus (collides : α → Bool) (fuel : ℕ) (ws : ℕ → UxComponent α) (count : ℕ) :
    Option (ℕ → UxComponent α) :=
  match firstHit collides ws count with
  | none => some ws
  | some i =>
    (setComponentFocus collides fuel ws (some i)).map fun ws =>
      if i = 0 then ws else moveToFront ws i

/-- `set_window_focus_explicit`, with the window at `i`. -/
def setWindowFocusExplicit (ws : ℕ → UxComponent α) (count i : ℕ) : ℕ → UxComponent α :=
  let ws := setFocus ws i true
  if i = 0 then ws
  else fun k =>
    let w := moveToFront ws i k
    if 0 < k ∧ k < count then { w with hasFocus := false } else w

/-- The window at `i` has moved to the front, and all others are still there. -/
def MovesToFront (ws ws' : ℕ → UxComponent α) (i : ℕ) : Prop :=
  (ws' 0).body = (ws i).body ∧ (∀ k < i, (ws' (k + 1)).body = (ws k).body) ∧
    ∀ k, i < k → (ws' k).body = (ws k).body

/-- The window before `i` is the same but for the flag. -/
def SameBefore (ws : ℕ → UxComponent α) (i : ℕ) : Prop := i ≠ 0 → (ws (i - 1)).body = (ws i).body

theorem moveBack_apply : moveBack ws i k = if 0 < k ∧ k ≤ i then ws (k - 1) else ws k := by
  induction i generalizing ws with
  | zero =>
    rw [if_neg (by omega)]
    rfl
  | succ i ih =>
    rw [moveBack, ih]
    by_cases hk : k = i + 1
    · subst hk
      rw [if_neg (by omega), if_pos (by omega), Function.update_self, Nat.add_sub_cancel]
    · rw [Function.update_of_ne hk]
      by_cases hle : 0 < k ∧ k ≤ i
      · rw [if_pos hle, if_pos (by omega), Function.update_of_ne (by omega)]
      · rw [if_neg hle, if_neg (by omega)]

/-- What is at each place afterwards. -/
theorem moveToFront_apply (hi : i ≠ 0) : moveToFront ws i k =
    if k = 0 then ws (i - 1) else if k ≤ i then ws (k - 1) else ws k := by
  by_cases hk : k = 0
  · rw [moveToFront, hk, Function.update_self, moveBack_apply, if_pos (by omega), if_pos rfl]
  · rw [moveToFront, Function.update_of_ne hk, moveBack_apply, if_neg hk]
    exact if_congr (and_iff_right (Nat.pos_of_ne_zero hk)) rfl rfl

/-- The flags do not matter. -/
theorem movesToFront_iff {ws₁ ws' : ℕ → UxComponent α} (hsame : bodies ws₁ = bodies ws)
    (h : ∀ k, (ws' k).body = ((if i = 0 then ws₁ else moveToFront ws₁ i) k).body) :
    MovesToFront ws ws' i ↔ SameBefore ws i := by
  have hbody : ∀ k, (ws₁ k).body = (ws k).body := congrFun hsame
  by_cases hi : i = 0
  · subst hi
    simp only [if_pos, hbody] at h
    exact iff_of_true ⟨h 0, fun k hk => absurd hk (Nat.not_lt_zero k), fun k _ => h k⟩
      fun hne => absurd rfl hne
  · have hplace : ∀ k, (ws' k).body = if k = 0 then (ws (i - 1)).body
        else if k ≤ i then (ws (k - 1)).body else (ws k).body := by
      intro k
      rw [h, if_neg hi, moveToFront_apply hi]
      split_ifs <;> exact hbody _
    rw [MovesToFront, SameBefore, imp_iff_right hi, hplace, if_pos rfl]
    refine and_iff_left ⟨fun k hk => ?_, fun k hk => ?_⟩
    · rw [hplace, if_neg (Nat.succ_ne_zero k), if_pos (Nat.succ_le_of_lt hk), Nat.add_sub_cancel]
    · rw [hplace, if_neg (by omega), if_neg (by omega)]

/-- **When the windows are permuted**: the one with the focus is in front already, or the one before
it is the same; and after a click the components under it have parents. -/
theorem windowFocus_iff (collides : α → Bool) (ws : ℕ → UxComponent α) (count : ℕ) :
    (∀ i ∈ firstHit collides ws count,
      ((∃ fuel ws', setWindowFocus collides fuel ws count = some ws' ∧ MovesToFront ws ws' i) ↔
        SameBefore ws i ∧ Focusable collides (bodies ws) (some i))) ∧
      (firstHit collides ws count = none → ∀ fuel,
        setWindowFocus collides fuel ws count = some ws) ∧
      ∀ i < count, (MovesToFront ws (setWindowFocusExplicit ws count i) i ↔ SameBefore ws i) := by
  refine ⟨fun i hfirst => ⟨?_, ?_⟩, fun hnone fuel => ?_, fun i _ =>
    movesToFront_iff (bodies_setFocus ws i true) fun k => ?_⟩
  · rintro ⟨fuel, ws', hws, hmoves⟩
    rw [setWindowFocus, mem_def.1 hfirst] at hws
    obtain ⟨ws₁, hfocus, rfl⟩ := map_eq_some_iff.1 hws
    obtain ⟨hsame, hfocusable⟩ := focusable_of_setComponentFocus hfocus
    exact ⟨(movesToFront_iff hsame fun _ => rfl).1 hmoves, hfocusable⟩
  · rintro ⟨hbefore, hfocusable⟩
    obtain ⟨fuel, hfuel⟩ := hfocusable.setComponentFocus.exists
    obtain ⟨ws₁, hfocus⟩ := hfuel ws rfl
    refine ⟨fuel, if i = 0 then ws₁ else moveToFront ws₁ i, ?_, ?_⟩
    · rw [setWindowFocus, mem_def.1 hfirst]
      exact congrArg (Option.map _) hfocus
    · exact (movesToFront_iff (focusable_of_setComponentFocus hfocus).1 fun _ => rfl).2 hbefore
  · rw [setWindowFocus, hnone]
  · rw [setWindowFocusExplicit]
    by_cases hi : i = 0
    · simp only [if_pos hi]
    · simp only [if_neg hi]
      split_ifs <;> rfl

/-- Of two windows as `create_window_component` makes them, the second is lost when it is to be in
front, and a click on the first follows a null pointer. -/
theorem not_movesToFront_second :
    ¬ MovesToFront (fun i => ⟨false, none, [], i⟩)
        (setWindowFocusExplicit (fun i => ⟨false, none, [], i⟩) 2 1) 1 ∧
      ∀ fuel, setWindowFocus (· == 0) fuel (fun i => ⟨false, none, [], i⟩) 2 = none := by
  refine ⟨fun h => ?_, fun fuel => ?_⟩
  · exact absurd (congrArg UxBody.content h.1) (by decide)
  · cases fuel <;> rfl

end Bloodmoon
