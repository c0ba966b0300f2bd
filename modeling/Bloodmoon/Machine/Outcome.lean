import Mathlib

/-!
# Outcomes of machine code: returning, panicking, running on

A function of a freestanding C program ends in one of two ways: it returns a value, or it calls a
handler that never returns (its panic handler). It may also not end at all. `Outcome` records the
first two, and the fuel of a bounded evaluation stands in for the third: an evaluation that has used
up its fuel answers `Stop.timeout`, which is no outcome of the program.

`loop body` evaluates a `while` loop whose body either goes round again (`Sum.inl`) or leaves
with a result (`Sum.inr`). The two ways a loop can end are characterised by the rounds of its
body alone, with no mention of fuel: `loop_returns_iff` and `loop_panics_iff`.
-/

namespace Machine

open List

universe u v

/-- Why an evaluation has no value: the code called its panic handler, or the fuel of the
evaluation was used up. -/
inductive Stop where
  | panic (msg : String)
  | timeout
  deriving DecidableEq, Repr

/-- The result of evaluating a function that may panic. -/
abbrev Outcome (α : Type u) := Except Stop α

/-- The panic handler: it does not return. -/
def kpanic {α : Type u} (msg : String) : Outcome α := .error (.panic msg)

@[simp]
theorem kpanic_ne_ok {α : Type u} {msg : String} {a : α} : (kpanic msg : Outcome α) ≠ .ok a := nofun

theorem ok_inj {α β : Type u} {a a' : α} {b b' : β}
    (h : (.ok (a, b) : Outcome (α × β)) = .ok (a', b')) : a = a' ∧ b = b' :=
  Prod.mk.inj (Except.ok.inj h)

theorem some_inj {α β : Type u} {a a' : α} {b b' : β} (h : some (a, b) = some (a', b')) :
    a = a' ∧ b = b' :=
  Prod.mk.inj (Option.some.inj h)

@[simp]
theorem ok_bind {ε : Type v} {α β : Type u} (a : α) (f : α → Except ε β) :
    (Except.ok a >>= f) = f a := rfl

@[simp]
theorem error_bind {α : Type u} {β : Type u} (e : Stop) (f : α → Outcome β) :
    ((.error e : Outcome α) >>= f) = .error e := rfl

/-- A sequence of two computations returns exactly when both do. -/
theorem bind_eq_ok {α : Type u} {β : Type u} {x : Outcome α} {f : α → Outcome β} {b : β} :
    (x >>= f) = .ok b ↔ ∃ a, x = .ok a ∧ f a = .ok b := by
  cases x with
  | error e => simp
  | ok a => simp

/-- Whether a computation returns a value with a property is found out by running it. -/
instance decidableExistsOk {ε : Type v} {α : Type u} {x : Except ε α} {p : α → Prop}
    [DecidablePred p] : Decidable (∃ a, x = .ok a ∧ p a) :=
  match x with
  | .ok a => decidable_of_iff (p a) (by simp)
  | .error _ => isFalse (by simp)

instance decidableExistsSome {α : Type u} {x : Option α} {p : α → Prop} [DecidablePred p] :
    Decidable (∃ a, x = some a ∧ p a) :=
  match x with
  | some a => decidable_of_iff (p a) (by simp)
  | none => isFalse (by simp)

/-! ### Evaluations at every fuel -/

variable {α : Type u}

/-- The computation returns `a`, given fuel enough. -/
def Returns (run : ℕ → Outcome α) (a : α) : Prop := ∃ fuel, run fuel = .ok a

/-- The computation ends in the panic handler, given fuel enough. -/
def Panics (run : ℕ → Outcome α) : Prop := ∃ fuel msg, run fuel = kpanic msg

/-- The computation ends, one way or the other. -/
def Terminates (run : ℕ → Outcome α) : Prop := ∃ fuel, run fuel ≠ .error .timeout

/-- More fuel never changes an outcome that has been reached. -/
def FuelStable (run : ℕ → Outcome α) : Prop :=
  ∀ n m, n ≤ m → run n ≠ .error .timeout → run m = run n

theorem terminates_iff_or {run : ℕ → Outcome α} :
    Terminates run ↔ (∃ a, Returns run a) ∨ Panics run := by
  constructor
  · rintro ⟨fuel, h⟩
    rcases hr : run fuel with e | a
    · cases e with
      | panic msg => exact .inr ⟨fuel, msg, hr⟩
      | timeout => exact absurd hr h
    · exact .inl ⟨a, fuel, hr⟩
  · rintro (⟨a, fuel, h⟩ | ⟨fuel, msg, h⟩)
    · exact ⟨fuel, by simp [h]⟩
    · exact ⟨fuel, by simp [h, kpanic]⟩

/-- Two outcomes reached at two fuels are the same outcome. -/
theorem FuelStable.eq {run : ℕ → Outcome α} (hs : FuelStable run) {n m : ℕ}
    (hn : run n ≠ .error .timeout) (hm : run m ≠ .error .timeout) : run n = run m := by
  rcases Nat.le_total n m with h | h
  · exact (hs n m h hn).symm
  · exact hs m n h hm

theorem FuelStable.returns_unique {run : ℕ → Outcome α} (hs : FuelStable run) {a b : α}
    (ha : Returns run a) (hb : Returns run b) : a = b := by
  obtain ⟨n, hn⟩ := ha
  obtain ⟨m, hm⟩ := hb
  have h := hs.eq (n := n) (m := m) (by simp [hn]) (by simp [hm])
  rw [hn, hm] at h
  exact Except.ok.inj h

theorem FuelStable.not_panics_of_returns {run : ℕ → Outcome α} (hs : FuelStable run) {a : α}
    (ha : Returns run a) : ¬ Panics run := by
  rintro ⟨m, msg, hm⟩
  obtain ⟨n, hn⟩ := ha
  have h := hs.eq (n := n) (m := m) (by simp [hn]) (by simp [hm, kpanic])
  rw [hn, hm] at h
  exact kpanic_ne_ok h.symm

/-- A computation followed by one that needs no fuel returns exactly when both do. -/
theorem returns_bind_iff {β : Type u} {run : ℕ → Outcome α} {f : α → Outcome β} {b : β} :
    Returns (fun fuel => run fuel >>= f) b ↔ ∃ a, Returns run a ∧ f a = .ok b := by
  constructor
  · rintro ⟨fuel, h⟩
    obtain ⟨a, ha, hb⟩ := bind_eq_ok.mp h
    exact ⟨a, ⟨fuel, ha⟩, hb⟩
  · rintro ⟨a, ⟨fuel, ha⟩, hb⟩
    exact ⟨fuel, bind_eq_ok.mpr ⟨a, ha, hb⟩⟩

/-- A computation followed by one that needs no fuel panics when either does. -/
theorem panics_bind_iff {β : Type u} {run : ℕ → Outcome α} {f : α → Outcome β} :
    Panics (fun fuel => run fuel >>= f) ↔
      Panics run ∨ ∃ a msg, Returns run a ∧ f a = kpanic msg := by
  constructor
  · rintro ⟨fuel, msg, h⟩
    rcases hr : run fuel with e | a
    · refine .inl ⟨fuel, msg, ?_⟩
      simp only [hr, error_bind] at h
      rw [hr, Except.error.inj h]
      rfl
    · refine .inr ⟨a, msg, ⟨fuel, hr⟩, ?_⟩
      simpa only [hr, ok_bind] using h
  · rintro (⟨fuel, msg, h⟩ | ⟨a, msg, ⟨fuel, ha⟩, hb⟩)
    · exact ⟨fuel, msg, congrArg (· >>= f) h⟩
    · exact ⟨fuel, msg, by simp [ha, hb]⟩

theorem FuelStable.bind {β : Type u} {run : ℕ → Outcome α} (hs : FuelStable run)
    (f : α → Outcome β) : FuelStable fun fuel => run fuel >>= f := by
  intro n m hnm h
  have hn : run n ≠ .error .timeout := fun hn => h (by simp [hn])
  simp only [hs n m hnm hn]

/-! ### Calls with answers -/

section Answers

variable {σ τ ι ω : Type*} {step : σ → ι → σ × ω} {step' : τ → ι → τ × ω} {s : σ} {t : τ}

/-- The state after calls of the operations, and what they answer. -/
def answers (step : σ → ι → σ × ω) : σ → List ι → σ × List ω
  | s, [] => (s, [])
  | s, op :: ops =>
    let r := answers step (step s op).1 ops
    (r.1, (step s op).2 :: r.2)

/-- A relation that each operation keeps, with the same answers, is kept by all calls. -/
theorem answers_sim {R : σ → τ → Prop} (hstep : ∀ {s t}, R s t → ∀ op,
      R (step s op).1 (step' t op).1 ∧ (step s op).2 = (step' t op).2)
    (h : R s t) (ops : List ι) : R (answers step s ops).1 (answers step' t ops).1 ∧
      (answers step s ops).2 = (answers step' t ops).2 := by
  induction ops generalizing s t with
  | nil => exact ⟨h, rfl⟩
  | cons op ops ih =>
    obtain ⟨hnext, hanswer⟩ := hstep h op
    obtain ⟨hend, hrest⟩ := ih hnext
    exact ⟨hend, cons_eq_cons.2 ⟨hanswer, hrest⟩⟩

end Answers

/-! ### Loops -/

section Loop

variable {σ : Type u} {ρ : Type u} (body : σ → Outcome (σ ⊕ ρ))

/-- A `while` loop: run `body` until it leaves with a result. -/
def loop : ℕ → σ → Outcome ρ
  | 0, _ => .error .timeout
  | fuel + 1, s =>
    body s >>= fun
      | .inl t => loop fuel t
      | .inr r => .ok r

/-- One round of the loop that goes on to another. -/
def Continues (s t : σ) : Prop := body s = .ok (.inl t)

variable {body}

theorem loop_succ_of_continues {s t : σ} (h : Continues body s t) (fuel : ℕ) :
    loop body (fuel + 1) s = loop body fuel t := by
  rw [loop, show body s = .ok (.inl t) from h, ok_bind]

theorem loop_succ_of_leaves {s : σ} {r : ρ} (h : body s = .ok (.inr r)) (fuel : ℕ) :
    loop body (fuel + 1) s = .ok r := by
  rw [loop, h, ok_bind]

theorem loop_succ_of_stops {s : σ} {e : Stop} (h : body s = .error e) (fuel : ℕ) :
    loop body (fuel + 1) s = .error e := by
  rw [loop, h, error_bind]

theorem loop_fuelStable (s : σ) : FuelStable fun fuel => loop body fuel s := by
  intro n m hnm
  -- the fuel counts the rounds that are left, so the induction is on it
  induction n generalizing m s with
  | zero => intro h; exact absurd rfl h
  | succ n ih =>
    obtain ⟨m, rfl⟩ : ∃ k, m = k + 1 := ⟨m - 1, by omega⟩
    intro h
    rcases hb : body s with e | t | r
    · simp only [loop_succ_of_stops hb]
    · simp only [loop_succ_of_continues (show Continues body s t from hb)] at h ⊢
      exact ih t m (by omega) h
    · simp only [loop_succ_of_leaves hb]

/-- Rounds that go on add to the fuel that the rest of the loop needs. -/
theorem loop_of_continues {s t : σ} (h : Relation.ReflTransGen (Continues body) s t) :
    ∃ k, ∀ fuel, loop body (fuel + k) s = loop body fuel t := by
  induction h using Relation.ReflTransGen.head_induction_on with
  | refl => exact ⟨0, fun _ => rfl⟩
  | head hc _ ih =>
    obtain ⟨k, hk⟩ := ih
    refine ⟨k + 1, fun fuel => ?_⟩
    rw [← Nat.add_assoc, loop_succ_of_continues hc, hk]

/-- The outcome of a loop that ends is the outcome of the last round it reaches. -/
theorem exists_last_round {fuel : ℕ} {s : σ} (h : loop body fuel s ≠ .error .timeout) :
    ∃ t, Relation.ReflTransGen (Continues body) s t ∧
      ((∃ r, body t = .ok (.inr r) ∧ loop body fuel s = .ok r) ∨
        ∃ e, body t = .error e ∧ loop body fuel s = .error e) := by
  induction fuel generalizing s with
  | zero => exact absurd rfl h
  | succ fuel ih =>
    rcases hb : body s with e | t | r
    · exact ⟨s, .refl, .inr ⟨e, hb, loop_succ_of_stops hb fuel⟩⟩
    · have hc : Continues body s t := hb
      rw [loop_succ_of_continues hc] at h ⊢
      obtain ⟨t', ht', hend⟩ := ih h
      exact ⟨t', .head hc ht', hend⟩
    · exact ⟨s, .refl, .inl ⟨r, hb, loop_succ_of_leaves hb fuel⟩⟩

/-- **A loop returns** what the round it leaves in returns. -/
theorem loop_returns_iff {s : σ} {r : ρ} :
    Returns (fun fuel => loop body fuel s) r ↔
      ∃ t, Relation.ReflTransGen (Continues body) s t ∧ body t = .ok (.inr r) := by
  constructor
  · rintro ⟨fuel, h⟩
    have hend : loop body fuel s ≠ .error .timeout := by simp [h]
    obtain ⟨t, ht, ⟨r', hb, hr⟩ | ⟨e, -, he⟩⟩ := exists_last_round hend
    · obtain rfl : r' = r := Except.ok.inj (hr.symm.trans h)
      exact ⟨t, ht, hb⟩
    · exact absurd (h.symm.trans he) nofun
  · rintro ⟨t, ht, hb⟩
    obtain ⟨k, hk⟩ := loop_of_continues ht
    exact ⟨1 + k, (hk 1).trans (loop_succ_of_leaves hb 0)⟩

/-- **A loop panics** exactly when a round it reaches does. -/
theorem loop_panics_iff {s : σ} :
    Panics (fun fuel => loop body fuel s) ↔
      ∃ t msg, Relation.ReflTransGen (Continues body) s t ∧ body t = kpanic msg := by
  constructor
  · rintro ⟨fuel, msg, h⟩
    have hend : loop body fuel s ≠ .error .timeout := by simp [h, kpanic]
    obtain ⟨t, ht, ⟨r, -, hr⟩ | ⟨e, hb, he⟩⟩ := exists_last_round hend
    · exact absurd (h.symm.trans hr) kpanic_ne_ok
    · obtain rfl : e = .panic msg := Except.error.inj (he.symm.trans h)
      exact ⟨t, msg, ht, hb⟩
  · rintro ⟨t, msg, ht, hb⟩
    obtain ⟨k, hk⟩ := loop_of_continues ht
    exact ⟨1 + k, msg, (hk 1).trans (loop_succ_of_stops hb 0)⟩

end Loop

/-- **A pass over a list** that returns keeps an invariant that speaks of the part it has done. -/
theorem foldlM_ok {σ : Type u} {β : Type v} {f : σ → β → Outcome σ} {l : List β}
    {P : List β → σ → Prop} {s s' : σ}
    (hstep : ∀ {done b rest s s'}, l = done ++ b :: rest → P done s → f s b = .ok s' →
      P (done ++ [b]) s')
    (hs : P [] s) (hok : l.foldlM f s = .ok s') : P l s' := by
  have hpass : ∀ rest done s, l = done ++ rest → P done s → rest.foldlM f s = .ok s' →
      P l s' := by
    intro rest
    induction rest with
    | nil =>
      intro done s hl hP hok
      obtain rfl := Except.ok.inj hok
      rwa [hl, append_nil]
    | cons b rest ih =>
      intro done s hl hP hok
      obtain ⟨s₁, hb, hok⟩ := bind_eq_ok.mp hok
      exact ih (done ++ [b]) s₁ (by rw [hl, append_assoc, singleton_append])
        (hstep hl hP hb) hok
  exact hpass l [] s rfl hs hok

end Machine
