import Mathlib

/-!
# Probing devices again

`probe_fs` gives each device that has no slot of `vfs_root` yet the first empty one. The test for
those that have one goes on with the next device inside of its loop over the slots, and behind the
last device with the null pointer, so that a call without a new device uses that.

The slots are filled from the first on, and the model has the list of their devices; the empty ones
hold the null pointer, which is 0.
-/

namespace Bloodmoon

open List

/-- `VFS_MAX_DEVICES`. -/
def vfsMaxDevices : ℕ := 512

/-- The loop of `detect_devices` over the slots. The pointer `dev` is the list of the devices from
it on; there is no value when the null device is used. -/
def skipRegistered (slots dev : List ℕ) : Option (List ℕ) :=
  slots.foldlM (fun dev slot => if slot = dev.headD 0 then dev.tail? else some dev) dev

/-- The loop of `detect_devices` over the devices, with at most `rounds` rounds. -/
def detectFrom (vfsRootSize : ℕ) : ℕ → List ℕ → List ℕ → Option (List ℕ)
  | _, vfsRoot, [] => some vfsRoot
  | 0, _, _ :: _ => none
  | rounds + 1, vfsRoot, d :: next =>
    (skipRegistered (vfsRoot ++ List.replicate (vfsRootSize - vfsRoot.length) 0) (d :: next)).bind
      fun
      | [] => none
      | d :: next =>
        if vfsRoot.length < vfsMaxDevices then detectFrom vfsRootSize rounds (vfsRoot ++ [d]) next
        else none

/-- `detect_devices`, as `probe_fs` calls it. -/
def detectDevices (vfsRoot devices : List ℕ) : Option (List ℕ) :=
  detectFrom devices.length devices.length vfsRoot devices

variable {l new : List ℕ}

theorem skipRegistered_append (l slots new : List ℕ) :
    skipRegistered (l ++ slots) (l ++ new) = skipRegistered slots new := by
  induction l with
  | nil => rfl
  | cons d l ih =>
    rw [cons_append, cons_append, skipRegistered, foldlM_cons, headD_cons, if_pos rfl]
    exact ih

theorem skipRegistered_of_notMem {slots : List ℕ} {d : ℕ} (h : d ∉ slots) (next : List ℕ) :
    skipRegistered slots (d :: next) = some (d :: next) := by
  induction slots with
  | nil => rfl
  | cons slot slots ih =>
    obtain ⟨hne, h⟩ := not_or.1 (mt mem_cons.2 h)
    rw [skipRegistered, foldlM_cons, headD_cons, if_neg (Ne.symm hne)]
    exact ih h

/-- A new device is in none of the slots, the empty ones included. -/
theorem notMem_slots {d n : ℕ} {next : List ℕ} (hnodup : (l ++ d :: next).Nodup)
    (hzero : 0 ∉ l ++ d :: next) : d ∉ l ++ List.replicate n 0 := by
  intro hmem
  rcases mem_append.1 hmem with hl | hempty
  · exact disjoint_of_nodup_append hnodup hl mem_cons_self
  · exact hzero (by simp [eq_of_mem_replicate hempty])

/-- New devices are put behind the others. -/
theorem detectFrom_eq (hnodup : (l ++ new).Nodup) (hzero : 0 ∉ l ++ new)
    (hlen : (l ++ new).length ≤ vfsMaxDevices) (size : ℕ) {rounds : ℕ}
    (hrounds : new.length ≤ rounds) : detectFrom size rounds l new = some (l ++ new) := by
  induction new generalizing l rounds with
  | nil => rw [detectFrom, append_nil]
  | cons d new ih =>
    obtain ⟨rounds, rfl⟩ := Nat.exists_eq_succ_of_ne_zero (Nat.ne_zero_of_lt hrounds)
    rw [detectFrom, skipRegistered_of_notMem (notMem_slots hnodup hzero), Option.bind_some]
    rw [append_cons] at hnodup hzero hlen ⊢
    have hroom : l.length < vfsMaxDevices := by
      rw [length_append, length_append, length_singleton] at hlen
      omega
    exact (if_pos hroom).trans (ih hnodup hzero hlen (Nat.le_of_succ_le_succ hrounds))

/-- **A call** fails exactly when there are devices and none of them is new. -/
theorem detectDevices_eq (hnodup : (l ++ new).Nodup) (hzero : 0 ∉ l ++ new)
    (hlen : (l ++ new).length ≤ vfsMaxDevices) :
    detectDevices l (l ++ new) = if new = [] ∧ l ≠ [] then none else some (l ++ new) := by
  cases l with
  | nil => exact (detectFrom_eq hnodup hzero hlen _ (Nat.le_refl _)).trans (if_neg (by simp)).symm
  | cons x l =>
    rw [detectDevices, cons_append, length_cons, detectFrom, ← cons_append, skipRegistered_append]
    cases new with
    | nil =>
      rw [append_nil, length_cons, Nat.sub_self, if_pos ⟨rfl, cons_ne_nil x l⟩]
      rfl
    | cons d new =>
      have hnew := fun n hmem => notMem_slots (n := n) hnodup hzero (mem_append_right _ hmem)
      rw [skipRegistered_of_notMem (hnew _), Option.bind_some,
        if_neg fun h => cons_ne_nil d new h.1]
      rw [append_cons (x :: l)] at hnodup hzero hlen ⊢
      have hroom : (x :: l).length < vfsMaxDevices ∧ new.length ≤ (l ++ d :: new).length := by
        simp only [length_append, length_cons] at hlen ⊢
        omega
      exact (if_pos hroom.1).trans (detectFrom_eq hnodup hzero hlen _ hroom.2)

/-- Each call returns and leaves every device of its list in one slot, from slots with the devices
`l` on. -/
def ProbesRight : List ℕ → List (List ℕ) → Prop
  | _, [] => True
  | l, devices :: later => detectDevices l devices = some devices ∧ ProbesRight devices later

/-- **Calls with growing lists of devices** are right exactly when each of them finds a new device,
as long as there are devices. -/
theorem probesRight_iff {lists : List (List ℕ)} (hgrow : (l :: lists).IsChain (· <+: ·))
    (hdevices : ∀ m ∈ lists, m.Nodup ∧ 0 ∉ m ∧ m.length ≤ vfsMaxDevices) :
    ProbesRight l lists ↔ (l :: lists).IsChain fun m m' => m = m' → m = [] := by
  induction lists generalizing l with
  | nil => exact iff_of_true trivial (.singleton l)
  | cons m lists ih =>
    obtain ⟨⟨new, rfl⟩, hgrow⟩ := isChain_cons_cons.1 hgrow
    obtain ⟨hnodup, hzero, hlen⟩ := hdevices _ mem_cons_self
    have hcall : detectDevices l (l ++ new) = some (l ++ new) ↔ (l = l ++ new → l = []) := by
      rw [detectDevices_eq hnodup hzero hlen, self_eq_append_right]
      split_ifs with hsame
      · exact iff_of_false nofun fun h => hsame.2 (h hsame.1)
      · exact iff_of_true rfl fun hnew => by_contra fun hl => hsame ⟨hnew, hl⟩
    rw [ProbesRight, isChain_cons_cons, hcall, ih hgrow (forall_mem_cons.1 hdevices).2]

/-- The second call finds a second device. -/
theorem probesRight_second : ProbesRight [] [[1], [1, 2]] :=
  (probesRight_iff (by decide) (by decide)).2 (by decide)

/-- The second call finds the same device. -/
theorem not_probesRight_again : detectDevices [] [1] = some [1] ∧ detectDevices [1] [1] = none ∧
    ¬ ProbesRight [] [[1], [1]] := by
  have hsecond : detectDevices [1] [1] = none := by decide
  refine ⟨by decide, hsecond, fun h => ?_⟩
  exact absurd (hsecond.symm.trans h.2.1) nofun

end Bloodmoon
