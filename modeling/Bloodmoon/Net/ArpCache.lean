import Bloodmoon.Net.ArpReply

/-!
# The ARP cache

The model of `get_mac_for_ip` and `clear_arp_cache`; `add_arp_cache_entry` is in the model of
`process_packet`. The cache of a card is a map from the addresses of the network to those of cards,
in which the latest entry counts (`arpCache_run`).
-/

namespace Bloodmoon

open Machine

/-- The address that the first entry for `ip` has. -/
def macOf (ip : Bytes) (cache : List ArpCache) : Option Bytes :=
  (cache.find? fun e => memEq e.ip ip 4).map ArpCache.mac

/-- `get_mac_for_ip`, with the array that gets the answer. -/
def getMacForIp (cache : List ArpCache) (ip mac : Bytes) : Bytes :=
  match macOf ip cache with
  | some found => blit mac 0 found 0 6
  | none => memset mac 0 0#8 6

/-- The calls that change the cache. -/
inductive ArpOp where
  | add (ip mac : Bytes)
  | clear

/-- A call: `add_arp_cache_entry` or `clear_arp_cache`. -/
def arpStep (cache : List ArpCache) : ArpOp → List ArpCache
  | .add ip mac => addArpCacheEntry ip mac cache
  | .clear => []

/-- The address that is known for `ip` after a call, when `known` was. -/
def latestStep (ip : Bytes) (known : Option Bytes) : ArpOp → Option Bytes
  | .add ip' mac => if memEq ip' ip 4 then some mac else known
  | .clear => none

/-- The address of the latest `add` for `ip` since the last `clear`. -/
def latest (ip : Bytes) (ops : List ArpOp) : Option Bytes := ops.foldl (latestStep ip) none

variable {ip mac : Bytes} {cache : List ArpCache}

theorem memEq_comm (a b : Bytes) (n : ℕ) : memEq a b n = memEq b a n := by
  rw [Bool.eq_iff_iff, memEq_iff, memEq_iff]
  exact forall₂_congr fun i _ => eq_comm

/-- Equal addresses are equal to the same ones. -/
theorem memEq_congr {a b : Bytes} {n : ℕ} (h : memEq a b n = true) (c : Bytes) :
    memEq a c n = memEq b c n := by
  rw [memEq_iff] at h
  rw [Bool.eq_iff_iff, memEq_iff, memEq_iff]
  exact forall₂_congr fun i hi => by rw [h i hi]

theorem macOf_cons (ip : Bytes) (e : ArpCache) (cache : List ArpCache) :
    macOf ip (e :: cache) = if memEq e.ip ip 4 then some e.mac else macOf ip cache := by
  rw [macOf, List.find?_cons]
  cases memEq e.ip ip 4 with
  | true => rfl
  | false => rfl

theorem macOf_eq_none : macOf ip cache = none ↔ ∀ e ∈ cache, memEq e.ip ip 4 = false := by
  simp [macOf]

/-- The search finds no entry, or changes the address of one. -/
theorem updateArpCache_spec (ip mac : Bytes) (cache : List ArpCache) :
    (updateArpCache ip mac cache = none ∧ macOf ip cache = none) ∨
      ∃ cache', updateArpCache ip mac cache = some cache' ∧
        cache'.map ArpCache.ip = cache.map ArpCache.ip ∧
        ∀ ip', macOf ip' cache' = if memEq ip ip' 4 then some mac else macOf ip' cache := by
  induction cache with
  | nil => exact .inl ⟨rfl, rfl⟩
  | cons e cache ih =>
    rw [updateArpCache, macOf_cons]
    by_cases he : memEq e.ip ip 4
    · rw [if_pos he]
      refine .inr ⟨_, rfl, rfl, fun ip' => ?_⟩
      rw [macOf_cons, macOf_cons, memEq_congr he]
      split_ifs <;> rfl
    · rw [if_neg he, if_neg he]
      rcases ih with ⟨hnone, hmac⟩ | ⟨cache', hsome, hips, hmac⟩
      · exact .inl ⟨by rw [hnone]; rfl, hmac⟩
      · refine .inr ⟨e :: cache', by rw [hsome]; rfl, congrArg (e.ip :: ·) hips, fun ip' => ?_⟩
        rw [macOf_cons, macOf_cons, hmac]
        -- an entry for `ip'` in front is none for `ip`
        by_cases he' : memEq e.ip ip' 4
        · have hne : ¬ memEq ip ip' 4 := fun h =>
            he (by rwa [memEq_comm, memEq_congr h, memEq_comm])
          rw [if_pos he', if_neg hne, if_pos he']
        · rw [if_neg he', if_neg he']

/-- The cache has one entry for an address, with what is known. -/
def Knows (cache : List ArpCache) (known : Bytes → Option Bytes) : Prop :=
  (cache.map ArpCache.ip).Pairwise (fun a b => memEq a b 4 = false) ∧
    ∀ ip, macOf ip cache = known ip

theorem Knows.step {known : Bytes → Option Bytes} (h : Knows cache known) (op : ArpOp) :
    Knows (arpStep cache op) fun ip => latestStep ip (known ip) op := by
  obtain ⟨hunique, hknown⟩ := h
  cases op with
  | clear => exact ⟨.nil, fun _ => rfl⟩
  | add ip mac =>
    rw [arpStep, addArpCacheEntry]
    rcases updateArpCache_spec ip mac cache with ⟨hnone, hmac⟩ | ⟨cache', hsome, hips, hmac⟩
    · rw [hnone]
      refine ⟨List.pairwise_cons.2 ⟨?_, hunique⟩, fun ip' => ?_⟩
      · rintro _ hmem
        obtain ⟨e, he, rfl⟩ := List.mem_map.1 hmem
        rw [memEq_comm]
        exact macOf_eq_none.1 hmac e he
      · exact (macOf_cons ip' ⟨ip, mac⟩ cache).trans (by rw [hknown]; rfl)
    · rw [hsome]
      exact ⟨hips ▸ hunique, fun ip' => (hmac ip').trans (by rw [hknown]; rfl)⟩

theorem Knows.run {known : Bytes → Option Bytes} (h : Knows cache known) (ops : List ArpOp) :
    Knows (ops.foldl arpStep cache) fun ip => ops.foldl (latestStep ip) (known ip) := by
  induction ops generalizing cache known with
  | nil => exact h
  | cons op ops ih => exact ih (h.step op)

/-- **The cache is a map**: after any calls no two entries have the same address, and the answer for
an address is the latest one, or zero. -/
theorem arpCache_run (ops : List ArpOp) :
    ((ops.foldl arpStep []).map ArpCache.ip).Pairwise (fun a b => memEq a b 4 = false) ∧
      ∀ (ip mac : Bytes) (i : Fin 6),
        getMacForIp (ops.foldl arpStep []) ip mac i = ((latest ip ops).getD fun _ => 0#8) i := by
  have hnil : Knows [] fun _ => none := ⟨.nil, fun _ => rfl⟩
  obtain ⟨hunique, hknown⟩ := hnil.run ops
  refine ⟨hunique, fun ip mac i => ?_⟩
  rw [getMacForIp, show macOf ip _ = latest ip ops from hknown ip]
  cases latest ip ops with
  | none => exact if_pos ⟨Nat.zero_le _, by omega⟩
  | some found =>
    refine (blit_apply_of_mem (Nat.zero_le _) (by omega)).trans ?_
    rw [Nat.sub_zero, Nat.zero_add]
    rfl

end Bloodmoon
