import Bloodmoon.Heap.Live

/-!
# Runs of the heap

A session is a heap with the blocks its clients hold. Clients call `_malloc`, `_calloc`,
`_realloc` and `_free`, the last two with blocks they hold, and write to their blocks. A run is
any sequence of such calls that return.
-/

namespace Bloodmoon

open Machine Machine.Segment HeapState List

/-- A heap and the blocks that are held of it. -/
structure Session where
  heap : HeapState
  live : List Block

/-- What a client may do. -/
inductive HeapOp where
  | malloc (size : ℕ)
  | calloc (num size : ℕ)
  | realloc (buffer size : ℕ)
  | free (address : ℕ)
  | write

/-- The number of bytes that a call asks for. -/
def HeapOp.request : HeapOp → Option ℕ
  | .malloc size => some size
  | .calloc num size => some (num * size)
  | .realloc _ size => some size
  | .free _ => none
  | .write => none

/-- A call that returns, with the address it returns. The pages that an expansion maps have any
content. -/
inductive Call : HeapOp → Session → Session → ℕ → Prop
  | malloc {h h' : HeapState} {live : List Block} {fresh : Bytes} {size fuel p : ℕ}
      (hok : h.malloc fresh size fuel = .ok (h', p)) :
      Call (.malloc size) ⟨h, live⟩ ⟨h', grant p size live⟩ p
  | calloc {h h' : HeapState} {live : List Block} {fresh : Bytes} {num size fuel p : ℕ}
      (hok : h.calloc fresh num size fuel = .ok (h', p)) :
      Call (.calloc num size) ⟨h, live⟩ ⟨h', grant p (num * size) live⟩ p
  | realloc {h h' : HeapState} {live : List Block} {fresh : Bytes} {buffer size fuel p : ℕ}
      (hbuffer : buffer = 0 ∨ ∃ b ∈ live, b.addr = buffer)
      (hok : h.realloc fresh buffer size fuel = .ok (h', p)) :
      Call (.realloc buffer size) ⟨h, live⟩
        ⟨h', if p = 0 then live else grant p size (withdraw buffer live)⟩ p
  | free {h h' : HeapState} {live : List Block} {b : Block} (hb : b ∈ live)
      (hok : h.free b.addr = .ok h') :
      Call (.free b.addr) ⟨h, live⟩ ⟨h', withdraw b.addr live⟩ 0
  | write {h : HeapState} {live : List Block} {b : Block} {m : Bytes} (hb : b ∈ live)
      (hsame : ∀ x, x < b.addr ∨ b.addr + b.size ≤ x → m x = h.mem x) :
      Call .write ⟨h, live⟩ ⟨{ h with mem := m }, live⟩ 0

/-- A sequence of calls, each of which meets the condition `ok`. -/
def HeapRun (ok : HeapOp → Session → Prop) : Session → Session → Prop :=
  Relation.ReflTransGen fun σ σ' => ∃ op p, ok op σ ∧ Call op σ σ' p

/-- The size of a request, rounded up to sixteen bytes and, with a header, to pages, fits a
word. -/
def NoOverflow (size : ℕ) : Prop :=
  ((size + 15) / 16 * 16 + sizeofHeader + (pageSize - 1)) / pageSize * pageSize < 2 ^ 64

instance (size : ℕ) : Decidable (NoOverflow size) := inferInstanceAs (Decidable (_ < _))

/-- No computation with the size of the request overflows. -/
def HeapOp.Bounded (op : HeapOp) : Prop := ∀ size ∈ op.request, NoOverflow size

instance (op : HeapOp) : Decidable op.Bounded := inferInstanceAs (Decidable (∀ _ ∈ op.request, _))

theorem NoOverflow.lt {size : ℕ} (h : NoOverflow size) : (size + 15) / 16 * 16 + 4143 < 2 ^ 64 := by
  have h48 : sizeofHeader = 48 := rfl
  have h4095 : pageSize - 1 = 4095 := rfl
  unfold NoOverflow at h
  rw [h48, h4095, pageSize_eq] at h
  omega

theorem NoOverflow.roundSize_eq {size : ℕ} (h : NoOverflow size) :
    roundSize size = (size + 15) / 16 * 16 := by
  have hlt := h.lt
  unfold roundSize
  split_ifs
  · rw [wrap_of_lt (by omega)]
    omega
  · omega

/-! ### Calls that call others -/

section Cases

variable {h h' : HeapState} {fresh : Bytes} {size fuel p : ℕ}

/-- `_calloc` clears what `_malloc` returns. -/
theorem calloc_cases {num : ℕ} (hready : h.ready = true) (hlt : num * size < 2 ^ 64)
    (hok : h.calloc fresh num size fuel = .ok (h', p)) :
    ∃ h₁, h.malloc fresh (num * size) fuel = .ok (h₁, p) ∧
      h' = { h₁ with mem := memset h₁.mem p 0#8 (num * size) } := by
  simp only [calloc, hready, Bool.not_true, Bool.false_eq_true, if_false, wrap_of_lt hlt] at hok
  obtain ⟨⟨h₁, q⟩, hmalloc, hok⟩ := bind_eq_ok.mp hok
  obtain ⟨rfl, rfl⟩ := ok_inj hok
  exact ⟨h₁, hmalloc, rfl⟩

/-- `_realloc` copies as much of the old block as fits into what `_malloc` returns, and frees the
old one. -/
theorem realloc_cases {buffer : ℕ} (hready : h.ready = true)
    (hok : h.realloc fresh buffer size fuel = .ok (h', p)) :
    ∃ h₁, h.malloc fresh size fuel = .ok (h₁, p) ∧
      (p = 0 ∧ h' = h₁ ∨ p ≠ 0 ∧ buffer = 0 ∧ h' = h₁ ∨ p ≠ 0 ∧ buffer ≠ 0 ∧
        ∃ n, n = min size (h₁.get (wsub buffer sizeofHeader) .length) ∧
          free { h₁ with mem := memcpy h₁.mem p buffer n } buffer = .ok h') := by
  simp only [realloc, hready, Bool.not_true, Bool.false_eq_true, if_false] at hok
  obtain ⟨⟨h₁, q⟩, hmalloc, hok⟩ := bind_eq_ok.mp hok
  by_cases hq : q = 0
  · simp only [hq, if_true] at hok
    obtain ⟨rfl, rfl⟩ := ok_inj hok
    exact ⟨h₁, hq ▸ hmalloc, .inl ⟨rfl, rfl⟩⟩
  simp only [hq, if_false] at hok
  by_cases hbuffer : buffer = 0
  · simp only [hbuffer, if_true] at hok
    obtain ⟨rfl, rfl⟩ := ok_inj hok
    exact ⟨h₁, hmalloc, .inr (.inl ⟨hq, hbuffer, rfl⟩)⟩
  · simp only [hbuffer, if_false] at hok
    obtain ⟨h₂, hfree, hok⟩ := bind_eq_ok.mp hok
    obtain ⟨rfl, rfl⟩ := ok_inj hok
    have hmin : ∀ old, (if size < old then size else old) = min size old := fun old => by
      split_ifs <;> omega
    rw [hmin] at hfree
    exact ⟨h₁, hmalloc, .inr (.inr ⟨hq, hbuffer, _, rfl, hfree⟩)⟩

end Cases

/-! ### What a call does to the list -/

/-- A request for `size` bytes takes the list to another one; a request of nothing leaves it. -/
def Served (size : ℕ) (segs segs' : List Segment) : Prop :=
  (size = 0 → segs' = segs) ∧ (size ≠ 0 → ∃ r, Alloc (roundSize size) segs segs' r)

/-- A call serves a request, if it makes one, and then may release a segment. -/
def HeapOp.ListStep (op : HeapOp) (segs segs' : List Segment) : Prop :=
  ∃ mid, (∀ size ∈ op.request, Served size segs mid) ∧ (op.request = none → mid = segs) ∧
    (segs' = mid ∨ ∃ s, Release s mid segs')

/-- The list of the heap of a session, with its blocks in it. -/
structure Tracks (σ : Session) (segs : List Segment) : Prop where
  inv : HeapInv σ.heap segs
  owns : Owns σ.heap segs σ.live

namespace Tracks

variable {h h' : HeapState} {live : List Block} {segs : List Segment} {fresh : Bytes}
  {size fuel p : ℕ}
variable {σ σ' : Session} {b : Block} {op : HeapOp}

/-- **`_malloc` serves the request**, and returns null only for a request of nothing. -/
theorem malloc (hσ : Tracks ⟨h, live⟩ segs) (hsize : NoOverflow size)
    (hok : h.malloc fresh size fuel = .ok (h', p)) :
    ∃ segs', Served size segs segs' ∧ Tracks ⟨h', grant p size live⟩ segs' ∧
      h'.mainSegment = h.mainSegment ∧ (p = 0 → size = 0) := by
  obtain ⟨hinv, howns⟩ := hσ
  by_cases hzero : size = 0
  · subst hzero
    obtain ⟨rfl, rfl⟩ := eq_of_malloc_zero hok
    exact ⟨segs, ⟨fun _ => rfl, (absurd rfl ·)⟩, ⟨hinv, howns⟩, rfl, fun _ => rfl⟩
  · have hlt := hsize.lt
    have hround := hsize.roundSize_eq
    obtain ⟨segs', r, halloc, hinv', hmain, rfl⟩ := hinv.malloc hzero (by omega) hok
    refine ⟨segs', ⟨(absurd · hzero), fun _ => ⟨r, halloc⟩⟩,
      ⟨hinv', howns.alloc hinv hinv' hmain halloc (by omega)⟩, hmain, fun hnull => ?_⟩
    cases r with
    | none => exact absurd rfl (halloc.ne_none (by omega))
    | some c => exact absurd hnull (Nat.succ_ne_zero _)

/-- A write to a block leaves the list alone. -/
theorem write (hσ : Tracks ⟨h, live⟩ segs) (hb : b ∈ live) {m : Bytes}
    (hsame : ∀ x, x < b.addr ∨ b.addr + b.size ≤ x → m x = h.mem x) :
    Tracks ⟨{ h with mem := m }, live⟩ segs := by
  obtain ⟨s, hs, -, -, haddr, hlong⟩ := hσ.owns.held b hb
  refine ⟨hσ.inv.write hs fun x hx => hsame x ?_, hσ.owns.congr rfl⟩
  unfold stop at hx
  omega

/-- **`_free` of a block that is held** returns, and releases its segment with writes to headers
only. -/
theorem free_effect (hσ : Tracks ⟨h, live⟩ segs) (hb : b ∈ live) :
    ∃ h' segs', ∃ s ∈ segs, h.free b.addr = .ok h' ∧ b.addr = s.addr + sizeofHeader ∧
      Release s segs segs' ∧ HeaderEdit h.mem h'.mem segs segs' ∧
      Tracks ⟨h', withdraw b.addr live⟩ segs' ∧ h'.mainSegment = h.mainSegment := by
  obtain ⟨s, hs, hused, hmain, haddr, -⟩ := hσ.owns.held b hb
  obtain ⟨h', segs', hok, hrel, hedit, hinv', hmain'⟩ := hσ.inv.free_effect hs hused hmain
  rw [haddr]
  exact ⟨h', segs', s, hs, hok, rfl, hrel, hedit, ⟨hinv', hσ.owns.release hσ.inv hmain' hrel⟩,
    hmain'⟩

/-! ### Calls as sequences of simpler calls -/

/-- `_calloc` is `_malloc` of the product and a write to the block. -/
theorem calloc_steps {num : ℕ} (hσ : Tracks ⟨h, live⟩ segs) (hsize : NoOverflow (num * size))
    (hok : h.calloc fresh num size fuel = .ok (h', p)) :
    ∃ σ₁, Call (.malloc (num * size)) ⟨h, live⟩ σ₁ p ∧
      (⟨h', grant p (num * size) live⟩ = σ₁ ∨
        Call .write σ₁ ⟨h', grant p (num * size) live⟩ 0) := by
  have hlt := hsize.lt
  obtain ⟨h₁, hmalloc, rfl⟩ := calloc_cases hσ.inv.ready (by omega) hok
  obtain ⟨-, -, -, -, hnull⟩ := hσ.malloc hsize hmalloc
  refine ⟨_, .malloc hmalloc, ?_⟩
  by_cases hp : p = 0
  · -- nothing was asked for, and nothing is cleared
    have hnone : memset h₁.mem p 0#8 (num * size) = h₁.mem :=
      funext fun x => memset_apply_of_outside _ _ (by omega)
    rw [hnone]
    exact .inl rfl
  · have hgrant : grant p (num * size) live = ⟨p, num * size⟩ :: live := if_neg hp
    rw [hgrant]
    exact .inr (.write mem_cons_self fun x hx => memset_apply_of_outside _ _ hx)

/-- No block is at the null address. -/
theorem addr_ne_zero (hσ : Tracks ⟨h, live⟩ segs) (hb : b ∈ live) : b.addr ≠ 0 := by
  obtain ⟨s, -, -, -, haddr, -⟩ := hσ.owns.held b hb
  rw [haddr]
  exact Nat.succ_ne_zero _

theorem withdraw_zero (hσ : Tracks ⟨h, live⟩ segs) : withdraw 0 live = live :=
  filter_eq_self.mpr fun _ hb => by simpa using hσ.addr_ne_zero hb

/-- A new block is none of those that were held. -/
theorem ne_addr_of_mem (hσ : Tracks ⟨h', grant p size live⟩ segs) (hp : p ≠ 0) (hb : b ∈ live) :
    p ≠ b.addr := by
  have hnodup := hσ.owns.nodup
  rw [grant, if_neg hp] at hnodup
  exact fun heq => (nodup_cons.mp hnodup).1 (mem_map.mpr ⟨b, hb, heq.symm⟩)

/-- `_realloc` is `_malloc`, a write to the new block, and `_free` of the old one. -/
theorem realloc_steps {buffer : ℕ} (hσ : Tracks ⟨h, live⟩ segs) (hsize : NoOverflow size)
    (hbuffer : buffer = 0 ∨ ∃ b ∈ live, b.addr = buffer)
    (hok : h.realloc fresh buffer size fuel = .ok (h', p)) :
    ∃ σ₁ σ₂, Call (.malloc size) ⟨h, live⟩ σ₁ p ∧ (σ₂ = σ₁ ∨ Call .write σ₁ σ₂ 0) ∧
      (⟨h', if p = 0 then live else grant p size (withdraw buffer live)⟩ = σ₂ ∨
        ∃ a, Call (.free a) σ₂
          ⟨h', if p = 0 then live else grant p size (withdraw buffer live)⟩ 0) := by
  obtain ⟨h₁, hmalloc, hcases⟩ := realloc_cases hσ.inv.ready hok
  have hcall : Call (.malloc size) ⟨h, live⟩ ⟨h₁, grant p size live⟩ p := .malloc hmalloc
  rcases hcases with ⟨rfl, rfl⟩ | ⟨hp, rfl, rfl⟩ | ⟨hp, hne, n, hn, hfree⟩
  · exact ⟨_, _, hcall, .inl rfl, .inl rfl⟩
  · rw [if_neg hp, hσ.withdraw_zero]
    exact ⟨_, _, hcall, .inl rfl, .inl rfl⟩
  · obtain ⟨b, hb, rfl⟩ := hbuffer.resolve_left hne
    obtain ⟨_, -, hσ₁, -, -⟩ := hσ.malloc hsize hmalloc
    have hpb := hσ₁.ne_addr_of_mem hp hb
    have hgrant : grant p size live = ⟨p, size⟩ :: live := if_neg hp
    have hb₁ : b ∈ (⟨p, size⟩ : Block) :: live := mem_cons_of_mem _ hb
    have hwithdraw : withdraw b.addr ((⟨p, size⟩ : Block) :: live) =
        ⟨p, size⟩ :: withdraw b.addr live := filter_cons_of_pos (by simpa using hpb)
    rw [hgrant] at hcall
    rw [if_neg hp, grant, if_neg hp, ← hwithdraw]
    -- the copy stays in the new block, whatever the length of the old one is
    refine ⟨_, _, hcall, .inr (.write mem_cons_self fun x hx => ?_), .inr ⟨_, .free hb₁ hfree⟩⟩
    exact sameOn_memcpy h₁.mem p b.addr (n := n) (b := x) (k := 1) (by simp only at hx; omega) x
      (Nat.le_refl x) (Nat.lt_succ_self x)

/-- **A call is made of simpler ones**: its request, if it has one, then perhaps a write to a
block, then perhaps a release. -/
theorem steps (hσ : Tracks σ segs) (hop : op.Bounded) (hcall : Call op σ σ' p) :
    ∃ σ₁ σ₂, (∀ size ∈ op.request, Call (.malloc size) σ σ₁ p) ∧
      (op.request = none → σ₁ = σ) ∧ (σ₂ = σ₁ ∨ Call .write σ₁ σ₂ 0) ∧
      (σ' = σ₂ ∨ ∃ a, Call (.free a) σ₂ σ' 0) := by
  cases hcall with
  | malloc hok =>
    exact ⟨_, _, fun _ hn => Option.some.inj hn ▸ .malloc hok, nofun, .inl rfl, .inl rfl⟩
  | calloc hok =>
    obtain ⟨σ₁, hreq, hwrite⟩ := hσ.calloc_steps (hop _ rfl) hok
    exact ⟨σ₁, _, fun _ hn => Option.some.inj hn ▸ hreq, nofun, hwrite, .inl rfl⟩
  | realloc hbuffer hok =>
    obtain ⟨σ₁, σ₂, hreq, hwrite, hfree⟩ := hσ.realloc_steps (hop _ rfl) hbuffer hok
    exact ⟨σ₁, σ₂, fun _ hn => Option.some.inj hn ▸ hreq, nofun, hwrite, hfree⟩
  | free hb hok =>
    exact ⟨_, _, nofun, fun _ => rfl, .inl rfl, .inr ⟨_, .free hb hok⟩⟩
  | write hb hsame => exact ⟨_, _, nofun, fun _ => rfl, .inr (.write hb hsame), .inl rfl⟩

/-- **Every call is a step on the list.** -/
theorem call (hσ : Tracks σ segs) (hop : op.Bounded) (hcall : Call op σ σ' p) :
    ∃ segs', op.ListStep segs segs' ∧ Tracks σ' segs' ∧
      σ'.heap.mainSegment = σ.heap.mainSegment := by
  obtain ⟨σ₁, σ₂, hreq, hnone, hwrite, hfree⟩ := hσ.steps hop hcall
  obtain ⟨mid, hserved, hmid, hσ₁, hmain₁⟩ : ∃ mid, (∀ size ∈ op.request, Served size segs mid) ∧
      (op.request = none → mid = segs) ∧ Tracks σ₁ mid ∧
      σ₁.heap.mainSegment = σ.heap.mainSegment := by
    cases hop' : op.request with
    | none =>
      rw [hnone hop']
      exact ⟨segs, nofun, fun _ => rfl, hσ, rfl⟩
    | some size =>
      cases hreq size hop' with
      | malloc hok =>
        obtain ⟨segs', hserved, hσ', hmain, -⟩ := hσ.malloc (hop size hop') hok
        exact ⟨segs', fun _ hn => Option.some.inj hn ▸ hserved, nofun, hσ', hmain⟩
  obtain ⟨hσ₂, hmain₂⟩ : Tracks σ₂ mid ∧ σ₂.heap.mainSegment = σ₁.heap.mainSegment := by
    rcases hwrite with rfl | hwrite
    · exact ⟨hσ₁, rfl⟩
    · cases hwrite with
      | write hb hsame => exact ⟨hσ₁.write hb hsame, rfl⟩
  rcases hfree with rfl | ⟨a, hfree⟩
  · exact ⟨mid, ⟨mid, hserved, hmid, .inl rfl⟩, hσ₂, hmain₂.trans hmain₁⟩
  · cases hfree with
    | free hb hok =>
      obtain ⟨h', segs', s, -, hok', -, hrel, -, hσ', hmain⟩ := hσ₂.free_effect hb
      obtain rfl := Except.ok.inj (hok.symm.trans hok')
      exact ⟨segs', ⟨mid, hserved, hmid, .inr ⟨s, hrel⟩⟩, hσ', hmain.trans (hmain₂.trans hmain₁)⟩

/-- **Every run keeps the invariant.** -/
theorem run {ok : HeapOp → Session → Prop} (hbounded : ∀ op σ, ok op σ → op.Bounded)
    (hσ : Tracks σ segs) (hrun : HeapRun ok σ σ') : ∃ segs', Tracks σ' segs' := by
  induction hrun with
  | refl => exact ⟨segs, hσ⟩
  | tail _ hstep ih =>
    obtain ⟨op, p, hok, hcall⟩ := hstep
    obtain ⟨segs', hσ'⟩ := ih
    obtain ⟨segs'', -, hσ'', -⟩ := hσ'.call (hbounded op _ hok) hcall
    exact ⟨segs'', hσ''⟩

/-- A new heap has the invariant. -/
theorem init {h₀ : HeapState} {heapEnd stackEnd : ℕ} {user : Bool} (hlt : heapEnd < 2 ^ 64)
    (hne : heapEnd ≠ pageSize) (hok : h₀.initHeap fresh heapEnd stackEnd user = .ok h) :
    Tracks ⟨h, []⟩ (initList h.mainSegment h.heapEnd) :=
  ⟨(HeapInv.init hlt hne hok).1, Owns.init rfl⟩

end Tracks

/-! ### The layout of the heap in every run -/

/-- The length of the segment of the block at `address`. -/
def HeapState.blockLength (h : HeapState) (address : ℕ) : ℕ :=
  h.get (wsub address sizeofHeader) .length

/-- A block is as long as was asked for, aligned, in the mapped part of the heap, and clear of
every header. -/
structure Block.Sound (h : HeapState) (segs : List Segment) (b : Block) : Prop where
  long : b.size ≤ h.blockLength b.addr
  aligned : b.addr % 16 = 0
  inside : h.heapEnd ≤ b.addr ∧ b.addr + h.blockLength b.addr ≤ h.mainSegment
  mapped : ∀ a, b.addr ≤ a → a < b.addr + h.blockLength b.addr →
    ∃ flags, (a / pageSize * pageSize, flags) ∈ h.mapped
  clear : ∀ s ∈ segs, s.addr + sizeofHeader ≤ b.addr ∨ b.addr + h.blockLength b.addr ≤ s.addr

/-- Two blocks do not overlap. -/
def Block.Disjoint (h : HeapState) (a b : Block) : Prop :=
  a.addr + h.blockLength a.addr ≤ b.addr ∨ b.addr + h.blockLength b.addr ≤ a.addr

namespace HeapInv

variable {h : HeapState} {segs : List Segment} {s : Segment}

theorem wsub_header (hinv : HeapInv h segs) (hs : s ∈ segs) :
    wsub (s.addr + sizeofHeader) sizeofHeader = s.addr := by
  have hstop := (hinv.rep.bounds hs).2
  have htop := hinv.rep.top
  unfold wsub sizeofHeader stop at *
  omega

theorem blockLength_eq (hinv : HeapInv h segs) (hs : s ∈ segs) :
    h.blockLength (s.addr + sizeofHeader) = s.length := by
  obtain ⟨l, r, hnode⟩ := hinv.rep.holds.exists_node hs
  rw [blockLength, hinv.wsub_header hs]
  exact hnode.length

/-- The block of a segment other than the main one is sound. -/
theorem sound (hinv : HeapInv h segs) (hs : s ∈ segs) (hmain : s.addr ≠ h.mainSegment) {size : ℕ}
    (hsize : size ≤ s.length) : Block.Sound h segs ⟨s.addr + sizeofHeader, size⟩ := by
  have h48 : sizeofHeader = 48 := rfl
  have hlen := hinv.blockLength_eq hs
  obtain ⟨hlow, -⟩ := hinv.rep.bounds hs
  have hhigh : s.addr + sizeofHeader + s.length ≤ h.mainSegment := by
    obtain ⟨rest, -, rfl⟩ := hinv.rep.main
    refine above_of_mem_tail hinv.rep.above ((mem_cons.mp hs).resolve_left ?_)
    rintro rfl
    exact hmain rfl
  refine ⟨?_, ?_, ?_, ?_, ?_⟩
  · rwa [hlen]
  · have := (hinv.aligned s hs).1
    change (s.addr + sizeofHeader) % 16 = 0
    omega
  · rw [hlen]
    exact ⟨Nat.le_add_right_of_le hlow, hhigh⟩
  · intro a hle hlt
    simp only [hlen] at hle hlt
    exact hinv.mapped a (by omega) (by omega)
  · intro t ht
    simp only [hlen]
    rcases eq_or_apart_of_mem hinv.rep.above hs ht with rfl | habove | hbelow
    · exact .inl (Nat.le_refl _)
    · exact .inr habove
    · unfold stop at hbelow
      exact .inl (by omega)

end HeapInv

namespace Tracks

variable {h : HeapState} {live : List Block} {segs : List Segment} {b c : Block}

/-- A block is at least as long as was asked for. -/
theorem size_le (hσ : Tracks ⟨h, live⟩ segs) (hb : b ∈ live) : b.size ≤ h.blockLength b.addr := by
  obtain ⟨s, hs, -, -, hsaddr, hlong⟩ := hσ.owns.held b hb
  rwa [hsaddr, hσ.inv.blockLength_eq hs]

/-- Blocks at different addresses do not overlap. -/
theorem disjoint (hσ : Tracks ⟨h, live⟩ segs) (hb : b ∈ live) (hc : c ∈ live)
    (hne : b.addr ≠ c.addr) : Block.Disjoint h b c := by
  obtain ⟨s, hs, -, -, hsaddr, -⟩ := hσ.owns.held b hb
  obtain ⟨t, ht, -, -, htaddr, -⟩ := hσ.owns.held c hc
  rw [Block.Disjoint, hsaddr, htaddr, hσ.inv.blockLength_eq hs, hσ.inv.blockLength_eq ht]
  rcases eq_or_apart_of_mem hσ.inv.rep.above hs ht with rfl | habove | hbelow
  · exact absurd (hsaddr.trans htaddr.symm) hne
  · exact .inl (Nat.le_add_right_of_le habove)
  · exact .inr (Nat.le_add_right_of_le hbelow)

end Tracks

/-- **The layout of the heap in every run.** From a heap set up by `_initHeap`, after any calls
whose sizes do not overflow and any writes of the clients to their blocks, the headers are a
doubly linked list of segments, each above the next, from `mainSegment` down to `lastSegment`; the
blocks that are held are as long as was asked for, aligned, mapped, clear of the headers and of
each other. -/
theorem heap_layout {h₀ h : HeapState} {fresh : Bytes} {heapEnd stackEnd : ℕ} {user : Bool}
    {σ : Session} (hlt : heapEnd < 2 ^ 64) (hne : heapEnd ≠ pageSize)
    (hinit : h₀.initHeap fresh heapEnd stackEnd user = .ok h)
    (hrun : HeapRun (fun op _ => op.Bounded) ⟨h, []⟩ σ) :
    ∃ segs, Represents σ.heap segs ∧ (∀ b ∈ σ.live, b.Sound σ.heap segs) ∧
      σ.live.Pairwise (Block.Disjoint σ.heap) := by
  obtain ⟨segs, hσ⟩ := (Tracks.init hlt hne hinit).run (fun _ _ hok => hok) hrun
  refine ⟨segs, hσ.inv.rep, fun b hb => ?_, ?_⟩
  · obtain ⟨s, hs, -, hmain, haddr, hlong⟩ := hσ.owns.held b hb
    obtain ⟨addr, size⟩ := b
    obtain rfl : addr = s.addr + sizeofHeader := haddr
    exact hσ.inv.sound hs hmain hlong
  · have hdistinct : σ.live.Pairwise fun a b => a.addr ≠ b.addr := pairwise_map.mp hσ.owns.nodup
    exact hdistinct.imp_of_mem fun ha hb hab => hσ.disjoint ha hb hab

/-- A heap in static memory, before it is set up. -/
def zeroedHeap : HeapState where
  heapEnd := 0
  lastStack := 0
  lastSegment := 0
  mainSegment := 0
  totalSize := 0
  usedSize := 0
  freeSize := 0
  isKernel := false
  ready := false
  mem := fun _ => 0#8
  mapped := []

/-- The heap at the addresses of `kernelGlobalHeap`, in zeroed pages. -/
def kernelHeap : Outcome HeapState :=
  zeroedHeap.initHeap (fun _ => 0#8) 0xffffffff6ffff000 0xffffffff7ffff000 false

/-- Two blocks on a new heap; the first one is moved, or both are freed. -/
theorem twoBlocks_kernelHeap : ∃ h h₁ h₂ h₃ h₄ h₅, kernelHeap = .ok h ∧
    h.malloc (fun _ => 0#8) 100 8 = .ok (h₁, 0xffffffff6fffef60) ∧ h₁.usedSize = 160 ∧
    (∀ ok : HeapOp → Prop, ok (.malloc 100) → ok (.malloc 50) → HeapRun (fun op _ => ok op) ⟨h, []⟩
      ⟨h₂, [⟨0xffffffff6fffeef0, 50⟩, ⟨0xffffffff6fffef60, 100⟩]⟩) ∧
    h₂.realloc (fun _ => 0#8) 0xffffffff6fffef60 200 8 = .ok (h₃, 0xffffffff6fffedf0) ∧
    h₂.free 0xffffffff6fffef60 = .ok h₄ ∧ h₄.free 0xffffffff6fffeef0 = .ok h₅ := by
  obtain ⟨h, hinit, ⟨h₁, _⟩, hmalloc, ⟨h₂, _⟩, hmalloc', ⟨h₃, _⟩, hrealloc, h₄, hfree, h₅, hfree',
      rfl, hused, rfl, rfl⟩ : ∃ h, kernelHeap = .ok h ∧
      ∃ r₁, h.malloc (fun _ => 0#8) 100 8 = .ok r₁ ∧
      ∃ r₂, r₁.1.malloc (fun _ => 0#8) 50 8 = .ok r₂ ∧
      ∃ r₃, r₂.1.realloc (fun _ => 0#8) r₁.2 200 8 = .ok r₃ ∧
      ∃ h₄, r₂.1.free r₁.2 = .ok h₄ ∧ ∃ h₅, h₄.free r₂.2 = .ok h₅ ∧
      r₁.2 = 0xffffffff6fffef60 ∧ r₁.1.usedSize = 160 ∧ r₂.2 = 0xffffffff6fffeef0 ∧
      r₃.2 = 0xffffffff6fffedf0 := by
    decide +kernel
  exact ⟨h, h₁, h₂, h₃, h₄, h₅, hinit, hmalloc, hused, fun ok hfirst hsecond =>
    .tail (.single ⟨_, _, hfirst, .malloc hmalloc⟩) ⟨_, _, hsecond, .malloc hmalloc'⟩,
    hrealloc, hfree, hfree'⟩

theorem heap_layout_kernelHeap : ∃ h σ, kernelHeap = .ok h ∧
    HeapRun (fun op _ => op.Bounded) ⟨h, []⟩ σ ∧ σ.live ≠ [] ∧
    ∃ segs, Represents σ.heap segs ∧ (∀ b ∈ σ.live, b.Sound σ.heap segs) ∧
      σ.live.Pairwise (Block.Disjoint σ.heap) := by
  obtain ⟨h, _, _, _, _, _, hinit, -, -, hruns, -⟩ := twoBlocks_kernelHeap
  have hrun := hruns HeapOp.Bounded (by decide) (by decide)
  exact ⟨h, _, hinit, hrun, cons_ne_nil _ _, heap_layout (by decide) (by decide) hinit hrun⟩

end Bloodmoon
