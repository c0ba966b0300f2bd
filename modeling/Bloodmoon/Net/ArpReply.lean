import Bloodmoon.Net.Model

/-!
# Replies to ARP requests

A request for the address of the card is answered by one frame to its sender. All fields of the
reply are right but two: `htype` and `ptype` are copied from the parsed request, where they are in
the byte order of the host, and go out in that order.
-/

namespace Bloodmoon

open Machine

/-! ### Byte order -/

theorem htons_eq {a b : ℕ} (ha : a < 256) (hb : b < 256) : htons (a * 256 + b) = b * 256 + a := by
  have hlow : (a * 256 + b) % 256 = b := by omega
  have hhigh : (a * 256 + b) / 256 = a := by omega
  rw [htons, hlow, hhigh, Nat.mod_eq_of_lt ha]

theorem htons_loadLE (m : Bytes) (a : ℕ) :
    htons (loadLE m a 2) = (m a).toNat * 256 + (m (a + 1)).toNat := by
  rw [← htons_eq (m (a + 1)).isLt (m a).isLt]
  simp only [loadLE]
  congr 1
  omega

theorem htons_lt (n : ℕ) : htons n < 65536 := by
  rw [htons]
  omega

/-- A number is its own reverse when its bytes are equal. -/
theorem htons_htons_eq_iff (m : Bytes) (a : ℕ) :
    htons (htons (loadLE m a 2)) = htons (loadLE m a 2) ↔ m a = m (a + 1) := by
  have h₀ := (m a).isLt
  have h₁ := (m (a + 1)).isLt
  rw [← BitVec.toNat_inj, htons_loadLE, htons_eq h₀ h₁]
  omega

theorem memEq_iff {a b : Bytes} {n : ℕ} : memEq a b n = true ↔ ∀ i < n, a i = b i := by
  simp [memEq]

/-! ### The data of a packet -/

variable {arp : Arp} {data : Bytes} {c : Nic} {p : Packet} {fresh : ℕ → Bytes}

/-- The fields before the addresses are written one behind the other. -/
theorem dataArp_header (arp : Arp) (data : Bytes) :
    loadLE (dataArp arp data) 0 2 = arp.htype % 65536 ∧
      loadLE (dataArp arp data) 2 2 = arp.ptype % 65536 ∧
      (dataArp arp data 4).toNat = arp.hlen % 256 ∧ (dataArp arp data 5).toNat = arp.plen % 256 ∧
      loadLE (dataArp arp data) 6 2 = arp.oper % 65536 := by
  have hheader : SameOn (dataArpHeader arp data) (dataArp arp data) 0 8 := by
    refine ((SameOn.trans (sameOn_blit ?_) (sameOn_blit ?_)).trans
      (sameOn_blit ?_)).trans (sameOn_blit ?_)
    all_goals exact .inl (by omega)
  have hbyte : ∀ (m : Bytes) (a v : ℕ), (storeLE m a 1 v a).toNat = v % 256 := fun m a v => by
    simp [storeLE]
  refine ⟨?_, ?_, ?_, ?_, ?_⟩
  · rw [loadLE_congr (hheader.mono (by omega) (by omega)), dataArpHeader,
      loadLE_congr (sameOn_storeLE _ _ (by omega)), loadLE_congr (sameOn_storeLE _ _ (by omega)),
      loadLE_congr (sameOn_storeLE _ _ (by omega)), loadLE_congr (sameOn_storeLE _ _ (by omega))]
    exact loadLE_storeLE _ 0 2 arp.htype
  · rw [loadLE_congr (hheader.mono (by omega) (by omega)), dataArpHeader,
      loadLE_congr (sameOn_storeLE _ _ (by omega)), loadLE_congr (sameOn_storeLE _ _ (by omega)),
      loadLE_congr (sameOn_storeLE _ _ (by omega))]
    exact loadLE_storeLE _ 2 2 arp.ptype
  · rw [hheader 4 (by omega) (by omega), dataArpHeader, storeLE_apply_of_not_mem _ _ (by omega),
      storeLE_apply_of_not_mem _ _ (by omega), hbyte]
  · rw [hheader 5 (by omega) (by omega), dataArpHeader, storeLE_apply_of_not_mem _ _ (by omega),
      hbyte]
  · rw [loadLE_congr (hheader.mono (by omega) (by omega)), dataArpHeader]
    exact loadLE_storeLE _ 6 2 arp.oper

/-- Four fields are written one behind the other. -/
theorem blit_fields (m s₁ s₂ s₃ s₄ : Bytes) (a n₁ n₂ n₃ n₄ : ℕ) {m' : Bytes}
    (hm' : m' = blit (blit (blit (blit m a s₁ 0 n₁) (a + n₁) s₂ 0 n₂) (a + n₁ + n₂) s₃ 0 n₃)
      (a + n₁ + n₂ + n₃) s₄ 0 n₄) :
    (∀ i < n₁, m' (a + i) = s₁ i) ∧ (∀ i < n₂, m' (a + n₁ + i) = s₂ i) ∧
      (∀ i < n₃, m' (a + n₁ + n₂ + i) = s₃ i) ∧ ∀ i < n₄, m' (a + n₁ + n₂ + n₃ + i) = s₄ i := by
  subst hm'
  have hfield : ∀ (m s : Bytes) {a n i : ℕ}, i < n → blit m a s 0 n (a + i) = s i := by
    intro m s a n i hi
    rw [blit_apply_of_mem (Nat.le_add_right a i) (by omega), Nat.zero_add, Nat.add_sub_cancel_left]
  refine ⟨fun i hi => ?_, fun i hi => ?_, fun i hi => ?_, fun i hi => hfield _ _ hi⟩
  · rw [blit_apply_of_outside (by omega), blit_apply_of_outside (by omega),
      blit_apply_of_outside (by omega), hfield _ _ hi]
  · rw [blit_apply_of_outside (by omega), blit_apply_of_outside (by omega), hfield _ _ hi]
  · rw [blit_apply_of_outside (by omega), hfield _ _ hi]

/-- The addresses follow one another, as long as their lengths say. -/
theorem dataArp_addresses (hhlen : arp.hlen = 6) (hplen : arp.plen = 4) (data : Bytes) :
    (∀ i < 6, dataArp arp data (8 + i) = arp.sha i) ∧
      (∀ i < 4, dataArp arp data (14 + i) = arp.spa i) ∧
      (∀ i < 6, dataArp arp data (18 + i) = arp.tha i) ∧
      ∀ i < 4, dataArp arp data (24 + i) = arp.tpa i := by
  rw [dataArp, hhlen, hplen]
  exact blit_fields (dataArpHeader arp data) arp.sha arp.spa arp.tha arp.tpa 8 6 4 6 4 rfl

/-! ### Packets that say the same -/

/-- Two packets have the same fields, and addresses of six and four bytes. -/
structure Arp.Agrees (a b : Arp) : Prop where
  htype : a.htype = b.htype
  ptype : a.ptype = b.ptype
  hlen : a.hlen = b.hlen
  plen : a.plen = b.plen
  oper : a.oper = b.oper
  sha : ∀ i < 6, a.sha i = b.sha i
  spa : ∀ i < 4, a.spa i = b.spa i
  tha : ∀ i < 6, a.tha i = b.tha i
  tpa : ∀ i < 4, a.tpa i = b.tpa i

/-- A packet is determined by its first 28 bytes. -/
theorem parseArp_agrees {m m' : Bytes} (h : SameOn m m' 0 28) (hhlen : (parseArp m).hlen = 6)
    (hplen : (parseArp m).plen = 4) : (parseArp m').Agrees (parseArp m) := by
  have hword : ∀ a ≤ 6, loadLE m' a 2 = loadLE m a 2 := fun a ha =>
    loadLE_congr (h.mono (Nat.zero_le a) (by omega))
  have h4 : m' 4 = m 4 := h 4 (by omega) (by omega)
  have h5 : m' 5 = m 5 := h 5 (by omega) (by omega)
  have hhlen' : (m 4).toNat = 6 := hhlen
  have hplen' : (m 5).toNat = 4 := hplen
  refine ⟨?_, ?_, ?_, ?_, ?_, fun i hi => ?_, fun i hi => ?_, fun i hi => ?_, fun i hi => ?_⟩
  · exact congrArg htons (hword 0 (by omega))
  · exact congrArg htons (hword 2 (by omega))
  · exact congrArg BitVec.toNat h4
  · exact congrArg BitVec.toNat h5
  · exact congrArg htons (hword 6 (by omega))
  · exact h (8 + i) (by omega) (by omega)
  · simp only [parseArp, h4, hhlen']
    exact h _ (by omega) (by omega)
  · simp only [parseArp, h4, h5, hhlen', hplen']
    exact h _ (by omega) (by omega)
  · simp only [parseArp, h4, h5, hhlen', hplen']
    exact h _ (by omega) (by omega)

/-- The data of a packet are parsed to the packet, but for the byte order. -/
theorem parseArp_dataArp (arp : Arp) (hhlen : arp.hlen = 6) (hplen : arp.plen = 4) (data : Bytes) :
    (parseArp (dataArp arp data)).Agrees
      { arp with
        htype := htons (arp.htype % 65536)
        ptype := htons (arp.ptype % 65536)
        oper := htons (arp.oper % 65536) } := by
  obtain ⟨hhtype, hptype, h4, h5, hoper⟩ := dataArp_header arp data
  obtain ⟨hsha, hspa, htha, htpa⟩ := dataArp_addresses hhlen hplen data
  rw [hhlen] at h4
  rw [hplen] at h5
  refine ⟨congrArg htons hhtype, congrArg htons hptype, ?_, ?_, congrArg htons hoper, hsha,
    fun i hi => ?_, fun i hi => ?_, fun i hi => ?_⟩
  · exact h4.trans hhlen.symm
  · exact h5.trans hplen.symm
  · simp only [parseArp, h4]
    exact hspa i hi
  · simp only [parseArp, h4, h5]
    exact htha i hi
  · simp only [parseArp, h4, h5]
    exact htpa i hi

/-! ### Frames -/

variable {eth : Eth}

/-- The fields of a frame are written one behind the other. -/
theorem ethToPacket_spec (eth : Eth) (buffer : Bytes) :
    ∃ data, ethToPacket eth buffer (ethGetPacketSize eth) = (eth.datalen + 14, data) ∧
      (∀ i < 6, data i = eth.da i) ∧ (∀ i < 6, data (6 + i) = eth.sa i) ∧
      (∀ i < 2, data (12 + i) = eth.type i) ∧ ∀ i < eth.datalen, data (14 + i) = eth.data i := by
  have hfields := blit_fields (memset buffer 0 0#8 (ethGetPacketSize eth)) eth.da eth.sa eth.type
    eth.data 0 6 6 2 eth.datalen rfl
  simp only [Nat.zero_add] at hfields
  exact ⟨_, if_neg (Nat.lt_irrefl _), hfields⟩

/-- A frame is sent as a packet of its own. -/
theorem sendFrame_sent (fresh : ℕ → Bytes) (eth : Eth) (c : Nic) :
    ∃ f, (sendFrame fresh eth c).2 = [f] ∧ (∀ i < 6, f.data i = eth.da i) ∧
      ∀ i < eth.datalen, f.data (14 + i) = eth.data i := by
  obtain ⟨data, heq, hda, -, -, hdata⟩ :=
    ethToPacket_spec eth (createTxPacket fresh (ethGetPacketSize eth)).data
  refine ⟨⟨ethGetPacketSize eth, data⟩, ?_, hda, hdata⟩
  rw [sendFrame, heq]
  rfl

/-- The frame of a reply carries the data of the reply, and is padded. -/
theorem replyEth_data (fresh : ℕ → Bytes) (c : Nic) (hhlen : arp.hlen = 6) (hplen : arp.plen = 4) :
    (replyEth fresh arp c).datalen = 46 ∧
      ∀ i < 28, (replyEth fresh arp c).data i = dataArp (arpReply arp c) (fresh 1) i := by
  have hsize : sizeArp (arpReply arp c) = 28 := by
    show 8 + 2 * (arp.hlen + arp.plen) = 28
    rw [hhlen, hplen]
  rw [replyEth, hsize]
  refine ⟨rfl, fun i hi => ?_⟩
  exact (blit_apply_of_mem (Nat.zero_le i) (by omega)).trans (by simp)

/-! ### Requests and replies -/

/-- What a frame carries. -/
def Packet.payload (p : Packet) : Bytes := fun i => p.data (14 + i)

/-- An Ethernet frame with a request for the address of the card. -/
structure IsArpRequest (p : Packet) (c : Nic) : Prop where
  len : 42 ≤ p.len
  ethertype : p.data 12 = 0x08#8 ∧ p.data 13 = 0x06#8
  hlen : (parseArp p.payload).hlen = 6
  plen : (parseArp p.payload).plen = 4
  oper : (parseArp p.payload).oper = 1
  tpa : ∀ i < 4, (parseArp p.payload).tpa i = c.ip i

/-- The packet `a` is the answer of the card to the request `r`. -/
structure IsArpReply (a r : Arp) (c : Nic) : Prop where
  htype : a.htype = r.htype
  ptype : a.ptype = r.ptype
  hlen : a.hlen = r.hlen
  plen : a.plen = r.plen
  oper : a.oper = 2
  sha : ∀ i < 6, a.sha i = c.mac i
  spa : ∀ i < 4, a.spa i = c.ip i
  tha : ∀ i < 6, a.tha i = r.sha i
  tpa : ∀ i < 4, a.tpa i = r.spa i

/-- Exactly one frame is sent: to the sender of the request, with the answer. -/
def Replies (fresh : ℕ → Bytes) (p : Packet) (c : Nic) : Prop :=
  ∃ f, (processPacket fresh p c).2 = [f] ∧ (∀ i < 6, f.data i = (parseArp p.payload).sha i) ∧
    IsArpReply (parseArp f.payload) (parseArp p.payload) c

/-- A request is parsed and answered. -/
theorem IsArpRequest.processPacket_eq (h : IsArpRequest p c) (fresh : ℕ → Bytes) : ∃ arp : Arp,
    arp.Agrees (parseArp p.payload) ∧
      processPacket fresh p c = sendFrame fresh (replyEth fresh arp c) c := by
  have hlen := h.len
  have hsame : SameOn p.payload (blit (fresh 0) 0 p.data 14 (p.len - 14)) 0 28 := fun x _ hx => by
    rw [blit_apply_of_mem (Nat.zero_le x) (by omega), Nat.sub_zero]
    rfl
  have hagrees := parseArp_agrees hsame h.hlen h.plen
  have htype : ∀ eth : Eth, eth.type = (fun i => p.data (12 + i)) → ethGetType eth = 0x0806 := by
    intro eth heq
    rw [ethGetType, heq]
    show (p.data 12).toNat * 256 + (p.data 13).toNat = 0x0806
    rw [h.ethertype.1, h.ethertype.2]
    rfl
  have hfrom : ethFromPacket (fresh 0) p.data p.len = some _ := if_neg (by omega)
  have hversion : ethGetVersion (fresh 0) p.data p.len = .ethII := by
    rw [ethGetVersion, hfrom]
    simp only
    rw [htype _ rfl]
    decide
  refine ⟨parseArp (blit (fresh 0) 0 p.data 14 (p.len - 14)), hagrees, ?_⟩
  rw [processPacket, if_neg (by omega), hfrom]
  rw [hversion]
  simp only
  rw [htype _ rfl, if_pos rfl, processArp, if_pos (hagrees.oper.trans h.oper), if_pos]
  exact memEq_iff.2 fun i hi => (hagrees.tpa i hi).trans (h.tpa i hi)

/-- **Replies.** A request is answered by one frame to its sender with the right answer exactly when
both bytes of its field `htype` are equal and both bytes of its field `ptype` are. -/
theorem replies_iff (h : IsArpRequest p c) :
    Replies fresh p c ↔ p.data 14 = p.data 15 ∧ p.data 16 = p.data 17 := by
  obtain ⟨arp, hagrees, heq⟩ := h.processPacket_eq fresh
  have hhlen := hagrees.hlen.trans h.hlen
  have hplen := hagrees.plen.trans h.plen
  obtain ⟨hdatalen, hdata⟩ := replyEth_data fresh c hhlen hplen
  obtain ⟨f, hsent, hda, hpayload⟩ := sendFrame_sent fresh (replyEth fresh arp c) c
  have hframe : SameOn (dataArp (arpReply arp c) (fresh 1)) f.payload 0 28 := fun x _ hx =>
    (hpayload x (by omega)).trans (hdata x (by omega))
  have hparsed := parseArp_dataArp (arpReply arp c) hhlen hplen (fresh 1)
  have hreply := parseArp_agrees hframe (hparsed.hlen.trans hhlen) (hparsed.plen.trans hplen)
  -- the two fields have been reversed once more than they should
  have hhtype : (parseArp f.payload).htype = htons (parseArp p.payload).htype := by
    rw [hreply.htype, hparsed.htype, ← hagrees.htype]
    exact congrArg htons (Nat.mod_eq_of_lt (hagrees.htype ▸ htons_lt _))
  have hptype : (parseArp f.payload).ptype = htons (parseArp p.payload).ptype := by
    rw [hreply.ptype, hparsed.ptype, ← hagrees.ptype]
    exact congrArg htons (Nat.mod_eq_of_lt (hagrees.ptype ▸ htons_lt _))
  have hiff : (parseArp f.payload).htype = (parseArp p.payload).htype ∧
      (parseArp f.payload).ptype = (parseArp p.payload).ptype ↔
        p.data 14 = p.data 15 ∧ p.data 16 = p.data 17 := by
    rw [hhtype, hptype]
    exact and_congr (htons_htons_eq_iff p.payload 0) (htons_htons_eq_iff p.payload 2)
  rw [← hiff, Replies, heq, hsent]
  constructor
  · rintro ⟨f', hf, -, hanswer⟩
    cases List.head_eq_of_cons_eq hf
    exact ⟨hanswer.htype, hanswer.ptype⟩
  · rintro ⟨hh, hp⟩
    refine ⟨f, rfl, fun i hi => (hda i hi).trans (hagrees.sha i hi),
      hh, hp, ?_, ?_, ?_, ?_, ?_, ?_, ?_⟩
    · exact hreply.hlen.trans (hparsed.hlen.trans hagrees.hlen)
    · exact hreply.plen.trans (hparsed.plen.trans hagrees.plen)
    · exact hreply.oper.trans (hparsed.oper.trans (show htons (htons 2 % 65536) = 2 from rfl))
    · exact fun i hi => (hreply.sha i hi).trans (hparsed.sha i hi)
    · exact fun i hi => (hreply.spa i hi).trans (hparsed.spa i hi)
    · exact fun i hi => (hreply.tha i hi).trans ((hparsed.tha i hi).trans (hagrees.sha i hi))
    · exact fun i hi => (hreply.tpa i hi).trans ((hparsed.tpa i hi).trans (hagrees.spa i hi))

/-- The card of the examples, with the address 10.0.0.2. -/
def exampleNic : Nic where
  mac i := BitVec.ofNat 8 (0x50 + i)
  ip i := [10#8, 0#8, 0#8, 2#8].getD i 0#8
  arpCache := []
  txQueue := []

/-- A request for the address of the card, with the given types. -/
def exampleRequest (htype ptype : List (BitVec 8)) : Packet where
  len := 60
  data i := (List.replicate 6 0xff#8 ++ List.replicate 6 0x60#8 ++ [8#8, 6#8] ++ htype ++ ptype ++
    [6#8, 4#8, 0#8, 1#8] ++ List.replicate 6 0x60#8 ++ [10#8, 0#8, 0#8, 1#8] ++
    List.replicate 6 0#8 ++ [10#8, 0#8, 0#8, 2#8]).getD i 0#8

/-- A request whose types read the same in both orders is answered. -/
theorem replies_palindromes :
    Replies (fun _ _ => 0#8) (exampleRequest [1#8, 1#8] [8#8, 8#8]) exampleNic :=
  (replies_iff ⟨by decide, by decide, by decide, by decide, by decide, by decide⟩).2
    ⟨by decide, by decide⟩

/-- The reply to a request for an IPv4 address on Ethernet has the type 0x0100. -/
theorem not_replies_ethernet :
    (parseArp (exampleRequest [0#8, 1#8] [8#8, 0#8]).payload).htype = 1 ∧
      (∃ f, (processPacket (fun _ _ => 0#8) (exampleRequest [0#8, 1#8] [8#8, 0#8]) exampleNic).2 =
        [f] ∧ (parseArp f.payload).htype = 0x0100) ∧
      ¬ Replies (fun _ _ => 0#8) (exampleRequest [0#8, 1#8] [8#8, 0#8]) exampleNic := by
  refine ⟨by decide, ⟨_, rfl, by decide⟩, ?_⟩
  rintro ⟨f, hf, -, hanswer⟩
  cases hf
  exact absurd hanswer.htype (by decide)

end Bloodmoon
