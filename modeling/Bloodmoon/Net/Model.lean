import Bloodmoon.Machine.ByteMemory

/-!
# Packets that arrive

The model of `process_packet` in `netstack.c` with the functions of `eth.c` and `arp.c` that it
uses. Arrays and what pointers point to are memory of which the first bytes count; `fresh` is what
the allocations of `kmalloc` contain, by their number in `process_packet`. The result has the frames
that are handed to the device.
-/

namespace Bloodmoon

open Machine

/-- `struct packet`. -/
structure Packet where
  len : ℕ
  data : Bytes

/-- `struct eth`. -/
structure Eth where
  da : Bytes
  sa : Bytes
  type : Bytes
  datalen : ℕ
  data : Bytes

/-- `struct arp`. -/
structure Arp where
  htype : ℕ
  ptype : ℕ
  hlen : ℕ
  plen : ℕ
  oper : ℕ
  sha : Bytes
  spa : Bytes
  tha : Bytes
  tpa : Bytes

/-- `struct arp_cache`. -/
structure ArpCache where
  ip : Bytes
  mac : Bytes

/-- `struct nic`. -/
structure Nic where
  mac : Bytes
  ip : Bytes
  arpCache : List ArpCache
  txQueue : List Packet

/-- `memcmp` finds no difference. -/
def memEq (a b : Bytes) (n : ℕ) : Bool := (List.range n).all fun i => a i == b i

/-- `htons` and `ntohs`. -/
def htons (n : ℕ) : ℕ := n % 256 * 256 + n / 256 % 256

/-! ### Frames -/

/-- `ETH_INVALID`, `ETH_II` and `ETH_802_3`. -/
inductive EthVersion where
  | invalid
  | ethII
  | eth8023
  deriving DecidableEq

/-- `eth_get_type`. -/
def ethGetType (eth : Eth) : ℕ := (eth.type 0).toNat * 256 + (eth.type 1).toNat

/-- `eth_from_packet`. -/
def ethFromPacket (buffer data : Bytes) (size : ℕ) : Option Eth :=
  if size < 14 then none
  else some
    { da := data
      sa := fun i => data (6 + i)
      type := fun i => data (12 + i)
      datalen := size - 14
      data := blit buffer 0 data 14 (size - 14) }

/-- `eth_get_version`. -/
def ethGetVersion (buffer data : Bytes) (size : ℕ) : EthVersion :=
  match ethFromPacket buffer data size with
  | none => .invalid
  | some eth =>
    if ethGetType eth < 46 then .invalid
    else if 1500 < ethGetType eth ∧ ethGetType eth < 1536 then .invalid
    else if 1536 < ethGetType eth then .ethII
    else .eth8023

/-- `eth_create`; the data are padded to 46 bytes with what follows them in memory. -/
def ethCreate (buffer sa da data type : Bytes) (length : ℕ) : Eth where
  da := da
  sa := sa
  type := type
  datalen := if length < 46 then 46 else if 1500 < length then 1500 else length
  data := blit buffer 0 data 0 length

/-- `eth_get_packet_size`. -/
def ethGetPacketSize (eth : Eth) : ℕ := eth.datalen + 14

/-- `eth_to_packet`. -/
def ethToPacket (eth : Eth) (buffer : Bytes) (maxSize : ℕ) : ℕ × Bytes :=
  if maxSize < eth.datalen + 14 then (0, memset buffer 0 0#8 maxSize)
  else (eth.datalen + 14,
    blit (blit (blit (blit (memset buffer 0 0#8 maxSize) 0 eth.da 0 6) 6 eth.sa 0 6)
      12 eth.type 0 2) 14 eth.data 0 eth.datalen)

/-! ### The address resolution protocol -/

/-- `parse_arp`. -/
def parseArp (packet : Bytes) : Arp where
  htype := htons (loadLE packet 0 2)
  ptype := htons (loadLE packet 2 2)
  hlen := (packet 4).toNat
  plen := (packet 5).toNat
  oper := htons (loadLE packet 6 2)
  sha i := packet (8 + i)
  spa i := packet (8 + (packet 4).toNat + i)
  tha i := packet (8 + (packet 4).toNat + (packet 5).toNat + i)
  tpa i := packet (8 + (packet 4).toNat + (packet 5).toNat + (packet 4).toNat + i)

/-- `size_arp`. -/
def sizeArp (arp : Arp) : ℕ := 8 + 2 * (arp.hlen + arp.plen)

/-- `ethertype_arp`. -/
def ethertypeArp : Bytes := fun i => if i = 0 then 0x08#8 else 0x06#8

/-- The first part of `data_arp`: the fields before the addresses. -/
def dataArpHeader (arp : Arp) (data : Bytes) : Bytes :=
  storeLE (storeLE (storeLE (storeLE (storeLE data 0 2 arp.htype) 2 2 arp.ptype) 4 1 arp.hlen)
    5 1 arp.plen) 6 2 arp.oper

/-- `data_arp`. -/
def dataArp (arp : Arp) (data : Bytes) : Bytes :=
  blit (blit (blit (blit (dataArpHeader arp data) 8 arp.sha 0 arp.hlen)
    (8 + arp.hlen) arp.spa 0 arp.plen)
    (8 + arp.hlen + arp.plen) arp.tha 0 arp.hlen)
    (8 + arp.hlen + arp.plen + arp.hlen) arp.tpa 0 arp.plen

/-- The search of `add_arp_cache_entry`: the first entry for the address gets the new one. -/
def updateArpCache (ip mac : Bytes) : List ArpCache → Option (List ArpCache)
  | [] => none
  | e :: es =>
    if memEq e.ip ip 4 then some ({ e with mac := mac } :: es)
    else (updateArpCache ip mac es).map (e :: ·)

/-- `add_arp_cache_entry`. -/
def addArpCacheEntry (ip mac : Bytes) (cache : List ArpCache) : List ArpCache :=
  (updateArpCache ip mac cache).getD (⟨ip, mac⟩ :: cache)

/-! ### Processing a packet -/

/-- The reply to a request. -/
def arpReply (arp : Arp) (c : Nic) : Arp where
  htype := arp.htype
  ptype := arp.ptype
  hlen := arp.hlen
  plen := arp.plen
  oper := htons 2
  sha := c.mac
  spa := c.ip
  tha := arp.sha
  tpa := arp.spa

/-- `tx_n`. -/
def txN (c : Nic) (num : ℕ) : Nic × List Packet :=
  ({ c with txQueue := c.txQueue.drop num }, c.txQueue.take num)

/-- The packet of `create_tx_packet`, which is put in front of the queue. -/
def createTxPacket (fresh : ℕ → Bytes) (len : ℕ) : Packet := ⟨len, memset (fresh 3) 0 0#8 len⟩

/-- A packet is made of a frame and sent. -/
def sendFrame (fresh : ℕ → Bytes) (eth : Eth) (c : Nic) : Nic × List Packet :=
  match ethToPacket eth (createTxPacket fresh (ethGetPacketSize eth)).data
      (ethGetPacketSize eth) with
  | (0, data) => ({ c with txQueue := ⟨ethGetPacketSize eth, data⟩ :: c.txQueue }, [])
  | (_ + 1, data) => txN { c with txQueue := ⟨ethGetPacketSize eth, data⟩ :: c.txQueue } 1

/-- The frame of the reply. -/
def replyEth (fresh : ℕ → Bytes) (arp : Arp) (c : Nic) : Eth :=
  ethCreate (fresh 2) c.mac arp.sha (dataArp (arpReply arp c) (fresh 1)) ethertypeArp
    (sizeArp (arpReply arp c))

/-- A packet of the address resolution protocol. -/
def processArp (fresh : ℕ → Bytes) (arp : Arp) (c : Nic) : Nic × List Packet :=
  if arp.oper = 1 then
    if memEq arp.tpa c.ip 4 then sendFrame fresh (replyEth fresh arp c) c else (c, [])
  else if arp.oper = 2 then
    if memEq arp.tpa c.ip 4 then
      ({ c with arpCache := addArpCacheEntry arp.spa arp.sha c.arpCache }, [])
    else (c, [])
  else (c, [])

/-- `process_packet`. -/
def processPacket (fresh : ℕ → Bytes) (p : Packet) (c : Nic) : Nic × List Packet :=
  if p.len < 14 then (c, [])
  else match ethFromPacket (fresh 0) p.data p.len with
    | none => (c, [])
    | some eth =>
      match ethGetVersion (fresh 0) p.data p.len with
      | .invalid => (c, [])
      | .eth8023 => (c, [])
      | .ethII =>
        if ethGetType eth = 0x0806 then processArp fresh (parseArp eth.data) c else (c, [])

end Bloodmoon
