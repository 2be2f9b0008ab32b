import QuillOS.Network.Model

/-!
# The network stack: sending

`send_udp` builds a frame in `send_buf`, header by header, and hands it to `E1000::send`; a
destination that is not in the ARP cache gets an ARP request instead. The fields of the sender that
the receiver does not use are added to its state here.
-/

namespace QuillOS.Network

open Lib

def sizeofSendBuf : ℕ := 2048

def broadcastMac : Mac := [0xFF, 0xFF, 0xFF, 0xFF, 0xFF, 0xFF]

/-- A node that sends. Hardware addresses are arrays of six bytes. -/
structure Node extends State where
  netReady : Bool
  pktsSent : UInt64
  ipId : UInt16
  mac_length : ourMac.length = 6
  arp_length : ∀ i, (arpTable i).mac.length = 6

/-! ## Checksum -/

/-- The loop over the words, which are summed up in 32 bits; a last odd byte is added by itself. -/
def addWords (sum : UInt32) : List UInt8 → UInt32
  | lo :: hi :: rest => addWords (sum + (lo.toUInt16 ||| hi.toUInt16 <<< 8).toUInt32) rest
  | [b] => sum + b.toUInt32
  | [] => sum

/-- A turn of the loop that adds the carries above 16 bits back. -/
def foldTurn (sum : UInt32) : UInt32 := (sum &&& (0xFFFF : UInt32)) + sum >>> 16

theorem toNat_carry (sum : UInt32) : (sum >>> 16).toNat = sum.toNat / 2 ^ 16 := by
  rw [UInt32.toNat_shiftRight]
  exact Nat.shiftRight_eq_div_pow _ 16

theorem carry_eq_zero_iff (sum : UInt32) : sum >>> 16 = 0 ↔ sum.toNat < 2 ^ 16 := by
  rw [← UInt32.toNat_inj, toNat_carry]
  change sum.toNat / 2 ^ 16 = 0 ↔ _
  omega

theorem toNat_foldTurn (sum : UInt32) :
    (foldTurn sum).toNat = sum.toNat % 2 ^ 16 + sum.toNat / 2 ^ 16 := by
  have hlt := sum.toNat_lt
  have hlow : (sum &&& (0xFFFF : UInt32)).toNat = sum.toNat % 2 ^ 16 := by
    rw [UInt32.toNat_and]
    exact Nat.and_two_pow_sub_one_eq_mod _ 16
  unfold foldTurn
  rw [UInt32.toNat_add, hlow, toNat_carry]
  omega

/-- The carries are added back until none is left. -/
def foldCarry (sum : UInt32) : UInt32 :=
  if sum >>> 16 = 0 then sum else foldCarry (foldTurn sum)
termination_by sum.toNat
decreasing_by
  rename_i hcarry
  rw [carry_eq_zero_iff] at hcarry
  rw [toNat_foldTurn]
  omega

def ipChecksum (data : List UInt8) : UInt16 := ~~~(foldCarry (addWords 0 data)).toUInt16

/-! ## ARP -/

def arpLookup (s : State) (ip : UInt32) : Option Mac :=
  (Fin.find? fun i => (s.arpTable i).valid && (s.arpTable i).ip == ip).map fun i => (s.arpTable i).mac

/-- The frame `arp_send_request` builds. -/
def arpRequest (s : State) (targetIp : UInt32) : List UInt8 :=
  broadcastMac ++ s.ourMac ++ bytes16 (htons 0x0806) ++
    bytes16 (htons 1) ++ bytes16 (htons 0x0800) ++ [6, 4] ++ bytes16 (htons 1) ++
    s.ourMac ++ bytes32 s.ourIp ++ [0, 0, 0, 0, 0, 0] ++ bytes32 targetIp

/-! ## UDP -/

def ipHeader (ipTotal id checksum : UInt16) (srcIp dstIp : UInt32) : List UInt8 :=
  [0x45, 0] ++ (bytes16 (htons ipTotal) ++ (bytes16 (htons id) ++ (bytes16 0 ++ ([64, 17] ++
    (bytes16 checksum ++ (bytes32 srcIp ++ bytes32 dstIp))))))

def udpHeader (srcPort dstPort udpTotal : UInt16) : List UInt8 :=
  bytes16 (htons srcPort) ++ (bytes16 (htons dstPort) ++ (bytes16 (htons udpTotal) ++ bytes16 0))

/-- What a call of `send_udp` leads to: the frames it gives to `E1000::send`, the last of them its
datagram if it gets that far; what `E1000::send` says of the datagram is the result. -/
structure Sending where
  state : Node
  sent : List (List UInt8)
  datagram : Option (List UInt8)

def isBroadcast (s : State) (dstIp : UInt32) : Bool :=
  dstIp == 0xFFFFFFFF || dstIp == s.ourIp ||| htonl 0x000000FF

/-- The datagram built for a resolved destination; `none` when the payload does not fit into
`send_buf`, although the totals of 16 bits say that it does. -/
def buildUdp (s : Node) (dstMac : Mac) (dstIp : UInt32) (dstPort srcPort : UInt16)
    (data : List UInt8) : Option Sending :=
  let udpTotal := 8 + UInt16.ofNat data.length
  let ipTotal := 20 + udpTotal
  let pktTotal := 14 + ipTotal
  if pktTotal.toNat > sizeofSendBuf then some { state := s, sent := [], datagram := none }
  else if 42 + data.length > sizeofSendBuf then none
  else
    let checksum := ipChecksum (ipHeader ipTotal s.ipId 0 s.ourIp dstIp)
    let frame := dstMac ++ (s.ourMac ++ (bytes16 (htons 0x0800) ++
      (ipHeader ipTotal s.ipId checksum s.ourIp dstIp ++ (udpHeader srcPort dstPort udpTotal ++ data))))
    some
      { state := { s with ipId := s.ipId + 1, pktsSent := s.pktsSent + 1 }
        sent := [frame]
        datagram := some frame }

/-- The totals as the code computes them. -/
theorem totals_toNat {len : ℕ} (hlen : len < 2 ^ 16) :
    (8 + UInt16.ofNat len).toNat = (8 + len) % 2 ^ 16 ∧
      (20 + (8 + UInt16.ofNat len)).toNat = (28 + len) % 2 ^ 16 ∧
      (14 + (20 + (8 + UInt16.ofNat len))).toNat = (42 + len) % 2 ^ 16 := by
  have hval : (UInt16.ofNat len).toNat = len := by
    rw [UInt16.toNat_ofNat', Nat.mod_eq_of_lt hlen]
  have hudp : (8 + UInt16.ofNat len).toNat = (8 + len) % 2 ^ 16 := by
    rw [UInt16.toNat_add, hval]
    rfl
  have hip : (20 + (8 + UInt16.ofNat len)).toNat = (28 + len) % 2 ^ 16 := by
    rw [UInt16.toNat_add, hudp]
    change (20 + (8 + len) % 2 ^ 16) % 2 ^ 16 = _
    omega
  refine ⟨hudp, hip, ?_⟩
  rw [UInt16.toNat_add, hip]
  change (14 + (28 + len) % 2 ^ 16) % 2 ^ 16 = _
  omega

/-- `Network::send_udp`. -/
def sendUdp (s : Node) (dstIp : UInt32) (dstPort srcPort : UInt16) (data : List UInt8) :
    Option Sending :=
  if !s.netReady then some { state := s, sent := [], datagram := none }
  else if isBroadcast s.toState dstIp then buildUdp s broadcastMac dstIp dstPort srcPort data
  else match arpLookup s.toState dstIp with
    | none => some { state := s, sent := [arpRequest s.toState dstIp], datagram := none }
    | some mac => buildUdp s mac dstIp dstPort srcPort data

/-- A destination with a hardware address is sent a datagram. -/
theorem sendUdp_of_known {s : Node} {dstIp : UInt32} (hready : s.netReady = true)
    (hknown : isBroadcast s.toState dstIp = true ∨ (arpLookup s.toState dstIp).isSome)
    (dstPort srcPort : UInt16) (data : List UInt8) : ∃ mac : Mac, mac.length = 6 ∧
      sendUdp s dstIp dstPort srcPort data = buildUdp s mac dstIp dstPort srcPort data := by
  unfold sendUdp
  rw [if_neg (by simp [hready])]
  by_cases hcast : isBroadcast s.toState dstIp = true
  · rw [if_pos hcast]
    exact ⟨broadcastMac, rfl, rfl⟩
  · rw [if_neg hcast]
    obtain ⟨mac, hmac⟩ := Option.isSome_iff_exists.mp (hknown.resolve_left hcast)
    rw [hmac]
    obtain ⟨i, -, rfl⟩ := Option.map_eq_some_iff.mp hmac
    exact ⟨_, s.arp_length i, rfl⟩

/-- Any other is not, and neither is one before the network is up. -/
theorem sendUdp_of_unknown {s : Node} {dstIp : UInt32}
    (h : ¬(s.netReady = true ∧
      (isBroadcast s.toState dstIp = true ∨ (arpLookup s.toState dstIp).isSome)))
    (dstPort srcPort : UInt16) (data : List UInt8) :
    ∃ sending, sendUdp s dstIp dstPort srcPort data = some sending ∧ sending.datagram = none := by
  unfold sendUdp
  by_cases hready : s.netReady = true
  · have hunknown := not_or.mp fun hknown => h ⟨hready, hknown⟩
    rw [if_neg (by simp [hready]), if_neg hunknown.1, Option.not_isSome_iff_eq_none.mp hunknown.2]
    exact ⟨_, rfl, rfl⟩
  · rw [if_pos (by simp [hready])]
    exact ⟨_, rfl, rfl⟩

/-! ## Handlers -/

abbrev Handlers := Fin maxUdpHandlers → UdpBinding

/-- `Network::register_udp_handler` takes the first slot without a handler. -/
def registerUdpHandler (t : Handlers) (b : UdpBinding) : Handlers :=
  match Fin.find? fun i => (t i).handler == 0 with
  | some i => Function.update t i b
  | none => t

/-- The handlers after the calls of `register_udp_handler` since `Network::init`. -/
def registerAll (calls : List UdpBinding) : Handlers :=
  calls.foldl registerUdpHandler fun _ => { port := 0, handler := 0 }

end QuillOS.Network
