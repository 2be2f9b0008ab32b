import QuillOS.Network.Arp
import QuillOS.Network.RoundTrip

/-!
# Frames of the stack

All frames a node gives to `E1000::send` are ARP packets or UDP datagrams about itself, and
`process_packet` of any node reads them as what they are.
-/

namespace QuillOS.Network

open Lib Lib.Traced

/-! ## What is sent -/

/-- The frames of `arp_send_request` and `arp_send_reply`. -/
def arpFrame (oper : UInt16) (dst mac : Mac) (ip : UInt32) (targetMac : Mac) (targetIp : UInt32) :
    List UInt8 :=
  dst ++ mac ++ bytes16 (htons 0x0806) ++
    bytes16 (htons 1) ++ bytes16 (htons 0x0800) ++ [6, 4] ++ bytes16 (htons oper) ++
    mac ++ bytes32 ip ++ targetMac ++ bytes32 targetIp

theorem arpReply_eq (s : State) (targetIp : UInt32) (targetMac : Mac) :
    arpReply s targetIp targetMac = arpFrame 2 targetMac s.ourMac s.ourIp targetMac targetIp := rfl

/-- The arguments of `send_udp`. -/
structure Datagram where
  dstIp : UInt32
  dstPort : UInt16
  srcPort : UInt16
  data : List UInt8
  deriving DecidableEq

/-- The totals of a datagram, in 16 bits. -/
def Datagram.udpTotal (d : Datagram) : UInt16 := 8 + UInt16.ofNat d.data.length

/-- The frame of a datagram. -/
def Datagram.frame (d : Datagram) (dst mac : Mac) (ip : UInt32) (id : UInt16) : List UInt8 :=
  dst ++ (mac ++ (bytes16 (htons 0x0800) ++
    (ipHeader (20 + d.udpTotal) id (ipChecksum (ipHeader (20 + d.udpTotal) id 0 ip d.dstIp)) ip
      d.dstIp ++ (udpHeader d.srcPort d.dstPort d.udpTotal ++ d.data))))

theorem Datagram.length_frame {d : Datagram} {dst mac : Mac} (hdst : dst.length = 6)
    (hmac : mac.length = 6) (ip : UInt32) (id : UInt16) :
    (d.frame dst mac ip id).length = 42 + d.data.length := by
  simp only [Datagram.frame, ipHeader, udpHeader, List.length_append, List.length_cons,
    List.length_nil, length_bytes16, length_bytes32, hdst, hmac]
  omega

/-- A call of `send_udp`. -/
def Node.send (n : Node) (d : Datagram) : Option Sending :=
  sendUdp n d.dstIp d.dstPort d.srcPort d.data

/-- The hardware address `send_udp` takes for a destination. -/
def Resolves (s : State) (dstIp : UInt32) (mac : Mac) : Prop :=
  (isBroadcast s dstIp = true ∧ mac = broadcastMac) ∨ arpLookup s dstIp = some mac

theorem buildUdp_cases {n : Node} {mac : Mac} {d : Datagram} {r : Sending}
    (h : buildUdp n mac d.dstIp d.dstPort d.srcPort d.data = some r) :
    (r.state = n ∧ r.sent = [] ∧ r.datagram = none) ∨
      (42 + d.data.length ≤ sizeofSendBuf ∧
        r.state = { n with ipId := n.ipId + 1, pktsSent := n.pktsSent + 1 } ∧
        r.sent = [d.frame mac n.ourMac n.ourIp n.ipId] ∧
        r.datagram = some (d.frame mac n.ourMac n.ourIp n.ipId)) := by
  unfold buildUdp at h
  dsimp only at h
  split at h
  · left
    obtain rfl := Option.some.inj h
    exact ⟨rfl, rfl, rfl⟩
  · split at h
    · cases h
    · rename_i hfits
      right
      obtain rfl := Option.some.inj h
      exact ⟨by omega, rfl, rfl, rfl⟩

/-- What a call of `send_udp` leads to: nothing, an ARP request, or the datagram. -/
theorem Node.send_cases {n : Node} {d : Datagram} {r : Sending} (h : n.send d = some r) :
    (r.state = n ∧ r.sent = [] ∧ r.datagram = none) ∨
      (r.state = n ∧ r.datagram = none ∧ arpLookup n.toState d.dstIp = none ∧
        r.sent = [arpFrame 1 broadcastMac n.ourMac n.ourIp [0, 0, 0, 0, 0, 0] d.dstIp]) ∨
      ∃ mac, mac.length = 6 ∧ Resolves n.toState d.dstIp mac ∧
        42 + d.data.length ≤ sizeofSendBuf ∧
        r.state = { n with ipId := n.ipId + 1, pktsSent := n.pktsSent + 1 } ∧
        r.sent = [d.frame mac n.ourMac n.ourIp n.ipId] ∧
        r.datagram = some (d.frame mac n.ourMac n.ourIp n.ipId) := by
  unfold Node.send sendUdp at h
  split at h
  · obtain rfl := Option.some.inj h
    exact .inl ⟨rfl, rfl, rfl⟩
  split at h
  · rename_i hcast
    rcases buildUdp_cases h with hno | hsent
    · exact .inl hno
    · exact .inr (.inr ⟨broadcastMac, rfl, .inl ⟨hcast, rfl⟩, hsent⟩)
  split at h
  · rename_i hnone
    obtain rfl := Option.some.inj h
    exact .inr (.inl ⟨rfl, rfl, hnone, rfl⟩)
  · rename_i mac hmac
    rcases buildUdp_cases h with hno | hsent
    · exact .inl hno
    · obtain ⟨i, -, rfl⟩ := Option.map_eq_some_iff.mp hmac
      exact .inr (.inr ⟨_, n.arp_length i, .inr hmac, hsent⟩)

/-! ## What is received -/

/-- The fields of an ARP packet, as they are loaded from the buffer. -/
theorem arpFields_of_stored {buf : ℕ → UInt8} {oper : UInt16} {dst mac targetMac : Mac}
    {ip targetIp : UInt32} (hdst : dst.length = 6) (hmac : mac.length = 6)
    (htarget : targetMac.length = 6) (h : Stored buf 0 (arpFrame oper dst mac ip targetMac targetIp)) :
    (read16 buf 12).val = htons 0x0806 ∧ (read16 buf 20).val = htons oper ∧
      Stored buf 22 mac ∧ (read32 buf 28).val = ip ∧ (read32 buf 38).val = targetIp := by
  simp only [arpFrame, List.append_assoc, stored_append, hdst, hmac, htarget, length_bytes16,
    length_bytes32, List.length_cons, List.length_nil, Nat.zero_add, Nat.reduceAdd] at h
  obtain ⟨-, -, htype, -, -, -, hoper, hsha, hspa, -, htpa⟩ := h
  exact ⟨htype.word16, hoper.word16, hsha, hspa.word32, htpa.word32⟩

theorem readBytes_of_stored {buf : ℕ → UInt8} {off : ℕ} {bs : List UInt8} {n : ℕ}
    (h : Stored buf off bs) (hlen : bs.length = n) : (readBytes buf off n).val = bs := by
  subst hlen
  apply List.ext_getElem
  · simp [readBytes]
  · intro i hi hi'
    simpa [readBytes] using h i hi'

/-- `arp_store` changes the cache and nothing else. -/
theorem arpStore_eq (s : State) (ip : UInt32) (mac : Mac) :
    arpStore s ip mac = { s with arpTable := (arpStore s ip mac).arpTable } := by
  unfold arpStore
  split
  · rfl
  · split <;> rfl

/-- The state of a node that was given a frame. -/
def State.counted (s : State) : State := { s with pktsRecv := s.pktsRecv + 1 }

/-- The answer to an ARP packet. -/
def arpAnswer (s : State) (oper : UInt16) (mac : Mac) (ip targetIp : UInt32) : List (List UInt8) :=
  if oper = 1 ∧ targetIp = s.ourIp then [arpReply s ip mac] else []

theorem handleArp_val {s : State} {buf : ℕ → UInt8} {len oper : UInt16} {mac : Mac}
    {ip targetIp : UInt32} (hlen : sizeofArpPacket ≤ len.toNat) (hmac : mac.length = 6)
    (hoper : (read16 buf 20).val = htons oper) (hsha : Stored buf 22 mac)
    (hspa : (read32 buf 28).val = ip) (htpa : (read32 buf 38).val = targetIp) :
    (handleArp s buf 14 len).val =
      { state := arpStore s ip mac
        sent := arpAnswer (arpStore s ip mac) oper mac ip targetIp
        delivery := none } := by
  unfold handleArp arpAnswer
  rw [if_neg (by omega)]
  simp only [bind_val, Nat.reduceAdd, hspa, readBytes_of_stored hsha hmac, hoper, ntohs_htons]
  by_cases hop : oper = 1
  · rw [if_neg (not_not.mpr hop)]
    simp only [bind_val, htpa]
    by_cases htip : targetIp = (arpStore s ip mac).ourIp
    · rw [if_neg (not_not.mpr htip), if_pos ⟨hop, htip⟩]
      rfl
    · rw [if_pos htip, if_neg fun hand => htip hand.2]
      rfl
  · rw [if_pos hop, if_neg fun hand => hop hand.1]
    rfl

/-- An ARP packet is learned, and answered if it asks for this node. -/
theorem processPacket_arp {s : State} {buf : ℕ → UInt8} {oper : UInt16} {dst mac targetMac : Mac}
    {ip targetIp : UInt32} (hdst : dst.length = 6) (hmac : mac.length = 6)
    (htarget : targetMac.length = 6) (h : Stored buf 0 (arpFrame oper dst mac ip targetMac targetIp)) :
    (processPacket s buf 42).val =
      { state := arpStore s.counted ip mac
        sent := arpAnswer (arpStore s.counted ip mac) oper mac ip targetIp
        delivery := none } := by
  obtain ⟨htype, hoper, hsha, hspa, htpa⟩ := arpFields_of_stored hdst hmac htarget h
  unfold processPacket
  rw [if_neg (by decide)]
  simp only [bind_val, htype, ntohs_htons]
  rw [if_pos trivial]
  exact handleArp_val (s := s.counted) (by decide) hmac hoper hsha hspa htpa

theorem handleUdp_quiet (s : State) (srcIp : UInt32) (buf : ℕ → UInt8) (data : ℕ) (len : UInt16) :
    (handleUdp s srcIp buf data len).val.state = s ∧
      (handleUdp s srcIp buf data len).val.sent = [] := by
  unfold handleUdp
  split
  · exact ⟨rfl, rfl⟩
  · simp only [bind_val]
    split
    · exact ⟨rfl, rfl⟩
    · simp only [bind_val]
      split <;> exact ⟨rfl, rfl⟩

/-- IPv4 packets change nothing and are not answered. -/
theorem handleIpv4_quiet (s : State) (buf : ℕ → UInt8) (data : ℕ) (len : UInt16) :
    (handleIpv4 s buf data len).val.state = s ∧ (handleIpv4 s buf data len).val.sent = [] := by
  unfold handleIpv4
  split
  · exact ⟨rfl, rfl⟩
  · simp only [bind_val]
    split
    · exact ⟨rfl, rfl⟩
    · simp only [bind_val]
      split
      · exact handleUdp_quiet s _ buf _ _
      · exact ⟨rfl, rfl⟩

instance (s : State) (dstIp : UInt32) : Decidable (Accepts s dstIp) :=
  inferInstanceAs (Decidable (_ ∨ _ ∨ _))

/-- A packet for another node is dropped. -/
theorem handleIpv4_of_not_accepts {s : State} {buf : ℕ → UInt8} {len : UInt16} {dstIp : UInt32}
    (hdst : (read32 buf 30).val = dstIp) (h : ¬ Accepts s dstIp) :
    (handleIpv4 s buf 14 len).val.delivery = none := by
  unfold handleIpv4
  split
  · rfl
  · simp only [bind_val, Nat.reduceAdd, hdst]
    unfold Accepts at h
    rw [if_pos (by tauto)]
    rfl

/-- The handler `handle_udp` calls for a port. -/
def State.handlerOf (s : State) (port : UInt16) : Option UInt64 :=
  (Fin.find? fun i => (s.udpHandlers i).handler != 0 && (s.udpHandlers i).port == port).map fun i =>
    (s.udpHandlers i).handler

/-- A datagram reaches the first handler of its port at the nodes it is addressed to. -/
theorem processPacket_datagram {s : State} {buf : ℕ → UInt8} {d : Datagram} {dst mac : Mac}
    {ip : UInt32} {id : UInt16} (hdst : dst.length = 6) (hmac : mac.length = 6)
    (hfits : 42 + d.data.length ≤ sizeofSendBuf) (h : Stored buf 0 (d.frame dst mac ip id)) :
    (processPacket s buf (UInt16.ofNat (42 + d.data.length))).val =
      { state := s.counted
        sent := []
        delivery := if Accepts s d.dstIp then (s.handlerOf d.dstPort).map fun handler =>
          ⟨handler, ip, d.srcPort, 42, UInt16.ofNat d.data.length⟩ else none } ∧
    Stored buf 42 d.data := by
  obtain ⟨hfields, hdata⟩ := udpFields_of_stored hdst hmac h
  unfold sizeofSendBuf at hfits
  have hlen : (UInt16.ofNat (42 + d.data.length)).toNat = 42 + d.data.length := by
    rw [UInt16.toNat_ofNat', Nat.mod_eq_of_lt (by omega)]
  have htotal : d.udpTotal.toNat = 8 + d.data.length := by
    rw [Datagram.udpTotal, (totals_toNat (by omega)).1, Nat.mod_eq_of_lt (by omega)]
  have hpay : d.udpTotal - 8 = UInt16.ofNat d.data.length := by
    rw [Datagram.udpTotal, UInt16.add_comm, UInt16.add_sub_cancel]
  refine ⟨?_, hdata⟩
  have hshort : ¬ (UInt16.ofNat (42 + d.data.length)).toNat < sizeofEthHeader := by
    rw [hlen, sizeofEthHeader]
    omega
  have hval : (processPacket s buf (UInt16.ofNat (42 + d.data.length))).val =
      (handleIpv4 s.counted buf 14 (UInt16.ofNat (42 + d.data.length) - 14)).val := by
    unfold processPacket
    rw [if_neg hshort]
    simp only [bind_val, hfields.ethertype, ntohs_htons, sub16_val]
    rw [if_neg (by decide), if_pos trivial]
    rfl
  have hcall : (processPacket s buf (UInt16.ofNat (42 + d.data.length))).val.delivery =
      if Accepts s d.dstIp then (s.handlerOf d.dstPort).map fun handler =>
        ⟨handler, ip, d.srcPort, 42, UInt16.ofNat d.data.length⟩ else none := by
    by_cases hacc : Accepts s d.dstIp
    · rw [if_pos hacc, processPacket_udp hfields hacc (by omega) (by omega), hpay, State.handlerOf,
        Option.map_map]
      rfl
    · rw [if_neg hacc, hval]
      exact handleIpv4_of_not_accepts hfields.dstIp hacc
  obtain ⟨hstate, hsent⟩ := handleIpv4_quiet s.counted buf 14
    (UInt16.ofNat (42 + d.data.length) - 14)
  rw [← hval] at hstate hsent
  generalize (processPacket s buf (UInt16.ofNat (42 + d.data.length))).val = out at *
  obtain ⟨state, sent, delivery⟩ := out
  dsimp only at hstate hsent hcall
  rw [hstate, hsent, hcall]

/-! ## A buffer with a frame -/

/-- What a frame leaves of a buffer. -/
def bufferOf (f : List UInt8) (stale : ℕ → UInt8) (k : ℕ) : UInt8 := f.getD k (stale k)

theorem stored_bufferOf (f : List UInt8) (stale : ℕ → UInt8) : Stored (bufferOf f stale) 0 f := by
  intro i hi
  simp [bufferOf, hi]

/-- The frame is an ARP packet. -/
def IsArp (f : List UInt8) : Prop := (read16 (bufferOf f fun _ => 0) 12).val = htons 0x0806

instance (f : List UInt8) : Decidable (IsArp f) :=
  inferInstanceAs (Decidable ((read16 (bufferOf f fun _ => 0) 12).val = htons 0x0806))

/-- The datagram in a frame. -/
def datagramOf (f : List UInt8) : Option Datagram :=
  let buf := bufferOf f fun _ => 0
  if (read16 buf 12).val = htons 0x0800 then
    some
      { dstIp := (read32 buf 30).val
        dstPort := ntohs (read16 buf 36).val
        srcPort := ntohs (read16 buf 34).val
        data := f.drop 42 }
  else none

section

variable {dst mac targetMac : Mac} {ip targetIp : UInt32} {oper id : UInt16} {d : Datagram}

theorem length_arpFrame (hdst : dst.length = 6) (hmac : mac.length = 6)
    (htarget : targetMac.length = 6) :
    (arpFrame oper dst mac ip targetMac targetIp).length = 42 := by
  simp only [arpFrame, List.length_append, List.length_cons, List.length_nil, length_bytes16,
    length_bytes32, hdst, hmac, htarget]

theorem isArp_arpFrame (hdst : dst.length = 6) (hmac : mac.length = 6)
    (htarget : targetMac.length = 6) : IsArp (arpFrame oper dst mac ip targetMac targetIp) :=
  (arpFields_of_stored hdst hmac htarget (stored_bufferOf _ _)).1

theorem datagramOf_arpFrame (hdst : dst.length = 6) (hmac : mac.length = 6)
    (htarget : targetMac.length = 6) :
    datagramOf (arpFrame oper dst mac ip targetMac targetIp) = none := by
  have htype := (arpFields_of_stored hdst hmac htarget
    (stored_bufferOf (arpFrame oper dst mac ip targetMac targetIp) fun _ => 0)).1
  unfold datagramOf
  dsimp only
  rw [htype, if_neg (by decide)]

theorem not_isArp_frame (hdst : dst.length = 6) (hmac : mac.length = 6) :
    ¬ IsArp (d.frame dst mac ip id) := by
  have hstored := stored_bufferOf (d.frame dst mac ip id) fun _ => 0
  have htype := (udpFields_of_stored hdst hmac hstored).1.ethertype
  unfold IsArp
  rw [htype]
  decide

theorem datagramOf_frame (hdst : dst.length = 6) (hmac : mac.length = 6) :
    datagramOf (d.frame dst mac ip id) = some d := by
  have hstored := stored_bufferOf (d.frame dst mac ip id) fun _ => 0
  have hfields := (udpFields_of_stored hdst hmac hstored).1
  have hdata : (d.frame dst mac ip id).drop 42 = d.data := by
    simp only [Datagram.frame, ← List.append_assoc]
    apply List.drop_left'
    simp [ipHeader, udpHeader, hdst, hmac]
  unfold datagramOf
  dsimp only
  rw [if_pos hfields.ethertype, hfields.dstIp, hfields.dstPort, hfields.srcPort, ntohs_htons,
    ntohs_htons, hdata]

end

end QuillOS.Network
