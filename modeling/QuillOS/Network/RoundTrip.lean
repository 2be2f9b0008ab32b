import QuillOS.Network.Send

/-!
# UDP round trip

The frame `send_udp` builds, read by `process_packet` of another node, gives back the addresses, the
ports and the payload it was built from, whatever follows it in the buffer.
-/

namespace QuillOS.Network

open Lib Lib.Traced

/-! ## Byte order -/

@[simp] theorem ntohs_htons (x : UInt16) : ntohs (htons x) = x := by
  apply UInt16.toBitVec_inj.mp
  change ((x.toBitVec >>> 8 ||| x.toBitVec <<< 8) >>> 8 |||
    (x.toBitVec >>> 8 ||| x.toBitVec <<< 8) <<< 8) = x.toBitVec
  ext i hi
  simp only [BitVec.getElem_or, BitVec.getElem_shiftLeft, BitVec.getElem_ushiftRight,
    BitVec.getLsbD_or, BitVec.getLsbD_shiftLeft, BitVec.getLsbD_ushiftRight]
  grind

/-- The address 10.0.0.`x`. -/
def address (x : UInt8) : UInt32 := htonl (0x0A000000 ||| x.toUInt32)

theorem address_or_broadcast (x : UInt8) : address x ||| htonl 0x000000FF = address 0xFF := by
  have hall : ∀ y : BitVec 8, address ⟨y⟩ ||| htonl 0x000000FF = address 0xFF := by decide +kernel
  exact hall x.toBitVec

/-! ## Handlers -/

/-- The calls of `register_udp_handler` that got a slot. -/
def accepted (calls : List UdpBinding) : List UdpBinding :=
  (calls.filter fun c => c.handler != 0).take maxUdpHandlers

/-- The accepted bindings fill the first slots, in order. -/
structure Holds (t : Handlers) (bs : List UdpBinding) : Prop where
  le : bs.length ≤ maxUdpHandlers
  bound : ∀ i (h : i < bs.length) (h' : i < maxUdpHandlers), t ⟨i, h'⟩ = bs[i]
  free : ∀ i : Fin maxUdpHandlers, bs.length ≤ i → (t i).handler = 0
  used : ∀ c ∈ bs, c.handler ≠ 0

theorem Holds.findFree {t : Handlers} {bs : List UdpBinding} (h : Holds t bs) :
    (∃ i, (Fin.find? fun i => (t i).handler == 0) = some i ∧ i.val = bs.length) ∨
      (Fin.find? fun i => (t i).handler == 0) = none ∧ bs.length = maxUdpHandlers := by
  rcases Nat.lt_or_ge bs.length maxUdpHandlers with hlt | hge
  · left
    refine ⟨⟨bs.length, hlt⟩, Fin.find?_eq_some_iff.mpr ⟨?_, ?_⟩, rfl⟩
    · simpa using h.free ⟨bs.length, hlt⟩ le_rfl
    · intro j hj
      have hj' : j.val < bs.length := hj
      rw [h.bound j hj' j.isLt]
      simpa using h.used _ (List.getElem_mem hj')
  · right
    refine ⟨Fin.find?_eq_none_iff.mpr fun j => ?_, le_antisymm h.le hge⟩
    rw [h.bound j (by omega) j.isLt]
    simpa using h.used _ (List.getElem_mem (by omega))

/-- A binding without a handler leaves its slot free. -/
theorem Holds.register_null {t : Handlers} {bs : List UdpBinding} {c : UdpBinding} (h : Holds t bs)
    (hc : c.handler = 0) : Holds (registerUdpHandler t c) bs := by
  unfold registerUdpHandler
  rcases h.findFree with ⟨i, hi, hlen⟩ | ⟨hnone, -⟩
  · rw [hi]
    refine ⟨h.le, fun j hj hj' => ?_, fun j hj => ?_, h.used⟩
    · have hne : (⟨j, hj'⟩ : Fin maxUdpHandlers) ≠ i := by
        intro heq
        have := congrArg Fin.val heq
        simp only at this
        omega
      exact (Function.update_of_ne hne c t).trans (h.bound j hj hj')
    · by_cases hji : j = i
      · subst hji
        exact (congrArg UdpBinding.handler (Function.update_self j c t)).trans hc
      · exact (congrArg UdpBinding.handler (Function.update_of_ne hji c t)).trans (h.free j hj)
  · rw [hnone]
    exact h

/-- A binding with a handler takes the next slot. -/
theorem Holds.register {t : Handlers} {bs : List UdpBinding} {c : UdpBinding} (h : Holds t bs)
    (hc : c.handler ≠ 0) (hlt : bs.length < maxUdpHandlers) :
    Holds (registerUdpHandler t c) (bs ++ [c]) := by
  unfold registerUdpHandler
  rcases h.findFree with ⟨i, hi, hlen⟩ | ⟨-, hfull⟩
  · rw [hi]
    refine ⟨by simpa using hlt, fun j hj hj' => ?_, fun j hj => ?_, fun b hb => ?_⟩
    · by_cases hji : j = bs.length
      · have hslot : (⟨j, hj'⟩ : Fin maxUdpHandlers) = i := Fin.ext (hji.trans hlen.symm)
        rw [hslot]
        simp [hji]
      · have hlt' : j < bs.length := by
          rw [List.length_append, List.length_singleton] at hj
          omega
        have hne : (⟨j, hj'⟩ : Fin maxUdpHandlers) ≠ i := fun heq =>
          hji ((congrArg Fin.val heq).trans hlen)
        rw [List.getElem_append_left hlt']
        exact (Function.update_of_ne hne c t).trans (h.bound j hlt' hj')
    · rw [List.length_append, List.length_singleton] at hj
      have hne : j ≠ i := by
        rintro rfl
        omega
      exact (congrArg UdpBinding.handler (Function.update_of_ne hne c t)).trans
        (h.free j (by omega))
    · rcases List.mem_append.mp hb with hb | hb
      · exact h.used b hb
      · rwa [List.mem_singleton.mp hb]
  · omega

/-- A full table drops the binding. -/
theorem Holds.register_full {t : Handlers} {bs : List UdpBinding} (h : Holds t bs)
    (hfull : bs.length = maxUdpHandlers) (c : UdpBinding) : registerUdpHandler t c = t := by
  unfold registerUdpHandler
  rcases h.findFree with ⟨i, -, hlen⟩ | ⟨hnone, -⟩
  · have := i.isLt
    omega
  · rw [hnone]

theorem holds_registerAll (calls : List UdpBinding) : Holds (registerAll calls) (accepted calls) := by
  induction calls using List.reverseRecOn with
  | nil =>
    refine ⟨by simp [accepted], fun i h => ?_, fun i _ => rfl, fun c hc => ?_⟩
    · simp [accepted] at h
    · simp [accepted] at hc
  | append_singleton calls c ih =>
    have hstep : registerAll (calls ++ [c]) = registerUdpHandler (registerAll calls) c := by
      simp [registerAll]
    rw [hstep]
    -- A call with a null handler takes no slot, one on a full table is dropped.
    by_cases hc : c.handler = 0
    · have hsame : accepted (calls ++ [c]) = accepted calls := by simp [accepted, hc]
      rw [hsame]
      exact ih.register_null hc
    rcases Nat.lt_or_ge (accepted calls).length maxUdpHandlers with hlt | hge
    · have hnew : accepted (calls ++ [c]) = accepted calls ++ [c] := by
        have hlen : (calls.filter fun c => c.handler != 0).length < maxUdpHandlers := by
          unfold accepted at hlt
          rw [List.length_take] at hlt
          omega
        unfold accepted
        rw [List.filter_append, List.take_of_length_le hlen.le, List.take_of_length_le]
        · simp [hc]
        · simpa [hc] using hlen
      rw [hnew]
      exact ih.register hc hlt
    · have hsame : accepted (calls ++ [c]) = accepted calls := by
        unfold accepted at hge ⊢
        rw [List.length_take] at hge
        rw [List.filter_append, List.take_append_of_le_length (by omega)]
      rw [hsame, ih.register_full (le_antisymm ih.le hge)]
      exact ih

/-- The scan of `handle_udp` finds the first accepted binding of the port. -/
theorem find_registered (calls : List UdpBinding) (port : UInt16) :
    ((Fin.find? fun i => (registerAll calls i).handler != 0 && (registerAll calls i).port == port).map
      fun i => registerAll calls i) = (accepted calls).find? fun c => c.port == port := by
  have hall := holds_registerAll calls
  cases hfind : Fin.find? fun i =>
      (registerAll calls i).handler != 0 && (registerAll calls i).port == port with
  | none =>
    symm
    apply List.find?_eq_none.mpr
    intro c hc
    obtain ⟨i, hi, rfl⟩ := List.mem_iff_getElem.mp hc
    have hlt : i < maxUdpHandlers := hi.trans_le hall.le
    have hno := Fin.find?_eq_none_iff.mp hfind ⟨i, hlt⟩
    rw [hall.bound i hi hlt] at hno
    simpa [hall.used _ (List.getElem_mem hi)] using hno
  | some i =>
    obtain ⟨hi, hbefore⟩ := Fin.find?_eq_some_iff.mp hfind
    have hused : (registerAll calls i).handler ≠ 0 := by
      intro hzero
      simp [hzero] at hi
    have hlt : i.val < (accepted calls).length := by
      by_contra hge
      exact hused (hall.free i (by omega))
    symm
    apply List.find?_eq_some_iff_getElem.mpr
    refine ⟨?_, i.val, hlt, (hall.bound i.val hlt i.isLt).symm, fun j hj => ?_⟩
    · simpa [hused] using hi
    · have hjlt : j < (accepted calls).length := hj.trans hlt
      have hno := hbefore ⟨j, hjlt.trans_le hall.le⟩ hj
      rw [hall.bound j hjlt _] at hno
      simpa [hall.used _ (List.getElem_mem hjlt)] using hno

/-! ## Reading a frame -/

/-- The header fields of a UDP datagram, as they are loaded from the buffer. -/
structure UdpFields (buf : ℕ → UInt8) (srcIp dstIp : UInt32) (srcPort dstPort udpTotal : UInt16) :
    Prop where
  ethertype : (read16 buf 12).val = htons 0x0800
  verIhl : (read8 buf 14).val = 0x45
  protocol : (read8 buf 23).val = 17
  srcIp : (read32 buf 26).val = srcIp
  dstIp : (read32 buf 30).val = dstIp
  srcPort : (read16 buf 34).val = htons srcPort
  dstPort : (read16 buf 36).val = htons dstPort
  length : (read16 buf 38).val = htons udpTotal

@[simp] theorem length_bytes16 (x : UInt16) : (bytes16 x).length = 2 := rfl
@[simp] theorem length_bytes32 (x : UInt32) : (bytes32 x).length = 4 := rfl

/-- A built frame in a buffer shows its fields and its payload. -/
theorem udpFields_of_stored {buf : ℕ → UInt8} {dstMac srcMac : Mac} {ipTotal id checksum : UInt16}
    {srcIp dstIp : UInt32} {srcPort dstPort udpTotal : UInt16} {data : List UInt8}
    (hdst : dstMac.length = 6) (hsrc : srcMac.length = 6)
    (h : Stored buf 0 (dstMac ++ (srcMac ++ (bytes16 (htons 0x0800) ++
      (ipHeader ipTotal id checksum srcIp dstIp ++ (udpHeader srcPort dstPort udpTotal ++ data)))))) :
    UdpFields buf srcIp dstIp srcPort dstPort udpTotal ∧ Stored buf 42 data := by
  simp only [ipHeader, udpHeader, stored_append, hdst, hsrc, length_bytes16, length_bytes32,
    List.length_append, List.length_cons, List.length_nil, Nat.zero_add, Nat.reduceAdd] at h
  obtain ⟨-, -, htype, ⟨hver, -, -, -, hproto, -, hsip, hdip⟩, ⟨hsport, hdport, hlen, -⟩, hdata⟩ := h
  exact ⟨⟨htype.word16, hver.byte, hproto.tail.byte, hsip.word32, hdip.word32, hsport.word16,
    hdport.word16, hlen.word16⟩, hdata⟩

/-- The frame is for this node or a broadcast. -/
def Accepts (s : State) (dstIp : UInt32) : Prop :=
  dstIp = s.ourIp ∨ dstIp = 0xFFFFFFFF ∨ dstIp = s.ourIp ||| htonl 0x000000FF

/-- The call `handle_udp` makes for a datagram that lies inside its packet. -/
theorem handleUdp_val {s : State} {buf : ℕ → UInt8} {len : UInt16} {srcIp dstIp : UInt32}
    {srcPort dstPort udpTotal : UInt16} (h : UdpFields buf srcIp dstIp srcPort dstPort udpTotal)
    (hlo : 8 ≤ udpTotal.toNat) (hhi : udpTotal.toNat ≤ len.toNat) :
    (handleUdp s srcIp buf 34 len).val.delivery =
      (Fin.find? fun i =>
        (s.udpHandlers i).handler != 0 && (s.udpHandlers i).port == dstPort).map fun i =>
          ⟨(s.udpHandlers i).handler, srcIp, srcPort, 42, udpTotal - 8⟩ := by
  have hshort : ¬ len.toNat < sizeofUdpHeader := by
    unfold sizeofUdpHeader
    omega
  have hfits : ¬ (udpTotal.toNat < sizeofUdpHeader ∨ udpTotal > len) := by
    rw [not_or, gt_iff_lt, UInt16.lt_iff_toNat_lt]
    unfold sizeofUdpHeader
    omega
  unfold handleUdp
  rw [if_neg hshort]
  simp only [bind_val, h.srcPort, h.dstPort, h.length, ntohs_htons]
  rw [if_neg hfits]
  simp only [bind_val, sub16_val]
  split
  next hnone =>
    rw [hnone]
    rfl
  next i hi =>
    rw [hi]
    rfl

theorem handleIpv4_val {s : State} {buf : ℕ → UInt8} {len : UInt16} {srcIp dstIp : UInt32}
    {srcPort dstPort udpTotal : UInt16} (h : UdpFields buf srcIp dstIp srcPort dstPort udpTotal)
    (hdst : Accepts s dstIp) (hlen : 20 ≤ len.toNat) :
    (handleIpv4 s buf 14 len).val = (handleUdp s srcIp buf 34 (len - 20)).val := by
  have hshort : ¬ len.toNat < sizeofIpv4Header := by
    unfold sizeofIpv4Header
    omega
  have hours : ¬ (dstIp ≠ s.ourIp ∧ dstIp ≠ 0xFFFFFFFF ∧
      dstIp ≠ s.ourIp ||| htonl 0x000000FF) := by
    unfold Accepts at hdst
    tauto
  unfold handleIpv4
  rw [if_neg hshort]
  simp only [bind_val, h.dstIp]
  rw [if_neg hours]
  simp only [bind_val, h.verIhl, h.protocol]
  rw [if_pos trivial]
  simp only [bind_val, h.srcIp, sub16_val]
  rfl

/-- A datagram that is addressed to the node and lies inside the frame reaches the first handler of
its port. -/
theorem processPacket_udp {s : State} {buf : ℕ → UInt8} {len : UInt16} {srcIp dstIp : UInt32}
    {srcPort dstPort udpTotal : UInt16} (h : UdpFields buf srcIp dstIp srcPort dstPort udpTotal)
    (hdst : Accepts s dstIp) (hlo : 8 ≤ udpTotal.toNat) (hhi : 34 + udpTotal.toNat ≤ len.toNat) :
    (processPacket s buf len).val.delivery =
      (Fin.find? fun i =>
        (s.udpHandlers i).handler != 0 && (s.udpHandlers i).port == dstPort).map fun i =>
          ⟨(s.udpHandlers i).handler, srcIp, srcPort, 42, udpTotal - 8⟩ := by
  have hshort : ¬ len.toNat < sizeofEthHeader := by
    unfold sizeofEthHeader
    omega
  have hip : (len - 14).toNat = len.toNat - 14 := by
    have hle : (14 : UInt16) ≤ len := UInt16.le_iff_toNat_le.mpr (by change 14 ≤ _; omega)
    rw [UInt16.toNat_sub_of_le _ _ hle]
    rfl
  have hudp : (len - 14 - 20).toNat = len.toNat - 34 := by
    have hle : (20 : UInt16) ≤ len - 14 := UInt16.le_iff_toNat_le.mpr (by change 20 ≤ _; omega)
    rw [UInt16.toNat_sub_of_le _ _ hle, hip]
    change len.toNat - 14 - 20 = len.toNat - 34
    omega
  unfold processPacket
  rw [if_neg hshort]
  simp only [bind_val, h.ethertype, ntohs_htons, sub16_val]
  rw [if_neg (by decide), if_pos trivial]
  have hip_val := handleIpv4_val (s := { s with pktsRecv := s.pktsRecv + 1 }) h hdst
    (show 20 ≤ (len - 14).toNat by omega)
  exact (congrArg Outcome.delivery hip_val).trans (handleUdp_val h hlo (by omega))

/-! ## Round trip -/

/-- Nodes of the network 10.0.0.0/24. -/
def InNetwork (s : State) : Prop := ∃ x, s.ourIp = address x

/-- Where a datagram for the node `b` may be sent from `a`: to its address, once that is in the
ARP cache, or to one of the broadcast addresses. -/
def Reaches (a : Node) (b : State) (dstIp : UInt32) : Prop :=
  (dstIp = b.ourIp ∧ (arpLookup a.toState dstIp).isSome) ∨ dstIp = address 0xFF ∨
    dstIp = 0xFFFFFFFF

theorem Reaches.accepts {a : Node} {b : State} {dstIp : UInt32} (h : Reaches a b dstIp)
    (hb : InNetwork b) : Accepts b dstIp := by
  obtain ⟨x, hx⟩ := hb
  rcases h with ⟨rfl, -⟩ | rfl | rfl
  · exact .inl rfl
  · right
    right
    rw [hx, address_or_broadcast]
  · exact .inr (.inl rfl)

/-- `send_udp` has a hardware address for the destination. -/
theorem Reaches.known {a : Node} {b : State} {dstIp : UInt32} (h : Reaches a b dstIp)
    (ha : InNetwork a.toState) :
    isBroadcast a.toState dstIp = true ∨ (arpLookup a.toState dstIp).isSome := by
  obtain ⟨x, hx⟩ := ha
  rcases h with ⟨-, hfound⟩ | rfl | rfl
  · exact .inr hfound
  · left
    rw [isBroadcast, hx, address_or_broadcast]
    simp
  · left
    simp [isBroadcast]

/-- A datagram of at most 1472 bytes sent on the network is handed to the card as one frame, and the
frame, with whatever comes after it, makes the receiver call the first handler registered for the
port, with the sender's address, its port and the payload. -/
theorem udp_round_trip (a : Node) (b : State) (calls : List UdpBinding) (dstIp : UInt32)
    (dstPort srcPort : UInt16) (data : List UInt8) (ha : InNetwork a.toState) (hb : InNetwork b)
    (hready : a.netReady = true) (hcalls : b.udpHandlers = registerAll calls)
    (hdst : Reaches a b dstIp) (hdata : data.length ≤ 1472) :
    ∃ sending frame, sendUdp a dstIp dstPort srcPort data = some sending ∧
      sending.sent = [frame] ∧ sending.datagram = some frame ∧
      ∀ buf len, Stored buf 0 frame → frame.length ≤ len.toNat →
        (processPacket b buf len).val.delivery =
          ((accepted calls).find? fun c => c.port == dstPort).map (fun c =>
            ⟨c.handler, a.ourIp, srcPort, 42, UInt16.ofNat data.length⟩) ∧
        Stored buf 42 data := by
  obtain ⟨mac, hmac, hsend⟩ := sendUdp_of_known hready (hdst.known ha) dstPort srcPort data
  obtain ⟨hudp, -, htotal⟩ := totals_toNat (show data.length < 2 ^ 16 by omega)
  rw [Nat.mod_eq_of_lt (by omega)] at hudp htotal
  -- The headers take 42 bytes, and 1472 more still fit into the buffer.
  have hfits : ¬ 42 + data.length > sizeofSendBuf := by
    unfold sizeofSendBuf
    omega
  rw [hsend]
  unfold buildUdp
  dsimp only
  rw [htotal, if_neg hfits, if_neg hfits]
  refine ⟨_, _, rfl, rfl, rfl, fun buf len hstored hle => ?_⟩
  obtain ⟨hfields, hpayload⟩ := udpFields_of_stored hmac a.mac_length hstored
  have hframe : 42 + data.length ≤ len.toNat := by
    refine le_trans (le_of_eq ?_) hle
    simp [ipHeader, udpHeader, hmac, a.mac_length]
    omega
  -- The receiver takes the length from the UDP header, so padding does not matter.
  refine ⟨?_, hpayload⟩
  rw [processPacket_udp hfields (hdst.accepts hb) (by omega) (by omega), hcalls,
    ← find_registered calls dstPort, Option.map_map]
  have hpay : 8 + UInt16.ofNat data.length - 8 = UInt16.ofNat data.length := by
    rw [UInt16.add_comm, UInt16.add_sub_cancel]
  rw [hpay]
  rfl

/-- The node 10.0.0.1, which knows the hardware address of 10.0.0.2. -/
def firstNode : Node where
  ourMac := [2, 0, 0, 0, 0, 1]
  ourIp := address 1
  pktsRecv := 0
  arpTable := Function.update (fun _ => { ip := 0, mac := [0, 0, 0, 0, 0, 0], valid := false }) 0
    { ip := address 2, mac := [2, 0, 0, 0, 0, 2], valid := true }
  udpHandlers _ := { port := 0, handler := 0 }
  netReady := true
  pktsSent := 0
  ipId := 1
  mac_length := rfl
  arp_length := by decide

/-- The node 10.0.0.2, with a handler on port 9000. -/
def secondNode : State :=
  { init [2, 0, 0, 0, 0, 2] with udpHandlers := registerAll [{ port := 9000, handler := 64 }] }

theorem udp_round_trip_nodes : ∃ sending frame,
    sendUdp firstNode (address 2) 9000 9001 [1, 2, 3] = some sending ∧ sending.sent = [frame] ∧
      sending.datagram = some frame ∧
      ∀ buf len, Stored buf 0 frame → frame.length ≤ len.toNat →
        (processPacket secondNode buf len).val.delivery =
          ((accepted [{ port := 9000, handler := 64 }]).find? fun c => c.port == 9000).map (fun c =>
            ⟨c.handler, firstNode.ourIp, 9001, 42, 3⟩) ∧
        Stored buf 42 [1, 2, 3] :=
  udp_round_trip firstNode secondNode [{ port := 9000, handler := 64 }] (address 2) 9000 9001 [1, 2, 3]
    ⟨1, rfl⟩ ⟨2, rfl⟩ rfl rfl (.inl ⟨by decide, by decide⟩) (by decide)

end QuillOS.Network
