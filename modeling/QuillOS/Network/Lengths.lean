import QuillOS.Network.RoundTrip

/-!
# The lengths of a datagram

`send_udp` adds up the sizes of the headers and the payload in 16 bits before it compares the total
with `send_buf`. For the longest payloads the total wraps and passes the check.
-/

namespace QuillOS.Network

open Lib Lib.Traced

/-- The destination is a broadcast, or its hardware address is in the ARP cache. -/
def KnownMac (s : State) (dstIp : UInt32) : Prop :=
  isBroadcast s dstIp = true ∨ (arpLookup s dstIp).isSome = true

/-- The two length fields of a frame in a buffer, as numbers. -/
def LengthFields (frame : List UInt8) (udpLength ipLength : ℕ) : Prop :=
  ∀ buf, Stored buf 0 frame →
    (ntohs (read16 buf 38).val).toNat = udpLength ∧ (ntohs (read16 buf 16).val).toNat = ipLength

/-- `send_udp` stays inside `send_buf`, and the frame it builds, if any, has the right lengths. -/
def SizeChecked (s : Node) (dstIp : UInt32) (dstPort srcPort : UInt16) (data : List UInt8) : Prop :=
  ∃ sending, sendUdp s dstIp dstPort srcPort data = some sending ∧
    ∀ frame, sending.datagram = some frame →
      frame.length ≤ sizeofSendBuf ∧ LengthFields frame (8 + data.length) (28 + data.length)

/-- The length fields are where a receiver looks for them. -/
theorem lengthFields_of_frame {dstMac srcMac : Mac} {ipTotal id checksum : UInt16}
    {srcIp dstIp : UInt32} {srcPort dstPort udpTotal : UInt16} {data : List UInt8}
    (hdst : dstMac.length = 6) (hsrc : srcMac.length = 6) :
    LengthFields (dstMac ++ (srcMac ++ (bytes16 (htons 0x0800) ++
      (ipHeader ipTotal id checksum srcIp dstIp ++ (udpHeader srcPort dstPort udpTotal ++ data)))))
      udpTotal.toNat ipTotal.toNat := by
  intro buf h
  refine ⟨?_, ?_⟩
  · rw [(udpFields_of_stored hdst hsrc h).1.length, ntohs_htons]
  · simp only [ipHeader, stored_append, hdst, hsrc, length_bytes16, List.length_cons,
      List.length_nil, Nat.zero_add, Nat.reduceAdd] at h
    obtain ⟨-, -, -, ⟨-, htotal, -⟩, -⟩ := h
    rw [htotal.word16, ntohs_htons]

theorem buildUdp_checked_iff {s : Node} {mac : Mac} (hmac : mac.length = 6) (dstIp : UInt32)
    (dstPort srcPort : UInt16) {data : List UInt8} (hlen : data.length < 2 ^ 16) :
    (∃ sending, buildUdp s mac dstIp dstPort srcPort data = some sending ∧
      ∀ frame, sending.datagram = some frame →
        frame.length ≤ sizeofSendBuf ∧ LengthFields frame (8 + data.length) (28 + data.length)) ↔
      data.length < 2 ^ 16 - 42 := by
  obtain ⟨hudp, hip, htotal⟩ := totals_toNat hlen
  unfold buildUdp
  dsimp only
  rw [htotal]
  constructor
  · rintro ⟨sending, hsend, -⟩
    by_contra hlong
    -- The wrapped total is small, and the payload is not.
    rw [if_neg (by unfold sizeofSendBuf; omega), if_pos (by unfold sizeofSendBuf; omega)] at hsend
    cases hsend
  · intro hfits
    rw [Nat.mod_eq_of_lt (by omega)]
    by_cases hbig : 42 + data.length > sizeofSendBuf
    · rw [if_pos hbig]
      exact ⟨_, rfl, fun frame hframe => nomatch hframe⟩
    · rw [if_neg hbig, if_neg hbig]
      refine ⟨_, rfl, fun frame hframe => ?_⟩
      obtain rfl := Option.some.inj hframe
      refine ⟨?_, ?_⟩
      · refine le_trans (le_of_eq ?_) (Nat.not_lt.mp hbig)
        simp [ipHeader, udpHeader, hmac, s.mac_length]
        omega
      · rw [← Nat.mod_eq_of_lt (show 8 + data.length < 2 ^ 16 by omega), ← hudp,
          ← Nat.mod_eq_of_lt (show 28 + data.length < 2 ^ 16 by omega), ← hip]
        exact lengthFields_of_frame hmac s.mac_length

theorem sizeChecked_iff {s : Node} {dstIp : UInt32} (hready : s.netReady = true)
    (hknown : KnownMac s.toState dstIp) (dstPort srcPort : UInt16) {data : List UInt8}
    (hlen : data.length < 2 ^ 16) :
    SizeChecked s dstIp dstPort srcPort data ↔ data.length < 2 ^ 16 - 42 := by
  obtain ⟨mac, hmac, hsend⟩ := sendUdp_of_known hready hknown dstPort srcPort data
  unfold SizeChecked
  rw [hsend, buildUdp_checked_iff hmac dstIp dstPort srcPort hlen]

/-- For a destination with a known hardware address, the size check does its work exactly for the
payloads whose frame is shorter than `2^16` bytes. -/
theorem send_udp_size_iff (s : Node) (dstIp : UInt32) (dstPort srcPort : UInt16)
    (data : List UInt8) (hknown : KnownMac s.toState dstIp) (hlen : data.length < 2 ^ 16) :
    SizeChecked s dstIp dstPort srcPort data ↔
      (s.netReady = true → data.length < 2 ^ 16 - 42) := by
  by_cases hready : s.netReady = true
  · rw [sizeChecked_iff hready hknown dstPort srcPort hlen]
    exact ⟨fun h _ => h, fun h => h hready⟩
  · refine ⟨fun _ h => absurd h hready, fun _ => ?_⟩
    unfold SizeChecked sendUdp
    rw [if_pos (by simpa using hready)]
    exact ⟨_, rfl, fun frame hframe => nomatch hframe⟩

theorem firstNode_knownMac : KnownMac firstNode.toState (address 2) := .inr (by decide)

theorem send_udp_size_iff_firstNode :
    SizeChecked firstNode (address 2) 9000 9001 [1, 2, 3] ↔
      (firstNode.netReady = true → 3 < 2 ^ 16 - 42) :=
  send_udp_size_iff firstNode (address 2) 9000 9001 [1, 2, 3] firstNode_knownMac (by decide)

/-- A payload of the greatest length passes the check and runs over the end of `send_buf`. -/
theorem send_udp_longest_payload :
    KnownMac firstNode.toState (address 2) ∧ (List.replicate 65535 (0 : UInt8)).length < 2 ^ 16 ∧
      ¬SizeChecked firstNode (address 2) 9000 9001 (List.replicate 65535 0) := by
  have hlen : (List.replicate 65535 (0 : UInt8)).length = 65535 := List.length_replicate
  refine ⟨firstNode_knownMac, by omega, ?_⟩
  rw [sizeChecked_iff rfl firstNode_knownMac 9000 9001 (by omega), hlen]
  decide

end QuillOS.Network
