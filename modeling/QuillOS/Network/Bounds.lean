import QuillOS.Network.Model

/-!
# Received frames stay inside their bounds

Each layer of `process_packet` reads inside what the layer above left it, except that
`handle_ipv4` takes the header length from the packet. The parse stays inside the frame exactly
when that length does.
-/

namespace QuillOS.Network

open Lib Lib.Traced

/-- `dst` is this node's address or one of the two broadcast addresses. -/
def ForUs (s : State) (dst : UInt32) : Prop :=
  dst = s.ourIp ∨ dst = 0xFFFFFFFF ∨ dst = s.ourIp ||| htonl 0x000000FF

instance (s : State) (dst : UInt32) : Decidable (ForUs s dst) := by
  unfold ForUs; infer_instance

/-- The frame holds an IPv4 header for this node that announces UDP. -/
def ReachesUdp (s : State) (buf : ℕ → UInt8) (len : UInt16) : Prop :=
  sizeofEthHeader + sizeofIpv4Header ≤ len.toNat ∧ ntohs (read16 buf 12).val = 0x0800 ∧
    ForUs s (read32 buf 30).val ∧ buf 23 = 17

instance (s : State) (buf : ℕ → UInt8) (len : UInt16) : Decidable (ReachesUdp s buf len) := by
  unfold ReachesUdp; infer_instance

/-- The header length field of the IPv4 header of the frame, in bytes. -/
def headerLength (buf : ℕ → UInt8) : UInt16 := (buf 14 &&& 0x0F).toUInt16 * 4

/-- The IPv4 header of a UDP frame for this node ends inside the frame. -/
def HeaderFits (s : State) (buf : ℕ → UInt8) (len : UInt16) : Prop :=
  ReachesUdp s buf len → sizeofEthHeader + (headerLength buf).toNat ≤ len.toNat

theorem handleArp_within (s : State) (buf : ℕ → UInt8) (data n : ℕ) (len : UInt16)
    (hlen : data + len.toNat ≤ n) : (handleArp s buf data len).Within n := by
  unfold handleArp sizeofArpPacket
  split
  · exact within_pure _
  · simp only [within_bind, within_read32, within_read16, within_readBytes]
    refine ⟨by omega, by omega, by omega, ?_⟩
    split
    · exact within_pure _
    · simp only [within_bind, within_read32]
      refine ⟨by omega, ?_⟩
      split <;> exact within_pure _

/-- `handle_udp` checks its length against the one it was given. -/
theorem handleUdp_within (s : State) (srcIp : UInt32) (buf : ℕ → UInt8) (data n : ℕ) (len : UInt16)
    (hlen : data + len.toNat ≤ n) : (handleUdp s srcIp buf data len).Within n := by
  unfold handleUdp sizeofUdpHeader
  split
  · exact within_pure _
  simp only [within_bind, within_read16]
  refine ⟨by omega, by omega, by omega, ?_⟩
  generalize ntohs (read16 buf (data + 4)).val = udpLen
  split
  · exact within_pure _
  rename_i hudp
  push Not at hudp
  have hle : udpLen.toNat ≤ len.toNat := UInt16.le_iff_toNat_le.mp (UInt16.not_lt.mp hudp.2)
  have h8 : (8 : UInt16).toNat = 8 := rfl
  simp only [within_bind, within_sub16, sub16_val]
  refine ⟨by omega, ?_⟩
  split
  · exact within_pure _
  · simp only [within_bind, within_touch, within_pure, and_true]
    rw [UInt16.toNat_sub_of_le _ _ (UInt16.le_iff_toNat_le.mpr (by omega))]
    omega

/-- `handle_ipv4` hands on the difference of the two lengths without comparing them. -/
theorem handleIpv4_within (s : State) (buf : ℕ → UInt8) (n : ℕ) (len : UInt16)
    (hlen : sizeofEthHeader + len.toNat = n) :
    (handleIpv4 s buf sizeofEthHeader len).Within n ↔
      (sizeofIpv4Header ≤ len.toNat → ForUs s (read32 buf 30).val → buf 23 = 17 →
        (headerLength buf).toNat ≤ len.toNat) := by
  unfold handleIpv4
  unfold sizeofEthHeader sizeofIpv4Header at *
  split
  · rename_i hshort
    simp only [within_pure, true_iff]
    intro h
    omega
  simp only [within_bind, within_read32]
  rw [and_iff_right (by omega : 14 + 16 + 4 ≤ n)]
  split
  · rename_i hdst
    simp only [within_pure, true_iff]
    rintro - (h | h | h) <;> simp_all
  rename_i hdst
  have hus : ForUs s (read32 buf 30).val := by
    by_contra hno
    simp only [ForUs, not_or] at hno
    exact hdst hno
  simp only [within_bind, within_read8]
  -- The fixed part of the header is inside the frame, whatever its length field says.
  rw [and_iff_right (by omega : 14 + 1 ≤ n), and_iff_right (by omega : 14 + 9 + 1 ≤ n)]
  change (if buf 23 = 17 then _ else _ : Traced Outcome).Within n ↔ _
  split
  · rename_i hproto
    simp only [within_bind, within_read32, within_sub16, sub16_val]
    change _ ∧ (headerLength buf).toNat ≤ len.toNat ∧
      (handleUdp s _ buf (14 + (headerLength buf).toNat) (len - headerLength buf)).Within n ↔ _
    constructor
    · exact fun h _ _ _ => h.2.1
    · intro h
      have hle := h (by omega) hus hproto
      refine ⟨by omega, hle, handleUdp_within _ _ _ _ _ _ ?_⟩
      rw [UInt16.toNat_sub_of_le _ _ (UInt16.le_iff_toNat_le.mpr hle)]
      omega
  · rename_i hproto
    simp only [within_pure, true_iff]
    exact fun _ _ h => absurd h hproto

/-- Every byte that `process_packet` and its handlers read, and every range they hand on, lies in
the frame, and no length wraps, exactly when the frame is not a UDP frame for this node whose IPv4
header length runs past its end. -/
theorem processPacket_within_iff (s : State) (buf : ℕ → UInt8) (len : UInt16) :
    (processPacket s buf len).Within len.toNat ↔ HeaderFits s buf len := by
  unfold processPacket HeaderFits ReachesUdp
  have he : sizeofEthHeader = 14 := rfl
  have hi : sizeofIpv4Header = 20 := rfl
  split
  · rename_i hshort
    simp only [within_pure, true_iff]
    rintro ⟨h, -⟩
    omega
  have h14 : (14 : UInt16).toNat = 14 := rfl
  have hsub : (len - 14).toNat = len.toNat - 14 :=
    UInt16.toNat_sub_of_le _ _ (UInt16.le_iff_toNat_le.mpr (by omega))
  simp only [within_bind, within_read16, within_sub16, sub16_val]
  rw [and_iff_right (by omega : 12 + 2 ≤ len.toNat), and_iff_right (by omega : _ ≤ len.toNat)]
  split
  · rename_i harp
    have hw := handleArp_within { s with pktsRecv := s.pktsRecv + 1 } buf sizeofEthHeader
      len.toNat (len - 14) (by omega)
    simp only [hw, true_iff]
    rintro ⟨-, h, -⟩
    rw [harp] at h
    cases h
  split
  · rename_i hip
    rw [handleIpv4_within _ _ _ _ (by omega : sizeofEthHeader + (len - 14).toNat = len.toNat)]
    constructor
    · rintro h ⟨h34, -, hus, hproto⟩
      have hh := h (by omega) hus hproto
      omega
    · intro h h20 hus hproto
      have hh := h ⟨by omega, hip, hus, hproto⟩
      omega
  · rename_i hip
    simp only [within_pure, true_iff]
    rintro ⟨-, h, -⟩
    exact absurd h hip

/-- A broadcast frame of 34 bytes whose IPv4 header claims to be 60 bytes long. -/
def longHeaderFrame : List UInt8 :=
  [0xFF, 0xFF, 0xFF, 0xFF, 0xFF, 0xFF, 2, 0, 0, 0, 0, 2, 0x08, 0x00,
   0x4F, 0, 0, 20, 0, 1, 0, 0, 64, 17, 0, 0, 10, 0, 0, 2, 255, 255, 255, 255]

/-- As it stands the property fails: `len - hdr_len` wraps and the UDP header is read beyond the
frame. -/
theorem longHeaderFrame_not_within :
    ¬(processPacket (init [2, 0, 0, 0, 0, 1]) (fun i => longHeaderFrame.getD i 0) 34).Within 34 := by
  decide +kernel

end QuillOS.Network
