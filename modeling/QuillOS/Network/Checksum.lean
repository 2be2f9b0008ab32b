import QuillOS.Lib.OnesComplement
import QuillOS.Network.RoundTrip

/-!
# The checksum

`ip_checksum` adds up the words of a buffer as the machine loads them, with the low byte first, and
folds the sum afterwards. It is the complement of the one's complement sum of the words, and so is
what a receiver expects that adds up the words in network order.
-/

namespace QuillOS.Network

open Lib

variable {data : List UInt8} {sum : UInt32} {i : ℕ}

/-- The words of a buffer as they are loaded. -/
def words : List UInt8 → List ℕ
  | lo :: hi :: rest => (lo.toNat + 256 * hi.toNat) :: words rest
  | [b] => [b.toNat]
  | [] => []

/-- The words in network order. -/
def networkWords : List UInt8 → List ℕ
  | hi :: lo :: rest => (256 * hi.toNat + lo.toNat) :: networkWords rest
  | [b] => [256 * b.toNat]
  | [] => []

/-- What a receiver checks: the one's complement sum of the words of a header is all ones. -/
def Verifies (header : List UInt8) : Prop :=
  OnesComplement.sum 0xFFFF (networkWords header) = 0xFFFF

/-- Stores a word in the field at offset `2 * i`. -/
def setWord (data : List UInt8) (i : ℕ) (x : UInt16) : List UInt8 :=
  (data.set (2 * i) x.toUInt8).set (2 * i + 1) (x >>> 8).toUInt8

/-! ## The accumulator -/

theorem words_le (data : List UInt8) : ∀ w ∈ words data, w ≤ 0xFFFF := by
  fun_induction words data with
  | case1 lo hi rest ih =>
    have hlo := lo.toNat_lt
    have hhi := hi.toNat_lt
    rw [List.forall_mem_cons]
    exact ⟨by omega, ih⟩
  | case2 b =>
    have hb := b.toNat_lt
    rw [List.forall_mem_singleton]
    omega
  | case3 => exact List.forall_mem_nil _

theorem networkWords_le (data : List UInt8) : ∀ w ∈ networkWords data, w ≤ 0xFFFF := by
  fun_induction networkWords data with
  | case1 hi lo rest ih =>
    have hlo := lo.toNat_lt
    have hhi := hi.toNat_lt
    rw [List.forall_mem_cons]
    exact ⟨by omega, ih⟩
  | case2 b =>
    have hb := b.toNat_lt
    rw [List.forall_mem_singleton]
    omega
  | case3 => exact List.forall_mem_nil _

theorem length_words (data : List UInt8) : (words data).length = (data.length + 1) / 2 := by
  fun_induction words data with
  | case1 lo hi rest ih =>
    simp only [List.length_cons]
    omega
  | case2 b => simp
  | case3 => rfl

/-- The words of fewer than `2^17` bytes add up to less than `2^32`. -/
theorem sum_words_lt (hlen : data.length < 2 ^ 17) : (words data).sum < 2 ^ 32 := by
  have hsum := List.sum_le_card_nsmul (words data) 0xFFFF (words_le data)
  have hcount := length_words data
  rw [smul_eq_mul] at hsum
  calc (words data).sum ≤ (words data).length * 0xFFFF := hsum
    _ ≤ 2 ^ 16 * 0xFFFF := Nat.mul_le_mul_right _ (by omega)
    _ < 2 ^ 32 := by norm_num

/-- The accumulator holds the exact sum as long as that fits. -/
theorem toNat_addWords (hfits : sum.toNat + (words data).sum < 2 ^ 32) :
    (addWords sum data).toNat = sum.toNat + (words data).sum := by
  fun_induction addWords sum data with
  | case1 sum lo hi rest ih =>
    have hword : (lo.toUInt16 ||| hi.toUInt16 <<< 8).toUInt32.toNat = lo.toNat + 256 * hi.toNat := by
      rw [UInt16.toNat_toUInt32, toNat_word16]
    rw [words, List.sum_cons] at hfits ⊢
    have hstep : (sum + (lo.toUInt16 ||| hi.toUInt16 <<< 8).toUInt32).toNat =
        sum.toNat + (lo.toNat + 256 * hi.toNat) := by
      rw [UInt32.toNat_add, hword, Nat.mod_eq_of_lt (by omega)]
    rw [ih (by omega), hstep]
    omega
  | case2 sum b =>
    rw [words, List.sum_singleton] at hfits ⊢
    rw [UInt32.toNat_add, UInt8.toNat_toUInt32, Nat.mod_eq_of_lt hfits]
  | case3 sum => rfl

theorem toNat_addWords_zero (hlen : data.length < 2 ^ 17) :
    (addWords 0 data).toNat = (words data).sum := by
  have hfits := sum_words_lt hlen
  rw [toNat_addWords]
  · exact Nat.zero_add _
  · rw [UInt32.toNat_zero]
    omega

/-! ## The folding loop -/

theorem foldCarry_of_lt (h : sum.toNat < 2 ^ 16) : foldCarry sum = sum := by
  rw [foldCarry, if_pos ((carry_eq_zero_iff sum).mpr h)]

theorem foldTurn_of_lt (h : sum.toNat < 2 ^ 16) : foldTurn sum = sum := by
  rw [← UInt32.toNat_inj, toNat_foldTurn]
  omega

theorem foldCarry_foldTurn (sum : UInt32) : foldCarry (foldTurn sum) = foldCarry sum := by
  by_cases h : sum.toNat < 2 ^ 16
  · rw [foldTurn_of_lt h]
  · rw [foldCarry.eq_def sum, if_neg (mt (carry_eq_zero_iff sum).mp h)]

/-- Two turns leave no carry. -/
theorem foldTurn_twice_lt (sum : UInt32) : (foldTurn (foldTurn sum)).toNat < 2 ^ 16 := by
  have hlt := sum.toNat_lt
  rw [toNat_foldTurn, toNat_foldTurn]
  omega

theorem foldCarry_eq (sum : UInt32) : foldCarry sum = foldTurn (foldTurn sum) := by
  rw [← foldCarry_foldTurn, ← foldCarry_foldTurn, foldCarry_of_lt (foldTurn_twice_lt sum)]

theorem toNat_foldCarry (sum : UInt32) :
    (foldCarry sum).toNat = OnesComplement.residue 0xFFFF sum.toNat := by
  have hturn (s : UInt32) : OnesComplement.residue 0xFFFF (foldTurn s).toNat =
      OnesComplement.residue 0xFFFF s.toNat := by
    rw [toNat_foldTurn]
    exact OnesComplement.residue_carry (by decide) _
  have hlow := foldTurn_twice_lt sum
  rw [← hturn, ← hturn, OnesComplement.residue_of_le (by omega), foldCarry_eq]

/-! ## The checksum -/

theorem toNat_ipChecksum (hlen : data.length < 2 ^ 17) :
    (ipChecksum data).toNat = 0xFFFF - OnesComplement.residue 0xFFFF (words data).sum := by
  have hle := OnesComplement.residue_le (m := 0xFFFF) (by decide) (words data).sum
  unfold ipChecksum
  rw [UInt16.toNat_not, UInt32.toNat_toUInt16, toNat_foldCarry, toNat_addWords_zero hlen,
    Nat.mod_eq_of_lt (by omega)]
  rfl

theorem ipChecksum_eq_zero_iff (hlen : data.length < 2 ^ 17) :
    ipChecksum data = 0 ↔ OnesComplement.residue 0xFFFF (words data).sum = 0xFFFF := by
  have hle := OnesComplement.residue_le (m := 0xFFFF) (by decide) (words data).sum
  rw [← UInt16.toNat_inj, toNat_ipChecksum hlen, UInt16.toNat_zero]
  omega

/-! ## The field -/

theorem toNat_bytes (x : UInt16) : x.toUInt8.toNat + 256 * (x >>> 8).toUInt8.toNat = x.toNat := by
  have hlt := x.toNat_lt
  have hhigh : (x >>> 8).toNat = x.toNat / 2 ^ 8 := by
    rw [UInt16.toNat_shiftRight]
    exact Nat.shiftRight_eq_div_pow _ 8
  rw [UInt16.toNat_toUInt8, UInt16.toNat_toUInt8, hhigh]
  omega

@[simp] theorem length_setWord (data : List UInt8) (i : ℕ) (x : UInt16) :
    (setWord data i x).length = data.length := by
  unfold setWord
  rw [List.length_set, List.length_set]

/-- A field adds its value to the sum. -/
theorem sum_setWord {data : List UInt8} {i : ℕ} (hfield : 2 * i + 1 < data.length) (x : UInt16) :
    (words (setWord data i x)).sum = (words (setWord data i 0)).sum + x.toNat := by
  match data, i, hfield with
  | lo :: hi :: rest, 0, _ =>
    change (words (x.toUInt8 :: (x >>> 8).toUInt8 :: rest)).sum = (words (0 :: 0 :: rest)).sum + x.toNat
    rw [words, words, List.sum_cons, List.sum_cons, toNat_bytes x, UInt8.toNat_zero]
    omega
  | lo :: hi :: rest, i + 1, hfield =>
    simp only [List.length_cons] at hfield
    change (words (lo :: hi :: setWord rest i x)).sum =
      (words (lo :: hi :: setWord rest i 0)).sum + x.toNat
    have hrest : (words (setWord rest i x)).sum = (words (setWord rest i 0)).sum + x.toNat :=
      sum_setWord (by omega) x
    rw [words, words, List.sum_cons, List.sum_cons, hrest]
    omega

/-- The checksum in its field makes the words come to all ones. -/
theorem residue_setWord (hlen : data.length < 2 ^ 17) (hfield : 2 * i + 1 < data.length) :
    OnesComplement.residue 0xFFFF
      (words (setWord data i (ipChecksum (setWord data i 0)))).sum = 0xFFFF := by
  rw [sum_setWord hfield, toNat_ipChecksum (by rwa [length_setWord])]
  exact OnesComplement.residue_complement (by decide) _

/-! ## The receiver -/

/-- Loading a word the other way round multiplies it by `2^8`, modulo all ones. -/
theorem sum_networkWords (data : List UInt8) :
    256 * (words data).sum ≡ (networkWords data).sum [MOD 0xFFFF] := by
  fun_induction words data with
  | case1 lo hi rest ih =>
    rw [networkWords, List.sum_cons, List.sum_cons, Nat.mul_add]
    apply Nat.ModEq.add _ ih
    calc 256 * (lo.toNat + 256 * hi.toNat) = 256 * lo.toNat + hi.toNat + 0xFFFF * hi.toNat := by ring
      _ ≡ 256 * lo.toNat + hi.toNat [MOD 0xFFFF] := by
        rw [Nat.ModEq, Nat.add_mul_mod_self_left]
  | case2 b => rfl
  | case3 => rfl

theorem sum_words_eq_zero_iff (data : List UInt8) :
    (words data).sum = 0 ↔ (networkWords data).sum = 0 := by
  fun_induction words data with
  | case1 lo hi rest ih =>
    rw [networkWords, List.sum_cons, List.sum_cons]
    omega
  | case2 b =>
    rw [networkWords, List.sum_singleton, List.sum_singleton]
    omega
  | case3 => rfl

/-- A receiver of the other byte order comes to the same verdict. -/
theorem verifies_iff (data : List UInt8) :
    Verifies data ↔ OnesComplement.residue 0xFFFF (words data).sum = 0xFFFF := by
  unfold Verifies
  rw [OnesComplement.sum_eq (by decide) (networkWords_le data)]
  exact (OnesComplement.residue_eq_top_congr (by decide) (by decide) (sum_networkWords data)
    (sum_words_eq_zero_iff data)).symm

theorem ipHeader_eq (ipTotal id checksum : UInt16) (srcIp dstIp : UInt32) :
    ipHeader ipTotal id checksum srcIp dstIp =
      setWord (ipHeader ipTotal id 0 srcIp dstIp) 5 checksum := rfl

/-- The header of a datagram is where a receiver looks for it, with its checksum in the sixth word. -/
theorem buildUdp_header {s : Node} {mac : Mac} {dstIp : UInt32} {dstPort srcPort : UInt16}
    {sending : Sending} {frame : List UInt8} (hmac : mac.length = 6)
    (hsend : buildUdp s mac dstIp dstPort srcPort data = some sending)
    (hframe : sending.datagram = some frame) :
    ∃ header : List UInt8, header.length = 20 ∧ setWord header 5 0 = header ∧
      (frame.drop 14).take 20 = setWord header 5 (ipChecksum header) := by
  unfold buildUdp at hsend
  dsimp only at hsend
  split_ifs at hsend
  · obtain rfl := Option.some.inj hsend
    cases hframe
  · obtain rfl := Option.some.inj hsend
    obtain rfl := Option.some.inj hframe
    refine ⟨ipHeader (20 + (8 + UInt16.ofNat data.length)) s.ipId 0 s.ourIp dstIp, rfl, rfl, ?_⟩
    rw [← ipHeader_eq, ← List.append_assoc, ← List.append_assoc, List.drop_left', List.take_left']
    · rfl
    · simp [hmac, s.mac_length]

/-- A frame that `send_udp` sends as a datagram is built for some hardware address. -/
theorem sendUdp_built {s : Node} {dstIp : UInt32} {dstPort srcPort : UInt16} {sending : Sending}
    {frame : List UInt8} (hsend : sendUdp s dstIp dstPort srcPort data = some sending)
    (hframe : sending.datagram = some frame) :
    ∃ mac : Mac, mac.length = 6 ∧ buildUdp s mac dstIp dstPort srcPort data = some sending := by
  by_cases hknown : s.netReady = true ∧
      (isBroadcast s.toState dstIp = true ∨ (arpLookup s.toState dstIp).isSome)
  · obtain ⟨mac, hmac, hbuilt⟩ := sendUdp_of_known hknown.1 hknown.2 dstPort srcPort data
    exact ⟨mac, hmac, hbuilt.symm.trans hsend⟩
  · obtain ⟨other, hother, hnone⟩ := sendUdp_of_unknown hknown dstPort srcPort data
    obtain rfl := Option.some.inj (hother.symm.trans hsend)
    rw [hnone] at hframe
    cases hframe

/-- Below 131072 bytes the accumulator of `ip_checksum` never wraps and two turns fold it; with the
checksum stored in any field that was zero before, the checksum of the whole is zero; and a receiver
accepts the header of every datagram of `send_udp`. -/
theorem ip_checksum_verifies :
    (∀ (data : List UInt8) (i : ℕ), data.length < 131072 → 2 * i + 1 < data.length →
      (∀ k, (addWords 0 (data.take k)).toNat = (words (data.take k)).sum) ∧
        foldTurn (foldTurn (addWords 0 data)) >>> 16 = 0 ∧
        ipChecksum (setWord data i (ipChecksum (setWord data i 0))) = 0) ∧
      ∀ (s : Node) (dstIp : UInt32) (dstPort srcPort : UInt16) (data : List UInt8)
        (sending : Sending) (frame : List UInt8),
        sendUdp s dstIp dstPort srcPort data = some sending → sending.datagram = some frame →
          Verifies ((frame.drop 14).take 20) := by
  constructor
  · intro data i hlen hfield
    refine ⟨fun k => toNat_addWords_zero ?_, ?_, ?_⟩
    · rw [List.length_take]
      omega
    · exact (carry_eq_zero_iff _).mpr (foldTurn_twice_lt _)
    · exact (ipChecksum_eq_zero_iff (by rwa [length_setWord])).mpr (residue_setWord hlen hfield)
  · intro s dstIp dstPort srcPort data sending frame hsend hframe
    obtain ⟨mac, hmac, hbuilt⟩ := sendUdp_built hsend hframe
    obtain ⟨header, hlen, hzero, hheader⟩ := buildUdp_header hmac hbuilt hframe
    have hresidue := residue_setWord (show header.length < 2 ^ 17 by omega)
      (show 2 * 5 + 1 < header.length by omega)
    rw [hzero] at hresidue
    rw [hheader]
    exact (verifies_iff _).mpr hresidue

/-- A header of which every byte is zero, the case of the other zero, and a datagram. -/
theorem ip_checksum_verifies_firstNode :
    ipChecksum (setWord (List.replicate 20 0) 5 (ipChecksum (setWord (List.replicate 20 0) 5 0))) = 0 ∧
      ∃ sending frame, sendUdp firstNode (address 2) 9000 9001 [1, 2, 3] = some sending ∧
        sending.datagram = some frame ∧ Verifies ((frame.drop 14).take 20) :=
  ⟨(ip_checksum_verifies.1 (List.replicate 20 0) 5 (by decide) (by decide)).2.2, _, _, rfl, rfl,
    ip_checksum_verifies.2 firstNode (address 2) 9000 9001 [1, 2, 3] _ _ rfl rfl⟩

end QuillOS.Network
