import QuillOS.Lib.Access
import QuillOS.Cluster.Peers

/-!
# Datagrams in the receive buffer

`cluster_udp_handler` and what it calls on the payload, over the buffer of the datagram: a pointer
is an offset, and every byte that is looked at is recorded. The handler does on the buffer what
`receive` and `ClusterNode.handle` say about the bytes of the datagram, and looks at no others. The
console output is left out.
-/

namespace QuillOS.Cluster

open Lib Lib.Traced

namespace Datagram

/-! ## Jobs -/

/-- The loop of `JOB_SUM`, `JOB_PRODUCT` and `JOB_MAX`: word after word is copied out of the data and
folded into the result. -/
def aggregate (f : UInt32 → UInt32 → UInt32) (start : UInt32) (buf : ℕ → UInt8) (data count : ℕ) :
    Traced UInt32 :=
  (List.range count).foldlM (fun acc i => do
    let val ← read32 buf (data + i * 4)
    return f acc val) start

/-- `Jobs::execute`; `none` when it never returns. -/
def execute (type : JobType) (buf : ℕ → UInt8) (data : ℕ) (len : UInt16) :
    Traced (Option UInt32) := do
  let count := len.toNat / 4
  if type = jobSum then
    let sum ← aggregate (fun sum val => sum + val) 0 buf data count
    return some sum
  if type = jobProduct then
    let prod ← aggregate (fun prod val => prod * val) 1 buf data count
    return some prod
  if type = jobMax then
    let mx ← aggregate (fun mx val => if val > mx then val else mx) 0 buf data count
    return some mx
  if type = jobPrime then
    if count = 0 then return some 0
    let n ← read32 buf data
    if n < 2 then return some 0
    return countPrimes n UInt32.size 2 0
  if type = jobEcho then return some len.toUInt32
  return some 0

/-- `execute_job`, with the reply. -/
def executeJob (buf : ℕ → UInt8) (data : ℕ) (len : UInt16) : Traced (Option (Option Bytes)) := do
  if len < 5 then return some none
  let jobId ← read32 buf data
  let jobType ← read8 buf (data + 4)
  let jobLen ← sub16 len 5
  let result ← execute jobType buf (data + 5) jobLen
  return result.map fun result => some (resultMessage jobId result)

/-! ## The handler -/

/-- `char name[16] = {0}` and the loop that fills it from the payload. -/
def readName (buf : ℕ → UInt8) (payload : ℕ) (payloadLen : UInt16) : Traced NameBuf := do
  let name ← readBytes buf payload (min 15 payloadLen.toNat)
  return nameBuf name

/-- The branches of `cluster_udp_handler`, on a payload of the length it computes: the node
afterwards and the reply to the sender; `none` when a received job never ends, or a process name is
written past its buffer. -/
def handlePayload (s : ClusterNode) (srcIp : Ip) (ticks : UInt64) (type : UInt8) (buf : ℕ → UInt8)
    (payload : ℕ) (payloadLen : UInt16) : Traced (Option (ClusterNode × Option Bytes)) := do
  if type = msgDiscover then
    let name ← readName buf payload payloadLen
    return some ({ s with peers := s.peers.addOrUpdatePeer srcIp name ticks },
      some (discoverAckMessage s.localName.bytes))
  if type = msgDiscoverAck then
    let name ← readName buf payload payloadLen
    return some ({ s with peers := s.peers.addOrUpdatePeer srcIp name ticks }, none)
  if type = msgJobSubmit then
    let reply ← executeJob buf payload payloadLen
    return reply.map fun reply => (s, reply)
  if type = msgJobResult then
    if payloadLen < 8 then return some (s, none)
    let rid ← read32 buf payload
    let rval ← read32 buf (payload + 4)
    let jobs := { s.jobs with
      lastResult := { jobId := rid, completed := true, result := rval }
      djob := s.jobs.djob.onRemoteResult rid rval ticks }
    return some ({ s with jobs := jobs }, none)
  if type = msgLoadReport then
    if payloadLen < 4 then return some (s, none)
    let taskCount ← read32 buf payload
    let jobs := { s.jobs with djob := s.jobs.djob.updateNodeLoad srcIp taskCount ticks }
    return some ({ s with jobs := jobs }, none)
  if type = msgProcSpawn then
    if payloadLen < 5 then return some (s, none)
    let procType ← read8 buf payload
    let remotePid ← read32 buf (payload + 1)
    return (s.procs.onRemoteSpawnRequest srcIp procType remotePid ticks).map
      fun (procs, _, reply) => ({ s with procs := procs }, some reply)
  if type = msgProcSpawned then
    if payloadLen < 8 then return some (s, none)
    -- `on_remote_spawned` does nothing with the pid.
    let _ ← read32 buf payload
    return some (s, none)
  if type = msgProcKill then
    if payloadLen < 4 then return some (s, none)
    let pid ← read32 buf payload
    return some ({ s with procs := s.procs.onRemoteKillRequest pid }, none)
  return some (s, none)

def clusterUdpHandler (s : ClusterNode) (srcIp : Ip) (_srcPort : UInt16) (ticks : UInt64)
    (buf : ℕ → UInt8) (len : UInt16) : Traced (Option (ClusterNode × Option Bytes)) := do
  if len < 4 then return some (s, none)
  let type ← read8 buf 0
  let lo ← read8 buf 2
  let hi ← read8 buf 3
  let stated := lo.toUInt16 ||| hi.toUInt16 <<< 8
  let rest ← sub16 len 4
  let payloadLen := if stated > rest then rest else stated
  handlePayload s srcIp ticks type buf 4 payloadLen

/-! ## Every access lies in the datagram -/

variable {buf : ℕ → UInt8} {n : ℕ}

theorem aggregate_within (f : UInt32 → UInt32 → UInt32) (start : UInt32) {data count : ℕ}
    (h : data + count * 4 ≤ n) : (aggregate f start buf data count).Within n := by
  unfold aggregate
  apply within_foldlM
  intro acc i hi
  have := List.mem_range.mp hi
  simp only [within_bind, within_read32, within_pure, and_true]
  omega

/-- The division rounds down, so that the words lie in the data. -/
theorem execute_within (type : JobType) {data : ℕ} {len : UInt16} (h : data + len.toNat ≤ n) :
    (execute type buf data len).Within n := by
  have hcount : data + len.toNat / 4 * 4 ≤ n := by omega
  unfold execute
  split
  · exact (within_bind _ _).mpr ⟨aggregate_within _ _ hcount, within_pure _⟩
  split
  · exact (within_bind _ _).mpr ⟨aggregate_within _ _ hcount, within_pure _⟩
  split
  · exact (within_bind _ _).mpr ⟨aggregate_within _ _ hcount, within_pure _⟩
  split
  · dsimp only
    split
    · exact within_pure _
    · simp only [within_bind, within_read32]
      refine ⟨by omega, ?_⟩
      split <;> exact within_pure _
  split <;> exact within_pure _

theorem executeJob_within {data : ℕ} {len : UInt16} (h : data + len.toNat ≤ n) :
    (executeJob buf data len).Within n := by
  unfold executeJob
  split
  · exact within_pure _
  rename_i hlen
  have h5 : (5 : UInt16).toNat ≤ len.toNat := UInt16.le_iff_toNat_le.mp (UInt16.not_lt.mp hlen)
  have hsub : (len - 5).toNat = len.toNat - 5 :=
    UInt16.toNat_sub_of_le _ _ (UInt16.le_iff_toNat_le.mpr h5)
  have hfive : (5 : UInt16).toNat = 5 := rfl
  simp only [within_bind, within_read32, within_read8, within_sub16, sub16_val, within_pure, and_true]
  exact ⟨by omega, by omega, h5, execute_within _ (by omega)⟩

theorem readName_within {payload : ℕ} {payloadLen : UInt16} (h : payload + payloadLen.toNat ≤ n) :
    (readName buf payload payloadLen).Within n := by
  simp only [readName, within_bind, within_readBytes, within_pure, and_true]
  omega

/-- The length of the payload: what the header states, cut to the datagram. -/
def payloadLength (buf : ℕ → UInt8) (len : UInt16) : ℕ :=
  min ((buf 2).toNat + 256 * (buf 3).toNat) (len.toNat - 4)

/-- The clamp of the handler. -/
theorem toNat_payloadLen {len : UInt16} (hlen : ¬len < 4) :
    (if (buf 2).toUInt16 ||| (buf 3).toUInt16 <<< 8 > len - 4 then len - 4
      else (buf 2).toUInt16 ||| (buf 3).toUInt16 <<< 8).toNat = payloadLength buf len := by
  have hsub : (len - 4).toNat = len.toNat - 4 :=
    UInt16.toNat_sub_of_le _ _ (UInt16.not_lt.mp hlen)
  unfold payloadLength
  rw [← toNat_word16, ← hsub]
  split
  · rename_i h
    exact (min_eq_right (UInt16.lt_iff_toNat_lt.mp h).le).symm
  · rename_i h
    exact (min_eq_left (UInt16.le_iff_toNat_le.mp (UInt16.not_lt.mp h))).symm

/-- A branch that asks for at least `k` bytes of payload reads no more than them. -/
theorem guarded_within {payloadLen k : UInt16} {α : Type} (a : α) {x : Traced α}
    (h : k.toNat ≤ payloadLen.toNat → x.Within n) :
    (if payloadLen < k then pure a else x).Within n := by
  split
  · exact within_pure _
  · rename_i hlen
    exact h (UInt16.le_iff_toNat_le.mp (UInt16.not_lt.mp hlen))

theorem handlePayload_within (s : ClusterNode) (srcIp : Ip) (ticks : UInt64) (type : UInt8)
    {payload : ℕ} {payloadLen : UInt16} (h : payload + payloadLen.toNat ≤ n) :
    (handlePayload s srcIp ticks type buf payload payloadLen).Within n := by
  have h8 : (8 : UInt16).toNat = 8 := rfl
  have h5 : (5 : UInt16).toNat = 5 := rfl
  have h4 : (4 : UInt16).toNat = 4 := rfl
  unfold handlePayload
  split
  · exact (within_bind _ _).mpr ⟨readName_within h, within_pure _⟩
  split
  · exact (within_bind _ _).mpr ⟨readName_within h, within_pure _⟩
  split
  · exact (within_bind _ _).mpr ⟨executeJob_within h, within_pure _⟩
  split
  · refine guarded_within _ fun hlen => ?_
    simp only [within_bind, within_read32, within_pure, and_true]
    omega
  split
  · refine guarded_within _ fun hlen => ?_
    simp only [within_bind, within_read32, within_pure, and_true]
    omega
  split
  · refine guarded_within _ fun hlen => ?_
    simp only [within_bind, within_read8, within_read32, within_pure, and_true]
    omega
  split
  · refine guarded_within _ fun hlen => ?_
    simp only [within_bind, within_read32, within_pure, and_true]
    omega
  split
  · refine guarded_within _ fun hlen => ?_
    simp only [within_bind, within_read32, within_pure, and_true]
    omega
  · exact within_pure _

theorem clusterUdpHandler_within (s : ClusterNode) (srcIp : Ip) (srcPort : UInt16) (ticks : UInt64)
    (buf : ℕ → UInt8) (len : UInt16) :
    (clusterUdpHandler s srcIp srcPort ticks buf len).Within len.toNat := by
  unfold clusterUdpHandler
  split
  · exact within_pure _
  rename_i hlen
  have h4 : (4 : UInt16).toNat ≤ len.toNat := UInt16.le_iff_toNat_le.mp (UInt16.not_lt.mp hlen)
  have hfour : (4 : UInt16).toNat = 4 := rfl
  simp only [within_bind, within_read8, within_sub16, sub16_val]
  refine ⟨by omega, by omega, by omega, h4, handlePayload_within _ _ _ _ ?_⟩
  -- The payload is cut to end with the datagram.
  refine le_trans (Nat.add_le_add_left (toNat_payloadLen hlen).le 4) ?_
  unfold payloadLength
  omega

/-! ## The bytes of the datagram decide -/

theorem wordAt_load {data len i : ℕ} (h : (i + 1) * 4 ≤ len) :
    wordAt (Mem.load buf data len) i = (read32 buf (data + i * 4)).val := by
  unfold wordAt
  rw [Mem.drop_load, Nat.mul_comm 4 i]
  exact (read32_eq_readLe32 buf (by omega)).symm

theorem aggregate_val (f : UInt32 → UInt32 → UInt32) (start : UInt32) (data len : ℕ) :
    (aggregate f start buf data (len / 4)).val =
      (List.range (len / 4)).foldl (fun acc i => f acc (wordAt (Mem.load buf data len) i)) start := by
  unfold aggregate
  rw [foldlM_val]
  refine List.foldl_ext _ _ _ fun acc i hi => ?_
  have := List.mem_range.mp hi
  rw [wordAt_load (by omega)]
  rfl

theorem execute_val (type : JobType) (data : ℕ) (len : UInt16) :
    (execute type buf data len).val =
      Cluster.execute type (Mem.load buf data len.toNat) len.toNat := by
  unfold execute Cluster.execute
  dsimp only
  have hword : ¬len.toNat / 4 = 0 →
      wordAt (Mem.load buf data len.toNat) 0 = (read32 buf data).val :=
    fun h => wordAt_load (by omega : (0 + 1) * 4 ≤ len.toNat)
  split_ifs with _ _ _ _ hcount hsmall
  · exact congrArg some (aggregate_val _ _ _ _)
  · exact congrArg some (aggregate_val _ _ _ _)
  · exact congrArg some (aggregate_val _ _ _ _)
  · rfl
  · rw [hword hcount] at hsmall
    rw [bind_val, if_pos hsmall]
    rfl
  · rw [hword hcount] at hsmall ⊢
    rw [bind_val, if_neg hsmall]
    rfl
  · exact congrArg some (UInt32.toNat_inj.mp (by simp))
  · rfl

theorem executeJob_val (data : ℕ) (len : UInt16) :
    (executeJob buf data len).val = JobNode.executeJob (Mem.load buf data len.toNat) := by
  unfold executeJob JobNode.executeJob
  rw [Mem.length_load]
  by_cases hlen : len < 5
  · rw [if_pos hlen, if_pos (show len.toNat < 5 from UInt16.lt_iff_toNat_lt.mp hlen)]
    rfl
  · have h5 : (5 : UInt16).toNat ≤ len.toNat := UInt16.le_iff_toNat_le.mp (UInt16.not_lt.mp hlen)
    have hsub : (len - 5).toNat = len.toNat - 5 :=
      UInt16.toNat_sub_of_le _ _ (UInt16.not_lt.mp hlen)
    have hfive : (5 : UInt16).toNat = 5 := rfl
    have htype : ((Mem.load buf data len.toNat).drop 4).headD 0 = buf (data + 4) := by
      rw [Mem.drop_load, show len.toNat - 4 = (len.toNat - 5) + 1 by omega, Mem.load_succ]
      rfl
    rw [if_neg hlen, if_neg (by omega), htype, Mem.drop_load, ← hsub, ← execute_val,
      ← read32_eq_readLe32 buf (by omega)]
    rfl

theorem readName_val (payload : ℕ) (payloadLen : UInt16) :
    (readName buf payload payloadLen).val =
      nameBuf ((Mem.load buf payload payloadLen.toNat).take 15) := by
  rw [Mem.take_load]
  rfl

/-- A branch that asks for at least `k` bytes of payload. -/
theorem guarded_val {payload : ℕ} {payloadLen k : UInt16} {s : ClusterNode} {srcIp : Ip}
    {ticks : UInt64} {x : Traced (Option (ClusterNode × Option Bytes))} {m : Received}
    (h : k.toNat ≤ payloadLen.toNat → x.val = s.handle srcIp ticks m) :
    (if payloadLen < k then pure (some (s, none)) else x).val = s.handle srcIp ticks
      (if (Mem.load buf payload payloadLen.toNat).length ≥ k.toNat then m else .ignored) := by
  rw [Mem.length_load]
  by_cases hlen : payloadLen < k
  · rw [if_pos hlen, if_neg (by have := UInt16.lt_iff_toNat_lt.mp hlen; omega)]
    rfl
  · have hle := UInt16.le_iff_toNat_le.mp (UInt16.not_lt.mp hlen)
    rw [if_neg hlen, if_pos hle]
    exact h hle

theorem handlePayload_val (s : ClusterNode) (srcIp : Ip) (ticks : UInt64) (type : UInt8)
    (payload : ℕ) (payloadLen : UInt16) :
    (handlePayload s srcIp ticks type buf payload payloadLen).val =
      s.handle srcIp ticks (dispatch type (Mem.load buf payload payloadLen.toNat)) := by
  have h8 : (8 : UInt16).toNat = 8 := rfl
  have h5 : (5 : UInt16).toNat = 5 := rfl
  have h4 : (4 : UInt16).toNat = 4 := rfl
  unfold handlePayload dispatch
  by_cases hdiscover : type = msgDiscover
  · rw [if_pos hdiscover, if_pos hdiscover, bind_val, readName_val]
    rfl
  rw [if_neg hdiscover, if_neg hdiscover]
  by_cases hack : type = msgDiscoverAck
  · rw [if_pos hack, if_pos hack, bind_val, readName_val]
    rfl
  rw [if_neg hack, if_neg hack]
  by_cases hsubmit : type = msgJobSubmit
  · rw [if_pos hsubmit, if_pos hsubmit, bind_val, executeJob_val]
    exact (s.handle_jobSubmit srcIp ticks _).symm
  rw [if_neg hsubmit, if_neg hsubmit]
  by_cases hresult : type = msgJobResult
  · rw [if_pos hresult, if_pos hresult]
    refine guarded_val fun hlen => ?_
    rw [Mem.drop_load, ← read32_eq_readLe32 buf (by omega), ← read32_eq_readLe32 buf (by omega)]
    rfl
  rw [if_neg hresult, if_neg hresult]
  by_cases hload : type = msgLoadReport
  · rw [if_pos hload, if_pos hload]
    refine guarded_val fun hlen => ?_
    rw [← read32_eq_readLe32 buf (by omega)]
    rfl
  rw [if_neg hload, if_neg hload]
  by_cases hspawn : type = msgProcSpawn
  · rw [if_pos hspawn, if_pos hspawn]
    refine guarded_val fun hlen => ?_
    have hhead : (Mem.load buf payload payloadLen.toNat).headD 0 = buf payload := by
      rw [show payloadLen.toNat = (payloadLen.toNat - 1) + 1 by omega, Mem.load_succ]
      rfl
    rw [hhead, Mem.drop_load, ← read32_eq_readLe32 buf (by omega), ClusterNode.handle_procSpawn]
    rfl
  rw [if_neg hspawn, if_neg hspawn]
  by_cases hspawned : type = msgProcSpawned
  · rw [if_pos hspawned, if_pos hspawned]
    exact guarded_val fun _ => rfl
  rw [if_neg hspawned, if_neg hspawned]
  by_cases hkill : type = msgProcKill
  · rw [if_pos hkill, if_pos hkill]
    refine guarded_val fun hlen => ?_
    rw [← read32_eq_readLe32 buf (by omega)]
    rfl
  rw [if_neg hkill, if_neg hkill]
  rfl

/-- A datagram is its header and the rest. -/
theorem load_header (buf : ℕ → UInt8) (k : ℕ) :
    Mem.load buf 0 (k + 4) = buf 0 :: buf 1 :: buf 2 :: buf 3 :: Mem.load buf 4 k := by
  rw [Mem.load_succ, Mem.load_succ, Mem.load_succ, Mem.load_succ]

theorem receive_load (buf : ℕ → UInt8) {len : UInt16} (hlen : ¬len < 4) :
    receive (Mem.load buf 0 len.toNat) =
      dispatch (buf 0) (Mem.load buf 4 (payloadLength buf len)) := by
  have h4 : 4 ≤ len.toNat := UInt16.le_iff_toNat_le.mp (UInt16.not_lt.mp hlen)
  have hload := load_header buf (len.toNat - 4)
  rw [Nat.sub_add_cancel h4] at hload
  rw [hload]
  change dispatch (buf 0) (List.take _ _) = _
  rw [Mem.take_load, toNat_word16]
  rfl

/-- The handler does what the bytes of the datagram say. -/
theorem clusterUdpHandler_val (s : ClusterNode) (srcIp : Ip) (srcPort : UInt16) (ticks : UInt64)
    (buf : ℕ → UInt8) (len : UInt16) :
    (clusterUdpHandler s srcIp srcPort ticks buf len).val =
      s.handle srcIp ticks (receive (Mem.load buf 0 len.toNat)) := by
  unfold clusterUdpHandler
  by_cases hlen : len < 4
  · have hshort : (Mem.load buf 0 len.toNat).length < 4 := by
      rw [Mem.length_load]
      exact UInt16.lt_iff_toNat_lt.mp hlen
    rw [if_pos hlen, receive_short hshort]
    rfl
  · rw [if_neg hlen, receive_load buf hlen, ← toNat_payloadLen hlen]
    exact handlePayload_val s srcIp ticks (buf 0) 4 _

/-! ## Short datagrams -/

/-- How many bytes of payload the branch for a type asks for. -/
def required (type : UInt8) : ℕ :=
  if type = msgJobSubmit then 5
  else if type = msgJobResult then 8
  else if type = msgLoadReport then 4
  else if type = msgProcSpawn then 5
  else if type = msgProcSpawned then 8
  else if type = msgProcKill then 4
  else 0

/-- The datagram has no complete header, or less payload than its branch asks for. -/
def TooShort (buf : ℕ → UInt8) (len : UInt16) : Prop :=
  len < 4 ∨ payloadLength buf len < required (buf 0)

theorem handle_ite_ignored (s : ClusterNode) (srcIp : Ip) (ticks : UInt64) {c : Prop} [Decidable c]
    (h : ¬c) (m : Received) :
    s.handle srcIp ticks (if c then m else .ignored) = some (s, none) := by
  rw [if_neg h]
  rfl

/-- A payload that is too short for its branch is dropped. -/
theorem handle_dispatch_of_lt (s : ClusterNode) (srcIp : Ip) (ticks : UInt64) {type : UInt8}
    {payload : Bytes} (h : payload.length < required type) :
    s.handle srcIp ticks (dispatch type payload) = some (s, none) := by
  unfold required at h
  split_ifs at h with hsubmit hresult hload hspawn hspawned hkill
  · subst hsubmit
    change s.handle srcIp ticks (.jobSubmit payload) = _
    rw [ClusterNode.handle_jobSubmit, JobNode.executeJob, if_pos h]
    rfl
  · subst hresult
    exact handle_ite_ignored s srcIp ticks (by omega) _
  · subst hload
    exact handle_ite_ignored s srcIp ticks (by omega) _
  · subst hspawn
    exact handle_ite_ignored s srcIp ticks (by omega) _
  · subst hspawned
    exact handle_ite_ignored s srcIp ticks (by omega) _
  · subst hkill
    exact handle_ite_ignored s srcIp ticks (by omega) _
  · omega

theorem clusterUdpHandler_of_tooShort (s : ClusterNode) (srcIp : Ip) (srcPort : UInt16)
    (ticks : UInt64) {buf : ℕ → UInt8} {len : UInt16} (h : TooShort buf len) :
    (clusterUdpHandler s srcIp srcPort ticks buf len).val = some (s, none) := by
  by_cases hlen : len < 4
  · unfold clusterUdpHandler
    rw [if_pos hlen]
    rfl
  · rw [clusterUdpHandler_val, receive_load buf hlen]
    refine handle_dispatch_of_lt s srcIp ticks ?_
    rw [Mem.length_load]
    exact h.resolve_left hlen

/-- Only a job and the start of a process can keep the handler from its end. -/
theorem dispatch_of_none {s : ClusterNode} {srcIp : Ip} {ticks : UInt64} {type : UInt8}
    {payload : Bytes} (h : s.handle srcIp ticks (dispatch type payload) = none) :
    type = msgJobSubmit ∨ type = msgProcSpawn := by
  by_contra hno
  rw [not_or] at hno
  unfold dispatch at h
  rw [if_neg hno.1, if_neg hno.2] at h
  split_ifs at h <;> cases h

/-- The handler and all it calls look at no byte behind the datagram, so that what they do depends
on the datagram alone; a name written to the peer table is terminated inside its buffer, and the
branches that write one come to their end; and a datagram that is too short for its branch changes
nothing and is not answered. -/
theorem datagram_contained (s : ClusterNode) (srcIp : Ip) (srcPort : UInt16) (ticks : UInt64)
    (buf : ℕ → UInt8) (len : UInt16) :
    (clusterUdpHandler s srcIp srcPort ticks buf len).Within len.toNat ∧
    (∀ buf' : ℕ → UInt8, (∀ i < len.toNat, buf i = buf' i) →
      (clusterUdpHandler s srcIp srcPort ticks buf' len).val =
        (clusterUdpHandler s srcIp srcPort ticks buf len).val) ∧
    (∀ s' reply, (clusterUdpHandler s srcIp srcPort ticks buf len).val = some (s', reply) →
      ∀ i, s.peers.Named s'.peers i → Terminated (s'.peers.peers i).name) ∧
    ((clusterUdpHandler s srcIp srcPort ticks buf len).val = none →
      buf 0 = msgJobSubmit ∨ buf 0 = msgProcSpawn) ∧
    (TooShort buf len →
      (clusterUdpHandler s srcIp srcPort ticks buf len).val = some (s, none)) := by
  refine ⟨clusterUdpHandler_within s srcIp srcPort ticks buf len, ?_, ?_, ?_,
    clusterUdpHandler_of_tooShort s srcIp srcPort ticks⟩
  · intro buf' hsame
    have hload : Mem.load buf' 0 len.toNat = Mem.load buf 0 len.toNat :=
      Mem.load_congr fun i hi => (hsame (0 + i) (by omega)).symm
    rw [clusterUdpHandler_val, clusterUdpHandler_val, hload]
  · intro s' reply h i hnamed
    rw [clusterUdpHandler_val] at h
    exact ClusterNode.handle_named h hnamed
  · intro h
    by_cases hlen : len < 4
    · rw [clusterUdpHandler_of_tooShort s srcIp srcPort ticks (.inl hlen)] at h
      cases h
    · rw [clusterUdpHandler_val, receive_load buf hlen] at h
      exact dispatch_of_none h

end Datagram

end QuillOS.Cluster
