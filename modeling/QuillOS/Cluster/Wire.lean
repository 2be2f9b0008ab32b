import QuillOS.Lib.LittleEndian

/-!
# Cluster messages

The datagrams of the cluster port: a type byte, a reserved byte, a little-endian length and a
payload. The encoders are those of `cluster.cpp` and `process.cpp`, the decoder is the dispatch of
`cluster_udp_handler`.
-/

namespace QuillOS.Cluster

open Lib

abbrev Ip := UInt32
abbrev Bytes := List UInt8

def msgDiscover : UInt8 := 0x01
def msgDiscoverAck : UInt8 := 0x02
def msgJobSubmit : UInt8 := 0x03
def msgJobResult : UInt8 := 0x04
def msgLoadReport : UInt8 := 0x05
def msgProcSpawn : UInt8 := 0x10
def msgProcSpawned : UInt8 := 0x11
def msgProcKill : UInt8 := 0x12

/-! ## Encoders -/

/-- The type byte, the reserved byte and the payload length. -/
def header (type : UInt8) (payloadLen : UInt16) : Bytes :=
  [type, 0, (payloadLen &&& 0xFF).toUInt8, (payloadLen >>> 8).toUInt8]

def submitMessage (jobId : UInt32) (jobType : UInt8) (data : Bytes) : Bytes :=
  header msgJobSubmit (5 + UInt16.ofNat data.length) ++ (le32 jobId ++ jobType :: data)

def resultMessage (jobId result : UInt32) : Bytes :=
  header msgJobResult 8 ++ (le32 jobId ++ le32 result)

def loadMessage (load : UInt32) : Bytes := header msgLoadReport 4 ++ le32 load

def spawnMessage (type : UInt8) (pid : UInt32) : Bytes :=
  header msgProcSpawn 5 ++ (type :: le32 pid)

def spawnedMessage (remotePid localPid : UInt32) : Bytes :=
  header msgProcSpawned 8 ++ (le32 remotePid ++ le32 localPid)

def killMessage (pid : UInt32) : Bytes := header msgProcKill 4 ++ le32 pid

/-! ## The decoder -/

/-- What `cluster_udp_handler` passes on, by type. -/
inductive Received
  | ignored
  | discover (name : Bytes)
  | discoverAck (name : Bytes)
  | jobSubmit (payload : Bytes)
  | jobResult (rid rval : UInt32)
  | loadReport (taskCount : UInt32)
  | procSpawn (procType : UInt8) (remotePid : UInt32)
  | procSpawned (remotePid : UInt32)
  | procKill (pid : UInt32)
  deriving DecidableEq, Repr

/-- The branches of `cluster_udp_handler`, on a payload already cut to the datagram. -/
def dispatch (type : UInt8) (payload : Bytes) : Received :=
  if type = msgDiscover then .discover (payload.take 15)
  else if type = msgDiscoverAck then .discoverAck (payload.take 15)
  else if type = msgJobSubmit then .jobSubmit payload
  else if type = msgJobResult then
    if payload.length ≥ 8 then .jobResult (readLe32 payload) (readLe32 (payload.drop 4))
    else .ignored
  else if type = msgLoadReport then
    if payload.length ≥ 4 then .loadReport (readLe32 payload) else .ignored
  else if type = msgProcSpawn then
    if payload.length ≥ 5 then .procSpawn (payload.headD 0) (readLe32 (payload.drop 1))
    else .ignored
  else if type = msgProcSpawned then
    if payload.length ≥ 8 then .procSpawned (readLe32 payload) else .ignored
  else if type = msgProcKill then
    if payload.length ≥ 4 then .procKill (readLe32 payload) else .ignored
  else .ignored

/-- A datagram shorter than its header is dropped; a length field that is too long is cut. -/
def receive : Bytes → Received
  | type :: _ :: lo :: hi :: rest =>
    dispatch type (rest.take (lo.toUInt16 ||| hi.toUInt16 <<< 8).toNat)
  | _ => .ignored

theorem receive_short : ∀ {bytes : Bytes}, bytes.length < 4 → receive bytes = .ignored
  | [], _ | [_], _ | [_, _], _ | [_, _, _], _ => rfl
  | _ :: _ :: _ :: _ :: _, h => by simp only [List.length_cons] at h; omega

/-! ## Round trips -/

/-- The two length bytes give the length back. -/
theorem length_bytes (n : UInt16) :
    ((n &&& 0xFF).toUInt8.toUInt16 ||| (n >>> 8).toUInt8.toUInt16 <<< 8) = n := by
  apply UInt16.toNat_inj.mp
  have hlo : (n &&& 0xFF).toUInt8.toUInt16.toNat = n.toNat % 256 := by
    simp [Nat.and_two_pow_sub_one_eq_mod _ 8]
  have hhi : ((n >>> 8).toUInt8.toUInt16 <<< 8).toNat = 2 ^ 8 * (n.toNat / 256) := by
    have := n.toNat_lt
    simp [Nat.shiftLeft_eq, Nat.shiftRight_eq_div_pow]
    omega
  rw [UInt16.toNat_or, hlo, hhi, Nat.or_comm, ← Nat.two_pow_add_eq_or_of_lt (by omega)]
  omega

/-- The decoder finds the payload behind a header that states its length. -/
theorem receive_header {type : UInt8} {n : UInt16} {payload : Bytes} (h : n.toNat = payload.length) :
    receive (header type n ++ payload) = dispatch type payload := by
  change dispatch type (payload.take _) = _
  rw [length_bytes, h, List.take_length]

/-! The payload of a job: four bytes of identifier, the type, the data. -/

theorem length_jobPayload (jobId : UInt32) (jobType : UInt8) (data : Bytes) :
    (le32 jobId ++ jobType :: data).length = data.length + 5 := by
  rw [List.length_append, length_le32, List.length_cons]
  omega

theorem drop_four_jobPayload (jobId : UInt32) (jobType : UInt8) (data : Bytes) :
    (le32 jobId ++ jobType :: data).drop 4 = jobType :: data :=
  List.drop_left' (length_le32 jobId)

theorem drop_five_jobPayload (jobId : UInt32) (jobType : UInt8) (data : Bytes) :
    (le32 jobId ++ jobType :: data).drop 5 = data := by
  rw [show 5 = 4 + 1 from rfl, ← List.drop_drop, drop_four_jobPayload]
  rfl

/-- The length field of a job's message does not wrap. -/
theorem toNat_jobLength (jobId : UInt32) (jobType : UInt8) {data : Bytes} (h : data.length ≤ 240) :
    (5 + UInt16.ofNat data.length).toNat = (le32 jobId ++ jobType :: data).length := by
  rw [UInt16.toNat_add, UInt16.toNat_ofNat', length_jobPayload]
  change (5 + data.length % 65536) % 65536 = _
  omega

theorem receive_submitMessage (jobId : UInt32) (jobType : UInt8) {data : Bytes}
    (h : data.length ≤ 240) :
    receive (submitMessage jobId jobType data) = .jobSubmit (le32 jobId ++ jobType :: data) := by
  unfold submitMessage
  rw [receive_header (toNat_jobLength jobId jobType h)]
  rfl

theorem receive_resultMessage (jobId result : UInt32) :
    receive (resultMessage jobId result) = .jobResult jobId result := by
  unfold resultMessage
  rw [receive_header rfl]
  change Received.jobResult (readLe32 _) (readLe32 _) = _
  rw [readLe32_append, List.drop_left' (length_le32 jobId), readLe32_le32]

theorem receive_loadMessage (load : UInt32) : receive (loadMessage load) = .loadReport load := by
  unfold loadMessage
  rw [receive_header rfl]
  change Received.loadReport (readLe32 _) = _
  rw [readLe32_le32]

theorem receive_spawnMessage (type : UInt8) (pid : UInt32) :
    receive (spawnMessage type pid) = .procSpawn type pid := by
  unfold spawnMessage
  rw [receive_header rfl]
  change Received.procSpawn type (readLe32 _) = _
  rw [List.drop_one, List.tail_cons, readLe32_le32]

theorem receive_spawnedMessage (remotePid localPid : UInt32) :
    receive (spawnedMessage remotePid localPid) = .procSpawned remotePid := by
  unfold spawnedMessage
  rw [receive_header rfl]
  change Received.procSpawned (readLe32 _) = _
  rw [readLe32_append]

theorem receive_killMessage (pid : UInt32) : receive (killMessage pid) = .procKill pid := by
  unfold killMessage
  rw [receive_header rfl]
  change Received.procKill (readLe32 _) = _
  rw [readLe32_le32]

end QuillOS.Cluster
