import Mathlib.Data.List.TakeWhile
import QuillOS.Cluster.Jobs
import QuillOS.Cluster.Process

/-!
# Agreement of encoders and decoder

Every message the kernel builds, as a value, with the bytes its sender passes to `send_udp`, and what
the branches of `cluster_udp_handler` and `execute_job` take out of a datagram.
-/

namespace QuillOS.Cluster

open Lib

/-! ## Names -/

/-- A node name: a C string that fits into `local_name`. -/
structure NodeName where
  bytes : Bytes
  length_le : bytes.length ≤ 15
  no_nul : 0 ∉ bytes

/-- The message with the local name that `send_discover` and the reply to it are made of; `nlen`
stops at the terminator or at 15. -/
def nameMessage (type : UInt8) (localName : Bytes) : Bytes :=
  let name := localName.take 15
  [type, 0, UInt8.ofNat name.length, 0] ++ name

def discoverMessage (localName : Bytes) : Bytes := nameMessage msgDiscover localName
def discoverAckMessage (localName : Bytes) : Bytes := nameMessage msgDiscoverAck localName

/-! ## Messages -/

/-- What `submit_job` accepts as the data of a job. -/
structure JobData where
  bytes : Bytes
  length_le : bytes.length ≤ 240

inductive Message
  | discover (name : NodeName)
  | discoverAck (name : NodeName)
  | jobSubmit (jobId : UInt32) (jobType : JobType) (data : JobData)
  | jobResult (jobId result : UInt32)
  | loadReport (load : UInt32)
  | procSpawn (type : ProcType) (pid : UInt32)
  | procSpawned (remotePid localPid : UInt32)
  | procKill (pid : UInt32)

/-- The bytes the sender passes to `send_udp`. -/
def Message.encode : Message → Bytes
  | discover name => discoverMessage name.bytes
  | discoverAck name => discoverAckMessage name.bytes
  | jobSubmit jobId jobType data => submitMessage jobId jobType data.bytes
  | jobResult jobId result => resultMessage jobId result
  | loadReport load => loadMessage load
  | procSpawn type pid => spawnMessage type pid
  | procSpawned remotePid localPid => spawnedMessage remotePid localPid
  | procKill pid => killMessage pid

/-! ## The handler's side -/

/-- `payload_len`, cut to the datagram. -/
def payloadLen : Bytes → ℕ
  | _ :: _ :: lo :: hi :: rest =>
    let stated := (lo.toUInt16 ||| hi.toUInt16 <<< 8).toNat
    if stated > rest.length then rest.length else stated
  | _ => 0

/-- A branch of the handler with the fields it takes from the payload. A name ends at its first
terminator. -/
inductive Taken
  | nothing
  | discover (name : Bytes)
  | discoverAck (name : Bytes)
  | jobSubmit (jobId : UInt32) (jobType : JobType) (jobData : Bytes) (jobLen : ℕ)
  | jobResult (rid rval : UInt32)
  | loadReport (taskCount : UInt32)
  | procSpawn (procType : ProcType) (remotePid : UInt32)
  | procSpawned (remotePid : UInt32)
  | procKill (pid : UInt32)
  deriving DecidableEq

/-- The last step of the extraction: `execute_job` cuts its payload. -/
def Received.taken : Received → Taken
  | ignored => .nothing
  | discover name => .discover (name.takeWhile (· ≠ 0))
  | discoverAck name => .discoverAck (name.takeWhile (· ≠ 0))
  | jobSubmit payload =>
    if payload.length < 5 then .nothing
    else .jobSubmit (readLe32 payload) ((payload.drop 4).headD 0) (payload.drop 5) (payload.length - 5)
  | jobResult rid rval => .jobResult rid rval
  | loadReport taskCount => .loadReport taskCount
  | procSpawn procType remotePid => .procSpawn procType remotePid
  | procSpawned remotePid => .procSpawned remotePid
  | procKill pid => .procKill pid

/-- The values the sender put into a message, as far as the handler looks at them. -/
def Message.fields : Message → Taken
  | discover name => .discover name.bytes
  | discoverAck name => .discoverAck name.bytes
  | jobSubmit jobId jobType data => .jobSubmit jobId jobType data.bytes data.bytes.length
  | jobResult jobId result => .jobResult jobId result
  | loadReport load => .loadReport load
  | procSpawn type pid => .procSpawn type pid
  | procSpawned remotePid _ => .procSpawned remotePid
  | procKill pid => .procKill pid

/-- The handler dispatches on the payload of the length it computes. -/
theorem receive_payloadLen (type reserved lo hi : UInt8) (rest : Bytes) :
    receive (type :: reserved :: lo :: hi :: rest) =
      dispatch type (rest.take (payloadLen (type :: reserved :: lo :: hi :: rest))) := by
  unfold payloadLen receive
  dsimp only
  split_ifs with h
  · rw [List.take_of_length_le h.le, List.take_length]
  · rfl

/-- `execute_job` runs the job it takes from the payload. -/
theorem executeJob_taken (payload : Bytes) : JobNode.executeJob payload =
    match (Received.jobSubmit payload).taken with
    | .jobSubmit jobId jobType jobData jobLen =>
      (execute jobType jobData jobLen).map fun result => some (resultMessage jobId result)
    | _ => some none := by
  by_cases hlen : payload.length < 5
  · simp [JobNode.executeJob, Received.taken, hlen]
  · simp [JobNode.executeJob, Received.taken, hlen]

/-! ## What the senders build -/

/-- The bytes are those of a message. -/
def Built (bytes : Bytes) : Prop := ∃ m : Message, bytes = m.encode

theorem submitJob_built {c c' : JobNode} {type : JobType} {data out : Bytes} {sent : Bool}
    (h : c.submitJob type data sent = (c', some out)) : Built out := by
  unfold JobNode.submitJob at h
  split_ifs at h with hrefuse hsent
  · cases h
  · simp only [Bool.or_eq_true, not_or, decide_eq_true_eq] at hrefuse
    obtain ⟨-, hout⟩ := Prod.mk.inj h
    obtain rfl := Option.some.inj hout
    exact ⟨.jobSubmit c.nextJobId type ⟨data, by omega⟩, rfl⟩
  · cases h

theorem executeJob_built {payload out : Bytes} (h : JobNode.executeJob payload = some (some out)) :
    Built out := by
  unfold JobNode.executeJob at h
  split_ifs at h
  · cases h
  · obtain ⟨result, -, hout⟩ := Option.map_eq_some_iff.mp h
    obtain rfl := Option.some.inj hout
    exact ⟨.jobResult _ result, rfl⟩

theorem spawnOn_built {c c' : ProcNode} {name out : Bytes} {nodeIp : Ip} {ticks : UInt64}
    {pid : UInt32} (h : c.spawnOn name nodeIp ticks = some (c', pid, some out)) : Built out := by
  unfold ProcNode.spawnOn at h
  dsimp only at h
  split_ifs at h
  · simp at h
  · simp at h
  · obtain ⟨_, -, h⟩ := Option.map_eq_some_iff.mp h
    simp at h
  · split at h
    · simp at h
    · simp only [Option.some.injEq, Prod.mk.injEq] at h
      exact ⟨.procSpawn _ c.nextPid, h.2.2.symm⟩

theorem kill_built {c c' : ProcNode} {pid : UInt32} {ok : Bool} {dst : Ip} {out : Bytes}
    (h : c.kill pid = (c', ok, some (dst, out))) : Built out := by
  unfold ProcNode.kill at h
  split at h
  · simp at h
  · split_ifs at h
    · simp at h
    · simp only [Prod.mk.injEq, Option.some.injEq] at h
      exact ⟨.procKill pid, h.2.2.2.symm⟩

theorem onRemoteSpawnRequest_built {c c' : ProcNode} {fromIp : Ip} {type : ProcType}
    {remotePid localPid : UInt32} {ticks : UInt64} {out : Bytes}
    (h : c.onRemoteSpawnRequest fromIp type remotePid ticks = some (c', localPid, out)) :
    Built out := by
  obtain ⟨⟨_, pid⟩, -, h⟩ := Option.map_eq_some_iff.mp h
  simp only [Prod.mk.injEq] at h
  exact ⟨.procSpawned remotePid pid, h.2.2.symm⟩

/-! ## Agreement -/

/-- The length bytes of a header state the payload behind it. -/
theorem payloadLen_header {type : UInt8} {n : UInt16} {payload : Bytes} (h : n.toNat = payload.length) :
    payloadLen (header type n ++ payload) = (header type n ++ payload).length - 4 := by
  change (if _ > payload.length then payload.length else _) = _
  rw [length_bytes, h, if_neg (lt_irrefl _)]
  simp [header]

theorem NodeName.take_bytes (name : NodeName) : name.bytes.take 15 = name.bytes :=
  List.take_of_length_le name.length_le

/-- A name is its own C string. -/
theorem NodeName.takeWhile_bytes (name : NodeName) :
    name.bytes.takeWhile (· ≠ 0) = name.bytes := by
  apply List.takeWhile_eq_self_iff.mpr
  intro b hb
  have : b ≠ 0 := fun h => name.no_nul (h ▸ hb)
  simpa using this

/-- A message of a name has the header of its length. -/
theorem nameMessage_eq (type : UInt8) (name : NodeName) :
    nameMessage type name.bytes = header type (UInt16.ofNat name.bytes.length) ++ name.bytes := by
  have hlen := name.length_le
  unfold nameMessage
  dsimp only
  rw [name.take_bytes]
  generalize hn : name.bytes.length = n at hlen
  have hbytes : ∀ k : Fin 16, [type, 0, UInt8.ofNat k.val, 0] =
      header type (UInt16.ofNat k.val) := by
    intro k
    fin_cases k <;> rfl
  rw [hbytes ⟨n, by omega⟩]

/-- The handler finds the name behind a header that states its length. -/
theorem receive_nameMessage (type : UInt8) (name : NodeName) :
    payloadLen (nameMessage type name.bytes) = (nameMessage type name.bytes).length - 4 ∧
      receive (nameMessage type name.bytes) = dispatch type name.bytes := by
  have hlen : (UInt16.ofNat name.bytes.length).toNat = name.bytes.length := by
    have := name.length_le
    rw [UInt16.toNat_ofNat', Nat.mod_eq_of_lt (by omega)]
  rw [nameMessage_eq]
  exact ⟨payloadLen_header hlen, receive_header hlen⟩

/-- What the handler keeps of a name is all of it. -/
theorem NodeName.kept (name : NodeName) :
    (name.bytes.take 15).takeWhile (· ≠ 0) = name.bytes := by
  rw [name.take_bytes, name.takeWhile_bytes]

theorem taken_jobSubmit (jobId : UInt32) (jobType : JobType) (data : Bytes) :
    (Received.jobSubmit (le32 jobId ++ jobType :: data)).taken =
      .jobSubmit jobId jobType data data.length := by
  have hlen := length_jobPayload jobId jobType data
  unfold Received.taken
  dsimp only
  rw [if_neg (by omega), hlen, drop_four_jobPayload, drop_five_jobPayload, readLe32_append]
  rfl

/-- The handler takes from each message what its sender put into it, with the length of the payload
that was sent. -/
theorem encoders_agree (m : Message) :
    payloadLen m.encode = m.encode.length - 4 ∧ (receive m.encode).taken = m.fields := by
  cases m with
  | discover name =>
    obtain ⟨hlen, hreceive⟩ := receive_nameMessage msgDiscover name
    refine ⟨hlen, ?_⟩
    simp only [Message.encode, Message.fields, discoverMessage, hreceive]
    exact congrArg Taken.discover name.kept
  | discoverAck name =>
    obtain ⟨hlen, hreceive⟩ := receive_nameMessage msgDiscoverAck name
    refine ⟨hlen, ?_⟩
    simp only [Message.encode, Message.fields, discoverAckMessage, hreceive]
    exact congrArg Taken.discoverAck name.kept
  | jobSubmit jobId jobType data =>
    refine ⟨payloadLen_header (toNat_jobLength jobId jobType data.length_le), ?_⟩
    simp only [Message.encode, Message.fields, receive_submitMessage jobId jobType data.length_le]
    exact taken_jobSubmit jobId jobType data.bytes
  | jobResult jobId result =>
    exact ⟨payloadLen_header rfl, congrArg Received.taken (receive_resultMessage jobId result)⟩
  | loadReport load =>
    exact ⟨payloadLen_header rfl, congrArg Received.taken (receive_loadMessage load)⟩
  | procSpawn type pid =>
    exact ⟨payloadLen_header rfl, congrArg Received.taken (receive_spawnMessage type pid)⟩
  | procSpawned remotePid localPid =>
    exact ⟨payloadLen_header rfl,
      congrArg Received.taken (receive_spawnedMessage remotePid localPid)⟩
  | procKill pid =>
    exact ⟨payloadLen_header rfl, congrArg Received.taken (receive_killMessage pid)⟩

end QuillOS.Cluster
