import QuillOS.Cluster.Messages
import QuillOS.Cluster.RemoteKill

/-!
# Peers

The peer table of `cluster.cpp`, and what a received message does to all the tables of a node. A
hardware address is neither written nor read.
-/

namespace QuillOS.Cluster

open Lib

/-! ## Name buffers -/

/-- `char name[16]`. -/
abbrev NameBuf := Fin 16 → UInt8

/-- The buffer holds a C string. -/
def Terminated (b : NameBuf) : Prop := ∃ k, b k = 0

/-- A buffer of zeros with the bytes written to its front. -/
def nameBuf (bytes : Bytes) : NameBuf := fun k => bytes.getD k.val 0

/-- The loop of `str_copy` from position `i` on, with room for `left` more characters. -/
def strCopyFrom (src : NameBuf) : ℕ → Fin 16 → NameBuf → NameBuf
  | 0, i, dst => Function.update dst i 0
  | left + 1, i, dst =>
    if src i ≠ 0 then strCopyFrom src left (i + 1) (Function.update dst i (src i))
    else Function.update dst i 0

/-- `str_copy(dst, src, 16)`; what lies behind the terminator stays. -/
def strCopy (dst src : NameBuf) : NameBuf := strCopyFrom src 15 0 dst

theorem strCopyFrom_terminated (src : NameBuf) (left : ℕ) (i : Fin 16) (dst : NameBuf) :
    Terminated (strCopyFrom src left i dst) := by
  induction left generalizing i dst with
  | zero => exact ⟨i, Function.update_self i 0 dst⟩
  | succ left ih =>
    unfold strCopyFrom
    split
    · exact ih _ _
    · exact ⟨i, Function.update_self i 0 dst⟩

theorem strCopy_terminated (dst src : NameBuf) : Terminated (strCopy dst src) :=
  strCopyFrom_terminated src 15 0 dst

/-! ## The table -/

structure Node where
  ip : Ip
  name : NameBuf
  /-- The tick count when it was last heard from. -/
  lastSeen : UInt64
  active : Bool

structure PeerTable where
  peers : Fin maxNodes → Node
  peerCount : UInt32
  localIp : Ip

namespace PeerTable

def addOrUpdatePeer (t : PeerTable) (ip : Ip) (name : NameBuf) (ticks : UInt64) : PeerTable :=
  -- A node does not list itself.
  if ip = t.localIp then t
  else match Fin.find? fun i => (t.peers i).active && (t.peers i).ip == ip with
    | some i =>
      { t with peers := Function.update t.peers i { t.peers i with lastSeen := ticks } }
    | none =>
      match Fin.find? fun i => !(t.peers i).active with
      | some i =>
        { t with
          peers := Function.update t.peers i
            { ip := ip, name := strCopy (t.peers i).name name, lastSeen := ticks, active := true }
          peerCount := t.peerCount + 1 }
      | none => t

/-- Entry `i` was filled, or its name changed. -/
def Named (t t' : PeerTable) (i : Fin maxNodes) : Prop :=
  (t.peers i).active = false ∧ (t'.peers i).active = true ∨ (t'.peers i).name ≠ (t.peers i).name

theorem not_named_self (t : PeerTable) (i : Fin maxNodes) : ¬t.Named t i := by
  rintro (⟨hoff, hon⟩ | hne)
  · rw [hoff] at hon
    cases hon
  · exact hne rfl

/-- A name that is written ends inside its buffer. -/
theorem addOrUpdatePeer_named {t : PeerTable} {ip : Ip} {name : NameBuf} {ticks : UInt64}
    {i : Fin maxNodes} (h : t.Named (t.addOrUpdatePeer ip name ticks) i) :
    Terminated ((t.addOrUpdatePeer ip name ticks).peers i).name := by
  revert h
  unfold addOrUpdatePeer
  split_ifs
  · exact fun h => absurd h (not_named_self t i)
  split
  · rename_i j _
    intro h
    -- An entry that is brought up to date keeps its name.
    rcases eq_or_ne i j with rfl | hij
    · simp only [Named, Function.update_self, ne_eq, not_true_eq_false, or_false] at h
      rw [h.1] at h
      cases h.2
    · simp only [Named, Function.update_of_ne hij] at h
      exact absurd h (not_named_self t i)
  split
  · rename_i j _
    intro h
    rcases eq_or_ne i j with rfl | hij
    · simp only [Function.update_self]
      exact strCopy_terminated _ _
    · simp only [Named, Function.update_of_ne hij] at h
      exact absurd h (not_named_self t i)
  · exact fun h => absurd h (not_named_self t i)

end PeerTable

/-! ## All tables of a node -/

/-- The variables of `Cluster`, `DJob` and `Process` with the scheduler under them. -/
structure ClusterNode where
  peers : PeerTable
  localName : NodeName
  jobs : JobNode
  procs : ProcNode

namespace ClusterNode

/-- The effect of a received message, with the reply to the sender; `none` when a received job never
ends, or a process name is written past its buffer. -/
def handle (s : ClusterNode) (srcIp : Ip) (ticks : UInt64) :
    Received → Option (ClusterNode × Option Bytes)
  | .discover name =>
    some ({ s with peers := s.peers.addOrUpdatePeer srcIp (nameBuf name) ticks },
      some (discoverAckMessage s.localName.bytes))
  | .discoverAck name =>
    some ({ s with peers := s.peers.addOrUpdatePeer srcIp (nameBuf name) ticks }, none)
  | m => do
    let (jobs, jobReply) ← s.jobs.handle srcIp ticks m
    let (procs, procReply, _) ← ProcSystem.handle s.procs srcIp ticks m
    return ({ s with jobs := jobs, procs := procs }, jobReply <|> procReply)

theorem handle_jobSubmit (s : ClusterNode) (srcIp : Ip) (ticks : UInt64) (payload : Bytes) :
    s.handle srcIp ticks (.jobSubmit payload) =
      (JobNode.executeJob payload).map fun reply => (s, reply) := by
  change ((JobNode.executeJob payload).map fun reply => (s.jobs, reply)).bind _ = _
  cases JobNode.executeJob payload with
  | none => rfl
  | some reply => cases reply <;> rfl

theorem handle_procSpawn (s : ClusterNode) (srcIp : Ip) (ticks : UInt64) (type : ProcType)
    (remotePid : UInt32) :
    s.handle srcIp ticks (.procSpawn type remotePid) =
      (s.procs.onRemoteSpawnRequest srcIp type remotePid ticks).map
        fun (procs, _, reply) => ({ s with procs := procs }, some reply) := by
  change ((ProcNode.onRemoteSpawnRequest s.procs srcIp type remotePid ticks).map _).bind _ = _
  cases s.procs.onRemoteSpawnRequest srcIp type remotePid ticks <;> rfl

/-- Messages of jobs and processes leave the peers alone. -/
theorem handle_peers {s s' : ClusterNode} {srcIp : Ip} {ticks : UInt64} {m : Received}
    {reply : Option Bytes} (h : s.handle srcIp ticks m = some (s', reply)) :
    s'.peers = s.peers ∨
      ∃ name, s'.peers = s.peers.addOrUpdatePeer srcIp (nameBuf name) ticks := by
  unfold handle at h
  split at h
  · rename_i name
    obtain ⟨rfl, -⟩ := Prod.mk.inj (Option.some.inj h)
    exact .inr ⟨name, rfl⟩
  · rename_i name
    obtain ⟨rfl, -⟩ := Prod.mk.inj (Option.some.inj h)
    exact .inr ⟨name, rfl⟩
  · obtain ⟨⟨jobs, _⟩, -, h⟩ := Option.bind_eq_some_iff.mp h
    obtain ⟨⟨procs, _⟩, -, h⟩ := Option.bind_eq_some_iff.mp h
    obtain ⟨rfl, -⟩ := Prod.mk.inj (Option.some.inj h)
    exact .inl rfl

/-- A name written to the peer table ends inside its buffer. -/
theorem handle_named {s s' : ClusterNode} {srcIp : Ip} {ticks : UInt64} {m : Received}
    {reply : Option Bytes} (h : s.handle srcIp ticks m = some (s', reply)) {i : Fin maxNodes}
    (hnamed : s.peers.Named s'.peers i) : Terminated (s'.peers.peers i).name := by
  rcases handle_peers h with hsame | ⟨name, hadd⟩
  · rw [hsame] at hnamed
    exact absurd hnamed (PeerTable.not_named_self _ i)
  · rw [hadd] at hnamed ⊢
    exact PeerTable.addOrUpdatePeer_named hnamed

end ClusterNode

end QuillOS.Cluster
