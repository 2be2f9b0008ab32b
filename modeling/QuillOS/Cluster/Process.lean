import Mathlib.Data.Nat.Digits.Lemmas
import QuillOS.Cluster.Wire
import QuillOS.Scheduler.Model

/-!
# Processes

The process table of `process.cpp`, over the scheduler of its node. Console output is left out, and
a datagram is taken to leave the node whenever `send_udp` is called. `none` is a write past the end
of a buffer.
-/

namespace QuillOS.Cluster

open Lib Scheduler

abbrev maxProcs : ℕ := 16

inductive ProcState
  | unused
  | running
  | sleeping
  | exiting
  | dead
  deriving DecidableEq, Repr

abbrev ProcType := UInt8

structure ProcInfo where
  pid : UInt32
  type : ProcType
  state : ProcState
  /-- `0` is the local node. -/
  nodeIp : Ip
  ownerIp : Ip
  name : Bytes
  startedAt : UInt64
  cpuTicks : UInt64
  /-- `none` is `-1`. -/
  schedSlot : Option Slot
  deriving DecidableEq

structure ProcNode where
  /-- The address `Network::get_ip` gives. -/
  ip : Ip
  procs : Fin maxProcs → ProcInfo
  stopFlags : Fin maxProcs → Bool
  nextPid : UInt32
  initialized : Bool
  sched : Scheduler.State
  /-- The addresses of the four entry functions in the image. -/
  counterEntry : Entry
  stressEntry : Entry
  monitorEntry : Entry
  workerEntry : Entry

/-! ## Names -/

def counterName : Bytes := "counter".toUTF8.toList
def stressName : Bytes := "stress".toUTF8.toList
def monitorName : Bytes := "monitor".toUTF8.toList
def workerName : Bytes := "worker".toUTF8.toList
def unknownName : Bytes := "unknown".toUTF8.toList

/-- `0` is the result for an unknown name. -/
def parseType (name : Bytes) : ProcType :=
  if name = counterName then 1
  else if name = stressName then 2
  else if name = monitorName then 3
  else if name = workerName then 4
  else 0

def typeName (t : ProcType) : Bytes :=
  if t = 1 then counterName
  else if t = 2 then stressName
  else if t = 3 then monitorName
  else if t = 4 then workerName
  else unknownName

/-- `itoa`. -/
def decimal (n : ℕ) : Bytes :=
  if n = 0 then [48] else (Nat.digits 10 n).reverse.map fun d => UInt8.ofNat (48 + d)

/-- The name `spawn_local` builds, such as `"counter:5"`; the digits and their terminator have to
fit into `pbuf[8]`. -/
def fullName (name : Bytes) (pid : UInt32) : Option Bytes :=
  let digits := decimal pid.toNat
  if digits.length < 8 then some ((name.take 15 ++ 58 :: digits).take 23) else none

namespace ProcNode

/-- `none` is the null pointer. -/
def getEntry (c : ProcNode) (t : ProcType) : Option Entry :=
  if t = 1 then some c.counterEntry
  else if t = 2 then some c.stressEntry
  else if t = 3 then some c.monitorEntry
  else if t = 4 then some c.workerEntry
  else none

def setProc (c : ProcNode) (i : Fin maxProcs) (p : ProcInfo) : ProcNode :=
  { c with procs := Function.update c.procs i p }

@[simp] theorem setProc_self (c : ProcNode) (i : Fin maxProcs) (p : ProcInfo) :
    (c.setProc i p).procs i = p := Function.update_self _ _ _

theorem setProc_of_ne (c : ProcNode) {i j : Fin maxProcs} (h : j ≠ i) (p : ProcInfo) :
    (c.setProc i p).procs j = c.procs j := Function.update_of_ne h _ _

/-! ## Spawning -/

def findFree (c : ProcNode) : Option (Fin maxProcs) :=
  Fin.find? fun i => decide ((c.procs i).state = .unused ∨ (c.procs i).state = .dead)

/-- The entry `spawn_local` fills in before it creates the task. -/
def localEntry (c : ProcNode) (slot : Fin maxProcs) (type : ProcType) (name : Bytes) (ownerIp : Ip)
    (ticks : UInt64) : ProcInfo :=
  { c.procs slot with
    pid := c.nextPid, type := type, state := .running, nodeIp := 0, ownerIp := ownerIp,
    name := name, startedAt := ticks, cpuTicks := 0 }

/-- `spawn_local`, with the pid or `0`. -/
def spawnLocal (c : ProcNode) (type : ProcType) (name : Bytes) (ownerIp : Ip) (ticks : UInt64) :
    Option (ProcNode × UInt32) :=
  match c.findFree with
  | none => some (c, 0)
  | some slot =>
    match c.getEntry type with
    | none => some (c, 0)
    | some entry =>
      (fullName name c.nextPid).map fun full =>
        let info := c.localEntry slot type full ownerIp ticks
        let c' := { c with
          nextPid := c.nextPid + 1, stopFlags := Function.update c.stopFlags slot false }
        match createTask c.sched (some full) entry with
        -- The pid is spent and the entry keeps it, but in state `unused`.
        | (sched, none) => ({ c'.setProc slot { info with state := .unused } with sched := sched }, 0)
        | (sched, some i) =>
          ({ c'.setProc slot { info with schedSlot := some i } with sched := sched }, c.nextPid)

/-- The tracking entry of a process on another node. -/
def remoteEntry (c : ProcNode) (type : ProcType) (name : Bytes) (nodeIp : Ip) (ticks : UInt64) :
    ProcInfo where
  pid := c.nextPid
  type := type
  state := .running
  nodeIp := nodeIp
  ownerIp := c.ip
  name := name.take 15
  startedAt := ticks
  cpuTicks := 0
  schedSlot := none

/-- `Process::spawn_on`, with the pid or `0` and the request sent to another node. -/
def spawnOn (c : ProcNode) (name : Bytes) (nodeIp : Ip) (ticks : UInt64) :
    Option (ProcNode × UInt32 × Option Bytes) :=
  if !c.initialized then some (c, 0, none)
  else
    let type := parseType name
    if type = 0 then some (c, 0, none)
    else if nodeIp = 0 ∨ nodeIp = c.ip then
      (c.spawnLocal type name 0 ticks).map fun (c', pid) => (c', pid, none)
    else match c.findFree with
      | none => some (c, 0, none)
      -- The result of `send_udp` is not looked at: the entry stays either way.
      | some slot =>
        some ({ c.setProc slot (c.remoteEntry type name nodeIp ticks) with nextPid := c.nextPid + 1 },
          c.nextPid, some (spawnMessage type c.nextPid))

/-! ## Killing -/

/-- The first loop of `Process::kill`. -/
def findKillable (c : ProcNode) (pid : UInt32) : Option (Fin maxProcs) :=
  Fin.find? fun i => decide ((c.procs i).pid = pid ∧ ((c.procs i).state = .running ∨
    (c.procs i).state = .sleeping ∨ (c.procs i).state = .exiting))

/-- The stop flag, the scheduler task and the state of a local process; `schedSlot` is what the
caller leaves in the entry. -/
def stop (c : ProcNode) (i : Fin maxProcs) (schedSlot : Option Slot) : ProcNode :=
  { c.setProc i { c.procs i with state := .dead, schedSlot := schedSlot } with
    stopFlags := Function.update c.stopFlags i true
    sched := match (c.procs i).schedSlot with
      | some j => (killTask c.sched (UInt32.ofNat j.val)).1
      | none => c.sched }

/-- `Process::kill`, with the destination and the request for a process on another node. -/
def kill (c : ProcNode) (pid : UInt32) : ProcNode × Bool × Option (Ip × Bytes) :=
  match c.findKillable pid with
  | none => (c, false, none)
  | some i =>
    if (c.procs i).nodeIp = 0 then (c.stop i none, true, none)
    -- No branch of the cluster port takes the entry out of this state again.
    else (c.setProc i { c.procs i with state := .exiting }, true,
      some ((c.procs i).nodeIp, killMessage pid))

/-! ## Requests of other nodes -/

/-- `on_remote_spawn_request`, with the local pid and the reply. -/
def onRemoteSpawnRequest (c : ProcNode) (fromIp : Ip) (type : ProcType) (remotePid : UInt32)
    (ticks : UInt64) : Option (ProcNode × UInt32 × Bytes) :=
  (c.spawnLocal type (typeName type) fromIp ticks).map fun (c', localPid) =>
    (c', localPid, spawnedMessage remotePid localPid)

/-- The scan of `on_remote_kill_request`. -/
def findLocal (c : ProcNode) (pid : UInt32) : Option (Fin maxProcs) :=
  Fin.find? fun i => decide ((c.procs i).pid = pid ∧ (c.procs i).state = .running ∧
    (c.procs i).nodeIp = 0)

def onRemoteKillRequest (c : ProcNode) (pid : UInt32) : ProcNode :=
  match c.findLocal pid with
  | none => c
  | some i => c.stop i (c.procs i).schedSlot

/-- One pass of `status_report_entry`. -/
def cleanUp (c : ProcNode) : ProcNode :=
  { c with
    procs := fun i =>
      if (c.procs i).state = .dead ∧ (c.procs i).nodeIp = 0 then
        { c.procs i with state := .unused, pid := 0 } else c.procs i }

/-! ## Start -/

def emptyProc : ProcInfo where
  pid := 0
  type := 0
  state := .unused
  nodeIp := 0
  ownerIp := 0
  name := []
  startedAt := 0
  cpuTicks := 0
  schedSlot := none

/-- The addresses a kernel image and its network configuration give a node. -/
structure Image where
  ip : Ip
  taskStacks : UInt64
  taskEntryWrapper : Entry
  idleEntry : Entry
  statusReportEntry : Entry
  counterEntry : Entry
  stressEntry : Entry
  monitorEntry : Entry
  workerEntry : Entry

def procStatName : Bytes := "proc-stat".toUTF8.toList

/-- `Process::init` on a node whose scheduler has been started. -/
def init (m : Image) : ProcNode where
  ip := m.ip
  procs _ := emptyProc
  stopFlags _ := false
  nextPid := 1
  initialized := true
  sched := (createTask (Scheduler.init (loaded m.taskStacks m.taskEntryWrapper m.idleEntry))
    (some procStatName) m.statusReportEntry).1
  counterEntry := m.counterEntry
  stressEntry := m.stressEntry
  monitorEntry := m.monitorEntry
  workerEntry := m.workerEntry

end ProcNode

/-! ## Scans and names -/

theorem findFree_spec {c : ProcNode} {i : Fin maxProcs} (h : c.findFree = some i) :
    (c.procs i).state = .unused ∨ (c.procs i).state = .dead := by
  unfold ProcNode.findFree at h
  exact of_decide_eq_true (Fin.find?_eq_some_iff.mp h).1

theorem findKillable_spec {c : ProcNode} {pid : UInt32} {i : Fin maxProcs}
    (h : c.findKillable pid = some i) :
    (c.procs i).pid = pid ∧ ((c.procs i).state = .running ∨ (c.procs i).state = .sleeping ∨
      (c.procs i).state = .exiting) := by
  unfold ProcNode.findKillable at h
  exact of_decide_eq_true (Fin.find?_eq_some_iff.mp h).1

/-- Entry `i` is a process that runs on this node under `pid`. -/
def ProcNode.IsRunning (c : ProcNode) (pid : UInt32) (i : Fin maxProcs) : Prop :=
  (c.procs i).pid = pid ∧ (c.procs i).state = .running ∧ (c.procs i).nodeIp = 0

instance (c : ProcNode) (pid : UInt32) (i : Fin maxProcs) : Decidable (c.IsRunning pid i) :=
  inferInstanceAs (Decidable (_ ∧ _))

theorem findLocal_spec {c : ProcNode} {pid : UInt32} {i : Fin maxProcs}
    (h : c.findLocal pid = some i) : c.IsRunning pid i := by
  unfold ProcNode.findLocal at h
  exact of_decide_eq_true (Fin.find?_eq_some_iff.mp h).1

theorem findLocal_eq_none {c : ProcNode} {pid : UInt32} :
    c.findLocal pid = none ↔ ∀ i, ¬c.IsRunning pid i := by
  unfold ProcNode.findLocal ProcNode.IsRunning
  rw [Fin.find?_eq_none_iff]
  exact forall_congr' fun i => by simp

/-- A pid whose name can be built has at most seven digits. -/
theorem lt_of_fullName {name full : Bytes} {pid : UInt32} (h : fullName name pid = some full) :
    pid.toNat < 10 ^ 7 := by
  unfold fullName at h
  dsimp only at h
  split at h
  · rename_i hlen
    unfold decimal at hlen
    split at hlen
    · omega
    · rw [List.length_map, List.length_reverse] at hlen
      exact (Nat.lt_base_pow_length_digits (by omega)).trans_le
        (Nat.pow_le_pow_right (by omega) (by omega))
  · cases h

theorem fullName_isSome (name : Bytes) (pid : UInt32) :
    (fullName name pid).isSome ↔ pid.toNat < 10 ^ 7 := by
  constructor
  · intro h
    obtain ⟨full, hfull⟩ := Option.isSome_iff_exists.mp h
    exact lt_of_fullName hfull
  · intro hlt
    have hdigits := (Nat.digits_length_le_iff (by omega) pid.toNat).mpr hlt
    have hlen : (decimal pid.toNat).length < 8 := by
      unfold decimal
      split
      · decide
      · rw [List.length_map, List.length_reverse]
        omega
    unfold fullName
    rw [if_pos hlen]
    rfl

end QuillOS.Cluster
