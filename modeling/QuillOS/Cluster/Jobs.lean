import Mathlib.Data.Fintype.Basic
import QuillOS.Cluster.Wire

/-!
# Jobs

The execution engine of `djob.cpp`, the job history of `DJob` and the job side of `cluster.cpp`.
The console output is left out. What `Network::send_udp` answers is an input; a message counts as
sent when it answers true.
-/

namespace QuillOS.Cluster

open Lib

/-! ## Execution -/

abbrev JobType := UInt8

def jobSum : JobType := 1
def jobProduct : JobType := 2
def jobMax : JobType := 3
def jobPrime : JobType := 4
def jobEcho : JobType := 5

/-- The `i`-th 32-bit word of a payload. -/
def wordAt (data : Bytes) (i : ℕ) : UInt32 := readLe32 (data.drop (4 * i))

/-- The trial division of `JOB_PRIME` from divisor `j` on, for at most `fuel` turns. -/
def isPrime (i : UInt32) : ℕ → UInt32 → Option Bool
  | 0, _ => none
  | fuel + 1, j =>
    if j * j ≤ i then if i % j = 0 then some false else isPrime i fuel (j + 1) else some true

/-- The outer loop of `JOB_PRIME` from `i` on, for at most `fuel` turns. -/
def countPrimes (n : UInt32) : ℕ → UInt32 → UInt32 → Option UInt32
  | 0, _, _ => none
  | fuel + 1, i, primes =>
    if i ≤ n then do
      let prime ← isPrime i UInt32.size 2
      countPrimes n fuel (i + 1) (if prime then primes + 1 else primes)
    else some primes

/-- `Jobs::execute`; `none` when it never returns. A loop variable of 32 bits takes at most
`UInt32.size` values before it comes back to one it had. -/
def execute (type : JobType) (data : Bytes) (len : ℕ) : Option UInt32 :=
  let count := len / 4
  if type = jobSum then
    some ((List.range count).foldl (fun sum i => sum + wordAt data i) 0)
  else if type = jobProduct then
    some ((List.range count).foldl (fun prod i => prod * wordAt data i) 1)
  else if type = jobMax then
    some ((List.range count).foldl
      (fun mx i => if wordAt data i > mx then wordAt data i else mx) 0)
  else if type = jobPrime then
    if count = 0 then some 0
    else
      let n := wordAt data 0
      if n < 2 then some 0 else countPrimes n UInt32.size 2 0
  else if type = jobEcho then some (UInt32.ofNat len)
  else some 0

/-! ## The job history -/

inductive JobStatus
  | pending
  | running
  | completed
  | failed
  deriving DecidableEq, Repr

abbrev maxHistory : ℕ := 16
abbrev maxNodes : ℕ := 8

instance : NeZero maxHistory := ⟨by decide⟩

def maxPayload : ℕ := 240

structure Job where
  id : UInt32
  type : JobType
  status : JobStatus
  result : UInt32
  /-- `0` is the local node. -/
  targetIp : Ip
  submittedAt : UInt64
  completedAt : UInt64
  payload : Bytes
  payloadLen : ℕ
  deriving DecidableEq

structure NodeLoad where
  ip : Ip
  taskCount : UInt32
  lastUpdated : UInt64
  valid : Bool
  deriving DecidableEq

structure DJob where
  nodeLoads : Fin maxNodes → NodeLoad
  history : Fin maxHistory → Job
  historyWrite : Fin maxHistory
  historyCount : UInt32
  nextJobId : UInt32
  roundRobinCounter : UInt32
  initialized : Bool

namespace DJob

def emptyJob : Job where
  id := 0
  type := 0
  status := .pending
  result := 0
  targetIp := 0
  submittedAt := 0
  completedAt := 0
  payload := []
  payloadLen := 0

/-- `DJob::init` on zeroed memory. -/
def init : DJob where
  nodeLoads _ := { ip := 0, taskCount := 0, lastUpdated := 0, valid := false }
  history _ := emptyJob
  historyWrite := 0
  historyCount := 0
  nextJobId := 1
  roundRobinCounter := 0
  initialized := true

/-- The peers with a load report not older than 10000 ticks, in table order. -/
def candidates (d : DJob) (ticks : UInt64) : List NodeLoad :=
  ((List.finRange maxNodes).map d.nodeLoads).filter fun l =>
    l.valid && !decide (ticks - l.lastUpdated > 10000)

/-- `pick_target`, with the round-robin counter it leaves. -/
def pickTarget (d : DJob) (localLoad : UInt32) (ticks : UInt64) : Ip × UInt32 :=
  let peers := d.candidates ticks
  if peers.length = 0 then (0, d.roundRobinCounter)
  else match peers.find? fun l => l.taskCount < localLoad with
    | some l => (l.ip, d.roundRobinCounter)
    | none =>
      let counter := d.roundRobinCounter + 1
      -- The rotation starts over with the local node.
      let pick := counter.toNat % (1 + peers.length)
      if pick = 0 then (0, counter)
      else (((peers.map NodeLoad.ip)[(pick - 1) % peers.length]?).getD 0, counter)

/-- `record_job`: the entry is written at `historyWrite`. -/
def recordJob (d : DJob) (j : Job) : DJob :=
  { d with
    history := Function.update d.history d.historyWrite j
    historyWrite := d.historyWrite + 1
    historyCount := if d.historyCount.toNat < maxHistory then d.historyCount + 1
      else d.historyCount }

def findJob (d : DJob) (id : UInt32) : Option (Fin maxHistory) :=
  Fin.find? fun i => decide ((d.history i).id = id ∧ (d.history i).id ≠ 0)

def onRemoteResult (d : DJob) (jobId result : UInt32) (ticks : UInt64) : DJob :=
  match d.findJob jobId with
  | none => d
  | some i =>
    if (d.history i).status = .running then
      { d with
        history := Function.update d.history i
          { d.history i with result := result, status := .completed, completedAt := ticks } }
    else d

def updateNodeLoad (d : DJob) (ip : Ip) (taskCount : UInt32) (ticks : UInt64) : DJob :=
  match Fin.find? fun i => (d.nodeLoads i).valid && (d.nodeLoads i).ip == ip with
  | some i =>
    { d with
      nodeLoads := Function.update d.nodeLoads i
        { d.nodeLoads i with taskCount := taskCount, lastUpdated := ticks } }
  | none =>
    match Fin.find? fun i => !(d.nodeLoads i).valid with
    | some i =>
      { d with
        nodeLoads := Function.update d.nodeLoads i
          { ip := ip, taskCount := taskCount, lastUpdated := ticks, valid := true } }
    -- A full table drops the report.
    | none => d

end DJob

/-! ## The job side of a node -/

structure JobResult where
  jobId : UInt32
  completed : Bool
  result : UInt32
  deriving DecidableEq

/-- The variables of `DJob`, and those of `Cluster` that concern jobs. -/
structure JobNode where
  djob : DJob
  initialized : Bool
  nextJobId : UInt32
  lastResult : JobResult

namespace JobNode

/-- After `DJob::init` and `Cluster::init`, which stops early without a network card. -/
def init (present : Bool) : JobNode where
  djob := DJob.init
  initialized := present
  nextJobId := 1
  lastResult := { jobId := 0, completed := false, result := 0 }

/-- `Cluster::submit_job`, with the message if it was sent; then it returns true. -/
def submitJob (c : JobNode) (jobType : JobType) (data : Bytes) (sent : Bool) :
    JobNode × Option Bytes :=
  if !c.initialized || data.length > 240 then (c, none)
  else
    ({ c with nextJobId := c.nextJobId + 1, lastResult := { c.lastResult with completed := false } },
      if sent then some (submitMessage c.nextJobId jobType data) else none)

/-- The entry `record_job` writes, with the status and result `submit` leaves in it. -/
def newJob (c : JobNode) (type : JobType) (data : Bytes) (target : Ip) (ticks : UInt64)
    (status : JobStatus) (result : UInt32) : Job where
  id := c.djob.nextJobId
  type := type
  status := status
  result := result
  targetIp := target
  submittedAt := ticks
  completedAt := if status = .completed then ticks else 0
  payload := data.take maxPayload
  payloadLen := data.length

/-- What `submit` does to the counters before it records the job. -/
def drawId (c : JobNode) (counter : UInt32) : JobNode :=
  { c with djob := { c.djob with nextJobId := c.djob.nextJobId + 1, roundRobinCounter := counter } }

def record (c : JobNode) (j : Job) : JobNode := { c with djob := c.djob.recordJob j }

/-- `DJob::submit`, with the peer and the message if one was sent; `none` when the job runs here
and never ends. -/
def submit (c : JobNode) (type : JobType) (data : Bytes) (ticks : UInt64) (localLoad : UInt32)
    (sent : Bool) : Option (JobNode × Option (Ip × Bytes)) :=
  if !c.djob.initialized then some (c, none)
  else
    let (target, counter) := c.djob.pickTarget localLoad ticks
    if target = 0 then
      (execute type data data.length).map fun result =>
        ((c.drawId counter).record (c.newJob type data target ticks .completed result), none)
    -- `submit_job` draws an identifier of its own for the message.
    else match (c.drawId counter).submitJob type data sent with
      | (c', none) => some (c'.record (c.newJob type data target ticks .failed 0), none)
      | (c', some message) =>
        some (c'.record (c.newJob type data target ticks .running 0), some (target, message))

/-- `execute_job`: the reply, if the payload is long enough and the job ends. -/
def executeJob (payload : Bytes) : Option (Option Bytes) :=
  if payload.length < 5 then some none
  else
    (execute ((payload.drop 4).headD 0) (payload.drop 5) (payload.length - 5)).map fun result =>
      some (resultMessage (readLe32 payload) result)

/-- The branches of `cluster_udp_handler` that concern jobs: the node afterwards and the reply to
the sender; `none` when a received job never ends. -/
def handle (c : JobNode) (srcIp : Ip) (ticks : UInt64) : Received →
    Option (JobNode × Option Bytes)
  | .jobSubmit payload => (executeJob payload).map fun reply => (c, reply)
  | .jobResult rid rval =>
    some ({ c with
      lastResult := { jobId := rid, completed := true, result := rval }
      djob := c.djob.onRemoteResult rid rval ticks }, none)
  | .loadReport count => some ({ c with djob := c.djob.updateNodeLoad srcIp count ticks }, none)
  | _ => some (c, none)

end JobNode

end QuillOS.Cluster
