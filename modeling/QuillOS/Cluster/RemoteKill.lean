import QuillOS.Lib.Run
import QuillOS.Lib.Slots
import QuillOS.Cluster.Process
import QuillOS.Scheduler.Invariant

/-!
# Remote kill

Nodes that spawn and kill processes on each other. A kill request carries the pid its sender uses,
and the node that runs the process looks it up among its own pids.
-/

namespace QuillOS.Cluster

open Lib

/-! ## The system -/

/-- A datagram on its way. The number of the spawn request it belongs to is kept for the statements
only; no node reads it. -/
structure ProcPacket where
  src : Ip
  dst : Ip
  data : Bytes
  request : ℕ
  deriving DecidableEq

/-- `requests` counts the requests to spawn on another node, `tracked` is the request a tracking
entry was made for, and `started` the node that handled a request with the pid it gave the process.
No node reads them. -/
structure ProcSystem where
  nodes : Ip → ProcNode
  inFlight : List ProcPacket
  requests : ℕ
  tracked : Ip → Fin maxProcs → ℕ
  started : ℕ → Option (Ip × UInt32)

def ProcSystem.boot (image : Ip → ProcNode.Image) : ProcSystem where
  nodes n := ProcNode.init (image n)
  inFlight := []
  requests := 0
  tracked _ _ := 0
  started _ := none

inductive ProcOp
  /-- `Process::spawn_on` on node `n`. -/
  | spawn (n : Ip) (name : Bytes) (nodeIp : Ip) (ticks : UInt64)
  /-- `Process::kill` on node `n`. -/
  | kill (n : Ip) (pid : UInt32)
  | cleanUp (n : Ip)
  /-- The scheduler of node `n` takes a step. -/
  | schedule (n : Ip) (op : Scheduler.Op)
  /-- The `k`-th datagram in flight is handled. -/
  | deliver (k : ℕ) (ticks : UInt64)

namespace ProcSystem

def setNode (s : ProcSystem) (n : Ip) (c : ProcNode) : ProcSystem :=
  { s with nodes := Function.update s.nodes n c }

theorem setNode_self (s : ProcSystem) (n : Ip) (c : ProcNode) : (s.setNode n c).nodes n = c :=
  Function.update_self _ _ _

theorem setNode_of_ne (s : ProcSystem) {n m : Ip} (h : m ≠ n) (c : ProcNode) :
    (s.setNode n c).nodes m = s.nodes m := Function.update_of_ne h _ _

/-- The effect of a received message, with the reply and what is known of a spawned process. -/
def handle (c : ProcNode) (srcIp : Ip) (ticks : UInt64) : Received →
    Option (ProcNode × Option Bytes × Option UInt32)
  | .procSpawn type remotePid =>
    (c.onRemoteSpawnRequest srcIp type remotePid ticks).map fun (c', localPid, reply) =>
      (c', some reply, some localPid)
  | .procKill pid => some (c.onRemoteKillRequest pid, none, none)
  | _ => some (c, none, none)

def step (s : ProcSystem) : ProcOp → Option ProcSystem
  | .spawn n name nodeIp ticks =>
    ((s.nodes n).spawnOn name nodeIp ticks).map fun (c, _, out) =>
      match out, (s.nodes n).findFree with
      | some m, some slot =>
        { s.setNode n c with
          inFlight := s.inFlight ++ [⟨n, nodeIp, m, s.requests⟩]
          requests := s.requests + 1
          tracked := Function.update s.tracked n (Function.update (s.tracked n) slot s.requests) }
      | _, _ => s.setNode n c
  | .kill n pid =>
    let (c, _, out) := (s.nodes n).kill pid
    match out, (s.nodes n).findKillable pid with
    -- The request killed is the one the entry found was made for.
    | some (dst, m), some slot =>
      some { s.setNode n c with inFlight := s.inFlight ++ [⟨n, dst, m, s.tracked n slot⟩] }
    | _, _ => some (s.setNode n c)
  | .cleanUp n => some (s.setNode n (s.nodes n).cleanUp)
  | .schedule n op =>
    (Scheduler.step (s.nodes n).sched op).map fun sched =>
      s.setNode n { s.nodes n with sched := sched }
  | .deliver k ticks =>
    s.inFlight[k]?.bind fun p =>
      (handle (s.nodes p.dst) p.src ticks (receive p.data)).map fun (c, reply, localPid) =>
        { s.setNode p.dst c with
          inFlight := s.inFlight.eraseIdx k ++
            (reply.map fun m => ⟨p.dst, p.src, m, p.request⟩).toList
          started := match localPid with
            | some pid => Function.update s.started p.request (some (p.dst, pid))
            | none => s.started }

def Step (s : ProcSystem) (op : ProcOp) (t : ProcSystem) : Prop := s.step op = some t

end ProcSystem

/-! ## Pids of a node -/

/-- The entry of a process on another node. -/
def ProcInfo.IsRemote (p : ProcInfo) : Prop :=
  p.nodeIp ≠ 0 ∧ (p.state = .running ∨ p.state = .exiting)

instance (p : ProcInfo) : Decidable p.IsRemote := inferInstanceAs (Decidable (_ ∧ _))

def ProcInfo.IsLocal (p : ProcInfo) : Prop := p.nodeIp = 0 ∧ p.state = .running

namespace ProcNode

def remoteCount (c : ProcNode) : ℕ := (Finset.univ.filter fun i => (c.procs i).IsRemote).card

/-- Pids in use are below `next_pid`, local processes have different pids, and `next_pid` is too
small to wrap: a name with eight digits does not fit, and tracking entries are never freed. -/
structure Inv (c : ProcNode) : Prop where
  below : ∀ i, (c.procs i).pid.toNat < c.nextPid.toNat
  distinct : ∀ i j, (c.procs i).IsLocal → (c.procs j).IsLocal →
    (c.procs i).pid = (c.procs j).pid → i = j
  bound : c.nextPid.toNat ≤ 10 ^ 7 + c.remoteCount

theorem remoteCount_le (c : ProcNode) : c.remoteCount ≤ maxProcs := by
  unfold remoteCount
  exact (Finset.card_le_univ _).trans_eq (Fintype.card_fin _)

theorem Inv.no_wrap {c : ProcNode} (h : c.Inv) : (c.nextPid + 1).toNat = c.nextPid.toNat + 1 := by
  have hbound := h.bound
  have hcount : c.remoteCount ≤ 16 := c.remoteCount_le
  rw [UInt32.toNat_add]
  change (c.nextPid.toNat + 1) % 2 ^ 32 = _
  omega

theorem inv_init (m : Image) : (init m).Inv := by
  have hnone : ∀ i, ¬((init m).procs i).IsLocal := by
    rintro i ⟨-, h⟩
    cases h
  refine ⟨fun i => ?_, fun i j hi => absurd hi (hnone i), ?_⟩
  · change (0 : UInt32).toNat < (1 : UInt32).toNat
    decide
  · change (1 : UInt32).toNat ≤ _
    have : (1 : UInt32).toNat = 1 := rfl
    omega

/-- Operations that start nothing: entries lose their process or keep it. -/
theorem Inv.weaken {c c' : ProcNode} (h : c.Inv) (hnext : c'.nextPid = c.nextPid)
    (hpid : ∀ i, (c'.procs i).pid.toNat < c.nextPid.toNat)
    (hlocal : ∀ i, (c'.procs i).IsLocal → (c.procs i).IsLocal ∧ (c'.procs i).pid = (c.procs i).pid)
    (hremote : ∀ i, (c.procs i).IsRemote → (c'.procs i).IsRemote) : c'.Inv where
  below i := hnext ▸ hpid i
  distinct i j hi hj heq := by
    obtain ⟨hi, hpi⟩ := hlocal i hi
    obtain ⟨hj, hpj⟩ := hlocal j hj
    rw [hpi, hpj] at heq
    exact h.distinct i j hi hj heq
  bound := by
    rw [hnext]
    refine h.bound.trans (Nat.add_le_add_left (Finset.card_le_card fun i hi => ?_) _)
    rw [Finset.mem_filter] at hi ⊢
    exact ⟨hi.1, hremote i hi.2⟩

/-- A new entry under the next pid, in a slot that was free. -/
structure Spawned (c c' : ProcNode) (slot : Fin maxProcs) : Prop where
  free : c.findFree = some slot
  next : c'.nextPid = c.nextPid + 1
  pid : (c'.procs slot).pid = c.nextPid
  keep : ∀ i, i ≠ slot → c'.procs i = c.procs i
  bound : c.nextPid.toNat < 10 ^ 7 ∨ (c'.procs slot).IsRemote

theorem Spawned.of_update {c c' : ProcNode} {slot : Fin maxProcs} {info : ProcInfo}
    (hfree : c.findFree = some slot) (hnext : c'.nextPid = c.nextPid + 1)
    (hprocs : c'.procs = Function.update c.procs slot info) (hpid : info.pid = c.nextPid)
    (hbound : c.nextPid.toNat < 10 ^ 7 ∨ info.IsRemote) : Spawned c c' slot := by
  refine ⟨hfree, hnext, ?_, fun i hi => ?_, ?_⟩
  · rw [hprocs, Function.update_self, hpid]
  · rw [hprocs, Function.update_of_ne hi]
  · rwa [hprocs, Function.update_self]

theorem Inv.spawned {c c' : ProcNode} {slot : Fin maxProcs} (h : c.Inv) (hs : Spawned c c' slot) :
    c'.Inv := by
  have hnext : c'.nextPid.toNat = c.nextPid.toNat + 1 := by rw [hs.next, h.no_wrap]
  refine ⟨fun i => ?_, ?_, ?_⟩
  · rw [hnext]
    by_cases his : i = slot
    · rw [his, hs.pid]
      omega
    · rw [hs.keep i his]
      have := h.below i
      omega
  -- The new pid is above all those in use.
  · apply unique_of_others slot
    · intro i j his hjs hi hj heq
      rw [hs.keep i his] at hi heq
      rw [hs.keep j hjs] at hj heq
      exact h.distinct i j hi hj heq
    · intro i his _ _ heq
      have hlt := h.below i
      rw [hs.pid, hs.keep i his] at heq
      rw [heq] at hlt
      omega
  · rw [hnext]
    rcases hs.bound with hlt | hremote
    · omega
    -- The new tracking entry makes up for the pid that was drawn.
    · have hnot : ¬(c.procs slot).IsRemote := by
        rintro ⟨-, hst⟩
        rcases findFree_spec hs.free with hf | hf <;> rw [hf] at hst <;> simp at hst
      have hlt : c.remoteCount < c'.remoteCount := by
        refine Finset.card_lt_card (Finset.ssubset_iff_of_subset (fun i hi => ?_) |>.mpr
          ⟨slot, by simpa using hremote, by simpa using hnot⟩)
        rw [Finset.mem_filter] at hi ⊢
        have his : i ≠ slot := by
          rintro rfl
          exact hnot hi.2
        exact ⟨hi.1, by rw [hs.keep i his]; exact hi.2⟩
      have := h.bound
      omega

/-! ## What each operation does to a node -/

theorem spawnLocal_cases {c c' : ProcNode} {type : ProcType} {name : Bytes} {ownerIp : Ip}
    {ticks : UInt64} {pid : UInt32} (h : c.spawnLocal type name ownerIp ticks = some (c', pid)) :
    c' = c ∨ ∃ slot, Spawned c c' slot := by
  unfold spawnLocal at h
  split at h
  · exact .inl (Prod.mk.inj (Option.some.inj h)).1.symm
  rename_i slot hslot
  split at h
  · exact .inl (Prod.mk.inj (Option.some.inj h)).1.symm
  obtain ⟨full, hfull, h⟩ := Option.map_eq_some_iff.mp h
  have hlt := lt_of_fullName hfull
  dsimp only at h
  split at h
  all_goals
    obtain ⟨rfl, -⟩ := Prod.mk.inj h
    exact .inr ⟨slot, .of_update hslot rfl rfl rfl (.inl hlt)⟩

theorem spawnOn_cases {c c' : ProcNode} {name : Bytes} {nodeIp : Ip} {ticks : UInt64}
    {pid : UInt32} {out : Option Bytes} (h : c.spawnOn name nodeIp ticks = some (c', pid, out)) :
    c' = c ∨ ∃ slot, Spawned c c' slot := by
  unfold spawnOn at h
  split at h
  · exact .inl (Prod.mk.inj (Option.some.inj h)).1.symm
  dsimp only at h
  split at h
  · exact .inl (Prod.mk.inj (Option.some.inj h)).1.symm
  split at h
  · obtain ⟨⟨d, q⟩, hlocal, heq⟩ := Option.map_eq_some_iff.mp h
    obtain ⟨rfl, -⟩ := Prod.mk.inj heq
    exact spawnLocal_cases hlocal
  rename_i hip
  split at h
  · exact .inl (Prod.mk.inj (Option.some.inj h)).1.symm
  rename_i slot hslot
  obtain ⟨rfl, -⟩ := Prod.mk.inj (Option.some.inj h)
  exact .inr ⟨slot, .of_update hslot rfl rfl rfl (.inr ⟨fun h0 => hip (.inl h0), .inl rfl⟩)⟩

theorem stop_procs (c : ProcNode) (i : Fin maxProcs) (schedSlot : Option Scheduler.Slot) :
    (c.stop i schedSlot).procs =
      Function.update c.procs i { c.procs i with state := .dead, schedSlot := schedSlot } := rfl

theorem Inv.stop {c : ProcNode} (h : c.Inv) {i : Fin maxProcs} (hlocal : (c.procs i).nodeIp = 0)
    (schedSlot : Option Scheduler.Slot) : (c.stop i schedSlot).Inv := by
  refine h.weaken rfl (fun j => ?_) (fun j hj => ?_) (fun j hj => ?_)
  all_goals rw [stop_procs] at *
  all_goals by_cases hji : j = i
  · subst hji
    rw [Function.update_self]
    exact h.below j
  · rw [Function.update_of_ne hji]
    exact h.below j
  · subst hji
    rw [Function.update_self] at hj
    cases hj.2
  · rw [Function.update_of_ne hji] at hj ⊢
    exact ⟨hj, rfl⟩
  · subst hji
    exact absurd hlocal hj.1
  · rwa [Function.update_of_ne hji]

theorem Inv.kill {c : ProcNode} (h : c.Inv) (pid : UInt32) : (c.kill pid).1.Inv := by
  unfold ProcNode.kill
  split
  · exact h
  rename_i i hi
  obtain ⟨-, hst⟩ := findKillable_spec hi
  split
  · exact h.stop (by assumption) none
  rename_i hip
  refine h.weaken rfl (fun j => ?_) (fun j hj => ?_) (fun j hj => ?_)
  all_goals by_cases hji : j = i
  · subst hji
    rw [setProc_self]
    exact h.below j
  · rw [setProc_of_ne c hji]
    exact h.below j
  · subst hji
    rw [setProc_self] at hj
    cases hj.2
  · rw [setProc_of_ne c hji] at hj ⊢
    exact ⟨hj, rfl⟩
  · subst hji
    rw [setProc_self]
    exact ⟨hip, .inr rfl⟩
  · rwa [setProc_of_ne c hji]

theorem Inv.onRemoteKillRequest {c : ProcNode} (h : c.Inv) (pid : UInt32) :
    (c.onRemoteKillRequest pid).Inv := by
  unfold ProcNode.onRemoteKillRequest
  split
  · exact h
  · rename_i i hi
    exact h.stop (findLocal_spec hi).2.2 _

theorem Inv.cleanUp {c : ProcNode} (h : c.Inv) : c.cleanUp.Inv := by
  have hpos : 0 < c.nextPid.toNat := (Nat.zero_le _).trans_lt (h.below 0)
  refine h.weaken rfl (fun j => ?_) (fun j hj => ?_) (fun j hj => ?_)
  all_goals unfold ProcNode.cleanUp at *
  all_goals dsimp only at *
  · split
    · exact hpos
    · exact h.below j
  · split at hj
    · cases hj.2
    · rename_i hdead
      rw [if_neg hdead]
      exact ⟨hj, rfl⟩
  · rw [if_neg fun hdead => hj.1 hdead.2]
    exact hj

end ProcNode

namespace ProcSystem

/-! ## Every reachable node -/

def Inv (s : ProcSystem) : Prop := ∀ n, (s.nodes n).Inv

theorem Inv.setNode {s : ProcSystem} (h : s.Inv) {n : Ip} {c : ProcNode} (hc : c.Inv) :
    (s.setNode n c).Inv := by
  intro m
  by_cases hm : m = n
  · subst hm
    rwa [setNode_self]
  · rw [setNode_of_ne s hm]
    exact h m

/-- A request runs `spawn_local` for the node it came from. -/
theorem handle_procSpawn {c c' : ProcNode} {srcIp : Ip} {ticks : UInt64} {type : ProcType}
    {pid : UInt32} {reply : Option Bytes} {localPid : Option UInt32}
    (h : handle c srcIp ticks (.procSpawn type pid) = some (c', reply, localPid)) :
    ∃ started, c.spawnLocal type (typeName type) srcIp ticks = some (c', started) := by
  obtain ⟨⟨d, q, bytes⟩, hspawn, heq⟩ := Option.map_eq_some_iff.mp h
  obtain ⟨rfl, -⟩ := Prod.mk.inj heq
  obtain ⟨⟨d', started⟩, hlocal, heq⟩ := Option.map_eq_some_iff.mp hspawn
  obtain ⟨rfl, -⟩ := Prod.mk.inj heq
  exact ⟨started, hlocal⟩

theorem inv_handle {c c' : ProcNode} {srcIp : Ip} {ticks : UInt64} {m : Received}
    {reply : Option Bytes} {localPid : Option UInt32} (h : c.Inv)
    (hstep : handle c srcIp ticks m = some (c', reply, localPid)) : c'.Inv := by
  cases m with
  | procSpawn type pid =>
    obtain ⟨started, hlocal⟩ := handle_procSpawn hstep
    rcases ProcNode.spawnLocal_cases hlocal with rfl | ⟨slot, hs⟩
    · exact h
    · exact h.spawned hs
  | procKill pid =>
    obtain ⟨rfl, -⟩ := Prod.mk.inj (Option.some.inj hstep)
    exact h.onRemoteKillRequest _
  | _ =>
    obtain ⟨rfl, -⟩ := Prod.mk.inj (Option.some.inj hstep)
    exact h

theorem inv_step {s t : ProcSystem} {op : ProcOp} (h : s.Inv) (hstep : s.Step op t) : t.Inv := by
  cases op with
  | spawn n name nodeIp ticks =>
    obtain ⟨⟨c, pid, out⟩, hspawn, rfl⟩ := Option.map_eq_some_iff.mp hstep
    have hc : c.Inv := by
      rcases ProcNode.spawnOn_cases hspawn with rfl | ⟨slot, hs⟩
      · exact h n
      · exact (h n).spawned hs
    dsimp only
    split <;> exact h.setNode hc
  | kill n pid =>
    have hc := (h n).kill pid
    unfold Step step at hstep
    dsimp only at hstep
    split at hstep
    all_goals
      obtain rfl := Option.some.inj hstep
      exact h.setNode hc
  | cleanUp n =>
    obtain rfl := Option.some.inj hstep
    exact h.setNode (h n).cleanUp
  | schedule n op =>
    obtain ⟨sched, -, rfl⟩ := Option.map_eq_some_iff.mp hstep
    exact h.setNode ((h n).weaken rfl (h n).below (fun _ hi => ⟨hi, rfl⟩) fun _ hi => hi)
  | deliver k ticks =>
    obtain ⟨p, -, hstep⟩ := Option.bind_eq_some_iff.mp hstep
    obtain ⟨⟨c, reply, localPid⟩, hhandle, rfl⟩ := Option.map_eq_some_iff.mp hstep
    exact h.setNode (inv_handle (h p.dst) hhandle)

theorem inv_of_run {image : Ip → ProcNode.Image} {s : ProcSystem} {ops : List ProcOp}
    (h : Run Step (boot image) ops s) : s.Inv :=
  h.invariant Inv (fun n => ProcNode.inv_init (image n)) fun _ _ _ hinv hstep =>
    inv_step hinv hstep

end ProcSystem

/-! ## What a remote kill hits -/

namespace ProcNode

/-- Of the processes and the tasks of a node exactly the process `pid` is ended, if it runs. -/
structure TerminatesOnly (c c' : ProcNode) (pid : UInt32) : Prop where
  own : ∀ i, c.IsRunning pid i → (c'.procs i).state = .dead
  other : ∀ i, ¬c.IsRunning pid i → c'.procs i = c.procs i
  tasks : ∀ j, c'.sched.tasks j ≠ c.sched.tasks j →
    ∃ i, c.IsRunning pid i ∧ (c.procs i).schedSlot = some j

/-- The pid in a kill request is the one this node gave the process, or neither is in use. -/
def PidsAgree (c : ProcNode) (started killed : UInt32) : Prop :=
  started = killed ∨ ∀ i, ¬c.IsRunning started i ∧ ¬c.IsRunning killed i

instance (c : ProcNode) (started killed : UInt32) : Decidable (c.PidsAgree started killed) :=
  inferInstanceAs (Decidable (_ ∨ _))

theorem Inv.running_inj {c : ProcNode} (h : c.Inv) {pid : UInt32} {i j : Fin maxProcs}
    (hi : c.IsRunning pid i) (hj : c.IsRunning pid j) : i = j :=
  h.distinct i j ⟨hi.2.2, hi.2.1⟩ ⟨hj.2.2, hj.2.1⟩ (hi.1.trans hj.1.symm)

/-- Stopping a process touches no scheduler task but its own. -/
theorem stop_tasks {c : ProcNode} {i : Fin maxProcs} {schedSlot : Option Scheduler.Slot}
    {j : Scheduler.Slot} (h : (c.stop i schedSlot).sched.tasks j ≠ c.sched.tasks j) :
    (c.procs i).schedSlot = some j := by
  cases hslot : (c.procs i).schedSlot with
  | none =>
    simp only [stop, hslot] at h
    exact absurd rfl h
  | some k =>
    simp only [stop, hslot] at h
    have hk : (UInt32.ofNat k.val).toNat = k.val :=
      UInt32.toNat_ofNat_of_lt' (k.isLt.trans (by decide))
    by_contra hne
    refine h (Scheduler.killTask_tasks_of_ne fun hj => hne ?_)
    rw [Fin.ext (hk.symm.trans hj)]

/-- A kill request ends the process of the spawn request and nothing else exactly when the two
pids agree. -/
theorem Inv.terminatesOnly_iff {c : ProcNode} (h : c.Inv) (started killed : UInt32) :
    TerminatesOnly c (c.onRemoteKillRequest killed) started ↔ c.PidsAgree started killed := by
  unfold ProcNode.onRemoteKillRequest
  cases hfind : c.findLocal killed with
  | none =>
    have hnone := findLocal_eq_none.mp hfind
    constructor
    · intro ht
      refine .inr fun i => ⟨fun hi => ?_, hnone i⟩
      have hdead := ht.own i hi
      dsimp only at hdead
      rw [hi.2.1] at hdead
      cases hdead
    · intro hagree
      have hnot : ∀ i, ¬c.IsRunning started i := by
        rcases hagree with rfl | hagree
        · exact hnone
        · exact fun i => (hagree i).1
      exact ⟨fun i hi => absurd hi (hnot i), fun _ _ => rfl, fun _ hj => absurd rfl hj⟩
  | some i =>
    have hi := findLocal_spec hfind
    constructor
    · intro ht
      -- The entry that was found is ended, so it must be the one of the spawn request.
      left
      by_contra hne
      have hkeep := ht.other i fun hs => hne (hs.1.symm.trans hi.1)
      dsimp only at hkeep
      rw [stop_procs, Function.update_self] at hkeep
      have hstate := congrArg ProcInfo.state hkeep
      rw [hi.2.1] at hstate
      cases hstate
    · intro hagree
      have heq : started = killed := hagree.resolve_right fun hnone => (hnone i).2 hi
      subst heq
      refine ⟨fun j hj => ?_, fun j hj => ?_, fun j hj => ⟨i, hi, stop_tasks hj⟩⟩
      · obtain rfl := h.running_inj hi hj
        dsimp only
        rw [stop_procs, Function.update_self]
      · have hji : j ≠ i := by
          rintro rfl
          exact hj hi
        dsimp only
        rw [stop_procs, Function.update_of_ne hji]

end ProcNode

namespace ProcSystem

/-- In every run, whenever a node handles the request to kill a process after the request to spawn
it, that process and nothing else is ended if and only if the pid in the request is the one the
node gave the process, or neither pid is in use. -/
theorem remote_kill_iff (image : Ip → ProcNode.Image) (ops : List ProcOp) (s t : ProcSystem)
    (hrun : Run Step (boot image) ops s) (k : ℕ) (ticks : UInt64) (p : ProcPacket)
    (killed started : UInt32) (hp : s.inFlight[k]? = some p)
    (hkill : receive p.data = .procKill killed)
    (_hstarted : s.started p.request = some (p.dst, started))
    (hstep : s.Step (.deliver k ticks) t) :
    ((s.nodes p.dst).TerminatesOnly (t.nodes p.dst) started ∧
        ∀ n, n ≠ p.dst → t.nodes n = s.nodes n) ↔
      (s.nodes p.dst).PidsAgree started killed := by
  obtain ⟨p', hp', hstep⟩ := Option.bind_eq_some_iff.mp hstep
  obtain rfl : p = p' := Option.some.inj (hp.symm.trans hp')
  obtain ⟨⟨c, reply, localPid⟩, hhandle, rfl⟩ := Option.map_eq_some_iff.mp hstep
  rw [hkill] at hhandle
  obtain ⟨rfl, -⟩ := Prod.mk.inj (Option.some.inj hhandle)
  have hiff := (inv_of_run hrun p.dst).terminatesOnly_iff started killed
  refine Iff.trans ?_ hiff
  have hself := s.setNode_self p.dst ((s.nodes p.dst).onRemoteKillRequest killed)
  exact ⟨fun ⟨ht, _⟩ => hself ▸ ht, fun ht => ⟨hself.symm ▸ ht, fun n hn => s.setNode_of_ne hn _⟩⟩

/-! ## Where the counters coincide, and where they do not -/

/-- Node `n` with its own address, and entry functions somewhere in the image. -/
def sampleImage (n : Ip) : ProcNode.Image where
  ip := n
  taskStacks := 0x100000
  taskEntryWrapper := 0x1000
  idleEntry := 0x2000
  statusReportEntry := 0x3000
  counterEntry := 0x4000
  stressEntry := 0x5000
  monitorEntry := 0x6000
  workerEntry := 0x7000

/-- Node 1 starts a process on node 2 and kills it. -/
def agreeingOps : List ProcOp :=
  [.spawn 1 counterName 2 0, .deliver 0 0, .kill 1 1]

@[irreducible] def agreeing : ProcSystem :=
  (exec step (boot sampleImage) agreeingOps).get (by decide +kernel)

theorem agreeing_run : Run Step (boot sampleImage) agreeingOps agreeing := by
  unfold agreeing
  exact run_get _

@[irreducible] def agreeingNext : ProcSystem :=
  (agreeing.step (.deliver 1 0)).get (by decide +kernel)

theorem agreeingNext_step : agreeing.Step (.deliver 1 0) agreeingNext := by
  unfold agreeingNext
  exact (Option.some_get _).symm

theorem remote_kill_iff_agreeing :
    ((agreeing.nodes 2).TerminatesOnly (agreeingNext.nodes 2) 1 ∧
        ∀ n, n ≠ 2 → agreeingNext.nodes n = agreeing.nodes n) ↔
      (agreeing.nodes 2).PidsAgree 1 1 :=
  remote_kill_iff sampleImage agreeingOps agreeing agreeingNext agreeing_run 1 0
    ⟨1, 2, killMessage 1, 0⟩ 1 1 (by decide +kernel) (by decide +kernel) (by decide +kernel)
    agreeingNext_step

/-- Node 2 has started a process of its own, so it gives the one node 1 asks for the pid 2. -/
def crossedOps : List ProcOp :=
  [.spawn 2 counterName 0 0, .spawn 1 counterName 2 0, .deliver 0 0, .kill 1 1]

@[irreducible] def crossed : ProcSystem :=
  (exec step (boot sampleImage) crossedOps).get (by decide +kernel)

theorem crossed_run : Run Step (boot sampleImage) crossedOps crossed := by
  unfold crossed
  exact run_get _

@[irreducible] def crossedNext : ProcSystem :=
  (crossed.step (.deliver 1 0)).get (by decide +kernel)

theorem crossedNext_step : crossed.Step (.deliver 1 0) crossedNext := by
  unfold crossedNext
  exact (Option.some_get _).symm

/-- The kill request of node 1 ends node 2's own process and leaves the requested one running. -/
theorem kill_hits_other_process :
    Run Step (boot sampleImage) crossedOps crossed ∧
      crossed.inFlight[1]? = some ⟨1, 2, killMessage 1, 0⟩ ∧
      receive (killMessage 1) = .procKill 1 ∧ crossed.started 0 = some (2, 2) ∧
      crossed.Step (.deliver 1 0) crossedNext ∧
      (crossed.nodes 2).IsRunning 2 1 ∧ (crossedNext.nodes 2).IsRunning 2 1 ∧
      (crossed.nodes 2).IsRunning 1 0 ∧ ¬(crossedNext.nodes 2).IsRunning 1 0 ∧
      ¬(crossed.nodes 2).TerminatesOnly (crossedNext.nodes 2) 2 := by
  have hstill : (crossedNext.nodes 2).IsRunning 2 1 := by decide +kernel
  have hown : (crossed.nodes 2).IsRunning 2 1 := by decide +kernel
  refine ⟨crossed_run, by decide +kernel, by decide +kernel, by decide +kernel, crossedNext_step,
    hown, hstill, by decide +kernel, by decide +kernel, fun ht => ?_⟩
  have hdead := ht.own 1 hown
  rw [hstill.2.1] at hdead
  cases hdead

end ProcSystem

end QuillOS.Cluster
