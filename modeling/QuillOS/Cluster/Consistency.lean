import QuillOS.Cluster.RemoteKill
import QuillOS.Scheduler.Invariant

/-!
# The process table and the scheduler

The two tables of a node are linked by the slot numbers that the process table holds. Whatever is
spawned, killed and scheduled in whatever order, a local process names a task of its own, as long as
every pid a local process is to get has room in the buffer its name is made from.
-/

namespace QuillOS.Scheduler

variable {s : State} {j : Slot}

/-- The slot holds a task that has neither been freed nor returned. -/
def Alive (s : State) (j : Slot) : Prop :=
  (s.tasks j).state ≠ .unused ∧ (s.tasks j).state ≠ .dead

instance (s : State) (j : Slot) : Decidable (Alive s j) := inferInstanceAs (Decidable (_ ∧ _))

theorem Alive.congr {t : State} (h : Alive s j) (hstate : (t.tasks j).state = (s.tasks j).state) :
    Alive t j := by
  unfold Alive
  rw [hstate]
  exact h

theorem Alive.doSchedule (h : Alive s j) (r : UInt64) : Alive (doSchedule s r).1 j := by
  unfold Alive
  rw [doSchedule_state, saveCurrent_state]
  split
  · exact ⟨by decide, by decide⟩
  · split
    · exact ⟨by decide, by decide⟩
    · exact h

/-- The loops of a tick free dead slots only. -/
theorem tickState_alive (h : Alive s j) : tickState s j ≠ .unused ∧ tickState s j ≠ .dead := by
  unfold tickState
  split
  · exact ⟨by decide, by decide⟩
  · rw [if_neg fun hdead => h.2 hdead.1]
    exact h

theorem Alive.timerTick (h : Alive s j) (r : UInt64) : Alive (timerTick s r).1 j := by
  cases hinit : s.initialized with
  | false =>
    unfold Scheduler.timerTick
    rw [hinit]
    exact h
  | true =>
    obtain ⟨t, -, hstate, hcases⟩ := timerTick_cases s r hinit
    have ht : Alive t j := by
      unfold Alive
      rw [hstate]
      exact tickState_alive h
    rcases hcases with heq | ⟨heq, -⟩
    · rw [heq]
      exact ht.doSchedule r
    · rw [heq]
      exact ht

theorem timerTick_idleTaskId (s : State) (r : UInt64) :
    (timerTick s r).1.idleTaskId = s.idleTaskId := by
  cases hinit : s.initialized with
  | false =>
    unfold timerTick
    rw [hinit]
    rfl
  | true =>
    obtain ⟨t, hsame, -, heq | ⟨heq, -⟩⟩ := timerTick_cases s r hinit
    · rw [heq, doSchedule_idleTaskId, hsame.idleTaskId]
    · rw [heq, hsame.idleTaskId]

theorem Alive.yield (h : Alive s j) (r : UInt64) : Alive (yield s r).1 j := by
  unfold Scheduler.yield
  split
  · exact h
  · exact h.doSchedule r

theorem yield_idleTaskId (s : State) (r : UInt64) : (yield s r).1.idleTaskId = s.idleTaskId := by
  unfold yield
  split
  · rfl
  · exact doSchedule_idleTaskId s r

/-- `sleep_ms` of the current task, with no interrupt between its stores and the switch. -/
def sleepMs (s : State) (ms : UInt32) (currentRsp : UInt64) : State × UInt64 :=
  if !s.initialized then (s, currentRsp)
  else yield (sleepSetState (sleepSetWake s ms)) currentRsp

theorem Alive.sleepMs (h : Alive s j) (ms : UInt32) (r : UInt64) : Alive (sleepMs s ms r).1 j := by
  unfold Scheduler.sleepMs
  split
  · exact h
  · apply Alive.yield
    have hwake : Alive (sleepSetWake s ms) j := by
      apply h.congr
      unfold sleepSetWake
      by_cases hj : j = s.currentTask <;> simp [hj]
    unfold Alive sleepSetState
    rw [State.setState_state]
    split
    · exact ⟨by decide, by decide⟩
    · exact hwake

theorem sleepMs_idleTaskId (s : State) (ms : UInt32) (r : UInt64) :
    (sleepMs s ms r).1.idleTaskId = s.idleTaskId := by
  unfold sleepMs
  split
  · rfl
  · rw [yield_idleTaskId]
    rfl

theorem Alive.createTask (h : Alive s j) (name : Option (List UInt8)) (entry : Entry) :
    Alive (createTask s name entry).1 j := by
  apply h.congr
  rw [createTask_tasks_of_ne fun hj => h.1 (unused_of_createTask hj)]

/-- `kill_task` on a slot in use that is neither 0 nor idle frees that slot and no other. -/
theorem killTask_alive (h : Alive s j) (hzero : j ≠ 0) (hidle : j ≠ s.idleTaskId) :
    (killTask s (UInt32.ofNat j.val)).1 = decrCount (s.setState j .unused) := by
  have hj : (UInt32.ofNat j.val).toNat = j.val :=
    UInt32.toNat_ofNat_of_lt' (j.isLt.trans (by decide))
  have hlt : (UInt32.ofNat j.val).toNat < maxTasks := hj.trans_lt j.isLt
  have hslot : (⟨(UInt32.ofNat j.val).toNat, hlt⟩ : Slot) = j := Fin.ext hj
  unfold killTask
  rw [dif_pos hlt]
  simp only [hslot]
  rw [if_neg hzero, if_neg hidle, if_neg h.1]

end QuillOS.Scheduler

namespace QuillOS.Cluster

open Lib Scheduler

/-! ## Looking processes up -/

/-- An entry that stands for a process. -/
def ProcInfo.Live (p : ProcInfo) : Prop :=
  p.state = .running ∨ p.state = .sleeping ∨ p.state = .exiting

instance (p : ProcInfo) : Decidable p.Live := inferInstanceAs (Decidable (_ ∨ _))

theorem ProcInfo.live_iff (p : ProcInfo) : p.Live ↔ p.state ≠ .unused ∧ p.state ≠ .dead := by
  unfold ProcInfo.Live
  cases p.state <;> simp

namespace ProcNode

/-- `Process::count`. -/
def count (c : ProcNode) : ℕ := (List.finRange maxProcs).countP fun i => decide (c.procs i).Live

/-- The loop of `get_by_index`, `passed` processes in. -/
def getByIndexFrom (c : ProcNode) (idx : ℕ) : ℕ → List (Fin maxProcs) → Option (Fin maxProcs)
  | _, [] => none
  | passed, i :: is =>
    if (c.procs i).state ≠ .unused ∧ (c.procs i).state ≠ .dead then
      if passed = idx then some i else getByIndexFrom c idx (passed + 1) is
    else getByIndexFrom c idx passed is

/-- `Process::get_by_index`; `none` is the null pointer. -/
def getByIndex (c : ProcNode) (idx : UInt32) : Option (Fin maxProcs) :=
  c.getByIndexFrom idx.toNat 0 (List.finRange maxProcs)

theorem getByIndexFrom_isSome (c : ProcNode) {idx passed : ℕ} (is : List (Fin maxProcs))
    (h : passed ≤ idx) : (c.getByIndexFrom idx passed is).isSome ↔
      idx < passed + is.countP fun i => decide (c.procs i).Live := by
  induction is generalizing passed with
  | nil => simp [getByIndexFrom, h]
  | cons i is ih =>
    unfold getByIndexFrom
    rw [List.countP_cons, if_congr (ProcInfo.live_iff _).symm rfl rfl]
    by_cases hlive : (c.procs i).Live
    · rw [if_pos hlive, if_pos (decide_eq_true hlive)]
      split
      · next hhere =>
        rw [hhere]
        simp
      · next hhere =>
        rw [ih (by omega)]
        omega
    · rw [if_neg hlive, if_neg (by simpa using hlive), ih h]
      omega

/-- `get_by_index` finds a process exactly below `count`. -/
theorem getByIndex_isSome (c : ProcNode) (idx : UInt32) :
    (c.getByIndex idx).isSome ↔ idx.toNat < c.count := by
  have h := c.getByIndexFrom_isSome (List.finRange maxProcs) (Nat.zero_le idx.toNat)
  rwa [Nat.zero_add] at h

/-! ## Operations -/

/-- What can happen on a node. -/
inductive TableOp
  | spawnOn (name : Bytes) (nodeIp : Ip) (ticks : UInt64)
  | onRemoteSpawnRequest (fromIp : Ip) (type : ProcType) (remotePid : UInt32) (ticks : UInt64)
  | kill (pid : UInt32)
  | onRemoteKillRequest (pid : UInt32)
  | cleanUp
  | timerTick (now currentRsp : UInt64)
  | yield (currentRsp : UInt64)
  | sleepMs (ms : UInt32) (currentRsp : UInt64)
  /-- Another part of the kernel starts a task. -/
  | createTask (name : Bytes) (entry : Entry)

/-- `none` is a write past the end of `pbuf[8]`. -/
def apply (c : ProcNode) : TableOp → Option ProcNode
  | .spawnOn name nodeIp ticks => (c.spawnOn name nodeIp ticks).map Prod.fst
  | .onRemoteSpawnRequest fromIp type remotePid ticks =>
    (c.onRemoteSpawnRequest fromIp type remotePid ticks).map Prod.fst
  | .kill pid => some (c.kill pid).1
  | .onRemoteKillRequest pid => some (c.onRemoteKillRequest pid)
  | .cleanUp => some c.cleanUp
  | .timerTick now rsp => some { c with sched := (timerTick { c.sched with ticks := now } rsp).1 }
  | .yield rsp => some { c with sched := (yield c.sched rsp).1 }
  | .sleepMs ms rsp => some { c with sched := (sleepMs c.sched ms rsp).1 }
  | .createTask name entry => some { c with sched := (createTask c.sched (some name) entry).1 }

def Step (c : ProcNode) (op : TableOp) (c' : ProcNode) : Prop := c.apply op = some c'

def TableOp.isSpawn : TableOp → Bool
  | .spawnOn _ _ _ => true
  | .onRemoteSpawnRequest _ _ _ _ => true
  | _ => false

/-! ## Room for the pid -/

/-- A process that gets as far as its name has a pid of at most seven digits. -/
def PidFits (c : ProcNode) (type : ProcType) : Prop :=
  c.findFree.isSome → (c.getEntry type).isSome → c.nextPid.toNat < 10 ^ 7

/-- No process is spawned on this node under a pid that is too long. -/
def TableOp.Fits (c : ProcNode) : TableOp → Prop
  | .spawnOn name nodeIp _ =>
    c.initialized = true → nodeIp = 0 ∨ nodeIp = c.ip → c.PidFits (parseType name)
  | .onRemoteSpawnRequest _ type _ _ => c.PidFits type
  | _ => True

theorem spawnLocal_isSome (c : ProcNode) (type : ProcType) (name : Bytes) (ownerIp : Ip)
    (ticks : UInt64) : (c.spawnLocal type name ownerIp ticks).isSome ↔ c.PidFits type := by
  unfold spawnLocal PidFits
  cases c.findFree with
  | none => simp
  | some slot =>
    cases c.getEntry type with
    | none => simp
    | some entry => simp [fullName_isSome]

theorem spawnOn_isSome (c : ProcNode) (name : Bytes) (nodeIp : Ip) (ticks : UInt64) :
    (c.spawnOn name nodeIp ticks).isSome ↔ (TableOp.spawnOn name nodeIp ticks).Fits c := by
  unfold spawnOn TableOp.Fits
  dsimp only
  split_ifs with hinit htype hlocal
  · rw [Bool.not_eq_true'] at hinit
    simp [hinit]
  · -- No process has the type of an unknown name.
    rw [htype]
    refine iff_of_true rfl fun _ _ _ hentry => ?_
    cases hentry
  · rw [Bool.not_eq_true', Bool.not_eq_false] at hinit
    rw [Option.isSome_map, spawnLocal_isSome]
    simp [hinit, hlocal]
  · cases c.findFree <;> simp [hlocal]

theorem apply_isSome (c : ProcNode) (op : TableOp) : (c.apply op).isSome ↔ op.Fits c := by
  cases op with
  | spawnOn name nodeIp ticks =>
    unfold apply
    rw [Option.isSome_map, spawnOn_isSome]
  | onRemoteSpawnRequest fromIp type remotePid ticks =>
    unfold apply onRemoteSpawnRequest
    rw [Option.isSome_map, Option.isSome_map, spawnLocal_isSome]
    rfl
  | _ => exact iff_of_true rfl trivial

/-! ## The invariant -/

/-- The entry of a process that runs on this node. -/
def RunsHere (c : ProcNode) (i : Fin maxProcs) : Prop :=
  (c.procs i).state = .running ∧ (c.procs i).nodeIp = 0

instance (c : ProcNode) (i : Fin maxProcs) : Decidable (c.RunsHere i) :=
  inferInstanceAs (Decidable (_ ∧ _))

/-- Processes have pids of their own, and those of this node tasks of their own. -/
structure Consistent (c : ProcNode) : Prop where
  pid_pos : ∀ i, (c.procs i).Live → (c.procs i).pid ≠ 0
  distinct : ∀ i j, (c.procs i).Live → (c.procs j).Live → (c.procs i).pid = (c.procs j).pid → i = j
  slot : ∀ i, c.RunsHere i → ∃ j, (c.procs i).schedSlot = some j ∧ j ≠ 0 ∧
    j ≠ c.sched.idleTaskId ∧ Alive c.sched j
  slot_inj : ∀ i i', c.RunsHere i → c.RunsHere i' →
    (c.procs i).schedSlot = (c.procs i').schedSlot → i = i'

/-- Besides: pids in use are below `next_pid`, only processes of other nodes are in a state between
running and dead, and the idle task is there. -/
structure TableInv (c : ProcNode) : Prop extends Consistent c where
  below : ∀ i, (c.procs i).Live → (c.procs i).pid.toNat < c.nextPid.toNat
  next_pos : 0 < c.nextPid.toNat
  running : ∀ i, (c.procs i).Live → (c.procs i).nodeIp = 0 → (c.procs i).state = .running
  idle : Alive c.sched c.sched.idleTaskId

theorem RunsHere.live {c : ProcNode} {i : Fin maxProcs} (h : c.RunsHere i) : (c.procs i).Live :=
  Or.inl h.1

theorem RunsHere.congr {c c' : ProcNode} {i : Fin maxProcs} (h : c'.RunsHere i)
    (heq : c'.procs i = c.procs i) : c.RunsHere i := by
  unfold RunsHere at h ⊢
  rwa [heq] at h

/-- Steps of the scheduler that keep tasks in use. -/
theorem TableInv.scheduled {c : ProcNode} {t : Scheduler.State} (h : c.TableInv)
    (hidle : t.idleTaskId = c.sched.idleTaskId) (halive : ∀ j, Alive c.sched j → Alive t j) :
    TableInv { c with sched := t } where
  pid_pos := h.pid_pos
  distinct := h.distinct
  slot i hi := by
    obtain ⟨j, hj, hzero, hne, huse⟩ := h.slot i hi
    exact ⟨j, hj, hzero, hidle ▸ hne, halive j huse⟩
  slot_inj := h.slot_inj
  below := h.below
  next_pos := h.next_pos
  running := h.running
  idle := hidle ▸ halive _ h.idle

/-- Entries that lose their process, with the tasks of the remaining ones kept. -/
theorem TableInv.weaken {c c' : ProcNode} (h : c.TableInv) (hnext : c'.nextPid = c.nextPid)
    (hlive : ∀ i, (c'.procs i).Live → (c.procs i).Live ∧ (c'.procs i).pid = (c.procs i).pid ∧
      (c'.procs i).nodeIp = (c.procs i).nodeIp ∧
      ((c'.procs i).nodeIp = 0 → c'.procs i = c.procs i ∧
        ∀ j, (c.procs i).schedSlot = some j → Alive c.sched j → Alive c'.sched j))
    (hidle : c'.sched.idleTaskId = c.sched.idleTaskId)
    (hidleUse : Alive c'.sched c'.sched.idleTaskId) : c'.TableInv where
  pid_pos i hi := by
    obtain ⟨hold, hpid, -⟩ := hlive i hi
    exact hpid ▸ h.pid_pos i hold
  distinct i j hi hj heq := by
    obtain ⟨hi, hpi, -⟩ := hlive i hi
    obtain ⟨hj, hpj, -⟩ := hlive j hj
    exact h.distinct i j hi hj (hpi ▸ hpj ▸ heq)
  slot i hi := by
    obtain ⟨-, -, -, hsame⟩ := hlive i hi.live
    obtain ⟨heq, hkeep⟩ := hsame hi.2
    obtain ⟨j, hj, hzero, hne, huse⟩ := h.slot i (hi.congr heq)
    exact ⟨j, heq ▸ hj, hzero, hidle ▸ hne, hkeep j hj huse⟩
  slot_inj i i' hi hi' heq := by
    obtain ⟨-, -, -, hsame⟩ := hlive i hi.live
    obtain ⟨-, -, -, hsame'⟩ := hlive i' hi'.live
    have hold := (hsame hi.2).1
    have hold' := (hsame' hi'.2).1
    rw [hold, hold'] at heq
    exact h.slot_inj i i' (hi.congr hold) (hi'.congr hold') heq
  below i hi := by
    obtain ⟨hold, hpid, -⟩ := hlive i hi
    rw [hnext, hpid]
    exact h.below i hold
  next_pos := hnext ▸ h.next_pos
  running i hi hlocal := by
    obtain ⟨hold, -, -, hsame⟩ := hlive i hi
    obtain ⟨heq, -⟩ := hsame hlocal
    rw [heq]
    exact h.running i hold (heq ▸ hlocal)
  idle := hidleUse

/-! ## Steps -/

theorem findFree_not_live {c : ProcNode} {slot : Fin maxProcs} (h : c.findFree = some slot) :
    ¬(c.procs slot).Live := by
  rw [ProcInfo.live_iff]
  rintro ⟨hunused, hdead⟩
  exact (findFree_spec h).elim hunused hdead

/-- A new process under the next pid, whose entry was free. A process of this node names a task
that no one had. -/
theorem TableInv.added {c c' : ProcNode} {slot : Fin maxProcs} (h : c.TableInv)
    (hfree : c.findFree = some slot) (hnext : c'.nextPid.toNat = c.nextPid.toNat + 1)
    (hpid : (c'.procs slot).pid = c.nextPid) (hkeep : ∀ i, i ≠ slot → c'.procs i = c.procs i)
    (hidle : c'.sched.idleTaskId = c.sched.idleTaskId)
    (halive : ∀ j, Alive c.sched j → Alive c'.sched j)
    (hslot : (c'.procs slot).nodeIp = 0 → (c'.procs slot).Live →
      (c'.procs slot).state = .running ∧ ∃ j, (c'.procs slot).schedSlot = some j ∧ j ≠ 0 ∧
        ¬Alive c.sched j ∧ Alive c'.sched j) : c'.TableInv := by
  have hnew : ∀ i, i ≠ slot → (c'.procs i).Live → (c'.procs i).pid ≠ (c'.procs slot).pid := by
    intro i hi hlive heq
    rw [hkeep i hi] at hlive heq
    have hlt := h.below i hlive
    rw [heq, hpid] at hlt
    exact lt_irrefl _ hlt
  -- The new task is no one else's, since the others are taken.
  have hother : ∀ i, i ≠ slot → c'.RunsHere i → c'.RunsHere slot →
      (c'.procs i).schedSlot ≠ (c'.procs slot).schedSlot := by
    intro i hi hrun hruns heq
    obtain ⟨j, hj, -, -, huse⟩ := h.slot i (hrun.congr (hkeep i hi))
    obtain ⟨-, j', hj', -, hunused, -⟩ := hslot hruns.2 hruns.live
    rw [hkeep i hi, hj, hj'] at heq
    exact hunused (Option.some.inj heq ▸ huse)
  constructor
  · constructor
    · intro i hi
      by_cases his : i = slot
      · rw [his, hpid]
        intro hzero
        have hpos := h.next_pos
        rw [hzero] at hpos
        exact lt_irrefl _ hpos
      · rw [hkeep i his] at hi ⊢
        exact h.pid_pos i hi
    · apply unique_of_others slot _ fun i his hi _ => hnew i his hi
      intro i j his hjs hi hj heq
      rw [hkeep i his] at hi heq
      rw [hkeep j hjs] at hj heq
      exact h.distinct i j hi hj heq
    · intro i hi
      by_cases his : i = slot
      · subst his
        obtain ⟨-, j, hj, hzero, hunused, huse⟩ := hslot hi.2 hi.live
        refine ⟨j, hj, hzero, ?_, huse⟩
        rintro rfl
        exact hunused (hidle ▸ h.idle)
      · obtain ⟨j, hj, hzero, hne, huse⟩ := h.slot i (hi.congr (hkeep i his))
        exact ⟨j, by rw [hkeep i his, hj], hzero, hidle ▸ hne, halive j huse⟩
    · apply unique_of_others slot _ hother
      intro i i' his his' hi hi' heq
      rw [hkeep i his, hkeep i' his'] at heq
      exact h.slot_inj i i' (hi.congr (hkeep i his)) (hi'.congr (hkeep i' his')) heq
  · intro i hi
    by_cases his : i = slot
    · rw [his, hpid]
      omega
    · rw [hkeep i his] at hi ⊢
      have hlt := h.below i hi
      omega
  · omega
  · intro i hi hlocal
    by_cases his : i = slot
    · subst his
      exact (hslot hlocal hi).1
    · rw [hkeep i his] at hi hlocal ⊢
      exact h.running i hi hlocal
  · rw [hidle]
    exact halive _ h.idle

/-- Spawning on this node: nothing happens, or a free entry is filled, and it holds a process just
when a task was created. -/
theorem spawnLocal_fills {c c' : ProcNode} {type : ProcType} {name : Bytes} {ownerIp : Ip}
    {ticks : UInt64} {pid : UInt32} (h : c.spawnLocal type name ownerIp ticks = some (c', pid)) :
    c' = c ∨ ∃ slot full entry, c.findFree = some slot ∧ c'.nextPid = c.nextPid + 1 ∧
      (c'.procs slot).pid = c.nextPid ∧ (∀ i, i ≠ slot → c'.procs i = c.procs i) ∧
      c'.sched = (createTask c.sched (some full) entry).1 ∧
      ((createTask c.sched (some full) entry).2 = none ∧ ¬(c'.procs slot).Live ∨
        pid = c.nextPid ∧ (c'.procs slot).state = .running ∧
          ∃ j, (createTask c.sched (some full) entry).2 = some j ∧
            (c'.procs slot).schedSlot = some j) := by
  unfold spawnLocal at h
  split at h
  · exact .inl (Prod.mk.inj (Option.some.inj h)).1.symm
  next slot hfree =>
  split at h
  · exact .inl (Prod.mk.inj (Option.some.inj h)).1.symm
  next entry hentry =>
  obtain ⟨full, -, h⟩ := Option.map_eq_some_iff.mp h
  refine .inr ⟨slot, full, entry, hfree, ?_⟩
  dsimp only at h
  split at h
  next sched hcreate =>
    obtain ⟨rfl, rfl⟩ := Prod.mk.inj h
    have hdead : ¬({ c.localEntry slot type full ownerIp ticks with
        state := .unused } : ProcInfo).Live := by
      rw [ProcInfo.live_iff]
      exact fun hlive => hlive.1 rfl
    rw [hcreate]
    refine ⟨rfl, ?_, fun i hi => setProc_of_ne _ hi _, rfl, .inl ⟨rfl, ?_⟩⟩
    · exact congrArg ProcInfo.pid (setProc_self _ slot _)
    · exact (setProc_self _ slot _).symm ▸ hdead
  next sched j hcreate =>
    obtain ⟨rfl, rfl⟩ := Prod.mk.inj h
    rw [hcreate]
    refine ⟨rfl, ?_, fun i hi => setProc_of_ne _ hi _, rfl, .inr ⟨rfl, ?_, j, rfl, ?_⟩⟩
    · exact congrArg ProcInfo.pid (setProc_self _ slot _)
    · exact congrArg ProcInfo.state (setProc_self _ slot _)
    · exact congrArg ProcInfo.schedSlot (setProc_self _ slot _)

theorem succ_toNat {n : UInt32} (h : n.toNat + 1 < 2 ^ 32) : (n + 1).toNat = n.toNat + 1 := by
  rw [UInt32.toNat_add]
  exact Nat.mod_eq_of_lt h

/-- What `create_task` returns is a slot that held no task. -/
theorem createTask_fresh {s : Scheduler.State} {name : Option Bytes} {entry : Entry} {j : Slot}
    (h : (createTask s name entry).2 = some j) :
    j ≠ 0 ∧ ¬Alive s j ∧ Alive (createTask s name entry).1 j := by
  rcases createTask_cases s name entry with heq | ⟨i, hzero, hunused, hslot, -, hready, -, -⟩
  · rw [heq] at h
    cases h
  · obtain rfl : i = j := Option.some.inj (hslot.symm.trans h)
    refine ⟨hzero, fun hused => hused.1 hunused, ?_⟩
    unfold Alive
    rw [hready]
    decide

theorem TableInv.spawnLocal {c c' : ProcNode} {type : ProcType} {name : Bytes} {ownerIp : Ip}
    {ticks : UInt64} {pid : UInt32} (h : c.TableInv) (hroom : c.nextPid.toNat + 1 < 2 ^ 32)
    (hspawn : c.spawnLocal type name ownerIp ticks = some (c', pid)) :
    c'.TableInv ∧ c'.nextPid.toNat ≤ c.nextPid.toNat + 1 := by
  rcases spawnLocal_fills hspawn with
    rfl | ⟨slot, full, entry, hfree, hnext, hpid, hkeep, hsched, hcases⟩
  · exact ⟨h, Nat.le_succ _⟩
  have hsucc : c'.nextPid.toNat = c.nextPid.toNat + 1 := by
    rw [hnext, succ_toNat hroom]
  refine ⟨h.added hfree hsucc hpid hkeep ?_ ?_ ?_, hsucc.le⟩
  · rw [hsched, createTask_idleTaskId]
  · intro j hj
    rw [hsched]
    exact hj.createTask _ _
  · intro hlocal hlive
    rcases hcases with ⟨-, hdead⟩ | ⟨-, hrunning, j, hcreate, hslot⟩
    · exact absurd hlive hdead
    · obtain ⟨hzero, hfresh, hused⟩ := createTask_fresh hcreate
      exact ⟨hrunning, j, hslot, hzero, hfresh, hsched ▸ hused⟩

/-- `spawn_on` refuses, spawns here, or fills a free entry for another node. -/
theorem spawnOn_stages {c c' : ProcNode} {name : Bytes} {nodeIp : Ip} {ticks : UInt64}
    {pid : UInt32} {out : Option Bytes} (h : c.spawnOn name nodeIp ticks = some (c', pid, out)) :
    c' = c ∨ c.spawnLocal (parseType name) name 0 ticks = some (c', pid) ∨
      ∃ slot, c.findFree = some slot ∧ nodeIp ≠ 0 ∧ pid = c.nextPid ∧
        c' = { c.setProc slot (c.remoteEntry (parseType name) name nodeIp ticks) with
          nextPid := c.nextPid + 1 } := by
  unfold spawnOn at h
  dsimp only at h
  split_ifs at h with hinit htype hlocal
  · exact .inl (Prod.mk.inj (Option.some.inj h)).1.symm
  · exact .inl (Prod.mk.inj (Option.some.inj h)).1.symm
  · obtain ⟨⟨d, q⟩, hspawn, heq⟩ := Option.map_eq_some_iff.mp h
    obtain ⟨rfl, rfl, -⟩ : d = c' ∧ q = pid ∧ none = out := by simpa using heq
    exact .inr (.inl hspawn)
  · split at h
    · exact .inl (Prod.mk.inj (Option.some.inj h)).1.symm
    next slot hfree =>
    obtain ⟨rfl, heq⟩ := Prod.mk.inj (Option.some.inj h)
    obtain ⟨rfl, -⟩ := Prod.mk.inj heq
    exact .inr (.inr ⟨slot, hfree, fun h0 => hlocal (.inl h0), rfl, rfl⟩)

theorem TableInv.spawnOn {c c' : ProcNode} {name : Bytes} {nodeIp : Ip} {ticks : UInt64}
    {pid : UInt32} {out : Option Bytes} (h : c.TableInv) (hroom : c.nextPid.toNat + 1 < 2 ^ 32)
    (hspawn : c.spawnOn name nodeIp ticks = some (c', pid, out)) :
    c'.TableInv ∧ c'.nextPid.toNat ≤ c.nextPid.toNat + 1 := by
  rcases spawnOn_stages hspawn with rfl | hlocal | ⟨slot, hfree, hremote, -, rfl⟩
  · exact ⟨h, Nat.le_succ _⟩
  · exact h.spawnLocal hroom hlocal
  · have hself := setProc_self c slot (c.remoteEntry (parseType name) name nodeIp ticks)
    have hsucc := succ_toNat hroom
    refine ⟨h.added hfree hsucc ?_ (fun i hi => setProc_of_ne c hi _) rfl (fun _ hj => hj) ?_,
      hsucc.le⟩
    · exact congrArg ProcInfo.pid hself
    -- Where such a process runs is not this node.
    · intro hlocal
      exact absurd ((congrArg ProcInfo.nodeIp hself).symm.trans hlocal) hremote

/-! ## Killing -/

/-- The task of a process on this node is freed. -/
theorem TableInv.stop_sched {c : ProcNode} (h : c.TableInv) {i : Fin maxProcs} (hi : c.RunsHere i)
    (schedSlot : Option Slot) : ∃ j, (c.procs i).schedSlot = some j ∧ j ≠ c.sched.idleTaskId ∧
      Alive c.sched j ∧ (c.stop i schedSlot).sched = decrCount (c.sched.setState j .unused) := by
  obtain ⟨j, hj, hzero, hne, halive⟩ := h.slot i hi
  refine ⟨j, hj, hne, halive, ?_⟩
  rw [← killTask_alive halive hzero hne]
  unfold ProcNode.stop
  simp only [hj]

theorem alive_of_setState {s : Scheduler.State} {i j : Slot} {st : TaskState} (h : Alive s j)
    (hne : j ≠ i) : Alive (decrCount (s.setState i st)) j := by
  apply h.congr
  rw [decrCount_tasks, State.setState_state, if_neg hne]

theorem TableInv.stop {c : ProcNode} (h : c.TableInv) {i : Fin maxProcs} (hi : c.RunsHere i)
    (schedSlot : Option Slot) : (c.stop i schedSlot).TableInv := by
  obtain ⟨j, hj, hidle, -, hsched⟩ := h.stop_sched hi schedSlot
  have hidleId : (c.stop i schedSlot).sched.idleTaskId = c.sched.idleTaskId := by
    rw [hsched, decrCount_idleTaskId, State.setState_idleTaskId]
  have hnext : (c.stop i schedSlot).nextPid = c.nextPid := rfl
  apply h.weaken hnext
  · intro i' hlive
    rw [stop_procs] at hlive ⊢
    by_cases hii : i' = i
    · subst hii
      rw [Function.update_self, ProcInfo.live_iff] at hlive
      exact absurd rfl hlive.2
    · rw [Function.update_of_ne hii] at hlive ⊢
      refine ⟨hlive, rfl, rfl, fun hlocal => ⟨rfl, fun k hk halive => ?_⟩⟩
      rw [hsched]
      apply alive_of_setState halive
      -- No other process of this node names the slot.
      rintro rfl
      have hrun : c.RunsHere i' := ⟨h.running i' hlive hlocal, hlocal⟩
      exact hii (h.slot_inj i' i hrun hi (hk.trans hj.symm))
  · exact hidleId
  · rw [hidleId, hsched]
    exact alive_of_setState h.idle hidle.symm

theorem TableInv.killable {c : ProcNode} (h : c.TableInv) {pid : UInt32} {i : Fin maxProcs}
    (hfind : c.findKillable pid = some i) (hlocal : (c.procs i).nodeIp = 0) : c.RunsHere i :=
  ⟨h.running i (findKillable_spec hfind).2 hlocal, hlocal⟩

theorem TableInv.kill {c : ProcNode} (h : c.TableInv) (pid : UInt32) : (c.kill pid).1.TableInv := by
  unfold ProcNode.kill
  cases hfind : c.findKillable pid with
  | none => exact h
  | some i =>
    dsimp only
    split
    · next hlocal => exact h.stop (h.killable hfind hlocal) none
    · next hremote =>
      have hnext : (c.setProc i { c.procs i with state := .exiting }).nextPid = c.nextPid := rfl
      apply h.weaken hnext _ rfl h.idle
      intro i' hlive
      by_cases hii : i' = i
      · subst hii
        rw [setProc_self] at hlive ⊢
        exact ⟨(findKillable_spec hfind).2, rfl, rfl, fun hlocal => absurd hlocal hremote⟩
      · rw [setProc_of_ne c hii] at hlive ⊢
        exact ⟨hlive, rfl, rfl, fun _ => ⟨rfl, fun _ _ halive => halive⟩⟩

theorem TableInv.onRemoteKillRequest {c : ProcNode} (h : c.TableInv) (pid : UInt32) :
    (c.onRemoteKillRequest pid).TableInv := by
  unfold ProcNode.onRemoteKillRequest
  cases hfind : c.findLocal pid with
  | none => exact h
  | some i => exact h.stop (findLocal_spec hfind).2 _

theorem TableInv.cleanUp {c : ProcNode} (h : c.TableInv) : c.cleanUp.TableInv := by
  have hnext : c.cleanUp.nextPid = c.nextPid := rfl
  apply h.weaken hnext _ rfl h.idle
  intro i hlive
  unfold ProcNode.cleanUp at hlive ⊢
  dsimp only at hlive ⊢
  by_cases hdead : (c.procs i).state = .dead ∧ (c.procs i).nodeIp = 0
  · rw [if_pos hdead, ProcInfo.live_iff] at hlive
    exact absurd rfl hlive.1
  · rw [if_neg hdead] at hlive ⊢
    exact ⟨hlive, rfl, rfl, fun _ => ⟨rfl, fun _ _ halive => halive⟩⟩

/-! ## Runs -/

theorem tableInv_init (m : Image) : (init m).TableInv := by
  have hnone : ∀ i, ¬((init m).procs i).Live := by
    intro i
    rw [ProcInfo.live_iff]
    exact fun hlive => hlive.1 rfl
  have hstart := Scheduler.init_inv (loaded m.taskStacks m.taskEntryWrapper m.idleEntry)
  have hidle : Alive (Scheduler.init (loaded m.taskStacks m.taskEntryWrapper m.idleEntry))
      (Scheduler.init (loaded m.taskStacks m.taskEntryWrapper m.idleEntry)).idleTaskId := by
    unfold Alive
    rcases hstart.idle with h | h <;> rw [h] <;> decide
  refine ⟨⟨fun i hi => absurd hi (hnone i), fun i j hi => absurd hi (hnone i),
    fun i hi => absurd hi.live (hnone i), fun i i' hi => absurd hi.live (hnone i)⟩,
    fun i hi => absurd hi (hnone i), Nat.one_pos, fun i hi => absurd hi (hnone i), ?_⟩
  show Alive (createTask _ _ _).1 (createTask _ _ _).1.idleTaskId
  rw [createTask_idleTaskId]
  exact hidle.createTask _ _

/-- One operation keeps the tables consistent, and spends a pid only when it spawns. -/
theorem TableInv.apply {c c' : ProcNode} {op : TableOp} (h : c.TableInv)
    (hroom : op.isSpawn = true → c.nextPid.toNat + 1 < 2 ^ 32) (hstep : c.apply op = some c') :
    c'.TableInv ∧ c'.nextPid.toNat ≤ c.nextPid.toNat + if op.isSpawn then 1 else 0 := by
  cases op with
  | spawnOn name nodeIp ticks =>
    obtain ⟨⟨d, pid, out⟩, hspawn, rfl⟩ := Option.map_eq_some_iff.mp hstep
    exact h.spawnOn (hroom rfl) hspawn
  | onRemoteSpawnRequest fromIp type remotePid ticks =>
    obtain ⟨⟨d, pid, reply⟩, hrequest, rfl⟩ := Option.map_eq_some_iff.mp hstep
    obtain ⟨⟨d', pid'⟩, hspawn, heq⟩ := Option.map_eq_some_iff.mp hrequest
    obtain ⟨rfl, -⟩ := Prod.mk.inj heq
    exact h.spawnLocal (hroom rfl) hspawn
  | kill pid =>
    obtain rfl := Option.some.inj hstep
    refine ⟨h.kill pid, ?_⟩
    unfold ProcNode.kill
    split
    · exact le_rfl
    · split <;> exact le_rfl
  | onRemoteKillRequest pid =>
    obtain rfl := Option.some.inj hstep
    refine ⟨h.onRemoteKillRequest pid, ?_⟩
    unfold ProcNode.onRemoteKillRequest
    split <;> exact le_rfl
  | cleanUp =>
    obtain rfl := Option.some.inj hstep
    exact ⟨h.cleanUp, le_rfl⟩
  | timerTick now rsp =>
    obtain rfl := Option.some.inj hstep
    have hnow : ∀ j, Alive c.sched j → Alive { c.sched with ticks := now } j := fun _ h => h
    exact ⟨h.scheduled (timerTick_idleTaskId _ rsp)
      fun j halive => (hnow j halive).timerTick rsp, le_rfl⟩
  | yield rsp =>
    obtain rfl := Option.some.inj hstep
    exact ⟨h.scheduled (yield_idleTaskId _ rsp) fun j halive => halive.yield rsp, le_rfl⟩
  | sleepMs ms rsp =>
    obtain rfl := Option.some.inj hstep
    exact ⟨h.scheduled (sleepMs_idleTaskId _ ms rsp) fun j halive => halive.sleepMs ms rsp, le_rfl⟩
  | createTask name entry =>
    obtain rfl := Option.some.inj hstep
    exact ⟨h.scheduled (createTask_idleTaskId _ _ _) fun j halive => halive.createTask _ _, le_rfl⟩

theorem tableInv_of_run {c c' : ProcNode} {ops : List TableOp} (hrun : Run Step c ops c')
    (h : c.TableInv) (hroom : c.nextPid.toNat + ops.countP TableOp.isSpawn < 2 ^ 32) :
    c'.TableInv ∧ c'.nextPid.toNat ≤ c.nextPid.toNat + ops.countP TableOp.isSpawn := by
  induction hrun with
  | nil => exact ⟨h, Nat.le_add_right _ _⟩
  | snoc hprev hstep ih =>
    rw [List.countP_append, List.countP_singleton] at hroom ⊢
    obtain ⟨inv, hle⟩ := ih (by omega)
    obtain ⟨inv', hnext⟩ :=
      inv.apply (fun hspawn => by rw [if_pos hspawn] at hroom; omega) hstep
    exact ⟨inv', by omega⟩

/-! ## Correctness -/

/-- A local process has been ended: its entry is dead, its task freed, and nothing else changed. -/
structure KillsOnly (c c' : ProcNode) (i : Fin maxProcs) : Prop where
  entry : (c'.procs i).state = .dead
  slot : ∃ j, (c.procs i).schedSlot = some j ∧ Alive c.sched j ∧
    (c'.sched.tasks j).state = .unused ∧ ∀ j', j' ≠ j → c'.sched.tasks j' = c.sched.tasks j'
  others : ∀ i', i' ≠ i → c'.procs i' = c.procs i'

/-- No entry that stands for a process, before or after, has changed. -/
def SameLive (c c' : ProcNode) : Prop :=
  ∀ i, (c.procs i).Live ∨ (c'.procs i).Live → c'.procs i = c.procs i

theorem TableInv.kills_only {c : ProcNode} (h : c.TableInv) {i : Fin maxProcs}
    (hlive : (c.procs i).Live) (hlocal : (c.procs i).nodeIp = 0) :
    (c.kill (c.procs i).pid).2.1 = true ∧ KillsOnly c (c.kill (c.procs i).pid).1 i := by
  unfold ProcNode.kill
  cases hfind : c.findKillable (c.procs i).pid with
  | none =>
    unfold findKillable at hfind
    have hno := Fin.find?_eq_none_iff.mp hfind i
    exact absurd ⟨rfl, hlive⟩ (of_decide_eq_false hno)
  | some k =>
    obtain ⟨hpid, hkill⟩ := findKillable_spec hfind
    obtain rfl : k = i := h.distinct k i hkill hlive hpid
    obtain ⟨j, hj, -, halive, hsched⟩ := h.stop_sched (h.killable hfind hlocal) none
    simp only [hlocal, if_true]
    refine ⟨trivial, ?_, ⟨j, hj, halive, ?_, fun j' hne => ?_⟩, fun i' hne => ?_⟩
    · rw [stop_procs, Function.update_self]
    · rw [hsched, decrCount_tasks, State.setState_state, if_pos rfl]
    · rw [hsched, decrCount_tasks]
      exact Function.update_of_ne hne _ _
    · rw [stop_procs, Function.update_of_ne hne]

theorem TableInv.sameLive_spawnLocal {c c' : ProcNode} {type : ProcType} {name : Bytes}
    {ownerIp : Ip} {ticks : UInt64} (h : c.TableInv)
    (hspawn : c.spawnLocal type name ownerIp ticks = some (c', 0)) : SameLive c c' := by
  intro i hlive
  rcases spawnLocal_fills hspawn with rfl | ⟨slot, full, entry, hfree, -, -, hkeep, -, hcases⟩
  · rfl
  · apply hkeep
    rintro rfl
    rcases hlive with hlive | hlive
    · exact findFree_not_live hfree hlive
    · rcases hcases with ⟨-, hdead⟩ | ⟨hpid, -⟩
      · exact hdead hlive
      -- A pid that was spent is not 0.
      · have hpos := h.next_pos
        rw [← hpid] at hpos
        exact lt_irrefl _ hpos

theorem TableInv.sameLive_spawnOn {c c' : ProcNode} {name : Bytes} {nodeIp : Ip} {ticks : UInt64}
    {out : Option Bytes} (h : c.TableInv)
    (hspawn : c.spawnOn name nodeIp ticks = some (c', 0, out)) : SameLive c c' := by
  rcases spawnOn_stages hspawn with rfl | hlocal | ⟨slot, -, -, hpid, -⟩
  · exact fun i _ => rfl
  · exact h.sameLive_spawnLocal hlocal
  · have hpos := h.next_pos
    rw [← hpid] at hpos
    exact absurd hpos (lt_irrefl _)

/-- The tables are consistent; killing a local process ends it and frees its task and nothing else,
spawning that fails changes no process, and `get_by_index` agrees with `count`. -/
structure Correct (c : ProcNode) : Prop extends Consistent c where
  kills : ∀ i, (c.procs i).Live → (c.procs i).nodeIp = 0 →
    (c.kill (c.procs i).pid).2.1 = true ∧ KillsOnly c (c.kill (c.procs i).pid).1 i
  spawn_fails : ∀ name nodeIp ticks c' out,
    c.spawnOn name nodeIp ticks = some (c', 0, out) → SameLive c c'
  request_fails : ∀ fromIp type remotePid ticks c' reply,
    c.onRemoteSpawnRequest fromIp type remotePid ticks = some (c', 0, reply) → SameLive c c'
  counted : ∀ idx, (c.getByIndex idx).isSome ↔ idx.toNat < c.count

theorem TableInv.correct {c : ProcNode} (h : c.TableInv) : c.Correct where
  toConsistent := h.toConsistent
  kills _ hlive hlocal := h.kills_only hlive hlocal
  spawn_fails _ _ _ _ _ hspawn := h.sameLive_spawnOn hspawn
  request_fails _ _ _ _ _ _ hrequest := by
    obtain ⟨⟨d, pid⟩, hspawn, heq⟩ := Option.map_eq_some_iff.mp hrequest
    obtain ⟨rfl, hpid⟩ := Prod.mk.inj heq
    obtain rfl : pid = 0 := (Prod.mk.inj hpid).1
    exact h.sameLive_spawnLocal hspawn
  counted := c.getByIndex_isSome

/-- The tables of a node are correct after a sequence of operations exactly if none of them spawns
a process on this node under a pid that is too long. -/
theorem tables_consistent_iff (m : Image) (ops : List TableOp)
    (hspawns : ops.countP TableOp.isSpawn < 2 ^ 32 - 1) :
    (∃ c, exec apply (init m) ops = some c ∧ c.Correct) ↔
      Meets (fun c op => op.Fits c) apply (init m) ops := by
  have hfirst : (init m).nextPid.toNat = 1 := rfl
  have hdefined : (exec apply (init m) ops).isSome ↔
      Meets (fun c op => op.Fits c) apply (init m) ops :=
    exec_isSome_iff (fun _ => True) (fun c op _ _ => c.apply_isSome op) (fun _ _ _ _ _ => trivial)
      trivial (meets_of_forall apply (fun _ _ => trivial) _ ops)
  rw [← hdefined, Option.isSome_iff_exists]
  constructor
  · rintro ⟨c, hc, -⟩
    exact ⟨c, hc⟩
  · rintro ⟨c, hc⟩
    obtain ⟨h, -⟩ := tableInv_of_run (run_of_exec hc) (tableInv_init m) (by omega)
    exact ⟨c, hc, h.correct⟩

/-- A process of this node, one for node 2 and one of node 2, with a kill in between. -/
def tableOps : List TableOp :=
  [.spawnOn counterName 0 5, .sleepMs 10 0, .spawnOn stressName 2 6, .kill 1, .cleanUp,
    .onRemoteSpawnRequest 2 4 9 7, .timerTick 20 0]

theorem tables_consistent_iff_sample :
    (∃ c, exec apply (init (ProcSystem.sampleImage 1)) tableOps = some c ∧ c.Correct) ↔
      Meets (fun c op => op.Fits c) apply (init (ProcSystem.sampleImage 1)) tableOps :=
  tables_consistent_iff (ProcSystem.sampleImage 1) tableOps (by decide)

/-! ## Ten million pids -/

theorem parseType_counter : parseType counterName = 1 := by decide +kernel

/-- Spawning a counter spends a pid and nothing else, as no task can be created. -/
structure Full (c : ProcNode) : Prop where
  initialized : c.initialized = true
  free : c.findFree.isSome
  entry : (c.getEntry 1).isSome
  tasks : ∀ full entry, createTask c.sched (some full) entry = (c.sched, none)

theorem Full.spawn {c : ProcNode} (h : c.Full) (hpid : c.nextPid.toNat < 10 ^ 7) :
    ∃ c', c.apply (.spawnOn counterName 0 0) = some c' ∧ c'.Full ∧
      c'.nextPid.toNat = c.nextPid.toNat + 1 := by
  obtain ⟨slot, hslot⟩ := Option.isSome_iff_exists.mp h.free
  obtain ⟨entry, hentry⟩ := Option.isSome_iff_exists.mp h.entry
  obtain ⟨full, hfull⟩ :=
    Option.isSome_iff_exists.mp ((fullName_isSome counterName c.nextPid).mpr hpid)
  have hnext : (c.nextPid + 1).toNat = c.nextPid.toNat + 1 := succ_toNat (by omega)
  let taken := c.setProc slot { c.localEntry slot 1 full 0 0 with state := .unused }
  have hspawn : c.spawnLocal 1 counterName 0 0 = some
      ({ taken with
        nextPid := c.nextPid + 1, stopFlags := Function.update c.stopFlags slot false }, 0) := by
    unfold spawnLocal
    rw [hslot, hentry, hfull]
    simp only [Option.map_some, h.tasks]
    rfl
  refine ⟨{ taken with
    nextPid := c.nextPid + 1, stopFlags := Function.update c.stopFlags slot false }, ?_,
    ⟨h.initialized, ?_, h.entry, h.tasks⟩, hnext⟩
  · have hlocal : c.spawnOn counterName 0 0 =
        (c.spawnLocal 1 counterName 0 0).map fun r => (r.1, r.2, none) := by
      unfold spawnOn
      rw [if_neg (by simp [h.initialized])]
      dsimp only
      rw [parseType_counter, if_neg (by decide), if_pos (.inl rfl)]
    change (c.spawnOn counterName 0 0).map Prod.fst = _
    rw [hlocal, hspawn]
    rfl
  · -- The entry that was taken is free again.
    by_contra hnone
    rw [Bool.not_eq_true, Option.isSome_eq_false_iff, Option.isNone_iff_eq_none] at hnone
    have hslot' := of_decide_eq_false (Fin.find?_eq_none_iff.mp hnone slot)
    exact hslot' (.inl (congrArg ProcInfo.state (setProc_self c slot _)))

theorem Full.exec {c : ProcNode} (h : c.Full) {n : ℕ} (hn : c.nextPid.toNat + n ≤ 10 ^ 7) :
    ∃ c', Lib.exec apply c (List.replicate n (.spawnOn counterName 0 0)) = some c' ∧ c'.Full ∧
      c'.nextPid.toNat = c.nextPid.toNat + n := by
  induction n generalizing c with
  | zero => exact ⟨c, rfl, h, rfl⟩
  | succ n ih =>
    obtain ⟨d, hd, hfull, hpid⟩ := h.spawn (by omega)
    obtain ⟨c', hc', hfull', hpid'⟩ := ih hfull (by omega)
    refine ⟨c', ?_, hfull', by omega⟩
    rw [List.replicate_succ, Lib.exec, hd, Option.bind_some, hc']

/-- A counter is asked for ten million times. -/
def manySpawns : List TableOp := List.replicate (10 ^ 7) (.spawnOn counterName 0 0)

/-- Thirteen counters take the tasks that are left. -/
@[irreducible] def taken : ProcNode :=
  (exec apply (init (ProcSystem.sampleImage 1)) (List.replicate 13 (.spawnOn counterName 0 0))).get
    (by decide +kernel)

theorem exec_taken : exec apply (init (ProcSystem.sampleImage 1))
    (List.replicate 13 (.spawnOn counterName 0 0)) = some taken := by
  unfold taken
  exact (Option.some_get _).symm

theorem full_taken : taken.Full where
  initialized := by decide +kernel
  free := by decide +kernel
  entry := by decide +kernel
  tasks full entry := by
    have hunused : findUnused taken.sched 1 = none := by decide +kernel
    unfold createTask createTaskInternal
    split
    · rfl
    · rw [if_neg Bool.false_ne_true, hunused]

/-- The pid `10000000` has eight digits, which leave no room for the terminator. -/
theorem long_pid_overruns : ¬∀ (m : Image) (ops : List TableOp),
    ops.countP TableOp.isSpawn < 2 ^ 32 - 1 → ∃ c, exec apply (init m) ops = some c ∧ c.Correct := by
  intro h
  have hspawns : manySpawns.countP TableOp.isSpawn < 2 ^ 32 - 1 := by
    unfold manySpawns
    rw [List.countP_replicate]
    norm_num [TableOp.isSpawn]
  obtain ⟨c, hc, -⟩ := h (ProcSystem.sampleImage 1) manySpawns hspawns
  have hpid : taken.nextPid.toNat = 14 := by decide +kernel
  -- All pids of up to seven digits are spent.
  obtain ⟨e, he, hfull, hpid'⟩ := full_taken.exec (n := 10 ^ 7 - 14) (by omega)
  have hlast : e.apply (.spawnOn counterName 0 0) = none := by
    rw [← Option.not_isSome_iff_eq_none, apply_isSome]
    intro hfits
    rw [TableOp.Fits, parseType_counter] at hfits
    have hlt := hfits hfull.initialized (.inl rfl) hfull.free hfull.entry
    omega
  have hmany : 10 ^ 7 = 13 + (10 ^ 7 - 14 + 1) := by omega
  rw [manySpawns, hmany, List.replicate_add, exec_append, exec_taken, Option.bind_some,
    List.replicate_add, exec_append, he, Option.bind_some, List.replicate_one, exec, hlast] at hc
  cases hc

end ProcNode

end QuillOS.Cluster
