import QuillOS.Scheduler.Invariant

/-!
# What a kill leaves behind

`kill_task` empties the slot at once, but a victim that is the current task keeps executing until
the next tick or yield, and `sleep_ms` stores its state without looking at it. The slot stays
dead in the runs where no killed task gets to that store.
-/

namespace QuillOS.Scheduler

open Lib

/-- A slot that cannot run: free, or left by a task that returned. -/
def Stopped (s : State) (i : Slot) : Prop :=
  (s.tasks i).state = .unused ∨ (s.tasks i).state = .dead

instance (s : State) (i : Slot) : Decidable (Stopped s i) := inferInstanceAs (Decidable (_ ∨ _))

/-- `sleep_ms` stores `SLEEPING` only while the slot of the running task has not been killed. -/
def SleepsAlive (s : State) (op : Op) : Prop := op = .sleepSetState → ¬Stopped s s.currentTask

instance (s : State) (op : Op) : Decidable (SleepsAlive s op) := inferInstanceAs (Decidable (_ → _))

theorem Stopped.ne_ready {s : State} {i : Slot} (h : Stopped s i) : (s.tasks i).state ≠ .ready := by
  rcases h with h | h <;> simp [h]

theorem Stopped.ne_running {s : State} {i : Slot} (h : Stopped s i) :
    (s.tasks i).state ≠ .running := by
  rcases h with h | h <;> simp [h]

theorem Stopped.ne_idle {s : State} {i : Slot} (hinv : Inv s) (h : Stopped s i) :
    i ≠ s.idleTaskId := by
  rintro rfl
  rcases hinv.idle with hi | hi
  · exact h.ne_ready hi
  · exact h.ne_running hi

/-- `do_schedule` never turns to a stopped slot. -/
theorem pickNext_ne_stopped {s : State} {i : Slot} (hidle : i ≠ s.idleTaskId)
    (hready : (s.tasks i).state ≠ .ready) : pickNext s ≠ i := by
  rintro rfl
  rcases pickNext_cases s with ⟨-, hr⟩ | ⟨hi, -⟩
  · exact hready hr
  · exact hidle hi

theorem doSchedule_stopped {s : State} (hinv : Inv s) {i : Slot} (h : Stopped s i) (r : UInt64) :
    Stopped (doSchedule s r).1 i ∧ (doSchedule s r).1.currentTask ≠ i := by
  have hsave : ((saveCurrent s r).tasks i).state = (s.tasks i).state := by
    rw [saveCurrent_state, if_neg fun hc => h.ne_running hc.2]
  have hne : pickNext (saveCurrent s r) ≠ i :=
    pickNext_ne_stopped (by simpa using h.ne_idle hinv) (by rw [hsave]; exact h.ne_ready)
  refine ⟨?_, by rwa [doSchedule_currentTask]⟩
  unfold Stopped
  rwa [doSchedule_state, if_neg hne.symm, hsave]

/-- Emptying or ending any slot keeps a stopped slot stopped. -/
theorem Stopped.setState {s : State} {i j : Slot} {st : TaskState} (h : Stopped s i)
    (hst : j = i → st = .unused ∨ st = .dead) : Stopped (s.setState j st) i := by
  unfold Stopped
  rw [State.setState_state]
  split
  · exact hst (Eq.symm ‹_›)
  · exact h

/-- One step keeps a stopped slot stopped and does not select it, unless the step allocates it or
is the `SLEEPING` store of a task killed while it runs. -/
theorem step_stopped {s s' : State} {op : Op} {i : Slot} (hinv : Inv s) (h : Stopped s i)
    (hsleep : SleepsAlive s op) (halloc : allocates s op ≠ some i) (hstep : Step s op s') :
    Stopped s' i ∧ (op.schedules = true → s'.currentTask ≠ i) := by
  -- Ticks and yields go through `do_schedule`, which picks ready tasks only.
  by_cases hop : op.schedules = true
  · obtain ⟨t, ht, hs, hunused, hdead, hcase⟩ := step_schedules hinv hstep hop
    have hti : Stopped t i := by
      rcases h with h | h
      · exact Or.inl (hunused i h)
      · exact hdead i h
    rcases hcase with ⟨rfl, -⟩ | ⟨rfl, hr⟩
    · exact ⟨(doSchedule_stopped ht hti _).1, fun _ => (doSchedule_stopped ht hti _).2⟩
    · refine ⟨hti, fun _ hc => hti.ne_running ?_⟩
      rwa [← hc]
  refine ⟨?_, fun h => absurd h hop⟩
  cases op with
  | createTask name entry =>
    cases hstep
    unfold Stopped
    rwa [createTask_tasks_of_ne halloc]
  | killTask slot =>
    cases hstep
    rcases killTask_cases s slot with hn | ⟨j, -, -, -, -, hk⟩
    · rwa [hn]
    · rw [hk]
      have hset : Stopped (s.setState j .unused) i := h.setState fun _ => Or.inl rfl
      unfold Stopped at hset ⊢
      rwa [decrCount_tasks]
  | timerTick now r => exact absurd rfl hop
  | yield r => exact absurd rfl hop
  | sleepSetWake ms =>
    simp only [Step, step] at hstep
    split at hstep <;> cases hstep
    unfold Stopped at h ⊢
    by_cases hi : i = s.currentTask
    · subst hi; simpa [sleepSetWake] using h
    · simpa [sleepSetWake, hi] using h
  | sleepSetState =>
    simp only [Step, step] at hstep
    split at hstep <;> cases hstep
    refine h.setState fun hi => ?_
    -- The store that would revive a task killed while it runs is excluded here.
    exact absurd h (hi ▸ hsleep rfl)
  | exitSetDead =>
    simp only [Step, step] at hstep
    split at hstep <;> cases hstep
    exact h.setState fun _ => Or.inr rfl
  | exitDecrCount =>
    simp only [Step, step] at hstep
    split at hstep <;> cases hstep
    unfold Stopped
    rwa [decrCount_tasks]

/-- After a successful kill, in every continuation in which no killed task reaches the `SLEEPING`
store, the slot is never ready, sleeping or running and is never selected again until
`create_task` fills it. -/
theorem killed_never_runs_again (s0 : State) (ops : List Op) (s s1 : State) (i : Slot)
    (slot : UInt32) (hslot : slot.toNat = i.val) (hrun : Run Step (init s0) ops s)
    (hkill : killTask s slot = (s1, true)) (ops' : List Op) (s2 : State)
    (hcont : Run (Where (fun t op => SleepsAlive t op ∧ allocates t op ≠ some i) Step) s1 ops' s2) :
    ((s2.tasks i).state ≠ .ready ∧ (s2.tasks i).state ≠ .sleeping ∧
        (s2.tasks i).state ≠ .running) ∧
      ∀ op s3, SleepsAlive s2 op → allocates s2 op ≠ some i → Step s2 op s3 →
        op.schedules = true → s3.currentTask ≠ i := by
  have hs1 : Inv s1 ∧ Stopped s1 i := by
    have hinv := killTask_inv (run_inv hrun) slot
    rw [hkill] at hinv
    refine ⟨hinv, ?_⟩
    rcases killTask_cases s slot with hn | ⟨j, hj, -, -, -, hk⟩
    · rw [hn] at hkill; cases hkill
    · obtain rfl : i = j := Fin.ext (hslot.symm.trans hj)
      rw [hk] at hkill
      cases hkill
      left
      rw [decrCount_tasks, State.setState_state, if_pos rfl]
  have hs2 : Inv s2 ∧ Stopped s2 i := by
    refine hcont.invariant (fun t => Inv t ∧ Stopped t i) hs1 fun a op b ha hstep => ?_
    exact ⟨step_inv ha.1 hstep.2, (step_stopped ha.1 ha.2 hstep.1.1 hstep.1.2 hstep.2).1⟩
  refine ⟨⟨hs2.2.ne_ready, ?_, hs2.2.ne_running⟩, fun op s3 hsleep halloc hstep hop =>
    (step_stopped hs2.1 hs2.2 hsleep halloc hstep).2 hop⟩
  rcases hs2.2 with h | h <;> simp [h]

/-- The task in slot 2 is killed from an interrupt on top of it. -/
def killed : State := (killTask spawned 2).1

theorem killed_spawned : killTask spawned 2 = (killed, true) := by
  have h : (killTask spawned 2).2 = true := by decide +kernel
  unfold killed
  generalize killTask spawned 2 = p at h ⊢
  exact Prod.ext rfl h

/-- The victim finishes its `sleep_ms` after the kill: it is woken at tick 6, and selected once
the kernel's slice is over. -/
def sleepingVictimOps : List Op :=
  [.sleepSetWake 5, .sleepSetState, .timerTick 2 0x9008, .timerTick 6 0x8000] ++
    List.replicate 9 (.timerTick 7 0x8000)

/-- As it stands the promise fails: with no `create_task` after the kill, the victim runs again. -/
theorem killed_sleeper_runs_again :
    Run Step (init sampleImage) spawnOps spawned ∧ killTask spawned 2 = (killed, true) ∧
      ∃ s, Run (Where (fun t op => allocates t op ≠ some 2) Step) killed sleepingVictimOps s ∧
        s.currentTask = 2 ∧ (s.tasks 2).state = .running :=
  ⟨spawned_run, killed_spawned, _, run_where_get (by decide +kernel), by decide +kernel,
    by decide +kernel⟩

/-- A victim that never gets back to the `SLEEPING` store before the next tick. -/
def stoppedVictimOps : List Op := [.sleepSetWake 5, .timerTick 2 0x9008, .timerTick 6 0x8000]

theorem killed_never_runs_again_stopped :
    ∃ s, Run (Where (fun t op => SleepsAlive t op ∧ allocates t op ≠ some 2) Step) killed
      stoppedVictimOps s ∧ (s.tasks 2).state ≠ .running := by
  have hok : (exec (guarded (fun t op => SleepsAlive t op ∧ allocates t op ≠ some 2) step) killed
      stoppedVictimOps).isSome = true := by decide +kernel
  have hcont : Run (Where (fun t op => SleepsAlive t op ∧ allocates t op ≠ some 2) Step) killed
      stoppedVictimOps _ := run_where_get hok
  exact ⟨_, hcont, (killed_never_runs_again sampleImage spawnOps spawned killed 2 2 rfl
    spawned_run killed_spawned stoppedVictimOps _ hcont).1.2.2⟩

end QuillOS.Scheduler
