import QuillOS.Scheduler.Tasks

/-!
# Sleeping

`sleep_ms` stores the wake-up time, then the state, then gives up the processor, and a tick may fall
behind each of these. The wake-up time in the table is the one the sleep was called with, as long
as `create_task` has not filled the slot in between; that needs a kill.
-/

namespace QuillOS.Scheduler

open Lib

/-- The tick counter at which a sleep of `ms` from the tick `t` on is over: a sum of 64 bits. -/
def wakeTime (t : UInt64) (ms : UInt32) : UInt64 := t + UInt64.ofNat ms.toNat

theorem wakeTime_toNat {t : UInt64} {ms : UInt32} (h : t.toNat + ms.toNat < 2 ^ 64) :
    (wakeTime t ms).toNat = t.toNat + ms.toNat := by
  have hms := ms.toNat_lt
  unfold wakeTime
  rw [UInt64.toNat_add, UInt64.toNat_ofNat', Nat.mod_eq_of_lt (by omega : ms.toNat < 2 ^ 64),
    Nat.mod_eq_of_lt h]

/-- The step is a tick at `w` or later. -/
def Due (w : UInt64) : Op → Prop
  | .timerTick now _ => w ≤ now
  | _ => False

/-- Below `2 ^ 64` the sum is that of the numbers. -/
theorem due_wakeTime_iff {t now r : UInt64} {ms : UInt32} (h : t.toNat + ms.toNat < 2 ^ 64) :
    Due (wakeTime t ms) (.timerTick now r) ↔ t.toNat + ms.toNat ≤ now.toNat := by
  rw [← wakeTime_toNat h]
  exact UInt64.le_iff_toNat_le

/-- The step is not a kill of slot `i`. -/
def Spares (i : Slot) : Op → Prop
  | .killTask slot => slot.toNat ≠ i.val
  | _ => True

instance (w : UInt64) : ∀ op, Decidable (Due w op)
  | .timerTick now _ => inferInstanceAs (Decidable (w ≤ now))
  | .createTask _ _ | .killTask _ | .yield _ | .sleepSetWake _ | .sleepSetState | .exitSetDead
  | .exitDecrCount => inferInstanceAs (Decidable False)

instance (i : Slot) : ∀ op, Decidable (Spares i op)
  | .killTask slot => inferInstanceAs (Decidable (slot.toNat ≠ i.val))
  | .createTask _ _ | .timerTick _ _ | .yield _ | .sleepSetWake _ | .sleepSetState | .exitSetDead
  | .exitDecrCount => inferInstanceAs (Decidable True)

/-! ## Wake-up times -/

/-- Only `sleep_ms` and `create_task` store a wake-up time, in the slot of the one and in the slot
the other fills. -/
theorem step_wakeAt {s s' : State} {op : Op} (hinit : s.initialized = true)
    (hstep : Step s op s') (i : Slot) (halloc : allocates s op ≠ some i) :
    (s'.tasks i).wakeAt = (s.tasks i).wakeAt ∨
      i = s.currentTask ∧ ∃ ms, op = .sleepSetWake ms ∧
        (s'.tasks i).wakeAt = wakeTime s.ticks ms := by
  by_cases hop : op.schedules = true
  · left
    obtain ⟨t, -, -, htimes, -, ⟨-, rfl⟩ | ⟨-, rfl, -⟩⟩ := schedules_cases hinit hstep hop
    · exact ((SameTimes.doSchedule t _).wakeAt i).trans (htimes.wakeAt i)
    · exact htimes.wakeAt i
  have hset : ∀ st, ((s.setState s.currentTask st).tasks i).wakeAt = (s.tasks i).wakeAt := by
    intro st
    by_cases hi : i = s.currentTask <;> simp [State.setState, hi]
  cases op with
  | createTask name entry =>
    left
    obtain rfl := Option.some.inj hstep
    rw [createTask_tasks_of_ne halloc]
  | killTask slot =>
    left
    obtain rfl := Option.some.inj hstep
    rcases killTask_cases s slot with hk | ⟨j, -, -, -, -, hk⟩
    · rw [hk]
    · rw [hk, decrCount_tasks]
      by_cases hi : i = j <;> simp [State.setState, hi]
  | timerTick now r => exact absurd rfl hop
  | yield r => exact absurd rfl hop
  | sleepSetWake ms =>
    obtain ⟨-, rfl⟩ := step_own hstep rfl
    by_cases hi : i = s.currentTask
    · exact .inr ⟨hi, ms, rfl, by simp [sleepSetWake, hi, wakeTime]⟩
    · exact .inl (by simp [sleepSetWake, hi])
  | sleepSetState =>
    obtain ⟨-, rfl⟩ := step_own hstep rfl
    exact .inl (hset _)
  | exitSetDead =>
    obtain ⟨-, rfl⟩ := step_own hstep rfl
    exact .inl (hset _)
  | exitDecrCount =>
    obtain ⟨-, rfl⟩ := step_own hstep rfl
    exact .inl (by rw [decrCount_tasks])

/-! ## Where the tasks stand -/

variable {p q r : TaskSystem} {op : Op} {i : Slot} {t : UInt64} {ms : UInt32} {w : UInt64}

/-- The thread of a slot, executing or not. -/
def TaskSystem.thread (p : TaskSystem) (i : Slot) : Thread :=
  if i = p.current then p.running else p.saved i

theorem TaskSystem.thread_current (p : TaskSystem) : p.thread p.current = p.running := if_pos rfl

/-- A step moves the thread that executes and keeps, renews or marks the others. -/
theorem step_thread (hstep : p.Step op q) :
    ∃ c, p.running.advance p.sched op = some c ∧ ∀ i,
      q.thread i = if i = p.current then p.runningAfter op c else p.savedAfter op i := by
  obtain ⟨c, hc, -, hq⟩ := TaskSystem.step_cases hstep
  refine ⟨c, hc, fun i => ?_⟩
  unfold TaskSystem.thread
  by_cases hcur : q.sched.currentTask = p.current
  · obtain ⟨hrunning, hsaved⟩ : (p.resume op c q.sched).running = _ ∧ _ :=
      TaskSystem.resume_of_same hcur
    rw [← hq] at hrunning hsaved
    rw [hrunning, hsaved]
    change (if i = q.sched.currentTask then _ else _) = _
    rw [hcur]
  · obtain ⟨hrunning, hsaved⟩ : (p.resume op c q.sched).running = _ ∧ _ :=
      TaskSystem.resume_of_switch hcur
    rw [← hq] at hrunning hsaved
    rw [hrunning, hsaved]
    by_cases hi : i = q.current
    · have hne : i ≠ p.current := fun h => hcur (hi.symm.trans h)
      rw [if_pos hi, if_neg hne]
      exact congrArg _ hi.symm
    · rw [if_neg hi]
      by_cases hp : i = p.current
      · rw [if_pos hp, hp, Function.update_self]
      · rw [if_neg hp, Function.update_of_ne hp]

theorem runningAfter_killed {c : Thread} (h : (p.runningAfter op c).killed = false) :
    c.killed = false ∧ frees p.sched op p.current = false := by
  unfold TaskSystem.runningAfter at h
  split at h
  · cases h
  · exact ⟨h, Bool.eq_false_iff.mpr ‹_›⟩

theorem savedAfter_wakeStored (hkilled : (p.savedAfter op i).killed = false)
    (hphase : (p.savedAfter op i).phase = .wakeStored t ms) :
    allocates p.sched op ≠ some i ∧ p.savedAfter op i = p.saved i := by
  unfold TaskSystem.savedAfter at *
  split at hphase
  · cases hphase
  · rw [if_neg ‹_›] at hkilled ⊢
    split at hkilled
    · cases hkilled
    · exact ⟨‹_›, if_neg ‹_›⟩

/-- A task whose slot has not been killed finds the wake-up time it stored, and the code that
executes in a free slot belongs to a task that was killed. -/
structure WakeInv (p : TaskSystem) : Prop where
  inv : Inv p.sched
  stored : ∀ i t ms, (p.thread i).killed = false → (p.thread i).phase = .wakeStored t ms →
    (p.sched.tasks i).wakeAt = wakeTime t ms
  freed : (p.sched.tasks p.current).state = .unused → p.running.killed = true

theorem advance_killed {c d : Thread} {s : State} (h : c.advance s op = some d) :
    d.killed = c.killed := by
  cases op with
  | sleepSetWake ms => rw [(advance_sleepSetWake h).2]
  | sleepSetState => rw [(advance_sleepSetState h).2]
  | exitSetDead => rw [(advance_exitSetDead h).2]
  | exitDecrCount => rw [(advance_exitDecrCount h).2]
  | yield r =>
    unfold Thread.advance at h
    dsimp only at h
    split at h <;> cases h <;> rfl
  | _ => rw [Option.some.inj h]

/-- Between two stores of `sleep_ms` the thread that executes was there before, or has just stored
the wake-up time. -/
theorem advance_wakeStored {c d : Thread} {s : State} (h : c.advance s op = some d)
    (hphase : d.phase = .wakeStored t ms) :
    d.killed = c.killed ∧ (op = .sleepSetWake ms ∧ t = s.ticks ∨
      (∀ ms', op ≠ .sleepSetWake ms') ∧ c.phase = .wakeStored t ms) := by
  cases op with
  | sleepSetWake ms' =>
    obtain ⟨-, rfl⟩ := advance_sleepSetWake h
    obtain ⟨rfl, rfl⟩ := Phase.wakeStored.inj hphase
    exact ⟨rfl, .inl ⟨rfl, rfl⟩⟩
  | sleepSetState =>
    obtain ⟨-, rfl⟩ := advance_sleepSetState h
    cases hphase
  | exitSetDead =>
    obtain ⟨-, rfl⟩ := advance_exitSetDead h
    cases hphase
  | exitDecrCount =>
    obtain ⟨-, rfl⟩ := advance_exitDecrCount h
    cases hphase
  | yield r =>
    unfold Thread.advance at h
    dsimp only at h
    split at h <;> cases h
    all_goals simp_all
  | _ =>
    obtain rfl := Option.some.inj h
    exact ⟨rfl, .inr ⟨nofun, hphase⟩⟩

theorem WakeInv.step_stored (h : WakeInv p) (hstep : p.Step op q)
    (hkilled : (q.thread i).killed = false) (hphase : (q.thread i).phase = .wakeStored t ms) :
    (q.sched.tasks i).wakeAt = wakeTime t ms := by
  obtain ⟨c, hc, hthread⟩ := step_thread hstep
  have hs := TaskSystem.step_sched hstep
  rw [hthread] at hkilled hphase
  split_ifs at hkilled hphase with hi
  · obtain ⟨hck, -⟩ := runningAfter_killed hkilled
    rw [TaskSystem.runningAfter_phase] at hphase
    obtain ⟨hsame, hcases⟩ := advance_wakeStored hc hphase
    -- A slot filled while its old task executes would have been free, and the task killed.
    have halloc : allocates p.sched op ≠ some i := by
      intro halloc
      cases op with
      | createTask name entry =>
        have hkill := h.freed (hi ▸ unused_of_createTask halloc)
        rw [← hsame, hck] at hkill
        cases hkill
      | _ => cases halloc
    rcases step_wakeAt h.inv.initialized hs i halloc with heq | ⟨-, ms', rfl, heq⟩
    · rcases hcases with ⟨rfl, rfl⟩ | ⟨-, hold⟩
      · obtain ⟨-, hq⟩ := step_own hs rfl
        rw [hq, hi]
        simp [sleepSetWake, wakeTime]
      · rw [heq]
        refine h.stored i t ms ?_ ?_
        · rw [hi, TaskSystem.thread_current, ← hsame, hck]
        · rw [hi, TaskSystem.thread_current, hold]
    · rcases hcases with ⟨hop, rfl⟩ | ⟨hop, -⟩
      · rw [heq, Op.sleepSetWake.inj hop]
      · exact absurd rfl (hop ms')
  · obtain ⟨halloc, hsaved⟩ := savedAfter_wakeStored hkilled hphase
    rw [hsaved] at hkilled hphase
    have hthread : p.thread i = p.saved i := if_neg hi
    rcases step_wakeAt h.inv.initialized hs i halloc with heq | ⟨hcur, -⟩
    · rw [heq]
      exact h.stored i t ms (hthread ▸ hkilled) (hthread ▸ hphase)
    · exact absurd hcur hi

theorem frees_killTask {s : State} {slot : UInt32} (hi : slot.toNat = i.val)
    (hk : (killTask s slot).2 = true) : frees s (.killTask slot) i = true := by
  unfold frees
  simp [hk, hi]

/-- A slot that is free after a step was free before, unless the step is the kill that freed it. -/
theorem unused_of_step {s s' : State} (hs : Step s op s') (hop : op.schedules = false)
    (hfree : (s'.tasks i).state = .unused) :
    (s.tasks i).state = .unused ∨ frees s op i = true := by
  cases op with
  | createTask name entry =>
    obtain hq := Option.some.inj hs
    by_cases halloc : (createTask s name entry).2 = some i
    · exact .inl (unused_of_createTask halloc)
    · rw [← hq, createTask_tasks_of_ne halloc] at hfree
      exact .inl hfree
  | killTask slot =>
    obtain hq := Option.some.inj hs
    rcases killTask_cases s slot with hk | ⟨j, hj, -, -, -, hk⟩
    · rw [← hq, hk] at hfree
      exact .inl hfree
    · rw [← hq, hk, decrCount_tasks, State.setState_state] at hfree
      split_ifs at hfree with hij
      · exact .inr (frees_killTask (hij ▸ hj) (by rw [hk]))
      · exact .inl hfree
  | timerTick now r => cases hop
  | yield r => cases hop
  | sleepSetWake ms =>
    obtain ⟨-, hq⟩ := step_own hs rfl
    rw [hq, sleepSetWake, State.setTask_tasks] at hfree
    by_cases hi : i = s.currentTask
    · rw [hi, Function.update_self] at hfree
      exact .inl (hi ▸ hfree)
    · rw [Function.update_of_ne hi] at hfree
      exact .inl hfree
  | sleepSetState =>
    obtain ⟨-, hq⟩ := step_own hs rfl
    rw [hq, sleepSetState, State.setState_state] at hfree
    split_ifs at hfree
    exact .inl hfree
  | exitSetDead =>
    obtain ⟨-, hq⟩ := step_own hs rfl
    rw [hq, exitSetDead, State.setState_state] at hfree
    split_ifs at hfree
    exact .inl hfree
  | exitDecrCount =>
    obtain ⟨-, hq⟩ := step_own hs rfl
    rw [hq, decrCount_tasks] at hfree
    exact .inl hfree

theorem WakeInv.step_freed (h : WakeInv p) (hstep : p.Step op q)
    (hfree : (q.sched.tasks q.current).state = .unused) : q.running.killed = true := by
  have hs := TaskSystem.step_sched hstep
  by_cases hop : op.schedules = true
  · have hrun := (schedules_running h.inv hs hop q.current).mpr rfl
    rw [hrun] at hfree
    cases hfree
  rw [Bool.not_eq_true] at hop
  obtain ⟨c, hc, -, hcur, hrunning, -⟩ := TaskSystem.step_same hstep hop
  rw [hcur] at hfree
  rw [hrunning]
  have hcases := unused_of_step hs hop hfree
  unfold TaskSystem.runningAfter
  split
  · rfl
  · rw [advance_killed hc]
    exact h.freed (hcases.resolve_right ‹_›)

theorem WakeInv.step (h : WakeInv p) (hstep : p.Step op q) : WakeInv q :=
  ⟨step_inv h.inv (TaskSystem.step_sched hstep), fun _ _ _ => h.step_stored hstep,
    h.step_freed hstep⟩

theorem WakeInv.start (s0 : State) : WakeInv (TaskSystem.start s0) := by
  have hthread : ∀ i, (TaskSystem.start s0).thread i = newThread := fun i => by
    unfold TaskSystem.thread TaskSystem.start
    split <;> rfl
  refine ⟨init_inv s0, fun i t ms _ hphase => ?_, fun hfree => ?_⟩
  · rw [hthread] at hphase
    cases hphase
  · obtain ⟨-, hcur, -, hkernel, -⟩ := init_spec s0
    change ((init s0).tasks (init s0).currentTask).state = .unused at hfree
    rw [hcur, hkernel] at hfree
    cases hfree

theorem WakeInv.of_run {s0 : State} {ops : List Op}
    (hrun : Run TaskSystem.Step (TaskSystem.start s0) ops p) : WakeInv p :=
  hrun.invariant WakeInv (WakeInv.start s0) fun _ _ _ h hstep => h.step hstep

/-! ## A slot asleep -/

/-- Slot `i` sleeps until `w`; while its code still executes, it is about to give up the
processor. -/
structure Asleep (i : Slot) (w : UInt64) (p : TaskSystem) : Prop where
  inv : Inv p.sched
  state : (p.sched.tasks i).state = .sleeping
  wakeAt : (p.sched.tasks i).wakeAt = w
  phase : p.current = i → p.running.phase = .sleepStored

theorem Asleep.ne_idle (h : Asleep i w p) : i ≠ p.sched.idleTaskId := by
  rintro rfl
  have hstate := h.state
  rcases h.inv.idle with hi | hi <;> rw [hstate] at hi <;> cases hi

/-- A tick before `w` and a yield leave the slot asleep and do not select it. -/
theorem Asleep.schedules (h : Asleep i w p) (hstep : p.Step op q) (hop : op.schedules = true)
    (hdue : ¬Due w op) : Asleep i w q ∧ selects p.sched op ≠ some i := by
  have hs := TaskSystem.step_sched hstep
  have hinv := step_inv h.inv hs
  obtain ⟨t, hcur, hidle, htimes, hsettled, hcases⟩ := schedules_cases h.inv.initialized hs hop
  have hsleep : (t.tasks i).state = .sleeping := by
    rw [hsettled, ← h.state]
    cases op with
    | timerTick now r =>
      have hearly : ¬(now ≥ (p.sched.tasks i).wakeAt) := by
        rw [h.wakeAt]
        exact hdue
      simp [settledState, tickState, h.state, hearly]
    | _ => rfl
  have hwake : (t.tasks i).wakeAt = w := (htimes.wakeAt i).trans h.wakeAt
  rcases hcases with ⟨hfrom, hq⟩ | ⟨hfrom, hq, hrun⟩
  · have hsaved : ((saveCurrent t op.currentRsp).tasks i).state = .sleeping := by
      rw [saveCurrent_state, hsleep]
      simp
    have hne : pickNext (saveCurrent t op.currentRsp) ≠ i := by
      intro hpick
      rcases pickNext_cases (saveCurrent t op.currentRsp) with ⟨-, hready⟩ | ⟨heq, -⟩
      · rw [hpick, hsaved] at hready
        cases hready
      · rw [saveCurrent_idleTaskId, hidle, hpick] at heq
        exact h.ne_idle heq
    refine ⟨⟨hinv, ?_, ?_, fun hc => ?_⟩, ?_⟩
    · rw [hq, doSchedule_state, if_neg hne.symm, hsaved]
    · rw [hq, (SameTimes.doSchedule t _).wakeAt, hwake]
    · rw [TaskSystem.current, hq, doSchedule_currentTask] at hc
      exact absurd hc hne
    · rw [selects, hfrom, Option.map_some]
      exact fun heq => hne (Option.some.inj heq)
  · refine ⟨⟨hinv, by rw [hq, hsleep], by rw [hq, hwake], fun hc => ?_⟩, ?_⟩
    · -- The tick stays on a running slot, which is another one.
      rw [TaskSystem.current, hq] at hc
      rw [hc, hsleep] at hrun
      cases hrun
    · rw [selects, hfrom, Option.map_none]
      exact (Option.some_ne_none i).symm

theorem Asleep.step (h : Asleep i w p) (hstep : p.Step op q) (hspare : Spares i op)
    (hdue : ¬Due w op) : Asleep i w q ∧ selects p.sched op ≠ some i := by
  by_cases hop : op.schedules = true
  · exact h.schedules hstep hop hdue
  rw [Bool.not_eq_true] at hop
  refine ⟨?_, by rw [selects_of_not_schedules hop]; exact nofun⟩
  obtain ⟨c, hc, hs, hcur, hrunning, -⟩ := TaskSystem.step_same hstep hop
  have hinv := step_inv h.inv hs
  have hphase : q.running.phase = c.phase := by rw [hrunning, TaskSystem.runningAfter_phase]
  -- The code of the sleeper itself cannot take one of these steps.
  have hkeep : q.sched.tasks i = p.sched.tasks i → (p.current = i → c.phase = .sleepStored) →
      Asleep i w q := fun hsame hown =>
    ⟨hinv, hsame ▸ h.state, hsame ▸ h.wakeAt, fun hi => by rw [hphase]; exact hown (hcur ▸ hi)⟩
  have hother : p.current ≠ i → ∀ t, q.sched = p.sched.setTask p.current t → Asleep i w q := by
    intro hne t hq
    have hsame : q.sched.tasks i = p.sched.tasks i := by rw [hq]; simp [Ne.symm hne]
    exact hkeep hsame fun heq => absurd heq hne
  cases op with
  | createTask name entry =>
    obtain rfl := Option.some.inj hc
    obtain hq := Option.some.inj hs
    have hsame : q.sched.tasks i = p.sched.tasks i := by
      rw [← hq]
      apply createTask_tasks_of_ne
      intro halloc
      have hunused := unused_of_createTask halloc
      rw [h.state] at hunused
      cases hunused
    exact hkeep hsame h.phase
  | killTask slot =>
    obtain rfl := Option.some.inj hc
    obtain hq := Option.some.inj hs
    have hsame : q.sched.tasks i = p.sched.tasks i := by
      rw [← hq]
      exact killTask_tasks_of_ne hspare
    exact hkeep hsame h.phase
  | timerTick now r => cases hop
  | yield r => cases hop
  | sleepSetWake ms =>
    obtain ⟨hown, -⟩ := advance_sleepSetWake hc
    obtain ⟨-, hq⟩ := step_own hs rfl
    exact hother (fun hi => by simp [h.phase hi] at hown) _ hq
  | sleepSetState =>
    obtain ⟨⟨t, ms, hown⟩, -⟩ := advance_sleepSetState hc
    obtain ⟨-, hq⟩ := step_own hs rfl
    exact hother (fun hi => by simp [h.phase hi] at hown) _ hq
  | exitSetDead =>
    obtain ⟨hown, -⟩ := advance_exitSetDead hc
    obtain ⟨-, hq⟩ := step_own hs rfl
    exact hother (fun hi => by simp [h.phase hi] at hown) _ hq
  | exitDecrCount =>
    obtain ⟨hown, hd⟩ := advance_exitDecrCount hc
    obtain ⟨-, hq⟩ := step_own hs rfl
    have hsame : q.sched.tasks i = p.sched.tasks i := by rw [hq, decrCount_tasks]
    exact hkeep hsame fun hi => by simp [h.phase hi] at hown

/-- The `SLEEPING` store of a task whose slot has not been killed. -/
theorem Asleep.begin (h : WakeInv p) (hrunning : p.running = ⟨.wakeStored t ms, false⟩)
    (hstep : p.Step .sleepSetState q) : Asleep p.current (wakeTime t ms) q := by
  obtain ⟨c, hc, hs, hcur, hrun, -⟩ := TaskSystem.step_same hstep rfl
  obtain ⟨-, rfl⟩ := advance_sleepSetState hc
  obtain ⟨-, hq⟩ := step_own hs rfl
  have hwake : (p.sched.tasks p.current).wakeAt = wakeTime t ms := by
    apply h.stored p.current t ms <;> rw [TaskSystem.thread_current, hrunning]
  refine ⟨step_inv h.inv hs, ?_, ?_, fun _ => by rw [hrun, TaskSystem.runningAfter_phase]⟩
  · rw [hq, sleepSetState, State.setState_state, if_pos rfl]
  · rw [hq, ← hwake]
    simp [sleepSetState, State.setState]

/-- A tick leaves no slot asleep whose time has come. -/
theorem tick_wakes (inv : Inv p.sched) {now r : UInt64} (hstep : p.Step (.timerTick now r) q)
    (hstate : (q.sched.tasks i).state = .sleeping) : now < (q.sched.tasks i).wakeAt := by
  have hs := TaskSystem.step_sched hstep
  obtain ⟨t, -, -, htimes, hsettled, hcases⟩ := schedules_cases inv.initialized hs rfl
  have hsleep : (t.tasks i).state = .sleeping ∧
      (q.sched.tasks i).wakeAt = (p.sched.tasks i).wakeAt := by
    rcases hcases with ⟨-, hq⟩ | ⟨-, hq, -⟩
    · rw [hq, doSchedule_state] at hstate
      split_ifs at hstate
      rw [saveCurrent_state] at hstate
      split_ifs at hstate
      exact ⟨hstate, by rw [hq, (SameTimes.doSchedule t _).wakeAt, htimes.wakeAt]⟩
    · rw [hq] at hstate ⊢
      exact ⟨hstate, htimes.wakeAt i⟩
  have hsettle := hsettled i
  rw [hsleep.1] at hsettle
  rw [hsleep.2]
  simp only [settledState, tickState] at hsettle
  split_ifs at hsettle with hdue
  by_contra hle
  exact hdue ⟨hsettle.symm, UInt64.not_lt.mp hle⟩

/-- In every run: once a task whose slot has not been killed has stored `SLEEPING` in a
`sleep_ms(ms)` called at tick `t`, its slot stays asleep and is not selected until a tick at
`t + ms` or a kill of the slot; a tick leaves no slot asleep whose wake-up time has come; and the
sum is that of the numbers unless it exceeds the tick counter's 64 bits. -/
theorem sleep_neither_early_nor_lost (s0 : State) (ops : List Op)
    (hrun : Run TaskSystem.Step (TaskSystem.start s0) ops p) :
    (∀ t ms q, p.running = ⟨.wakeStored t ms, false⟩ → p.Step .sleepSetState q → ∀ ops' r,
      Run (Where (fun _ op => Spares p.current op ∧ ¬Due (wakeTime t ms) op) TaskSystem.Step)
        q ops' r →
      (r.sched.tasks p.current).state = .sleeping ∧
        ∀ op r', Spares p.current op → ¬Due (wakeTime t ms) op → r.Step op r' →
          selects r.sched op ≠ some p.current) ∧
    (∀ now rsp q, p.Step (.timerTick now rsp) q → ∀ i, (q.sched.tasks i).state = .sleeping →
      now < (q.sched.tasks i).wakeAt) ∧
    ∀ (t : UInt64) (ms : UInt32) (now rsp : UInt64), t.toNat + ms.toNat < 2 ^ 64 →
      (Due (wakeTime t ms) (.timerTick now rsp) ↔ t.toNat + ms.toNat ≤ now.toNat) := by
  have hinv := WakeInv.of_run hrun
  refine ⟨fun t ms q hrunning hstep ops' r hcont => ?_, fun now rsp q hstep i =>
    tick_wakes hinv.inv hstep, fun t ms now rsp => due_wakeTime_iff⟩
  have hasleep : Asleep p.current (wakeTime t ms) r :=
    hcont.invariant _ (Asleep.begin hinv hrunning hstep) fun a op b ha hstep =>
      (ha.step hstep.2 hstep.1.1 hstep.1.2).1
  exact ⟨hasleep.state, fun op r' hspare hdue hstep => (hasleep.step hstep hspare hdue).2⟩

/-- The task in slot 2 has called `sleep_ms(5)` at tick 1 and stored its wake-up time. -/
@[irreducible] def dozing : TaskSystem :=
  (exec TaskSystem.step (TaskSystem.start sampleImage) (spawnOps ++ [.sleepSetWake 5])).get
    (by decide +kernel)

@[irreducible] def dozed : TaskSystem := (dozing.step .sleepSetState).get (by decide +kernel)

/-- A tick comes before the task's own `int 0x80`. -/
@[irreducible] def asleep : TaskSystem :=
  (exec (guarded (fun _ op => Spares 2 op ∧ ¬Due 6 op) TaskSystem.step) dozed
    [.timerTick 2 0x9008]).get (by decide +kernel)

theorem sleep_neither_early_nor_lost_asleep : (asleep.sched.tasks 2).state = .sleeping := by
  have hrun : Run TaskSystem.Step (TaskSystem.start sampleImage) (spawnOps ++ [.sleepSetWake 5])
      dozing := by
    unfold dozing
    exact run_get _
  have hstep : dozing.Step .sleepSetState dozed := by
    unfold dozed
    exact (Option.some_get _).symm
  have hcont : Run (Where (fun _ op => Spares 2 op ∧ ¬Due 6 op) TaskSystem.Step) dozed
      [.timerTick 2 0x9008] asleep := by
    unfold asleep
    exact run_where_get _
  have hcur : dozing.current = 2 := by decide +kernel
  have h := (sleep_neither_early_nor_lost sampleImage _ hrun).1 1 5 dozed (by decide +kernel)
    hstep [.timerTick 2 0x9008] asleep
  rw [hcur] at h
  exact (h hcont).1

end QuillOS.Scheduler
