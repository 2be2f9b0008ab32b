import QuillOS.Scheduler.Invariant

/-!
# Saved contexts

A history of a run says, for the present incarnation of each slot, where it has to resume: at the
frame `create_task` built, or at the stack pointer it was last switched out with. The stack
pointers the scheduler returns agree with it in the runs where `create_task` never fills the slot
of the task that is executing.
-/

namespace QuillOS.Scheduler

open Lib

/-! ## Histories -/

/-- How the present incarnation of a slot resumes. -/
inductive Context
  | unallocated
  | fresh (entry : Entry)
  | onCpu
  | saved (rsp : UInt64)
  deriving DecidableEq

/-- What a run so far says, independently of the stack pointers kept in the table. -/
structure History where
  /-- How many tasks each slot has held. -/
  incarnation : Slot → ℕ
  /-- Which of the tasks of the current slot is executing. -/
  executing : ℕ
  context : Slot → Context

/-- After `init`: the kernel executes and the idle task waits at its initial frame. -/
def History.start (s : State) : History where
  incarnation i := if i = 0 ∨ i = s.idleTaskId then 1 else 0
  executing := 1
  context i := if i = 0 then .onCpu else if i = s.idleTaskId then .fresh s.idleEntry
    else .unallocated

/-- The history after a step from `s` to `s'`. A stack pointer is recorded for the slot that is
switched out only if it belongs to the slot's present incarnation. -/
def History.record (h : History) (s : State) (op : Op) (s' : State) : History :=
  match op with
  | .createTask name entry =>
    match (createTask s name entry).2 with
    | some i =>
      { h with
        incarnation := Function.update h.incarnation i (h.incarnation i + 1)
        context := Function.update h.context i (.fresh entry) }
    | none => h
  | _ =>
    if s'.currentTask = s.currentTask then h
    else
      { h with
        executing := h.incarnation s'.currentTask
        context := Function.update
          (if h.executing = h.incarnation s.currentTask then
            Function.update h.context s.currentTask (.saved op.currentRsp) else h.context)
          s'.currentTask .onCpu }

/-- The scheduler run side by side with its history. -/
def recordedStep (p : State × History) (op : Op) : Option (State × History) :=
  (step p.1 op).map fun s' => (s', p.2.record p.1 op s')

def recordedInit (s0 : State) : State × History := (init s0, History.start (init s0))

abbrev RecordedStep (p : State × History) (op : Op) (q : State × History) : Prop :=
  recordedStep p op = some q

/-- `create_task` does not fill the slot of the task that is executing. -/
def SparesCurrent (p : State × History) (op : Op) : Prop :=
  allocates p.1 op ≠ some p.1.currentTask

instance (p : State × History) (op : Op) : Decidable (SparesCurrent p op) :=
  inferInstanceAs (Decidable (¬_))

/-- Resuming slot `i` of `s` on stack pointer `r` continues the task in the context `c`: a new
task starts on the frame that leads to its own entry function. -/
def Resumes (s : State) (i : Slot) (r : UInt64) : Context → Prop
  | .unallocated => False
  | .fresh entry =>
    r = s.frameAddr i ∧ s.frames i = initialFrame s i ∧ (s.tasks i).entry = entry
  | .onCpu => False
  | .saved rsp => r = rsp

instance (s : State) (i : Slot) (r : UInt64) (c : Context) : Decidable (Resumes s i r c) := by
  cases c <;> unfold Resumes <;> infer_instance

/-! ## What `do_schedule` does to the saved contexts -/

theorem saveCurrent_rsp (s : State) (r : UInt64) (j : Slot) :
    ((saveCurrent s r).tasks j).rsp = if j = s.currentTask then r else (s.tasks j).rsp := by
  rw [saveCurrent_tasks]
  split <;> rfl

theorem saveCurrent_entry (s : State) (r : UInt64) (j : Slot) :
    ((saveCurrent s r).tasks j).entry = (s.tasks j).entry := by
  rw [saveCurrent_tasks]
  split <;> rfl

/-- `do_schedule` keeps the stack pointer and entry of every slot but the one it switches out. -/
theorem doSchedule_context (s : State) (r : UInt64) (j : Slot) :
    ((doSchedule s r).1.tasks j).rsp = (if j = s.currentTask then r else (s.tasks j).rsp) ∧
      ((doSchedule s r).1.tasks j).entry = (s.tasks j).entry := by
  rw [← saveCurrent_rsp, ← saveCurrent_entry s r]
  unfold doSchedule
  dsimp only
  split
  · by_cases hj : j = (saveCurrent s r).currentTask
    · subst hj; simp [startSlice]
    · simp only [saveCurrent_currentTask] at hj
      simp [hj]
  · by_cases hj : j = pickNext (saveCurrent s r)
    · subst hj; simp [startSlice]
    · simp [hj]

theorem doSchedule_frames (s : State) (r : UInt64) :
    (doSchedule s r).1.frames = s.frames ∧ (doSchedule s r).1.taskStacks = s.taskStacks ∧
      (doSchedule s r).1.taskEntryWrapper = s.taskEntryWrapper := by
  have hsave : (saveCurrent s r).frames = s.frames ∧ (saveCurrent s r).taskStacks = s.taskStacks ∧
      (saveCurrent s r).taskEntryWrapper = s.taskEntryWrapper := by
    unfold saveCurrent; dsimp only; split <;> exact ⟨rfl, rfl, rfl⟩
  unfold doSchedule
  dsimp only
  split <;> exact hsave

/-- When `do_schedule` turns to another slot it returns the stack pointer kept for that slot. -/
theorem doSchedule_returns {s : State} {r : UInt64}
    (h : (doSchedule s r).1.currentTask ≠ s.currentTask) :
    (doSchedule s r).2 = (s.tasks (doSchedule s r).1.currentTask).rsp := by
  rw [doSchedule_currentTask] at h ⊢
  have hr := saveCurrent_rsp s r (pickNext (saveCurrent s r))
  rw [if_neg h] at hr
  rw [← hr]
  unfold doSchedule
  dsimp only
  rw [if_neg (by rintro ⟨hn, -⟩; exact h (by simpa using hn))]

/-! ## The invariant -/

/-- The contexts of the slots that are not executing are the ones kept in the table. -/
structure ContextInv (p : State × History) : Prop where
  inv : Inv p.1
  executing : p.2.executing = p.2.incarnation p.1.currentTask
  unallocated : ∀ i, p.2.context i = .unallocated →
    i ≠ p.1.currentTask ∧ (p.1.tasks i).state = .unused
  resumes : ∀ i, i ≠ p.1.currentTask → p.2.context i ≠ .unallocated →
    Resumes p.1 i (p.1.tasks i).rsp (p.2.context i)

/-- Resuming depends on the entry of the slot and the frame on its stack. -/
theorem Resumes.congr {s t : State} {i : Slot} {r : UInt64} {c : Context} (h : Resumes s i r c)
    (hstk : t.taskStacks = s.taskStacks) (hwrap : t.taskEntryWrapper = s.taskEntryWrapper)
    (hfr : t.frames i = s.frames i) (hentry : (t.tasks i).entry = (s.tasks i).entry) :
    Resumes t i r c := by
  cases c with
  | unallocated => exact h
  | fresh e =>
    obtain ⟨h1, h2, h3⟩ := h
    refine ⟨?_, ?_, hentry.trans h3⟩
    · simpa only [State.frameAddr, State.stackTop, hstk] using h1
    · rw [hfr, h2]; simp only [initialFrame, State.stackTop, hstk, hwrap]
  | onCpu => exact h
  | saved q => exact h

theorem start_contextInv (s : State) : ContextInv (recordedInit s) := by
  obtain ⟨-, hcur, hne, -, -, hrsp, hentry, hframe, hrest⟩ := init_spec s
  unfold recordedInit
  refine ⟨init_inv s, by simp [History.start, hcur], fun i hi => ?_, fun i hi hc => ?_⟩
  · simp only [History.start] at hi
    split_ifs at hi with h0 hid
    exact ⟨by simpa only [hcur] using h0, hrest i h0 hid⟩
  · simp only [hcur] at hi
    simp only [History.start, if_neg hi] at hc ⊢
    split_ifs at hc ⊢ with hid
    · subst hid
      exact ⟨hrsp, hframe, hentry⟩
    · exact absurd rfl hc

/-- A step that keeps every saved context keeps the invariant. -/
theorem ContextInv.congr {s s' : State} {h : History} (hinv : ContextInv (s, h))
    (hinv' : Inv s') (hs : SameContexts s s')
    (hunused : ∀ i, i ≠ s.currentTask → (s.tasks i).state = .unused →
      (s'.tasks i).state = .unused) : ContextInv (s', h) where
  inv := hinv'
  executing := by rw [hs.currentTask]; exact hinv.executing
  unallocated i hi := by
    obtain ⟨hne, hu⟩ := hinv.unallocated i hi
    exact ⟨by rw [hs.currentTask]; exact hne, hunused i hne hu⟩
  resumes i hi hc := by
    rw [hs.currentTask] at hi
    rw [hs.rsp]
    exact (hinv.resumes i hi hc).congr hs.taskStacks hs.taskEntryWrapper (by rw [hs.frames])
      (hs.entry i)

/-- The steps that neither schedule nor create keep every saved context. -/
theorem step_sameContexts {s s' : State} {op : Op} (hstep : Step s op s')
    (hop : op.schedules = false) (hcreate : ∀ name entry, op ≠ .createTask name entry) :
    SameContexts s s' ∧ ∀ i, i ≠ s.currentTask → (s.tasks i).state = .unused →
      (s'.tasks i).state = .unused := by
  have hset : ∀ st, SameContexts s (s.setState s.currentTask st) ∧ ∀ i, i ≠ s.currentTask →
      (s.tasks i).state = .unused → ((s.setState s.currentTask st).tasks i).state = .unused :=
    fun st => ⟨SameContexts.setTask s _ _ rfl rfl, fun i hi hu => by
      rw [State.setState_state, if_neg hi, hu]⟩
  have hcount : ∀ t, SameContexts t (decrCount t) := by
    intro t
    unfold decrCount
    split <;> exact ⟨rfl, rfl, rfl, rfl, rfl, rfl, fun _ => rfl, fun _ => rfl⟩
  cases op with
  | createTask name entry => exact absurd rfl (hcreate name entry)
  | killTask slot =>
    cases hstep
    rcases killTask_cases s slot with hk | ⟨i, -, -, -, -, hk⟩ <;> rw [hk]
    · exact ⟨SameContexts.refl s, fun _ _ hu => hu⟩
    · have hi : SameContexts s (s.setState i .unused) := SameContexts.setTask s i _ rfl rfl
      refine ⟨hi.trans (hcount _), fun j _ hu => ?_⟩
      rw [decrCount_tasks, State.setState_state]
      split
      · rfl
      · exact hu
  | timerTick now r => cases hop
  | yield r => cases hop
  | sleepSetWake ms =>
    simp only [Step, step] at hstep
    split at hstep <;> cases hstep
    refine ⟨SameContexts.setTask s _ _ rfl rfl, fun i hi hu => ?_⟩
    simpa [sleepSetWake, hi] using hu
  | sleepSetState =>
    simp only [Step, step] at hstep
    split at hstep <;> cases hstep
    exact hset .sleeping
  | exitSetDead =>
    simp only [Step, step] at hstep
    split at hstep <;> cases hstep
    exact hset .dead
  | exitDecrCount =>
    simp only [Step, step] at hstep
    split at hstep <;> cases hstep
    exact ⟨hcount s, fun _ _ hu => by rwa [decrCount_tasks]⟩

/-- A new task in a slot that is not executing waits at its initial frame. -/
theorem createTask_contextInv {s : State} {h : History} (hinv : ContextInv (s, h))
    (name : Option (List UInt8)) (entry : Entry)
    (hspare : (createTask s name entry).2 ≠ some s.currentTask) :
    ContextInv ((createTask s name entry).1,
      h.record s (.createTask name entry) (createTask s name entry).1) := by
  rcases createTask_cases s name entry with hn | ⟨i, -, -, hres, hother, hready, hrsp, hentry⟩
  · simp only [History.record, hn]; exact hinv
  obtain ⟨hstk, hwrap, hframe⟩ := createTask_frames hres
  have hicur : i ≠ s.currentTask := fun hi => hspare (hi ▸ hres)
  simp only [History.record, hres]
  refine ⟨createTask_inv hinv.inv name entry, ?_, fun j hj => ?_, fun j hj hc => ?_⟩
  · simp only [createTask_currentTask, Function.update_of_ne hicur.symm]
    exact hinv.executing
  · by_cases hji : j = i
    · subst hji; simp at hj
    · simp only [Function.update_of_ne hji] at hj
      simp only [createTask_currentTask, hother j hji]
      exact hinv.unallocated j hj
  · by_cases hji : j = i
    · subst hji
      simp only [Function.update_self]
      refine ⟨?_, ?_, hentry⟩
      · rw [hrsp]; simp only [State.frameAddr, State.stackTop, hstk]
      · rw [hframe, Function.update_self]; simp only [initialFrame, State.stackTop, hstk, hwrap]
    · simp only [createTask_currentTask] at hj
      simp only [Function.update_of_ne hji, hother j hji] at hc ⊢
      refine (hinv.resumes j hj hc).congr hstk hwrap ?_ (by rw [hother j hji])
      rw [hframe, Function.update_of_ne hji]

/-- The history `do_schedule` leaves: the slot it switched out resumes at the stack pointer it
came with, and the slot it switched to was resumed where its context says. -/
theorem doSchedule_contextInv {t : State} {h : History} (hinv : ContextInv (t, h)) (r : UInt64) :
    let s' := (doSchedule t r).1
    (s'.currentTask = t.currentTask → ContextInv (s', h)) ∧
      (s'.currentTask ≠ t.currentTask →
        Resumes s' s'.currentTask (doSchedule t r).2 (h.context s'.currentTask) ∧
        ContextInv (s',
          { h with
            executing := h.incarnation s'.currentTask
            context := Function.update
              (Function.update h.context t.currentTask (.saved r)) s'.currentTask .onCpu })) := by
  intro s'
  have hs' : Inv s' := doSchedule_inv hinv.inv r
  obtain ⟨hframes, hstk, hwrap⟩ := doSchedule_frames t r
  -- an unallocated slot is neither executing nor picked
  have hunused : ∀ i, h.context i = .unallocated → i ≠ s'.currentTask ∧
      (s'.tasks i).state = .unused := by
    intro i hi
    obtain ⟨hcur, hu⟩ := hinv.unallocated i hi
    have hsave : ((saveCurrent t r).tasks i).state = .unused := by
      rw [saveCurrent_state, if_neg (by simp [hcur]), hu]
    have hpick : i ≠ s'.currentTask := by
      rintro rfl
      have hr := (doSchedule_running hinv.inv r s'.currentTask).mpr rfl
      rcases pickNext_cases (saveCurrent t r) with ⟨-, hready⟩ | ⟨hidle, -⟩
      · rw [← doSchedule_currentTask, hsave] at hready; cases hready
      · rw [← doSchedule_currentTask, saveCurrent_idleTaskId] at hidle
        rcases hinv.inv.idle with hi' | hi' <;> rw [← hidle, hu] at hi' <;> cases hi'
    refine ⟨hpick, ?_⟩
    rw [doSchedule_state, ← doSchedule_currentTask, if_neg hpick, hsave]
  have hkeep : ∀ i, i ≠ t.currentTask → h.context i ≠ .unallocated →
      Resumes s' i (s'.tasks i).rsp (h.context i) := by
    intro i hi hc
    obtain ⟨hrsp, hentry⟩ := doSchedule_context t r i
    rw [hrsp, if_neg hi]
    exact (hinv.resumes i hi hc).congr hstk hwrap (by rw [hframes]) hentry
  refine ⟨fun hcur => ⟨hs', ?_, hunused, fun i hi hc => ?_⟩, fun hcur => ⟨?_, hs', rfl, ?_, ?_⟩⟩
  · rw [hinv.executing]; simp only [s', hcur]
  · exact hkeep i (by simpa only [← hcur] using hi) hc
  · rw [doSchedule_returns hcur]
    have hc : h.context s'.currentTask ≠ .unallocated := fun hu => (hunused _ hu).1 rfl
    have hk := hkeep _ hcur hc
    rwa [(doSchedule_context t r s'.currentTask).1, if_neg hcur] at hk
  · intro i hi
    by_cases hin : i = s'.currentTask
    · subst hin; simp at hi
    · by_cases hit : i = t.currentTask
      · subst hit; simp [hin] at hi
      · simp only [Function.update_of_ne hin, Function.update_of_ne hit] at hi
        exact hunused i hi
  · intro i hi hc
    simp only [Function.update_of_ne hi] at hc ⊢
    by_cases hit : i = t.currentTask
    · subst hit
      simp only [Function.update_self]
      exact (doSchedule_context t r t.currentTask).1.trans (if_pos rfl)
    · simp only [Function.update_of_ne hit] at hc ⊢
      exact hkeep i hit hc

theorem recordedStep_eq {p q : State × History} {op : Op} (h : RecordedStep p op q) :
    Step p.1 op q.1 ∧ q.2 = p.2.record p.1 op q.1 := by
  obtain ⟨s', hs, rfl⟩ := Option.map_eq_some_iff.mp h
  exact ⟨hs, rfl⟩

/-- What a tick or a yield adds to the history when the executing task is the present one. -/
theorem record_schedules {h : History} {s s' : State} {op : Op} (hop : op.schedules = true)
    (hexec : h.executing = h.incarnation s.currentTask) :
    h.record s op s' =
      if s'.currentTask = s.currentTask then h
      else
        { h with
          executing := h.incarnation s'.currentTask
          context := Function.update
            (Function.update h.context s.currentTask (.saved op.currentRsp)) s'.currentTask
              .onCpu } := by
  cases op with
  | timerTick now r => simp only [History.record, hexec, if_true]
  | yield r => simp only [History.record, hexec, if_true]
  | _ => cases hop

theorem record_other {h : History} {s s' : State} {op : Op} (hop : op.schedules = false)
    (hcreate : ∀ name entry, op ≠ .createTask name entry)
    (hcur : s'.currentTask = s.currentTask) : h.record s op s' = h := by
  cases op with
  | createTask name entry => exact absurd rfl (hcreate name entry)
  | timerTick now r => cases hop
  | yield r => cases hop
  | _ => simp only [History.record, hcur, if_true]

/-- One step keeps the invariant, and a switch resumes the slot where its context says. -/
theorem step_contextInv {p q : State × History} {op : Op} (hinv : ContextInv p)
    (hspare : SparesCurrent p op) (hstep : RecordedStep p op q) :
    ContextInv q ∧ (op.schedules = true → q.1.currentTask ≠ p.1.currentTask →
      Resumes q.1 q.1.currentTask (returnedRsp p.1 op) (p.2.context q.1.currentTask)) := by
  obtain ⟨s, h⟩ := p
  obtain ⟨s', h'⟩ := q
  obtain ⟨hs, hh⟩ := recordedStep_eq hstep
  dsimp only at hs hh
  subst hh
  by_cases hop : op.schedules = true
  · obtain ⟨t, ht, hsame, hunused, -, hcase⟩ := step_schedules hinv.inv hs hop
    have htinv : ContextInv (t, h) := hinv.congr ht hsame fun i _ hu => hunused i hu
    dsimp only at hs ⊢
    rw [record_schedules hop hinv.executing]
    rcases hcase with ⟨rfl, hret⟩ | ⟨rfl, -⟩
    · obtain ⟨hstay, hswitch⟩ := doSchedule_contextInv htinv op.currentRsp
      rw [hsame.currentTask] at hstay hswitch
      rw [hret]
      split
      · rename_i hcur
        exact ⟨hstay hcur, fun _ hne => absurd hcur hne⟩
      · rename_i hcur
        exact ⟨(hswitch hcur).2, fun _ _ => (hswitch hcur).1⟩
    · rw [if_pos hsame.currentTask]
      exact ⟨htinv, fun _ hne => absurd hsame.currentTask hne⟩
  · refine ⟨?_, fun h => absurd h hop⟩
    by_cases hcreate : ∃ name entry, op = .createTask name entry
    · obtain ⟨name, entry, rfl⟩ := hcreate
      cases hs
      exact createTask_contextInv hinv name entry hspare
    · push Not at hcreate
      have hop' : op.schedules = false := by simpa using hop
      rw [record_other hop' hcreate (step_currentTask hs hop')]
      obtain ⟨hsame, hunused⟩ := step_sameContexts hs hop' hcreate
      exact hinv.congr (step_inv hinv.inv hs) hsame hunused

/-- In every run in which `create_task` never fills the slot of the executing task, a tick or a
yield that switches to a slot returns the stack pointer its present task resumes on. -/
theorem resumes_own_context (s0 : State) (ops : List Op) (p q : State × History) (op : Op)
    (hrun : Run (Where SparesCurrent RecordedStep) (recordedInit s0) ops p)
    (hspare : SparesCurrent p op) (hstep : RecordedStep p op q) (hop : op.schedules = true)
    (hswitch : q.1.currentTask ≠ p.1.currentTask) :
    Resumes q.1 q.1.currentTask (returnedRsp p.1 op) (p.2.context q.1.currentTask) := by
  have hinv : ContextInv p := hrun.invariant ContextInv (start_contextInv s0)
    fun _ _ _ ha hs => (step_contextInv ha hs.1 hs.2).1
  exact (step_contextInv hinv hspare hstep).2 hop hswitch

/-- A task is created, and nine of the ten ticks of the kernel's slice go by. -/
def waitingOps : List Op := .createTask (some [97]) 0x3000 :: List.replicate 9 (.timerTick 1 0x8000)

def waiting : State × History :=
  (exec (guarded SparesCurrent recordedStep) (recordedInit sampleImage) waitingOps).get
    (by decide +kernel)

theorem waiting_run :
    Run (Where SparesCurrent RecordedStep) (recordedInit sampleImage) waitingOps waiting :=
  run_where_get _

@[irreducible] def waitingNext : State × History :=
  (recordedStep waiting (.timerTick 1 0x8000)).get (by decide +kernel)

theorem waitingNext_step : RecordedStep waiting (.timerTick 1 0x8000) waitingNext := by
  unfold waitingNext
  exact (Option.some_get _).symm

/-- The kernel switches to a task that was created and has not run. -/
theorem resumes_own_context_spawned :
    waitingNext.1.currentTask = 2 ∧ waiting.2.context 2 = .fresh 0x3000 ∧
      Resumes waitingNext.1 waitingNext.1.currentTask (returnedRsp waiting.1 (.timerTick 1 0x8000))
        (waiting.2.context waitingNext.1.currentTask) :=
  ⟨by decide +kernel, by decide +kernel,
    resumes_own_context sampleImage waitingOps waiting waitingNext _ waiting_run
      (by decide +kernel) waitingNext_step rfl (by decide +kernel)⟩

/-- The task in slot 2 is switched to and killed while it executes; a task with entry `0x4000`
takes the slot; the killed task is switched out at `0x9008` and the kernel uses up its slice but
for the last tick. -/
def reusedOps : List Op :=
  waitingOps ++ [.timerTick 1 0x8000, .killTask 2, .createTask (some [98]) 0x4000, .yield 0x9008] ++
    List.replicate 9 (.timerTick 2 0x8008)

def reused : State × History :=
  (exec recordedStep (recordedInit sampleImage) reusedOps).get (by decide +kernel)

def reusedNext : State × History :=
  (recordedStep reused (.timerTick 2 0x8008)).get (by decide +kernel)

/-- As it stands the property fails: the new task in the reused slot is resumed on the stack
pointer of the task that was killed there, not on its own initial frame. -/
theorem reused_slot_resumes_killed_task :
    Run RecordedStep (recordedInit sampleImage) reusedOps reused ∧ reused.2.context 2 = .fresh 0x4000 ∧
      RecordedStep reused (.timerTick 2 0x8008) reusedNext ∧ reused.1.currentTask = 0 ∧
      reusedNext.1.currentTask = 2 ∧ returnedRsp reused.1 (.timerTick 2 0x8008) = 0x9008 ∧
      ¬Resumes reusedNext.1 reusedNext.1.currentTask
        (returnedRsp reused.1 (.timerTick 2 0x8008))
        (reused.2.context reusedNext.1.currentTask) :=
  ⟨run_get _, by decide +kernel, (Option.some_get _).symm, by decide +kernel, by decide +kernel,
    by decide +kernel, by decide +kernel⟩

end QuillOS.Scheduler
