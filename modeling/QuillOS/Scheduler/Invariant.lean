import QuillOS.Scheduler.Model

/-!
# The running task

What each function of the scheduler does to the states of the slots, and the invariant that
follows: at most the current slot is running, and the kernel and idle slots never leave the
ready list.
-/

namespace QuillOS.Scheduler

open Lib

/-! ## Picking -/

/-- The scan misses no slot: it returns a ready slot other than idle, or idle if there is none. -/
theorem pickNext_cases (s : State) :
    (pickNext s ≠ s.idleTaskId ∧ (s.tasks (pickNext s)).state = .ready) ∨
      (pickNext s = s.idleTaskId ∧
        ∀ i, i ≠ s.idleTaskId → (s.tasks i).state ≠ .ready) := by
  unfold pickNext
  dsimp only
  split
  · rename_i k hk
    have h := (Fin.find?_eq_some_iff.mp hk).1
    exact Or.inl (by simpa using h)
  · rename_i hk
    refine Or.inr ⟨rfl, fun i hi hr => ?_⟩
    have h := Fin.find?_eq_none_iff.mp hk (i - (s.currentTask + 1))
    rw [add_sub_cancel] at h
    exact of_decide_eq_false h ⟨hi, hr⟩

/-! ## Creating and killing -/

/-- `create_task_internal` fails and changes nothing, or fills the first unused slot. -/
theorem createTaskInternal_cases (s : State) (name : Option (List UInt8)) (entry : Entry)
    (isIdle : Bool) (start : ℕ) (hstart : start = if isIdle then 0 else 1) :
    (findUnused s start = none ∧ createTaskInternal s name entry isIdle = (s, none)) ∨
      ∃ i, findUnused s start = some i ∧
        (createTaskInternal s name entry isIdle).2 = some i ∧
        (∀ j, j ≠ i → (createTaskInternal s name entry isIdle).1.tasks j = s.tasks j) ∧
        ((createTaskInternal s name entry isIdle).1.tasks i).state = .ready ∧
        ((createTaskInternal s name entry isIdle).1.tasks i).rsp = s.frameAddr i ∧
        ((createTaskInternal s name entry isIdle).1.tasks i).entry = entry := by
  unfold createTaskInternal
  rw [← hstart]
  generalize findUnused s start = o
  rcases o with _ | i
  · exact Or.inl ⟨rfl, rfl⟩
  · exact Or.inr ⟨i, rfl, rfl, fun j hj => by simp [hj], by simp, by simp, by simp⟩

theorem createTaskInternal_frames (s : State) (name : Option (List UInt8)) (entry : Entry)
    (isIdle : Bool) :
    (createTaskInternal s name entry isIdle).1.taskStacks = s.taskStacks ∧
      (createTaskInternal s name entry isIdle).1.taskEntryWrapper = s.taskEntryWrapper ∧
      ∀ i, (createTaskInternal s name entry isIdle).2 = some i →
        (createTaskInternal s name entry isIdle).1.frames =
          Function.update s.frames i (initialFrame s i) := by
  unfold createTaskInternal
  split
  · exact ⟨rfl, rfl, fun i h => by cases h⟩
  · exact ⟨rfl, rfl, fun i h => by cases h; rfl⟩

theorem findUnused_some {s : State} {start : ℕ} {i : Slot} (h : findUnused s start = some i) :
    start ≤ i.val ∧ (s.tasks i).state = .unused :=
  of_decide_eq_true (Fin.find?_eq_some_iff.mp h).1

theorem findUnused_none {s : State} {start : ℕ} (h : findUnused s start = none) (i : Slot)
    (hi : start ≤ i.val) : (s.tasks i).state ≠ .unused :=
  fun hu => of_decide_eq_false (Fin.find?_eq_none_iff.mp h i) ⟨hi, hu⟩

@[simp] theorem createTaskInternal_currentTask (s : State) (name : Option (List UInt8))
    (entry : Entry) (isIdle : Bool) :
    (createTaskInternal s name entry isIdle).1.currentTask = s.currentTask := by
  unfold createTaskInternal; split <;> rfl

@[simp] theorem createTaskInternal_idleTaskId (s : State) (name : Option (List UInt8))
    (entry : Entry) (isIdle : Bool) :
    (createTaskInternal s name entry isIdle).1.idleTaskId = s.idleTaskId := by
  unfold createTaskInternal; split <;> rfl

@[simp] theorem createTaskInternal_initialized (s : State) (name : Option (List UInt8))
    (entry : Entry) (isIdle : Bool) :
    (createTaskInternal s name entry isIdle).1.initialized = s.initialized := by
  unfold createTaskInternal; split <;> rfl

/-- `create_task` fails and changes nothing, or fills an unused slot other than slot 0. -/
theorem createTask_cases (s : State) (name : Option (List UInt8)) (entry : Entry) :
    createTask s name entry = (s, none) ∨
      ∃ i, i ≠ 0 ∧ (s.tasks i).state = .unused ∧ (createTask s name entry).2 = some i ∧
        (∀ j, j ≠ i → (createTask s name entry).1.tasks j = s.tasks j) ∧
        ((createTask s name entry).1.tasks i).state = .ready ∧
        ((createTask s name entry).1.tasks i).rsp = s.frameAddr i ∧
        ((createTask s name entry).1.tasks i).entry = entry := by
  unfold createTask
  split
  · exact Or.inl rfl
  · rcases createTaskInternal_cases s name entry false 1 rfl with ⟨-, h⟩ | ⟨i, hf, h⟩
    · exact Or.inl h
    · obtain ⟨h1, hu⟩ := findUnused_some hf
      have h0 : i ≠ 0 := by rintro rfl; exact absurd h1 (by decide)
      exact Or.inr ⟨i, h0, hu, h⟩

/-- `create_task` changes no slot but the one it fills. -/
theorem createTask_tasks_of_ne {s : State} {name : Option (List UInt8)} {entry : Entry} {i : Slot}
    (hi : (createTask s name entry).2 ≠ some i) :
    (createTask s name entry).1.tasks i = s.tasks i := by
  rcases createTask_cases s name entry with hn | ⟨j, -, -, hres, hother, -⟩
  · rw [hn]
  · exact hother i fun h => hi (h ▸ hres)

theorem unused_of_createTask {s : State} {name : Option (List UInt8)} {entry : Entry} {i : Slot}
    (hi : (createTask s name entry).2 = some i) : (s.tasks i).state = .unused := by
  rcases createTask_cases s name entry with hn | ⟨j, -, hu, hres, -⟩
  · rw [hn] at hi
    cases hi
  · exact Option.some.inj (hres.symm.trans hi) ▸ hu

theorem createTask_frames {s : State} {name : Option (List UInt8)} {entry : Entry} {i : Slot}
    (h : (createTask s name entry).2 = some i) :
    (createTask s name entry).1.taskStacks = s.taskStacks ∧
      (createTask s name entry).1.taskEntryWrapper = s.taskEntryWrapper ∧
      (createTask s name entry).1.frames = Function.update s.frames i (initialFrame s i) := by
  unfold createTask at h ⊢
  split at h
  · cases h
  · rw [if_neg ‹_›]
    obtain ⟨hstk, hwrap, hframe⟩ := createTaskInternal_frames s name entry false
    exact ⟨hstk, hwrap, hframe i h⟩

@[simp] theorem createTask_currentTask (s : State) (name : Option (List UInt8)) (entry : Entry) :
    (createTask s name entry).1.currentTask = s.currentTask := by
  unfold createTask; split
  · rfl
  · simp

@[simp] theorem createTask_idleTaskId (s : State) (name : Option (List UInt8)) (entry : Entry) :
    (createTask s name entry).1.idleTaskId = s.idleTaskId := by
  unfold createTask; split
  · rfl
  · simp

@[simp] theorem createTask_initialized (s : State) (name : Option (List UInt8)) (entry : Entry) :
    (createTask s name entry).1.initialized = s.initialized := by
  unfold createTask; split
  · rfl
  · simp

@[simp] theorem decrCount_tasks (s : State) : (decrCount s).tasks = s.tasks := by
  unfold decrCount; split <;> rfl

@[simp] theorem decrCount_currentTask (s : State) : (decrCount s).currentTask = s.currentTask := by
  unfold decrCount; split <;> rfl

@[simp] theorem decrCount_idleTaskId (s : State) : (decrCount s).idleTaskId = s.idleTaskId := by
  unfold decrCount; split <;> rfl

@[simp] theorem decrCount_initialized (s : State) : (decrCount s).initialized = s.initialized := by
  unfold decrCount; split <;> rfl

/-- `kill_task` fails and changes nothing, or empties a used slot that is neither 0 nor idle. -/
theorem killTask_cases (s : State) (slot : UInt32) :
    killTask s slot = (s, false) ∨
      ∃ i : Slot, slot.toNat = i.val ∧ i ≠ 0 ∧ i ≠ s.idleTaskId ∧ (s.tasks i).state ≠ .unused ∧
        killTask s slot = (decrCount (s.setState i .unused), true) := by
  unfold killTask
  split
  · rename_i h
    dsimp only
    split_ifs with h0 hi hu
    · exact Or.inl rfl
    · exact Or.inl rfl
    · exact Or.inl rfl
    · exact Or.inr ⟨⟨slot.toNat, h⟩, rfl, h0, hi, hu, rfl⟩
  · exact Or.inl rfl

/-- `kill_task` changes no slot but the one it is called for. -/
theorem killTask_tasks_of_ne {s : State} {slot : UInt32} {i : Slot} (hi : slot.toNat ≠ i.val) :
    (killTask s slot).1.tasks i = s.tasks i := by
  rcases killTask_cases s slot with hn | ⟨j, hj, -, -, -, hk⟩
  · rw [hn]
  · have hne : i ≠ j := fun h => hi (h ▸ hj)
    rw [hk, decrCount_tasks, State.setState, State.setTask_tasks, Function.update_of_ne hne]

/-! ## Switching -/

@[simp] theorem saveCurrent_currentTask (s : State) (r : UInt64) :
    (saveCurrent s r).currentTask = s.currentTask := by
  unfold saveCurrent; dsimp only; split <;> rfl

@[simp] theorem saveCurrent_idleTaskId (s : State) (r : UInt64) :
    (saveCurrent s r).idleTaskId = s.idleTaskId := by
  unfold saveCurrent; dsimp only; split <;> rfl

@[simp] theorem saveCurrent_initialized (s : State) (r : UInt64) :
    (saveCurrent s r).initialized = s.initialized := by
  unfold saveCurrent; dsimp only; split <;> rfl

theorem saveCurrent_tasks (s : State) (r : UInt64) (j : Slot) :
    (saveCurrent s r).tasks j =
      if j = s.currentTask then
        { s.tasks j with
          rsp := r
          state := if (s.tasks j).state = .running then .ready else (s.tasks j).state }
      else s.tasks j := by
  by_cases hj : j = s.currentTask
  · subst hj
    by_cases hr : (s.tasks s.currentTask).state = .running <;>
      simp [saveCurrent, State.setState, hr]
  · by_cases hr : (s.tasks s.currentTask).state = .running <;>
      simp [saveCurrent, State.setState, hr, hj]

theorem saveCurrent_state (s : State) (r : UInt64) (j : Slot) :
    ((saveCurrent s r).tasks j).state =
      if j = s.currentTask ∧ (s.tasks j).state = .running then .ready else (s.tasks j).state := by
  rw [saveCurrent_tasks]
  by_cases hj : j = s.currentTask
  · simp [hj]
  · simp [hj]

@[simp] theorem doSchedule_currentTask (s : State) (r : UInt64) :
    (doSchedule s r).1.currentTask = pickNext (saveCurrent s r) := by
  unfold doSchedule
  dsimp only
  split
  · rename_i h; simp [h.1]
  · rfl

@[simp] theorem doSchedule_idleTaskId (s : State) (r : UInt64) :
    (doSchedule s r).1.idleTaskId = s.idleTaskId := by
  unfold doSchedule; dsimp only; split <;> simp

@[simp] theorem doSchedule_initialized (s : State) (r : UInt64) :
    (doSchedule s r).1.initialized = s.initialized := by
  unfold doSchedule; dsimp only
  split <;> exact saveCurrent_initialized s r

/-- Both branches of `do_schedule` make the picked slot running and leave the other states. -/
theorem doSchedule_state (s : State) (r : UInt64) (j : Slot) :
    ((doSchedule s r).1.tasks j).state =
      if j = pickNext (saveCurrent s r) then .running else ((saveCurrent s r).tasks j).state := by
  unfold doSchedule
  dsimp only
  split
  · rename_i h
    by_cases hj : j = pickNext (saveCurrent s r)
    · simp [hj, h.1, startSlice]
    · have hc : j ≠ (saveCurrent s r).currentTask := h.1 ▸ hj
      simp only [saveCurrent_currentTask] at hc
      simp [hj, hc]
  · by_cases hj : j = pickNext (saveCurrent s r)
    · simp [hj, startSlice]
    · simp [hj]

/-! ## The tick -/

/-- `t` differs from `s` only in the states, the counters and the wake-up times of its slots. -/
structure SameContexts (s t : State) : Prop where
  currentTask : t.currentTask = s.currentTask
  idleTaskId : t.idleTaskId = s.idleTaskId
  initialized : t.initialized = s.initialized
  taskStacks : t.taskStacks = s.taskStacks
  taskEntryWrapper : t.taskEntryWrapper = s.taskEntryWrapper
  frames : t.frames = s.frames
  rsp : ∀ j, (t.tasks j).rsp = (s.tasks j).rsp
  entry : ∀ j, (t.tasks j).entry = (s.tasks j).entry

theorem SameContexts.refl (s : State) : SameContexts s s :=
  ⟨rfl, rfl, rfl, rfl, rfl, rfl, fun _ => rfl, fun _ => rfl⟩

theorem SameContexts.trans {s t u : State} (h : SameContexts s t) (h' : SameContexts t u) :
    SameContexts s u where
  currentTask := h'.currentTask.trans h.currentTask
  idleTaskId := h'.idleTaskId.trans h.idleTaskId
  initialized := h'.initialized.trans h.initialized
  taskStacks := h'.taskStacks.trans h.taskStacks
  taskEntryWrapper := h'.taskEntryWrapper.trans h.taskEntryWrapper
  frames := h'.frames.trans h.frames
  rsp j := (h'.rsp j).trans (h.rsp j)
  entry j := (h'.entry j).trans (h.entry j)

/-- Rewriting one entry without touching its context. -/
theorem SameContexts.setTask (s : State) (i : Slot) (t : TaskInternal)
    (hrsp : t.rsp = (s.tasks i).rsp) (hentry : t.entry = (s.tasks i).entry) :
    SameContexts s (s.setTask i t) := by
  refine ⟨rfl, rfl, rfl, rfl, rfl, rfl, fun j => ?_, fun j => ?_⟩ <;>
    by_cases h : j = i <;> simp [h, hrsp, hentry]

theorem SameContexts.wakeSleepers (s : State) : SameContexts s (wakeSleepers s) := by
  refine ⟨rfl, rfl, rfl, rfl, rfl, rfl, fun j => ?_, fun j => ?_⟩ <;>
    (simp only [Scheduler.wakeSleepers]; split <;> rfl)

theorem SameContexts.cleanDead (s : State) : SameContexts s (cleanDead s) := by
  refine ⟨rfl, rfl, rfl, rfl, rfl, rfl, fun j => ?_, fun j => ?_⟩ <;>
    (simp only [Scheduler.cleanDead]; split <;> rfl)

theorem countTick_spec (s : State) :
    SameContexts s (countTick s) ∧ ∀ j, ((countTick s).tasks j).state = (s.tasks j).state := by
  refine ⟨SameContexts.setTask s _ _ rfl rfl, fun j => ?_⟩
  by_cases h : j = s.currentTask <;> simp [countTick, h]

theorem spendSlice_spec (s : State) :
    SameContexts s (spendSlice s) ∧ ∀ j, ((spendSlice s).tasks j).state = (s.tasks j).state := by
  unfold spendSlice
  split
  · refine ⟨SameContexts.setTask s _ _ rfl rfl, fun j => ?_⟩
    by_cases h : j = s.currentTask <;> simp [h]
  · exact ⟨SameContexts.refl s, fun _ => rfl⟩

/-- The states after the two loops of `timer_tick`. -/
def tickState (s : State) (j : Slot) : TaskState :=
  if (s.tasks j).state = .sleeping ∧ s.ticks ≥ (s.tasks j).wakeAt then .ready
  else if (s.tasks j).state = .dead ∧ j ≠ s.currentTask then .unused
  else (s.tasks j).state

theorem tickState_of_dead {s : State} {j : Slot} (h : (s.tasks j).state = .dead) :
    tickState s j = .unused ∨ tickState s j = .dead := by
  unfold tickState
  rw [h]
  simp only [reduceCtorEq, false_and, if_false, true_and]
  split
  · exact Or.inl rfl
  · exact Or.inr rfl

theorem tickLoops_spec (s : State) :
    SameContexts s (cleanDead (wakeSleepers s)) ∧
      ∀ j, ((cleanDead (wakeSleepers s)).tasks j).state = tickState s j := by
  refine ⟨(SameContexts.wakeSleepers s).trans (SameContexts.cleanDead _), fun j => ?_⟩
  simp only [cleanDead, wakeSleepers, tickState]
  by_cases hw : (s.tasks j).state = .sleeping ∧ s.ticks ≥ (s.tasks j).wakeAt
  · simp [hw]
  · simp only [hw, if_false]
    split <;> rfl

/-- A tick either stays on a running current task or goes through `do_schedule`; before that it
only wakes, cleans up and counts. -/
theorem timerTick_cases (s : State) (r : UInt64) (hinit : s.initialized = true) :
    ∃ t, SameContexts s t ∧ (∀ j, (t.tasks j).state = tickState s j) ∧
      (timerTick s r = doSchedule t r ∨
        timerTick s r = (t, r) ∧ (t.tasks t.currentTask).state = .running) := by
  let t := countTick (cleanDead (wakeSleepers s))
  have ht : SameContexts s t := (tickLoops_spec s).1.trans (countTick_spec _).1
  have hst : ∀ j, (t.tasks j).state = tickState s j := fun j =>
    ((countTick_spec _).2 j).trans ((tickLoops_spec s).2 j)
  have hu := (spendSlice_spec t).1
  have hsu := (spendSlice_spec t).2
  unfold timerTick
  rw [if_neg (by simp [hinit])]
  by_cases hr : (t.tasks t.currentTask).state = .running
  · refine ⟨spendSlice t, ht.trans hu, fun j => (hsu j).trans (hst j), ?_⟩
    by_cases hs : ((spendSlice t).tasks (spendSlice t).currentTask).sliceRemaining > 0
    · right
      refine ⟨?_, by rw [hsu, hu.currentTask, hr]⟩
      simp only [t] at hr hs
      simp [hr, hs, t]
    · left
      simp only [t] at hr hs
      simp [hr, hs, t]
  · refine ⟨t, ht, hst, Or.inl ?_⟩
    simp only [t] at hr
    simp [hr, t]

/-! ## The invariant -/

/-- At most the current slot runs, and the kernel and idle slots are ready or running. -/
structure Inv (s : State) : Prop where
  initialized : s.initialized = true
  single : ∀ i, (s.tasks i).state = .running → i = s.currentTask
  kernel : (s.tasks 0).state = .ready ∨ (s.tasks 0).state = .running
  idle : (s.tasks s.idleTaskId).state = .ready ∨ (s.tasks s.idleTaskId).state = .running

theorem initKernel_state (s : State) (i : Slot) :
    ((initKernel s).tasks i).state = if i = 0 then .running else .unused := by
  by_cases h : i = 0 <;> simp [initKernel, clearedTask, h]

/-- `init` leaves the kernel running, the idle task ready and every other slot unused. -/
theorem init_spec (s : State) :
    (init s).initialized = true ∧ (init s).currentTask = 0 ∧ (init s).idleTaskId ≠ 0 ∧
      ((init s).tasks 0).state = .running ∧
      ((init s).tasks (init s).idleTaskId).state = .ready ∧
      ((init s).tasks (init s).idleTaskId).rsp = (init s).frameAddr (init s).idleTaskId ∧
      ((init s).tasks (init s).idleTaskId).entry = (init s).idleEntry ∧
      (init s).frames (init s).idleTaskId = initialFrame (init s) (init s).idleTaskId ∧
      ∀ j, j ≠ 0 → j ≠ (init s).idleTaskId → ((init s).tasks j).state = .unused := by
  rcases createTaskInternal_cases (initKernel s) (some idleName) s.idleEntry true 0 rfl with
    ⟨hnone, -⟩ | ⟨i, hf, hres, hother, hready, hrsp, hentry⟩
  · exact absurd (initKernel_state s 1) (findUnused_none hnone 1 (by decide))
  · have hi : i ≠ 0 := by
      rintro rfl
      have hu := (findUnused_some hf).2
      rw [initKernel_state] at hu
      cases hu
    have hcur := createTaskInternal_currentTask (initKernel s) (some idleName) s.idleEntry true
    obtain ⟨hstk, hwrap, hframe⟩ :=
      createTaskInternal_frames (initKernel s) (some idleName) s.idleEntry true
    have hidle : (createTaskInternal (initKernel s) (some idleName) s.idleEntry true).1.idleEntry =
        s.idleEntry := by unfold createTaskInternal; split <;> rfl
    unfold init
    simp only [hres]
    refine ⟨trivial, hcur, hi, ?_, hready, ?_, ?_, ?_, fun j hj hji => ?_⟩
    · rw [hother 0 hi.symm]; exact initKernel_state s 0
    · rw [hrsp]; simp only [State.frameAddr, State.stackTop, hstk]
    · rw [hentry, hidle]
    · rw [hframe i hres, Function.update_self]
      simp only [initialFrame, State.stackTop, hstk, hwrap]
    · rw [hother j hji, initKernel_state, if_neg hj]

theorem init_inv (s : State) : Inv (init s) := by
  obtain ⟨hinit, hcur, -, hkernel, hidle, -, -, -, hrest⟩ := init_spec s
  refine ⟨hinit, fun i hi => ?_, Or.inr hkernel, Or.inl hidle⟩
  by_contra hne
  rw [hcur] at hne
  by_cases hid : i = (init s).idleTaskId
  · rw [hid, hidle] at hi; cases hi
  · rw [hrest i hne hid] at hi; cases hi

/-- The invariant depends only on the states of the slots. -/
theorem Inv.congr {s t : State} (h : Inv s) (hinit : t.initialized = s.initialized)
    (hcur : t.currentTask = s.currentTask) (hidle : t.idleTaskId = s.idleTaskId)
    (hst : ∀ i, (t.tasks i).state = (s.tasks i).state) : Inv t where
  initialized := hinit.trans h.initialized
  single i hi := by rw [hcur]; exact h.single i (by rwa [← hst])
  kernel := by rw [hst]; exact h.kernel
  idle := by rw [hidle, hst]; exact h.idle

/-- Taking slot `i`, neither 0 nor idle, out of the running state keeps the invariant. -/
theorem Inv.setState {s : State} (h : Inv s) {i : Slot} {st : TaskState} (h0 : i ≠ 0)
    (hidle : i ≠ s.idleTaskId) (hst : st ≠ .running) : Inv (s.setState i st) where
  initialized := h.initialized
  single j hj := by
    rw [State.setState_state] at hj
    split at hj
    · exact absurd hj hst
    · exact h.single j hj
  kernel := by rw [State.setState_state, if_neg h0.symm]; exact h.kernel
  idle := by rw [State.setState_state, State.setState_idleTaskId, if_neg hidle.symm]; exact h.idle

theorem createTask_inv {s : State} (h : Inv s) (name : Option (List UInt8)) (entry : Entry) :
    Inv (createTask s name entry).1 := by
  rcases createTask_cases s name entry with hn | ⟨i, h0, hu, -, hother, hready, -, -⟩
  · rw [hn]; exact h
  · have hidle : s.idleTaskId ≠ i := by
      rintro rfl
      rcases h.idle with hi | hi <;> rw [hu] at hi <;> cases hi
    refine ⟨by simpa using h.initialized, fun j hj => ?_, ?_, ?_⟩
    · by_cases hji : j = i
      · subst hji; rw [hready] at hj; cases hj
      · rw [hother j hji] at hj
        simpa using h.single j hj
    · rw [hother 0 h0.symm]; exact h.kernel
    · rw [createTask_idleTaskId, hother _ hidle]; exact h.idle

theorem killTask_inv {s : State} (h : Inv s) (slot : UInt32) : Inv (killTask s slot).1 := by
  rcases killTask_cases s slot with hn | ⟨i, -, h0, hidle, -, hk⟩
  · rw [hn]; exact h
  · rw [hk]
    have hs : Inv (s.setState i .unused) := h.setState h0 hidle (by decide)
    exact hs.congr (by simp) (by simp) (by simp) fun _ => by simp

/-- After `do_schedule` exactly the current slot runs. -/
theorem doSchedule_running {s : State} (h : Inv s) (r : UInt64) (i : Slot) :
    ((doSchedule s r).1.tasks i).state = .running ↔ i = (doSchedule s r).1.currentTask := by
  rw [doSchedule_state, doSchedule_currentTask]
  split_ifs with hi
  · simp [hi]
  · rw [saveCurrent_state]
    constructor
    · intro hr
      split_ifs at hr with hc
      exact absurd ⟨h.single i hr, hr⟩ hc
    · exact fun h => absurd h hi

theorem doSchedule_inv {s : State} (h : Inv s) (r : UInt64) : Inv (doSchedule s r).1 where
  initialized := by simpa using h.initialized
  single i hi := (doSchedule_running h r i).mp hi
  kernel := by
    rw [doSchedule_state, saveCurrent_state]
    rcases h.kernel with hk | hk <;> split_ifs <;> simp_all
  idle := by
    rw [doSchedule_state, saveCurrent_state, doSchedule_idleTaskId]
    rcases h.idle with hk | hk <;> split_ifs <;> simp_all

/-- `do_schedule` turns to the idle slot only when no other slot is ready. -/
theorem doSchedule_idle (s : State) (r : UInt64)
    (h : (doSchedule s r).1.currentTask = s.idleTaskId) (i : Slot) (hi : i ≠ s.idleTaskId) :
    ((doSchedule s r).1.tasks i).state ≠ .ready := by
  rw [doSchedule_currentTask] at h
  rw [doSchedule_state, if_neg (h ▸ hi)]
  rcases pickNext_cases (saveCurrent s r) with ⟨hn, -⟩ | ⟨-, hnone⟩
  · exact absurd (by simpa using h) hn
  · exact hnone i (by simpa using hi)

theorem tick_inv {s t : State} (h : Inv s) (hs : SameContexts s t)
    (hst : ∀ j, (t.tasks j).state = tickState s j) : Inv t where
  initialized := hs.initialized.trans h.initialized
  single i hi := by
    rw [hs.currentTask]
    apply h.single
    rw [hst, tickState] at hi
    split_ifs at hi
    exact hi
  kernel := by
    rw [hst, tickState]
    rcases h.kernel with hk | hk <;> simp [hk]
  idle := by
    rw [hst, tickState, hs.idleTaskId]
    rcases h.idle with hk | hk <;> simp [hk]

theorem timerTick_inv {s : State} (h : Inv s) (r : UInt64) : Inv (timerTick s r).1 := by
  obtain ⟨t, hs, hst, ht | ⟨ht, -⟩⟩ := timerTick_cases s r h.initialized
  · rw [ht]; exact doSchedule_inv (tick_inv h hs hst) r
  · rw [ht]; exact tick_inv h hs hst

theorem step_inv {s s' : State} {op : Op} (h : Inv s) (hstep : Step s op s') : Inv s' := by
  -- Only a task with code of its own stores its state, so slots 0 and idle are not concerned.
  have hset : ∀ {st : TaskState}, st ≠ .running → runsTaskCode s = true →
      Inv (s.setState s.currentTask st) := by
    intro st hst hcode
    obtain ⟨h0, hidle⟩ := of_decide_eq_true hcode
    exact h.setState h0 hidle hst
  cases op with
  | createTask name entry => cases hstep; exact createTask_inv h name entry
  | killTask slot => cases hstep; exact killTask_inv h slot
  | timerTick now r =>
    simp only [Step, step] at hstep
    split at hstep <;> cases hstep
    exact timerTick_inv (s := { s with ticks := now }) (h.congr rfl rfl rfl fun _ => rfl) r
  | yield r =>
    cases hstep
    unfold yield
    split
    · exact h
    · exact doSchedule_inv h r
  | sleepSetWake ms =>
    simp only [Step, step] at hstep
    split at hstep <;> cases hstep
    refine h.congr rfl rfl rfl fun i => ?_
    by_cases hi : i = s.currentTask <;> simp [sleepSetWake, hi]
  | sleepSetState =>
    simp only [Step, step] at hstep
    split at hstep <;> cases hstep
    exact hset (by decide) ‹_›
  | exitSetDead =>
    simp only [Step, step] at hstep
    split at hstep <;> cases hstep
    exact hset (by decide) ‹_›
  | exitDecrCount =>
    simp only [Step, step] at hstep
    split at hstep <;> cases hstep
    exact h.congr (by simp) (by simp) (by simp) fun _ => by simp

theorem run_inv {s0 s : State} {ops : List Op} (hrun : Run Step (init s0) ops s) : Inv s :=
  hrun.invariant Inv (init_inv s0) fun _ _ _ h hstep => step_inv h hstep

/-! ## The running task over whole runs -/

/-- A step other than the timer interrupt and `int 0x80` never changes the current slot. -/
theorem step_currentTask {s s' : State} {op : Op} (hstep : Step s op s')
    (hop : op.schedules = false) : s'.currentTask = s.currentTask := by
  cases op with
  | createTask name entry => cases hstep; simp
  | killTask slot =>
    cases hstep
    rcases killTask_cases s slot with hk | ⟨i, -, -, -, -, hk⟩ <;> rw [hk]
    simp
  | timerTick now r => cases hop
  | yield r => cases hop
  | _ =>
    simp only [Step, step] at hstep
    split at hstep <;> cases hstep
    first | rfl | simp

/-- What a tick or a yield does once the tick has woken, cleaned up and counted: it goes through
`do_schedule`, or stays on a running current task. -/
theorem step_schedules {s s' : State} {op : Op} (h : Inv s) (hstep : Step s op s')
    (hop : op.schedules = true) :
    ∃ t, Inv t ∧ SameContexts s t ∧
      (∀ j, (s.tasks j).state = .unused → (t.tasks j).state = .unused) ∧
      (∀ j, (s.tasks j).state = .dead →
        (t.tasks j).state = .unused ∨ (t.tasks j).state = .dead) ∧
      (s' = (doSchedule t op.currentRsp).1 ∧
          returnedRsp s op = (doSchedule t op.currentRsp).2 ∨
        s' = t ∧ (t.tasks t.currentTask).state = .running) := by
  cases op with
  | timerTick now r =>
    simp only [Step, step] at hstep
    split at hstep <;> cases hstep
    have hn : Inv { s with ticks := now } := h.congr rfl rfl rfl fun _ => rfl
    obtain ⟨t, hs, hst, ht⟩ := timerTick_cases { s with ticks := now } r h.initialized
    refine ⟨t, tick_inv hn hs hst, ⟨hs.currentTask, hs.idleTaskId, hs.initialized,
      hs.taskStacks, hs.taskEntryWrapper, hs.frames, hs.rsp, hs.entry⟩, fun j hj => ?_,
      fun j hj => ?_, ?_⟩
    · rw [hst]; simp [tickState, hj]
    · rw [hst]; exact tickState_of_dead hj
    · rcases ht with ht | ⟨ht, hr⟩
      · exact Or.inl ⟨by rw [ht]; rfl, by simp only [returnedRsp, ht, Op.currentRsp]⟩
      · exact Or.inr ⟨by rw [ht], hr⟩
  | yield r =>
    cases hstep
    refine ⟨s, h, SameContexts.refl s, fun _ hj => hj, fun _ hj => Or.inr hj, Or.inl ?_⟩
    have hy : yield s r = doSchedule s r := by
      unfold yield
      rw [if_neg (by simp [h.initialized])]
    exact ⟨by rw [hy]; rfl, by simp only [returnedRsp, hy, Op.currentRsp]⟩
  | _ => cases hop

theorem schedules_running {s s' : State} {op : Op} (h : Inv s) (hstep : Step s op s')
    (hop : op.schedules = true) (i : Slot) :
    (s'.tasks i).state = .running ↔ i = s'.currentTask := by
  obtain ⟨t, ht, -, -, -, ⟨rfl, -⟩ | ⟨rfl, hr⟩⟩ := step_schedules h hstep hop
  · exact doSchedule_running ht _ i
  · exact ⟨ht.single i, fun hi => hi ▸ hr⟩

theorem schedules_idle {s s' : State} {op : Op} (h : Inv s) (hstep : Step s op s')
    (hto : s'.currentTask = s.idleTaskId) (hfrom : s.currentTask ≠ s.idleTaskId)
    (i : Slot) (hi : i ≠ s.idleTaskId) : (s'.tasks i).state ≠ .ready := by
  have hop : op.schedules = true := by
    by_contra hne
    exact hfrom (step_currentTask hstep (by simpa using hne) ▸ hto)
  obtain ⟨t, -, hs, -, -, ⟨rfl, -⟩ | ⟨rfl, -⟩⟩ := step_schedules h hstep hop
  · exact doSchedule_idle t _ (hs.idleTaskId ▸ hto) i (hs.idleTaskId ▸ hi)
  · exact absurd (hs.currentTask ▸ hto) hfrom

/-- In every run after `init`: at most one slot runs and it is the current one; a tick or a yield
leaves exactly the current one running; slot 0 and idle are never unused and idle is always ready
or running; and a switch to idle leaves no other slot ready. -/
theorem single_running_task (s0 : State) (ops : List Op) (s : State)
    (hrun : Run Step (init s0) ops s) :
    (∀ i, (s.tasks i).state = .running → i = s.currentTask) ∧
      (s.tasks 0).state ≠ .unused ∧ (s.tasks s.idleTaskId).state ≠ .unused ∧
      ((s.tasks s.idleTaskId).state = .ready ∨ (s.tasks s.idleTaskId).state = .running) ∧
      (∀ op s', Step s op s' → op.schedules = true →
        ∀ i, (s'.tasks i).state = .running ↔ i = s'.currentTask) ∧
      (∀ op s', Step s op s' → s'.currentTask = s.idleTaskId → s.currentTask ≠ s.idleTaskId →
        ∀ i, i ≠ s.idleTaskId → (s'.tasks i).state ≠ .ready) := by
  have h := run_inv hrun
  refine ⟨h.single, ?_, ?_, h.idle, fun op s' hs hop => schedules_running h hs hop,
    fun op s' hs => schedules_idle h hs⟩
  · rcases h.kernel with hk | hk <;> simp [hk]
  · rcases h.idle with hk | hk <;> simp [hk]

/-- An image with its stacks at `0x100000` and code at `0x1000` and `0x2000`. -/
def sampleImage : State := loaded 0x100000 0x1000 0x2000

/-- A task is created and the kernel's slice runs out: the task in slot 2 is switched to. -/
def spawnOps : List Op := .createTask (some [97]) 0x3000 :: List.replicate 10 (.timerTick 1 0x9000)

/-- The state in which the task in slot 2 has just been switched to. -/
def spawned : State := (exec step (init sampleImage) spawnOps).get (by decide +kernel)

theorem spawned_run : Run Step (init sampleImage) spawnOps spawned := run_get _

theorem single_running_task_spawned :
    spawned.currentTask = 2 ∧ ∀ i, (spawned.tasks i).state = .running → i = spawned.currentTask :=
  ⟨by decide +kernel, (single_running_task sampleImage spawnOps _ spawned_run).1⟩

end QuillOS.Scheduler
