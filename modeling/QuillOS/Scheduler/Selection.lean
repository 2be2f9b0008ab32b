import QuillOS.Lib.RoundRobin
import QuillOS.Scheduler.Invariant

/-!
# Selections

Which steps get as far as `do_schedule`, from which state they call it and which slot it selects,
with what a tick and a switch leave as it is.
-/

namespace QuillOS.Scheduler

open Lib

/-- The state in which a step calls `do_schedule`, if it does. -/
def scheduledFrom (s : State) : Op → Option State
  | .timerTick now _ =>
    if !s.initialized then none else
    let t := countTick (cleanDead (wakeSleepers { s with ticks := now }))
    if (t.tasks t.currentTask).state ≠ .running then some t else
    let t := spendSlice t
    if (t.tasks t.currentTask).sliceRemaining > 0 then none else some t
  | .yield _ => if !s.initialized then none else some s
  | _ => none

/-- The slot `do_schedule` selects in a step that calls it. -/
def selects (s : State) (op : Op) : Option Slot :=
  (scheduledFrom s op).map fun t => pickNext (saveCurrent t op.currentRsp)

/-- The tick counter a step finds. -/
def clock (s : State) : Op → UInt64
  | .timerTick now _ => now
  | _ => s.ticks

/-- The state of a slot after what a step does before `do_schedule`. -/
def settledState (s : State) (op : Op) (j : Slot) : TaskState :=
  match op with
  | .timerTick now _ => tickState { s with ticks := now } j
  | _ => (s.tasks j).state

/-! ## What neither a tick nor a switch changes -/

structure SameTimes (s t : State) : Prop where
  ticks : t.ticks = s.ticks
  taskCount : t.taskCount = s.taskCount
  wakeAt : ∀ j, (t.tasks j).wakeAt = (s.tasks j).wakeAt

theorem SameTimes.refl (s : State) : SameTimes s s := ⟨rfl, rfl, fun _ => rfl⟩

theorem SameTimes.trans {s t u : State} (h : SameTimes s t) (h' : SameTimes t u) :
    SameTimes s u where
  ticks := h'.ticks.trans h.ticks
  taskCount := h'.taskCount.trans h.taskCount
  wakeAt j := (h'.wakeAt j).trans (h.wakeAt j)

theorem SameTimes.setTask (s : State) (i : Slot) (t : TaskInternal)
    (hwake : t.wakeAt = (s.tasks i).wakeAt) : SameTimes s (s.setTask i t) := by
  refine ⟨rfl, rfl, fun j => ?_⟩
  by_cases h : j = i <;> simp [h, hwake]

theorem SameTimes.wakeSleepers (s : State) : SameTimes s (wakeSleepers s) := by
  refine ⟨rfl, rfl, fun j => ?_⟩
  simp only [Scheduler.wakeSleepers]
  split <;> rfl

theorem SameTimes.cleanDead (s : State) : SameTimes s (cleanDead s) := by
  refine ⟨rfl, rfl, fun j => ?_⟩
  simp only [Scheduler.cleanDead]
  split <;> rfl

theorem SameTimes.spendSlice (s : State) : SameTimes s (spendSlice s) := by
  unfold Scheduler.spendSlice
  split
  · exact SameTimes.setTask s _ _ rfl
  · exact SameTimes.refl s

theorem SameTimes.saveCurrent (s : State) (r : UInt64) : SameTimes s (saveCurrent s r) := by
  have hsave : SameTimes s (s.setTask s.currentTask { s.tasks s.currentTask with rsp := r }) :=
    SameTimes.setTask s _ _ rfl
  unfold Scheduler.saveCurrent
  dsimp only
  split
  · exact hsave.trans (SameTimes.setTask _ _ _ rfl)
  · exact hsave

theorem SameTimes.doSchedule (s : State) (r : UInt64) : SameTimes s (doSchedule s r).1 := by
  have hsave := SameTimes.saveCurrent s r
  have hstart : ∀ i, SameTimes (Scheduler.saveCurrent s r)
      ((Scheduler.saveCurrent s r).setTask i (startSlice ((Scheduler.saveCurrent s r).tasks i))) :=
    fun i => SameTimes.setTask _ i _ rfl
  unfold Scheduler.doSchedule
  dsimp only
  split
  · exact hsave.trans (hstart _)
  · exact hsave.trans ⟨rfl, rfl, (hstart _).wakeAt⟩

/-- A step that may schedule settles the states first, and then goes through `do_schedule` or stays
on a running current task. -/
theorem schedules_cases {s s' : State} {op : Op} (hinit : s.initialized = true)
    (hstep : Step s op s') (hop : op.schedules = true) :
    ∃ t, t.currentTask = s.currentTask ∧ t.idleTaskId = s.idleTaskId ∧
      SameTimes { s with ticks := clock s op } t ∧
      (∀ j, (t.tasks j).state = settledState s op j) ∧
      (scheduledFrom s op = some t ∧ s' = (doSchedule t op.currentRsp).1 ∨
        scheduledFrom s op = none ∧ s' = t ∧ (t.tasks t.currentTask).state = .running) := by
  cases op with
  | timerTick now r =>
    simp only [Step, step] at hstep
    split at hstep <;> cases hstep
    let t := countTick (cleanDead (wakeSleepers { s with ticks := now }))
    have hloops := tickLoops_spec { s with ticks := now }
    have hcount := countTick_spec (cleanDead (wakeSleepers { s with ticks := now }))
    have htimes : SameTimes { s with ticks := now } t :=
      ((SameTimes.wakeSleepers _).trans (SameTimes.cleanDead _)).trans (SameTimes.setTask _ _ _ rfl)
    have hctx := hloops.1.trans hcount.1
    have hstate : ∀ j, (t.tasks j).state = tickState { s with ticks := now } j := fun j =>
      (hcount.2 j).trans (hloops.2 j)
    have hspend := spendSlice_spec t
    -- Both functions walk through the same three tests.
    have hfrom : scheduledFrom s (.timerTick now r) =
        if (t.tasks t.currentTask).state ≠ .running then some t
        else if ((spendSlice t).tasks (spendSlice t).currentTask).sliceRemaining > 0 then none
        else some (spendSlice t) :=
      if_neg (by simp [hinit])
    have htick : (timerTick { s with ticks := now } r).1 =
        if (t.tasks t.currentTask).state ≠ .running then (doSchedule t r).1
        else if ((spendSlice t).tasks (spendSlice t).currentTask).sliceRemaining > 0 then
          spendSlice t
        else (doSchedule (spendSlice t) r).1 := by
      unfold timerTick
      rw [if_neg (by simp [hinit])]
      dsimp only
      rw [apply_ite Prod.fst, apply_ite Prod.fst]
    rw [hfrom, htick]
    by_cases hrun : (t.tasks t.currentTask).state = .running
    · have hstay : (spendSlice t).currentTask = t.currentTask := hspend.1.currentTask
      refine ⟨spendSlice t, hstay.trans hctx.currentTask, hspend.1.idleTaskId.trans hctx.idleTaskId,
        htimes.trans (SameTimes.spendSlice t), fun j => (hspend.2 j).trans (hstate j), ?_⟩
      rw [if_neg (not_not.mpr hrun), if_neg (not_not.mpr hrun)]
      by_cases hslice : ((spendSlice t).tasks (spendSlice t).currentTask).sliceRemaining > 0
      · rw [if_pos hslice, if_pos hslice, hspend.2, hstay]
        exact .inr ⟨rfl, rfl, hrun⟩
      · rw [if_neg hslice, if_neg hslice]
        exact .inl ⟨rfl, rfl⟩
    · refine ⟨t, hctx.currentTask, hctx.idleTaskId, htimes, hstate, .inl ?_⟩
      rw [if_pos hrun, if_pos hrun]
      exact ⟨rfl, rfl⟩
  | yield r =>
    cases hstep
    refine ⟨s, rfl, rfl, SameTimes.refl s, fun _ => rfl, .inl ⟨?_, ?_⟩⟩
    · simp [scheduledFrom, hinit]
    · simp [yield, hinit, Op.currentRsp]
  | _ => cases hop

/-- Other steps select nothing. -/
theorem selects_of_not_schedules {s : State} {op : Op} (hop : op.schedules = false) :
    selects s op = none := by
  cases op with
  | timerTick now r => cases hop
  | yield r => cases hop
  | _ => rfl

/-- A slot that is ready or running is so after the loops of a tick. -/
theorem settledState_of_ready {s : State} {op : Op} {j : Slot} (h : (s.tasks j).state = .ready) :
    settledState s op j = .ready := by
  cases op <;> simp [settledState, tickState, h]

/-! ## The scan -/

/-- What the scan of `pick_next` looks for. -/
def wanted (s : State) (i : Slot) : Bool :=
  decide (i ≠ s.idleTaskId ∧ (s.tasks i).state = .ready)

theorem pickNext_eq_scan (s : State) :
    pickNext s = (RoundRobin.scan (wanted s) s.currentTask).getD s.idleTaskId := by
  have hfind : RoundRobin.scan (wanted s) s.currentTask =
      (Fin.find? fun k => wanted s (s.currentTask + 1 + k)).map (s.currentTask + 1 + ·) := rfl
  unfold pickNext
  rw [hfind]
  dsimp only [wanted]
  split <;> (rename_i heq; rw [heq]; rfl)

/-- While `b` is ready, `pick_next` selects `b` or a ready slot before it, and never idle. -/
theorem pickNext_of_ready {s : State} {b : Slot} (hb : b ≠ s.idleTaskId)
    (hready : (s.tasks b).state = .ready) :
    pickNext s ≠ s.idleTaskId ∧
      (pickNext s = b ∨
        RoundRobin.ahead b (pickNext s) < RoundRobin.ahead b s.currentTask) := by
  have hwanted : wanted s b = true := decide_eq_true ⟨hb, hready⟩
  obtain ⟨m, hscan, hm, hcases⟩ := RoundRobin.scan_ready (c := s.currentTask) hwanted
  have hpick : pickNext s = m := by rw [pickNext_eq_scan, hscan, Option.getD_some]
  rw [hpick]
  exact ⟨(of_decide_eq_true hm).1, hcases⟩

end QuillOS.Scheduler
