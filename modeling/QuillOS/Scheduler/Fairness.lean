import QuillOS.Scheduler.Selection

/-!
# Fairness of the rotation

While a slot waits, each other selection brings the scan closer to it. The slots selected in the
meantime are therefore all different, and there are fewer of them than slots.
-/

namespace QuillOS.Scheduler

open Lib

/-- The scheduler together with the slots `do_schedule` has selected so far. -/
def selectingStep (p : State × List Slot) (op : Op) : Option (State × List Slot) :=
  (step p.1 op).map fun s => (s, p.2 ++ (selects p.1 op).toList)

abbrev SelectingStep (p : State × List Slot) (op : Op) (q : State × List Slot) : Prop :=
  selectingStep p op = some q

/-- Slot `b` is ready when the step begins. -/
def Waits (b : Slot) (p : State × List Slot) (_ : Op) : Prop := (p.1.tasks b).state = .ready

instance (b : Slot) (p : State × List Slot) (op : Op) : Decidable (Waits b p op) :=
  inferInstanceAs (Decidable (_ = _))

theorem idleTaskId_of_schedules {s s' : State} {op : Op} (hinit : s.initialized = true)
    (hstep : Step s op s') (hop : op.schedules = true) : s'.idleTaskId = s.idleTaskId := by
  obtain ⟨t, -, hidle, -, -, ⟨-, rfl⟩ | ⟨-, rfl, -⟩⟩ := schedules_cases hinit hstep hop
  · rw [doSchedule_idleTaskId, hidle]
  · exact hidle

theorem step_idleTaskId {s s' : State} {op : Op} (hinit : s.initialized = true)
    (hstep : Step s op s') : s'.idleTaskId = s.idleTaskId := by
  by_cases hop : op.schedules = true
  · exact idleTaskId_of_schedules hinit hstep hop
  cases op with
  | createTask name entry =>
    cases hstep
    exact createTask_idleTaskId s name entry
  | killTask slot =>
    cases hstep
    rcases killTask_cases s slot with hk | ⟨i, -, -, -, -, hk⟩
    · rw [hk]
    · rw [hk]
      exact decrCount_idleTaskId _
  | timerTick now r => exact absurd rfl hop
  | yield r => exact absurd rfl hop
  | _ =>
    simp only [Step, step] at hstep
    split at hstep <;> cases hstep
    first | rfl | exact decrCount_idleTaskId _

/-- A step that begins with `b` ready selects nothing and stays on the current slot, or selects a
slot closer to `b`, or `b` itself. -/
theorem selects_of_ready {s s' : State} {op : Op} {b : Slot} (inv : Inv s)
    (hb : b ≠ s.idleTaskId) (hready : (s.tasks b).state = .ready) (hstep : Step s op s') :
    selects s op = none ∧ s'.currentTask = s.currentTask ∨
      selects s op = some s'.currentTask ∧ s'.currentTask ≠ s.idleTaskId ∧
        (s'.currentTask = b ∧ (s'.tasks b).state = .running ∨
          RoundRobin.ahead b s'.currentTask < RoundRobin.ahead b s.currentTask) := by
  by_cases hop : op.schedules = true
  · obtain ⟨t, hcur, hidle, -, hstate, ⟨hfrom, rfl⟩ | ⟨hfrom, rfl, -⟩⟩ :=
      schedules_cases inv.initialized hstep hop
    · right
      have hsaved : ((saveCurrent t op.currentRsp).tasks b).state = .ready := by
        rw [saveCurrent_state, hstate, settledState_of_ready hready]
        simp
      have hpick := pickNext_of_ready (s := saveCurrent t op.currentRsp) (b := b)
        (by rwa [saveCurrent_idleTaskId, hidle]) hsaved
      rw [saveCurrent_idleTaskId, hidle, saveCurrent_currentTask, hcur] at hpick
      obtain ⟨hne, hcases⟩ := hpick
      rw [doSchedule_currentTask]
      refine ⟨by rw [selects, hfrom, Option.map_some], hne, hcases.imp_left fun heq => ⟨heq, ?_⟩⟩
      rw [doSchedule_state, if_pos heq.symm]
    · exact .inl ⟨by rw [selects, hfrom, Option.map_none], hcur⟩
  · rw [Bool.not_eq_true] at hop
    exact .inl ⟨selects_of_not_schedules hop, step_currentTask hstep hop⟩

/-! ## Segments -/

/-- In a segment that began on slot `c`, slot `b` is still ahead, or has just been selected. -/
structure SegmentInv (b c idle : Slot) (p : State × List Slot) : Prop where
  inv : Inv p.1
  sameIdle : p.1.idleTaskId = idle
  noIdle : idle ∉ p.2
  ahead : RoundRobin.Approach b c p.2 ∧ p.1.currentTask = (c :: p.2).getLast (List.cons_ne_nil _ _) ∨
    (p.1.tasks b).state ≠ .ready ∧ ∃ l, p.2 = l ++ [b] ∧ RoundRobin.Approach b c l

theorem SegmentInv.start {s : State} (inv : Inv s) (b : Slot) :
    SegmentInv b s.currentTask s.idleTaskId (s, []) :=
  ⟨inv, rfl, List.not_mem_nil, .inl ⟨RoundRobin.approach_nil _ _, rfl⟩⟩

theorem SegmentInv.step {b c idle : Slot} {p q : State × List Slot} {op : Op}
    (h : SegmentInv b c idle p) (hb : b ≠ idle) (hwaits : Waits b p op)
    (hstep : SelectingStep p op q) : SegmentInv b c idle q := by
  obtain ⟨s', hs', rfl⟩ := Option.map_eq_some_iff.mp hstep
  have hidle : s'.idleTaskId = idle := (step_idleTaskId h.inv.initialized hs').trans h.sameIdle
  obtain ⟨happroach, hlast⟩ := h.ahead.resolve_right fun hsel => hsel.1 hwaits
  rcases selects_of_ready h.inv (h.sameIdle ▸ hb) hwaits hs' with ⟨hnone, hcur⟩ | ⟨hsome, hne, hcases⟩
  · have hsame : p.2 ++ (selects p.1 op).toList = p.2 := by simp [hnone]
    rw [hsame]
    exact ⟨step_inv h.inv hs', hidle, h.noIdle, .inl ⟨happroach, hcur.trans hlast⟩⟩
  · have hmore : p.2 ++ (selects p.1 op).toList = p.2 ++ [s'.currentTask] := by simp [hsome]
    rw [hmore]
    refine ⟨step_inv h.inv hs', hidle, ?_, ?_⟩
    · rw [List.mem_append, List.mem_singleton]
      rintro (hmem | heq)
      · exact h.noIdle hmem
      · exact hne (heq ▸ h.sameIdle).symm
    · rcases hcases with ⟨heq, hrun⟩ | hlt
      · right
        refine ⟨by rw [hrun]; decide, p.2, by rw [heq], happroach⟩
      · left
        rw [hlast] at hlt
        exact ⟨happroach.concat hlt, by simp⟩

/-- What a segment says of the slots selected in it. -/
theorem SegmentInv.fair {b c idle : Slot} {p : State × List Slot} (h : SegmentInv b c idle p) :
    p.2.Nodup ∧ (maxTasks ≤ p.2.length → b ∈ p.2.take maxTasks) := by
  rcases h.ahead with ⟨happroach, -⟩ | ⟨-, l, heq, happroach⟩
  · have hshort := happroach.length_lt
    exact ⟨happroach.nodup, fun hlong => absurd hlong (not_le.mpr hshort)⟩
  · have hshort := happroach.length_lt
    rw [heq]
    refine ⟨List.nodup_append.mpr ⟨happroach.nodup, List.nodup_singleton b, ?_⟩, fun _ => ?_⟩
    · rintro x hx y hy rfl
      exact happroach.notMem (List.mem_singleton.mp hy ▸ hx)
    · rw [List.take_of_length_le (by simp; omega)]
      simp

/-- In every run after `init`, while a slot other than idle waits to be selected, no slot is
selected twice, idle is not selected, and the slot is among the first sixteen selections. -/
theorem ready_not_bypassed (s0 : State) (ops : List Op) (s : State)
    (hrun : Run Step (init s0) ops s) (b : Slot) (hb : b ≠ s.idleTaskId) (segment : List Op)
    (t : State) (selected : List Slot)
    (hseg : Run (Where (Waits b) SelectingStep) (s, []) segment (t, selected)) :
    selected.Nodup ∧ s.idleTaskId ∉ selected ∧
      (maxTasks ≤ selected.length → b ∈ selected.take maxTasks) := by
  have h : SegmentInv b s.currentTask s.idleTaskId (t, selected) :=
    hseg.invariant _ (SegmentInv.start (run_inv hrun) b)
      fun p op q hp hstep => hp.step hb hstep.1 hstep.2
  exact ⟨h.fair.1, h.noIdle, h.fair.2⟩

def crowdedOps : List Op := [.createTask (some [98]) 0x4000, .createTask (some [99]) 0x5000]

/-- Two more tasks are created beside the one in slot 2, which runs. -/
@[irreducible] def crowded : State := (exec step spawned crowdedOps).get (by decide +kernel)

def turnOps : List Op := [.yield 0x9008, .yield 0x8008, .yield 0x7008]

/-- The kernel waits while slots 3 and 4 take their turns. -/
@[irreducible] def turns : State × List Slot :=
  (exec (guarded (Waits 0) selectingStep) (crowded, []) turnOps).get (by decide +kernel)

theorem ready_not_bypassed_kernel : turns.2 = [3, 4, 0] ∧ turns.2.Nodup ∧
    crowded.idleTaskId ∉ turns.2 := by
  have hcrowded : Run Step spawned crowdedOps crowded := by
    unfold crowded
    exact run_get _
  have hturns : Run (Where (Waits 0) SelectingStep) (crowded, []) turnOps (turns.1, turns.2) := by
    unfold turns
    exact run_where_get _
  have hfair := ready_not_bypassed sampleImage _ crowded (spawned_run.trans hcrowded) 0
    (by decide +kernel) turnOps turns.1 turns.2 hturns
  exact ⟨by decide +kernel, hfair.1, hfair.2.1⟩

end QuillOS.Scheduler
