import QuillOS.Scheduler.Tasks

/-!
# The load metric

`get_count` is kept by hand beside the states of the slots. It is the number of slots in use as
long as no task is interrupted between the two stores of its exit, no task that has returned is
killed, and no killed task goes on to a store of its own state.
-/

namespace QuillOS.Scheduler

open Lib

def getCount (s : State) : UInt32 := s.taskCount

/-- The states the metric is about. -/
def InUse (st : TaskState) : Prop := st = .ready ∨ st = .running ∨ st = .sleeping

instance (st : TaskState) : Decidable (InUse st) := inferInstanceAs (Decidable (_ ∨ _ ∨ _))

def slotsInUse (s : State) : ℕ := (Finset.univ.filter fun i => InUse (s.tasks i).state).card

/-- The task that executes has stored `DEAD` and is still counted. -/
def Leaving (p : TaskSystem) : Prop :=
  p.running.phase = .deadStored ∧ (p.sched.tasks p.current).state = .dead

instance (p : TaskSystem) : Decidable (Leaving p) := inferInstanceAs (Decidable (_ ∧ _))

def Balanced (p : TaskSystem) : Prop :=
  (getCount p.sched).toNat = slotsInUse p.sched + if Leaving p then 1 else 0

/-- The steps that keep the balance: a kill does not hit a task that has returned and is no longer
counted, no tick falls between the two stores of an exit, and a task stores its own state, or takes
itself off the count, only while its slot is its own. -/
def KeepsCount (p : TaskSystem) : Op → Prop
  | .killTask slot => ∀ i : Slot, slot.toNat = i.val → (p.sched.tasks i).state = .dead →
      i = p.current ∧ Leaving p
  | .timerTick _ _ => ¬Leaving p
  | .sleepSetState => InUse (p.sched.tasks p.current).state
  | .exitSetDead => InUse (p.sched.tasks p.current).state
  | .exitDecrCount => Leaving p
  | _ => True

instance (p : TaskSystem) (op : Op) : Decidable (KeepsCount p op) := by
  cases op <;> unfold KeepsCount <;> infer_instance

/-! ## Counting slots -/

theorem slotsInUse_congr {s t : State}
    (h : ∀ i, InUse (t.tasks i).state ↔ InUse (s.tasks i).state) : slotsInUse t = slotsInUse s := by
  unfold slotsInUse
  rw [Finset.filter_congr fun i _ => h i]

/-- Two tables that differ in one slot. -/
theorem slotsInUse_of_ne {s t : State} {i : Slot}
    (h : ∀ j, j ≠ i → (t.tasks j).state = (s.tasks j).state) :
    slotsInUse t + (if InUse (s.tasks i).state then 1 else 0) =
      slotsInUse s + if InUse (t.tasks i).state then 1 else 0 := by
  have hrest : ∑ j ∈ Finset.univ.erase i, (if InUse (t.tasks j).state then 1 else 0) =
      ∑ j ∈ Finset.univ.erase i, if InUse (s.tasks j).state then 1 else 0 :=
    Finset.sum_congr rfl fun j hj => by rw [h j (Finset.ne_of_mem_erase hj)]
  have hi : i ∈ (Finset.univ : Finset Slot) := Finset.mem_univ i
  unfold slotsInUse
  rw [Finset.card_filter, Finset.card_filter, ← Finset.add_sum_erase _ _ hi, hrest,
    ← Finset.add_sum_erase _ (fun j => if InUse (s.tasks j).state then 1 else 0) hi]
  omega

theorem slotsInUse_setState (s : State) (i : Slot) (st : TaskState) :
    slotsInUse (s.setState i st) + (if InUse (s.tasks i).state then 1 else 0) =
      slotsInUse s + if InUse st then 1 else 0 := by
  have h := slotsInUse_of_ne (s := s) (t := s.setState i st) (i := i) fun j hj => by
    rw [State.setState_state, if_neg hj]
  rwa [State.setState_state, if_pos rfl] at h

theorem slotsInUse_le (s : State) : slotsInUse s ≤ 16 :=
  (Finset.card_le_univ _).trans_eq (Fintype.card_fin _)

theorem slotsInUse_pos {s : State} (inv : Inv s) : 0 < slotsInUse s := by
  refine Finset.card_pos.mpr ⟨0, Finset.mem_filter.mpr ⟨Finset.mem_univ _, ?_⟩⟩
  rcases inv.kernel with h | h <;> rw [h] <;> decide

theorem not_inUse_unused : ¬InUse .unused := by decide

theorem not_inUse_dead : ¬InUse .dead := by decide

theorem inUse_sleeping : InUse .sleeping := by decide

theorem inUse_of_ne {st : TaskState} (hu : st ≠ .unused) (hd : st ≠ .dead) : InUse st := by
  cases st <;> first | decide | contradiction

theorem decrCount_toNat {s : State} (h : 0 < s.taskCount.toNat) :
    (decrCount s).taskCount.toNat = s.taskCount.toNat - 1 := by
  have hpos : s.taskCount > 0 := UInt32.lt_iff_toNat_lt.mpr h
  unfold decrCount
  rw [if_pos hpos]
  exact UInt32.toNat_sub_of_le _ _ (UInt32.le_iff_toNat_le.mpr h)

/-- A tick and a switch move slots in use to states in use, and reclaim those of dead tasks. -/
theorem schedules_inUse {s s' : State} {op : Op} (inv : Inv s) (hstep : Step s op s')
    (hop : op.schedules = true) :
    s'.taskCount = s.taskCount ∧ slotsInUse s' = slotsInUse s ∧
      (s'.tasks s'.currentTask).state = .running := by
  obtain ⟨t, hcur, hidle, htimes, hstate, hcases⟩ := schedules_cases inv.initialized hstep hop
  have hrunning := (schedules_running inv hstep hop s'.currentTask).mpr rfl
  have hsettled : ∀ i, InUse (t.tasks i).state ↔ InUse (s.tasks i).state := by
    intro i
    rw [hstate]
    cases op with
    | timerTick now r =>
      simp only [settledState, tickState]
      split_ifs with hsleep hdead
      · simp [hsleep.1, InUse]
      · simp [hdead.1, InUse]
      · rfl
    | yield r => rfl
    | _ => cases hop
  rcases hcases with ⟨-, rfl⟩ | ⟨-, rfl, -⟩
  · refine ⟨(SameTimes.doSchedule t _).taskCount.trans htimes.taskCount, ?_, hrunning⟩
    refine slotsInUse_congr fun i => ?_
    rw [← hsettled i, doSchedule_state]
    -- The slot that is picked was ready, or is idle.
    have hpicked : InUse ((saveCurrent t op.currentRsp).tasks
        (pickNext (saveCurrent t op.currentRsp))).state := by
      rcases pickNext_cases (saveCurrent t op.currentRsp) with ⟨-, hready⟩ | ⟨heq, -⟩
      · rw [hready]
        decide
      · have hin : InUse (t.tasks t.idleTaskId).state := by
          rw [hidle, hsettled]
          rcases inv.idle with h | h <;> rw [h] <;> decide
        rw [heq, saveCurrent_idleTaskId, saveCurrent_state]
        split_ifs
        · decide
        · exact hin
    have hsaved : InUse ((saveCurrent t op.currentRsp).tasks i).state ↔
        InUse (t.tasks i).state := by
      rw [saveCurrent_state]
      split_ifs with hrun
      · rw [hrun.2]
        decide
      · rfl
    split_ifs with hi
    · rw [← hsaved, hi]
      exact iff_of_true (by decide) hpicked
    · exact hsaved
  · exact ⟨htimes.taskCount, slotsInUse_congr hsettled, hrunning⟩

theorem createTask_taskCount {s : State} {name : Option (List UInt8)} {entry : Entry} {i : Slot}
    (h : (createTask s name entry).2 = some i) :
    (createTask s name entry).1.taskCount = s.taskCount + 1 := by
  unfold createTask createTaskInternal at *
  split at h
  · cases h
  · rw [if_neg ‹_›]
    split at h
    · cases h
    · rfl

/-! ## Steps -/

variable {p q : TaskSystem} {op : Op}

theorem not_leaving (h : p.running.phase ≠ .deadStored) : ¬Leaving p := fun hl => h hl.1

theorem leaving_congr (hcur : q.current = p.current) (hphase : q.running.phase = p.running.phase)
    (hdead : (q.sched.tasks p.current).state = .dead ↔ (p.sched.tasks p.current).state = .dead) :
    Leaving q ↔ Leaving p := by
  unfold Leaving
  rw [hcur, hphase, hdead]

theorem Balanced.congr (h : Balanced p) (hcount : q.sched.taskCount = p.sched.taskCount)
    (hslots : slotsInUse q.sched = slotsInUse p.sched) (hleaving : Leaving q ↔ Leaving p) :
    Balanced q := by
  unfold Balanced getCount at *
  rwa [hcount, hslots, if_congr hleaving rfl rfl]

theorem balanced_createTask (hbal : Balanced p) {name : Option (List UInt8)} {entry : Entry}
    (hs : (createTask p.sched name entry).1 = q.sched) (hcur : q.current = p.current)
    (hphase : q.running.phase = p.running.phase) : Balanced q := by
  have hle := slotsInUse_le p.sched
  rcases createTask_cases p.sched name entry with hn | ⟨i, -, hu, hres, hother, hready, -, -⟩
  · rw [hn] at hs
    exact hbal.congr (by rw [← hs]) (by rw [← hs]) (leaving_congr hcur hphase (by rw [← hs]))
  · have hdead : (q.sched.tasks p.current).state = .dead ↔
        (p.sched.tasks p.current).state = .dead := by
      rw [← hs]
      by_cases hi : p.current = i
      · rw [hi, hready, hu]
        decide
      · rw [hother _ hi]
    have hslots := slotsInUse_of_ne (s := p.sched) (t := q.sched) (i := i) fun j hj => by
      rw [← hs, hother j hj]
    have hready : (q.sched.tasks i).state = .ready := by rw [← hs, hready]
    rw [hready, hu, if_neg not_inUse_unused, if_pos (by decide)] at hslots
    unfold Balanced getCount at *
    have hcount : q.sched.taskCount.toNat = p.sched.taskCount.toNat + 1 := by
      rw [← hs, createTask_taskCount hres, UInt32.toNat_add]
      change (p.sched.taskCount.toNat + 1) % 2 ^ 32 = _
      split_ifs at hbal <;> omega
    rw [hcount, if_congr (leaving_congr hcur hphase hdead) rfl rfl]
    omega

/-- A kill that is refused hits no dead slot: that is neither 0 nor idle, so the kill would have
gone through. -/
theorem keepsCount_of_refused (inv : Inv p.sched) {slot : UInt32}
    (hn : killTask p.sched slot = (p.sched, false)) : KeepsCount p (.killTask slot) := by
  intro i hi hdead
  exfalso
  have hi0 : i ≠ 0 := by
    rintro rfl
    rcases inv.kernel with h | h <;> rw [hdead] at h <;> cases h
  have hidle : i ≠ p.sched.idleTaskId := by
    rintro rfl
    rcases inv.idle with h | h <;> rw [hdead] at h <;> cases h
  have hlt : slot.toNat < maxTasks := hi ▸ i.isLt
  have heq : (⟨slot.toNat, hlt⟩ : Slot) = i := Fin.ext hi
  unfold killTask at hn
  rw [dif_pos hlt] at hn
  dsimp only at hn
  rw [heq, if_neg hi0, if_neg hidle, if_neg (by rw [hdead]; decide)] at hn
  cases (Prod.mk.inj hn).2

/-- A kill keeps the balance unless it hits a task that has returned and is not counted. -/
theorem balanced_killTask_iff (inv : Inv p.sched) (hbal : Balanced p) {slot : UInt32}
    (hs : (killTask p.sched slot).1 = q.sched) (hcur : q.current = p.current)
    (hphase : q.running.phase = p.running.phase) :
    Balanced q ↔ KeepsCount p (.killTask slot) := by
  have hpos := slotsInUse_pos inv
  rcases killTask_cases p.sched slot with hn | ⟨i, hi, h0, hidle, hu, hk⟩
  · have hkept := keepsCount_of_refused inv hn
    rw [hn] at hs
    have hsame : Balanced q :=
      hbal.congr (by rw [← hs]) (by rw [← hs]) (leaving_congr hcur hphase (by rw [← hs]))
    exact iff_of_true hsame hkept
  · rw [hk] at hs
    have hslots := slotsInUse_setState p.sched i .unused
    rw [if_neg not_inUse_unused] at hslots
    have hcount : q.sched.taskCount.toNat = p.sched.taskCount.toNat - 1 := by
      rw [← hs]
      refine decrCount_toNat (s := p.sched.setState i .unused) ?_
      unfold Balanced getCount at hbal
      change 0 < p.sched.taskCount.toNat
      omega
    have htasks : q.sched.tasks = (p.sched.setState i .unused).tasks := by
      rw [← hs, decrCount_tasks]
    have hsame : slotsInUse q.sched = slotsInUse (p.sched.setState i .unused) :=
      slotsInUse_congr fun j => by rw [htasks]
    have hkeeps : KeepsCount p (.killTask slot) ↔
        ((p.sched.tasks i).state = .dead → i = p.current ∧ Leaving p) :=
      ⟨fun h => h i hi, fun h j hj => by
        obtain rfl : j = i := Fin.ext (hj.symm.trans hi)
        exact h⟩
    have hleaving : Leaving q ↔ i ≠ p.current ∧ Leaving p := by
      unfold Leaving
      rw [hcur, hphase, htasks, State.setState_state]
      split_ifs with hci
      · simp [hci]
      · simp [Ne.symm hci]
    rw [hkeeps]
    unfold Balanced getCount at *
    rw [hcount, hsame]
    by_cases hdead : (p.sched.tasks i).state = .dead
    · rw [hdead, if_neg not_inUse_dead] at hslots
      by_cases hci : i = p.current
      · have hnot : ¬Leaving q := fun h => (hleaving.mp h).1 hci
        rw [if_neg hnot]
        by_cases hl : Leaving p
        · rw [if_pos hl] at hbal
          exact iff_of_true (by omega) fun _ => ⟨hci, hl⟩
        · rw [if_neg hl] at hbal
          exact iff_of_false (by omega) fun h => hl (h hdead).2
      · have hiff : Leaving q ↔ Leaving p := hleaving.trans (and_iff_right hci)
        rw [if_congr hiff rfl rfl]
        exact iff_of_false (by split_ifs at * <;> omega) fun h => hci (h hdead).1
    · have hiff : Leaving q ↔ Leaving p := by
        rw [hleaving, and_iff_right_iff_imp]
        rintro ⟨-, hd⟩ rfl
        exact hdead hd
      rw [if_pos (inUse_of_ne hu hdead)] at hslots
      rw [if_congr hiff rfl rfl]
      exact iff_of_true (by split_ifs at * <;> omega) fun h => absurd h hdead

/-- A store of the task that executes to its own state. -/
theorem slotsInUse_store {st : TaskState} (hs : p.sched.setState p.current st = q.sched) :
    q.sched.taskCount = p.sched.taskCount ∧
      slotsInUse q.sched + (if InUse (p.sched.tasks p.current).state then 1 else 0) =
        slotsInUse p.sched + (if InUse st then 1 else 0) ∧
      (q.sched.tasks p.current).state = st := by
  rw [← hs]
  exact ⟨rfl, slotsInUse_setState _ _ _, by rw [State.setState_state, if_pos rfl]⟩

/-- A switch keeps the balance unless it takes a task off between the two stores of its exit. -/
theorem balanced_schedules_iff (inv : Inv p.sched) (hbal : Balanced p) (hstep : p.Step op q)
    (hop : op.schedules = true) : Balanced q ↔ ¬Leaving p := by
  obtain ⟨hcount, hsame, hrunning⟩ := schedules_inUse inv (TaskSystem.step_sched hstep) hop
  have hleft : ¬Leaving q := by
    rintro ⟨-, hdead⟩
    rw [TaskSystem.current, hrunning] at hdead
    cases hdead
  unfold Balanced getCount at *
  rw [hcount, hsame, if_neg hleft]
  split_ifs at hbal with hl
  · exact iff_of_false (by omega) (not_not.mpr hl)
  · exact iff_of_true hbal hl

/-- A task that goes to sleep is in a slot of its own. -/
theorem balanced_sleepSetState_iff (hbal : Balanced p)
    (hs : p.sched.setState p.current .sleeping = q.sched) (hnot : ¬Leaving p)
    (hnot' : ¬Leaving q) : Balanced q ↔ KeepsCount p .sleepSetState := by
  obtain ⟨hcount, hslots, -⟩ := slotsInUse_store hs
  unfold Balanced getCount KeepsCount at *
  rw [hcount, if_neg hnot']
  rw [if_neg hnot] at hbal
  rw [if_pos inUse_sleeping] at hslots
  split_ifs at hslots with hin
  · exact iff_of_true (by omega) hin
  · exact iff_of_false (by omega) hin

/-- So is one that exits; it is counted until its second store. -/
theorem balanced_exitSetDead_iff (hbal : Balanced p)
    (hs : p.sched.setState p.current .dead = q.sched) (hcur : q.current = p.current)
    (hphase : q.running.phase = .deadStored) (hnot : ¬Leaving p) :
    Balanced q ↔ KeepsCount p .exitSetDead := by
  obtain ⟨hcount, hslots, hdead⟩ := slotsInUse_store hs
  have hleft : Leaving q := ⟨hphase, by rw [hcur, hdead]⟩
  unfold Balanced getCount KeepsCount at *
  rw [hcount, if_pos hleft]
  rw [if_neg hnot] at hbal
  rw [if_neg not_inUse_dead] at hslots
  split_ifs at hslots with hin
  · exact iff_of_true (by omega) hin
  · exact iff_of_false (by omega) hin

theorem balanced_exitDecrCount_iff (inv : Inv p.sched) (hbal : Balanced p)
    (hs : q.sched = decrCount p.sched) (hnot' : ¬Leaving q) :
    Balanced q ↔ KeepsCount p .exitDecrCount := by
  have hpos := slotsInUse_pos inv
  have hslots : slotsInUse q.sched = slotsInUse p.sched :=
    slotsInUse_congr fun i => by rw [hs, decrCount_tasks]
  have hcount : q.sched.taskCount.toNat = p.sched.taskCount.toNat - 1 := by
    rw [hs]
    refine decrCount_toNat ?_
    unfold Balanced getCount at hbal
    omega
  unfold Balanced getCount KeepsCount at *
  rw [hcount, hslots, if_neg hnot']
  split_ifs at hbal with hl
  · exact iff_of_true (by omega) hl
  · exact iff_of_false (by omega) hl

/-- Exactly the steps of `KeepsCount` keep the balance. -/
theorem balanced_step_iff (inv : Inv p.sched) (hbal : Balanced p) (hstep : p.Step op q) :
    Balanced q ↔ KeepsCount p op := by
  by_cases hop : op.schedules = true
  · rw [balanced_schedules_iff inv hbal hstep hop]
    cases op with
    | timerTick now r => rfl
    | yield r =>
      -- The code of an exit has no `int 0x80` between its stores.
      obtain ⟨c, hc, -, -⟩ := TaskSystem.step_cases hstep
      refine iff_of_true ?_ trivial
      rintro ⟨hphase, -⟩
      have hyield := advance_yield hc
      simp [hphase] at hyield
    | _ => cases hop
  rw [Bool.not_eq_true] at hop
  obtain ⟨c, hc, hs, hcur, hrunning, -⟩ := TaskSystem.step_same hstep hop
  have hphase : q.running.phase = c.phase := by rw [hrunning, TaskSystem.runningAfter_phase]
  cases op with
  | createTask name entry =>
    obtain rfl := Option.some.inj hc
    exact iff_of_true (balanced_createTask hbal (Option.some.inj hs) hcur hphase) trivial
  | killTask slot =>
    obtain rfl := Option.some.inj hc
    exact balanced_killTask_iff inv hbal (Option.some.inj hs) hcur hphase
  | timerTick now r => cases hop
  | yield r => cases hop
  | sleepSetWake ms =>
    obtain ⟨hown, rfl⟩ := advance_sleepSetWake hc
    obtain ⟨-, hs⟩ := step_own hs rfl
    have hstate : ∀ i, (q.sched.tasks i).state = (p.sched.tasks i).state := by
      intro i
      rw [hs]
      by_cases hi : i = p.sched.currentTask <;> simp [sleepSetWake, hi]
    have hnot : ¬Leaving p := not_leaving (by simp [hown])
    have hnot' : ¬Leaving q := not_leaving (by simp [hphase])
    exact iff_of_true (hbal.congr (by rw [hs]; rfl) (slotsInUse_congr fun i => by rw [hstate])
      (iff_of_false hnot' hnot)) trivial
  | sleepSetState =>
    obtain ⟨⟨t, ms, hold⟩, rfl⟩ := advance_sleepSetState hc
    obtain ⟨-, hs⟩ := step_own hs rfl
    exact balanced_sleepSetState_iff hbal hs.symm (not_leaving (by simp [hold]))
      (not_leaving (by simp [hphase]))
  | exitSetDead =>
    obtain ⟨hown, rfl⟩ := advance_exitSetDead hc
    obtain ⟨-, hs⟩ := step_own hs rfl
    exact balanced_exitSetDead_iff hbal hs.symm hcur hphase (not_leaving (by simp [hown]))
  | exitDecrCount =>
    obtain ⟨hold, rfl⟩ := advance_exitDecrCount hc
    obtain ⟨-, hs⟩ := step_own hs rfl
    exact balanced_exitDecrCount_iff inv hbal hs (not_leaving (by simp [hphase]))

/-! ## Runs -/

theorem init_taskCount (s : State) : (init s).taskCount = 2 := by
  rcases createTaskInternal_cases (initKernel s) (some idleName) s.idleEntry true 0 rfl with
    ⟨hnone, -⟩ | ⟨i, hf, -⟩
  · exact absurd (initKernel_state s 1) (findUnused_none hnone 1 (by decide))
  · unfold init createTaskInternal
    rw [if_pos rfl, hf]
    rfl

theorem start_balanced (s0 : State) : Balanced (TaskSystem.start s0) := by
  obtain ⟨-, -, hne, hkernel, hidle, -, -, -, hrest⟩ := init_spec s0
  have hslots : slotsInUse (init s0) = 2 := by
    have hfilter : (Finset.univ.filter fun i => InUse ((init s0).tasks i).state) =
        {0, (init s0).idleTaskId} := by
      ext i
      rw [Finset.mem_filter, Finset.mem_insert, Finset.mem_singleton,
        and_iff_right (Finset.mem_univ i)]
      by_cases h0 : i = 0
      · rw [h0, hkernel]
        exact iff_of_true (by decide) (.inl rfl)
      · by_cases hi : i = (init s0).idleTaskId
        · rw [hi, hidle]
          exact iff_of_true (by decide) (.inr rfl)
        · rw [hrest i h0 hi]
          exact iff_of_false not_inUse_unused (by simp [h0, hi])
    unfold slotsInUse
    rw [hfilter, Finset.card_pair hne.symm]
  have hnot : ¬Leaving (TaskSystem.start s0) := not_leaving nofun
  have hcount : getCount (init s0) = 2 := init_taskCount s0
  unfold Balanced
  rw [if_neg hnot]
  change (getCount (init s0)).toNat = slotsInUse (init s0) + 0
  rw [hslots, hcount]
  rfl

/-- As long as every step keeps the count, the metric is the number of slots in use in every state
without a dead slot. -/
theorem load_exact (s0 : State) (ops : List Op)
    (hrun : Run (Where KeepsCount TaskSystem.Step) (TaskSystem.start s0) ops p)
    (hdead : ∀ i, (p.sched.tasks i).state ≠ .dead) :
    (getCount p.sched).toNat = slotsInUse p.sched := by
  have hbal : Inv p.sched ∧ Balanced p := by
    refine hrun.invariant (fun p => Inv p.sched ∧ Balanced p)
      ⟨init_inv s0, start_balanced s0⟩ fun a op b ha hstep => ?_
    exact ⟨step_inv ha.1 (TaskSystem.step_sched hstep.2),
      (balanced_step_iff ha.1 ha.2 hstep.2).mpr hstep.1⟩
  have hnot : ¬Leaving p := fun h => hdead _ h.2
  have h := hbal.2
  unfold Balanced at h
  rwa [if_neg hnot] at h

/-- The task in slot 2 returns and its slot is reclaimed, with a tick between its two stores. -/
def interruptedExitOps : List Op :=
  spawnOps ++ [.exitSetDead, .timerTick 2 0x9008, .timerTick 3 0x8000]

/-- As it stands the promise fails: no slot is dead, and one task too many is counted. -/
theorem load_drifts : ∃ p, Run TaskSystem.Step (TaskSystem.start sampleImage) interruptedExitOps p ∧
    (∀ i, (p.sched.tasks i).state ≠ .dead) ∧ (getCount p.sched).toNat = 3 ∧
      slotsInUse p.sched = 2 :=
  ⟨_, run_get (by decide +kernel), by decide +kernel, by decide +kernel, by decide +kernel⟩

/-- The same exit without the tick in between. -/
def wholeExitOps : List Op :=
  spawnOps ++ [.exitSetDead, .exitDecrCount, .yield 0x9008, .timerTick 3 0x8000]

@[irreducible] def exited : TaskSystem :=
  (exec (guarded KeepsCount TaskSystem.step) (TaskSystem.start sampleImage) wholeExitOps).get
    (by decide +kernel)

theorem load_exact_exited : (getCount exited.sched).toNat = slotsInUse exited.sched := by
  have hrun : Run (Where KeepsCount TaskSystem.Step) (TaskSystem.start sampleImage) wholeExitOps
      exited := by
    unfold exited
    exact run_where_get _
  exact load_exact sampleImage wholeExitOps hrun (by decide +kernel)

end QuillOS.Scheduler
