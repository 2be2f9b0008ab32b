import QuillOS.Scheduler.Selection

/-!
# The code of the tasks

The scheduler together with where each task stands: in its own code, between two stores of
`sleep_ms`, or between two of those with which `task_entry_wrapper` ends. An interrupt may fall
anywhere; a task that is switched out goes on where it was when its slot is selected again.
-/

namespace QuillOS.Scheduler

open Lib

inductive Phase
  | own
  /-- `sleep_ms` has stored `wake_at` for a sleep of `ms` from the tick `t` on. -/
  | wakeStored (t : UInt64) (ms : UInt32)
  | sleepStored
  | deadStored
  | counted
  | halted
  deriving DecidableEq

structure Thread where
  phase : Phase
  /-- `kill_task` has freed the slot since the task was created. -/
  killed : Bool
  deriving DecidableEq

def newThread : Thread := ⟨.own, false⟩

/-- Where the code that executes stands after a step, if it can take the step there. -/
def Thread.advance (c : Thread) (s : State) : Op → Option Thread
  | .sleepSetWake ms =>
    if c.phase = .own then some { c with phase := .wakeStored s.ticks ms } else none
  | .sleepSetState =>
    match c.phase with
    | .wakeStored _ _ => some { c with phase := .sleepStored }
    | _ => none
  | .exitSetDead => if c.phase = .own then some { c with phase := .deadStored } else none
  | .exitDecrCount => if c.phase = .deadStored then some { c with phase := .counted } else none
  | .yield _ =>
    match c.phase with
    | .own => some c
    | .sleepStored => some { c with phase := .own }
    | .counted => some { c with phase := .halted }
    | _ => none
  | _ => some c

section Advance

variable {c d : Thread} {s s' : State}

theorem advance_sleepSetWake {ms : UInt32} (h : c.advance s (.sleepSetWake ms) = some d) :
    c.phase = .own ∧ d = { c with phase := .wakeStored s.ticks ms } := by
  unfold Thread.advance at h
  dsimp only at h
  split at h
  · exact ⟨‹_›, (Option.some.inj h).symm⟩
  · cases h

theorem advance_sleepSetState (h : c.advance s .sleepSetState = some d) :
    (∃ t ms, c.phase = .wakeStored t ms) ∧ d = { c with phase := .sleepStored } := by
  unfold Thread.advance at h
  dsimp only at h
  split at h
  · exact ⟨⟨_, _, ‹_›⟩, (Option.some.inj h).symm⟩
  · cases h

theorem advance_exitSetDead (h : c.advance s .exitSetDead = some d) :
    c.phase = .own ∧ d = { c with phase := .deadStored } := by
  unfold Thread.advance at h
  dsimp only at h
  split at h
  · exact ⟨‹_›, (Option.some.inj h).symm⟩
  · cases h

theorem advance_exitDecrCount (h : c.advance s .exitDecrCount = some d) :
    c.phase = .deadStored ∧ d = { c with phase := .counted } := by
  unfold Thread.advance at h
  dsimp only at h
  split at h
  · exact ⟨‹_›, (Option.some.inj h).symm⟩
  · cases h

/-- The code of a sleep or an exit executes `int 0x80` behind its last store only. -/
theorem advance_yield {r : UInt64} (h : c.advance s (.yield r) = some d) :
    c.phase = .own ∨ c.phase = .sleepStored ∨ c.phase = .counted := by
  unfold Thread.advance at h
  dsimp only at h
  split at h
  · exact .inl ‹_›
  · exact .inr (.inl ‹_›)
  · exact .inr (.inr ‹_›)
  · cases h

/-- The stores of a task to its own slot are those of a slot with code of its own. -/
theorem step_own {op : Op} {next : State} (h : Step s op s')
    (hop : step s op = if runsTaskCode s then some next else none) :
    runsTaskCode s = true ∧ s' = next := by
  rw [Step, hop] at h
  split at h
  · exact ⟨‹_›, (Option.some.inj h).symm⟩
  · cases h

end Advance

/-- `saved` says where the slots that do not execute will go on. -/
structure TaskSystem where
  sched : State
  running : Thread
  saved : Slot → Thread

namespace TaskSystem

def start (s0 : State) : TaskSystem := ⟨init s0, newThread, fun _ => newThread⟩

/-- The slot of the code that executes. -/
abbrev current (p : TaskSystem) : Slot := p.sched.currentTask

end TaskSystem

/-- The step is a call of `kill_task` that frees slot `i`. -/
def frees (s : State) (op : Op) (i : Slot) : Bool :=
  match op with
  | .killTask slot => (killTask s slot).2 && slot.toNat == i.val
  | _ => false

namespace TaskSystem

/-- The saved threads after a step: one in a slot filled anew starts afresh. -/
def savedAfter (p : TaskSystem) (op : Op) (i : Slot) : Thread :=
  if allocates p.sched op = some i then newThread
  else if frees p.sched op i then { p.saved i with killed := true } else p.saved i

def runningAfter (p : TaskSystem) (op : Op) (c : Thread) : Thread :=
  if frees p.sched op p.current then { c with killed := true } else c

/-- The step of the scheduler from `p.sched` to `s`, with the threads that go with it. -/
def resume (p : TaskSystem) (op : Op) (c : Thread) (s : State) : TaskSystem :=
  if s.currentTask = p.current then ⟨s, p.runningAfter op c, p.savedAfter op⟩
  else ⟨s, p.savedAfter op s.currentTask,
    Function.update (p.savedAfter op) p.current (p.runningAfter op c)⟩

def step (p : TaskSystem) (op : Op) : Option TaskSystem :=
  (p.running.advance p.sched op).bind fun c =>
    (Scheduler.step p.sched op).map fun s => p.resume op c s

abbrev Step (p : TaskSystem) (op : Op) (q : TaskSystem) : Prop := p.step op = some q

variable {p q : TaskSystem} {op : Op}

@[simp] theorem resume_sched (p : TaskSystem) (op : Op) (c : Thread) (s : State) :
    (p.resume op c s).sched = s := by
  unfold resume
  split <;> rfl

theorem step_cases (h : Step p op q) :
    ∃ c, p.running.advance p.sched op = some c ∧ Scheduler.Step p.sched op q.sched ∧
      q = p.resume op c q.sched := by
  obtain ⟨c, hc, h⟩ := Option.bind_eq_some_iff.mp h
  obtain ⟨s, hs, rfl⟩ := Option.map_eq_some_iff.mp h
  rw [resume_sched]
  exact ⟨c, hc, hs, rfl⟩

theorem step_sched (h : Step p op q) : Scheduler.Step p.sched op q.sched := by
  obtain ⟨c, -, hs, -⟩ := step_cases h
  exact hs

theorem resume_of_same {c : Thread} {s : State} (h : s.currentTask = p.current) :
    (p.resume op c s).running = p.runningAfter op c ∧
      (p.resume op c s).saved = p.savedAfter op := by
  unfold resume
  rw [if_pos h]
  exact ⟨rfl, rfl⟩

theorem resume_of_switch {c : Thread} {s : State} (h : s.currentTask ≠ p.current) :
    (p.resume op c s).running = p.savedAfter op s.currentTask ∧
      (p.resume op c s).saved =
        Function.update (p.savedAfter op) p.current (p.runningAfter op c) := by
  unfold resume
  rw [if_neg h]
  exact ⟨rfl, rfl⟩

/-- A step that does not schedule leaves the same code executing. -/
theorem step_same (h : Step p op q) (hop : op.schedules = false) :
    ∃ c, p.running.advance p.sched op = some c ∧ Scheduler.Step p.sched op q.sched ∧
      q.current = p.current ∧ q.running = p.runningAfter op c ∧ q.saved = p.savedAfter op := by
  obtain ⟨c, hc, hs, hq⟩ := step_cases h
  have hcur : q.sched.currentTask = p.current := step_currentTask hs hop
  obtain ⟨hrunning, hsaved⟩ : (p.resume op c q.sched).running = _ ∧ _ := resume_of_same hcur
  rw [← hq] at hrunning hsaved
  exact ⟨c, hc, hs, hcur, hrunning, hsaved⟩

@[simp] theorem runningAfter_phase (p : TaskSystem) (op : Op) (c : Thread) :
    (p.runningAfter op c).phase = c.phase := by
  unfold runningAfter
  split <;> rfl

/-- The scheduler of a system goes through a run of its own. -/
theorem run_sched {ops : List Op} (h : Run Step p ops q) :
    Run Scheduler.Step p.sched ops q.sched := by
  induction h with
  | nil => exact Run.nil _
  | snoc _ hl ih => exact ih.snoc (step_sched hl)

end TaskSystem

end QuillOS.Scheduler
