import Mathlib.Data.Fintype.Basic
import Mathlib.Tactic
import QuillOS.Lib.Run

/-!
# The preemptive scheduler

The state of `scheduler.cpp` and its functions. The task table is a function from slots, a loop
over the table that touches each entry by itself is a pointwise definition, and the first-match
scans are `Fin.find?`. The console texts are left out.
-/

namespace QuillOS.Scheduler

abbrev maxTasks : ℕ := 16

instance : NeZero maxTasks := ⟨by decide⟩

def timeSliceMs : UInt32 := 10
def stackSize : UInt64 := 16384
/-- `sizeof(InterruptFrame)`: 22 words. -/
def sizeofInterruptFrame : UInt64 := 176

abbrev Slot := Fin maxTasks

inductive TaskState
  | unused | ready | running | sleeping | dead
  deriving DecidableEq, Repr

/-- A code address; `0` is the null pointer. -/
abbrev Entry := UInt64

structure TaskInternal where
  rsp : UInt64
  state : TaskState
  name : List UInt8
  id : UInt32
  entry : Entry
  ticksUsed : UInt64
  wakeAt : UInt64
  sliceRemaining : UInt32
  deriving DecidableEq

/-- The words of the frame at the top of a task's stack that are not zero. -/
structure InterruptFrame where
  rip : UInt64
  cs : UInt64
  rflags : UInt64
  rsp : UInt64
  ss : UInt64
  deriving DecidableEq

structure State where
  tasks : Slot → TaskInternal
  currentTask : Slot
  taskCount : UInt32
  idleTaskId : Slot
  nextId : UInt32
  initialized : Bool
  /-- The tick counter of the timer interrupt. -/
  ticks : UInt64
  /-- The addresses of `task_stacks`, `task_entry_wrapper` and `idle_entry` in the image. -/
  taskStacks : UInt64
  taskEntryWrapper : Entry
  idleEntry : Entry
  /-- What `create_task_internal` last wrote at the top of each stack. -/
  frames : Slot → InterruptFrame

namespace State

def setTask (s : State) (i : Slot) (t : TaskInternal) : State :=
  { s with tasks := Function.update s.tasks i t }

def setState (s : State) (i : Slot) (st : TaskState) : State :=
  s.setTask i { s.tasks i with state := st }

@[simp] theorem setTask_tasks (s : State) (i : Slot) (t : TaskInternal) :
    (s.setTask i t).tasks = Function.update s.tasks i t := rfl
@[simp] theorem setTask_currentTask (s : State) (i : Slot) (t : TaskInternal) :
    (s.setTask i t).currentTask = s.currentTask := rfl
@[simp] theorem setTask_idleTaskId (s : State) (i : Slot) (t : TaskInternal) :
    (s.setTask i t).idleTaskId = s.idleTaskId := rfl
@[simp] theorem setState_currentTask (s : State) (i : Slot) (st : TaskState) :
    (s.setState i st).currentTask = s.currentTask := rfl
@[simp] theorem setState_idleTaskId (s : State) (i : Slot) (st : TaskState) :
    (s.setState i st).idleTaskId = s.idleTaskId := rfl

theorem setState_state (s : State) (i j : Slot) (st : TaskState) :
    ((s.setState i st).tasks j).state = if j = i then st else (s.tasks j).state := by
  by_cases h : j = i
  · subst h; simp [setState]
  · simp [setState, h]

/-- The address just past the stack of slot `i`. -/
def stackTop (s : State) (i : Slot) : UInt64 :=
  s.taskStacks + (UInt64.ofNat i.val + 1) * stackSize

/-- Where the initial frame of slot `i` is built. -/
def frameAddr (s : State) (i : Slot) : UInt64 := s.stackTop i - sizeofInterruptFrame

end State

/-! ## Choosing and switching -/

/-- The scan starts after the current task and ends with it; `idle` is never its result. -/
def pickNext (s : State) : Slot :=
  let start := s.currentTask + 1
  match Fin.find? fun k : Slot =>
      decide (start + k ≠ s.idleTaskId ∧ (s.tasks (start + k)).state = .ready) with
  | some k => start + k
  | none => s.idleTaskId

/-- The first lines of `do_schedule`: the stack pointer is saved whatever the slot's state. -/
def saveCurrent (s : State) (currentRsp : UInt64) : State :=
  let s := s.setTask s.currentTask { s.tasks s.currentTask with rsp := currentRsp }
  if (s.tasks s.currentTask).state = .running then s.setState s.currentTask .ready else s

def startSlice (t : TaskInternal) : TaskInternal :=
  { t with state := .running, sliceRemaining := timeSliceMs }

/-- `do_schedule`, with the stack pointer it returns. -/
def doSchedule (s : State) (currentRsp : UInt64) : State × UInt64 :=
  let s := saveCurrent s currentRsp
  let next := pickNext s
  -- Any other state of the current task goes through the switch, even to itself.
  if next = s.currentTask ∧ (s.tasks s.currentTask).state = .ready then
    (s.setTask s.currentTask (startSlice (s.tasks s.currentTask)), currentRsp)
  else
    ({ s.setTask next (startSlice (s.tasks next)) with currentTask := next }, (s.tasks next).rsp)

/-! ## Creating tasks -/

/-- The name is copied up to 31 bytes; `none` is a null pointer. -/
def copyName (name : Option (List UInt8)) : List UInt8 := (name.getD []).take 31

/-- The frame `create_task_internal` builds: `iretq` lands in `task_entry_wrapper`. -/
def initialFrame (s : State) (i : Slot) : InterruptFrame :=
  { rip := s.taskEntryWrapper, cs := 0x28, rflags := 0x202, rsp := s.stackTop i, ss := 0x30 }

/-- The first unused slot from `start` on. -/
def findUnused (s : State) (start : ℕ) : Option Slot :=
  Fin.find? fun i => decide (start ≤ i.val ∧ (s.tasks i).state = .unused)

/-- `create_task_internal`: the slot it filled, or `none` where the code returns `-1`. -/
def createTaskInternal (s : State) (name : Option (List UInt8)) (entry : Entry) (isIdle : Bool) :
    State × Option Slot :=
  match findUnused s (if isIdle then 0 else 1) with
  | none => (s, none)
  | some i =>
    ({ s.setTask i
        { rsp := s.frameAddr i, state := .ready, name := copyName name, id := s.nextId,
          entry := entry, ticksUsed := 0, wakeAt := 0, sliceRemaining := timeSliceMs } with
        nextId := s.nextId + 1
        taskCount := s.taskCount + 1
        frames := Function.update s.frames i (initialFrame s i) }, some i)

def kernelName : List UInt8 := "kernel".toUTF8.toList
def idleName : List UInt8 := "idle".toUTF8.toList

/-- The entry every slot is reset to. -/
def clearedTask : TaskInternal where
  rsp := 0
  state := .unused
  name := []
  id := 0
  entry := 0
  ticksUsed := 0
  wakeAt := 0
  sliceRemaining := timeSliceMs

/-- The table of `Scheduler::init` before the idle task is created: only the running kernel. -/
def initKernel (s : State) : State :=
  let s := { s with tasks := fun _ => clearedTask, nextId := 0 }
  let s := s.setTask 0 { clearedTask with state := .running, id := s.nextId, name := kernelName }
  { s with nextId := s.nextId + 1, currentTask := 0, taskCount := 1 }

/-- `Scheduler::init`, from whatever the static memory held. -/
def init (s : State) : State :=
  let (s, idleSlot) := createTaskInternal (initKernel s) (some idleName) s.idleEntry true
  let s := match idleSlot with
    | some i => { s with idleTaskId := i }
    | none => s
  { s with initialized := true }

/-- Zeroed static memory, as the image is loaded, for given code and stack addresses. -/
def loaded (taskStacks : UInt64) (taskEntryWrapper idleEntry : Entry) : State where
  tasks _ := { rsp := 0, state := .unused, name := [], id := 0, entry := 0, ticksUsed := 0,
               wakeAt := 0, sliceRemaining := 0 }
  currentTask := 0
  taskCount := 0
  idleTaskId := 0
  nextId := 0
  initialized := false
  ticks := 0
  taskStacks := taskStacks
  taskEntryWrapper := taskEntryWrapper
  idleEntry := idleEntry
  frames _ := { rip := 0, cs := 0, rflags := 0, rsp := 0, ss := 0 }

/-! ## The public functions -/

def createTask (s : State) (name : Option (List UInt8)) (entry : Entry) : State × Option Slot :=
  if !s.initialized || entry = 0 then (s, none) else createTaskInternal s name entry false

def decrCount (s : State) : State :=
  if s.taskCount > 0 then { s with taskCount := s.taskCount - 1 } else s

def killTask (s : State) (slot : UInt32) : State × Bool :=
  if h : slot.toNat < maxTasks then
    let i : Slot := ⟨slot.toNat, h⟩
    if i = 0 then (s, false)
    else if i = s.idleTaskId then (s, false)
    else if (s.tasks i).state = .unused then (s, false)
    -- Also for the task that runs: its slot is free while it is still on the processor.
    else (decrCount (s.setState i .unused), true)
  else (s, false)

/-- The first loop of `timer_tick`. -/
def wakeSleepers (s : State) : State :=
  { s with tasks := fun i =>
      if (s.tasks i).state = .sleeping ∧ s.ticks ≥ (s.tasks i).wakeAt then
        { s.tasks i with state := .ready } else s.tasks i }

/-- The second loop of `timer_tick`. -/
def cleanDead (s : State) : State :=
  { s with tasks := fun i =>
      if (s.tasks i).state = .dead ∧ i ≠ s.currentTask then
        { s.tasks i with state := .unused } else s.tasks i }

def countTick (s : State) : State :=
  s.setTask s.currentTask
    { s.tasks s.currentTask with ticksUsed := (s.tasks s.currentTask).ticksUsed + 1 }

def spendSlice (s : State) : State :=
  if (s.tasks s.currentTask).sliceRemaining > 0 then
    s.setTask s.currentTask
      { s.tasks s.currentTask with sliceRemaining := (s.tasks s.currentTask).sliceRemaining - 1 }
  else s

def timerTick (s : State) (currentRsp : UInt64) : State × UInt64 :=
  if !s.initialized then (s, currentRsp) else
  let s := countTick (cleanDead (wakeSleepers s))
  -- A task that no longer runs does not get the rest of its slice.
  if (s.tasks s.currentTask).state ≠ .running then doSchedule s currentRsp else
  let s := spendSlice s
  if (s.tasks s.currentTask).sliceRemaining > 0 then (s, currentRsp) else doSchedule s currentRsp

def yield (s : State) (currentRsp : UInt64) : State × UInt64 :=
  if !s.initialized then (s, currentRsp) else doSchedule s currentRsp

/-! ## What the running task does to its own entry

`sleep_ms` is two stores followed by `int 0x80`, and a task that returns goes through two stores
of `task_entry_wrapper` followed by `int 0x80`; an interrupt may fall between any two of them. -/

def sleepSetWake (s : State) (ms : UInt32) : State :=
  s.setTask s.currentTask
    { s.tasks s.currentTask with wakeAt := s.ticks + UInt64.ofNat ms.toNat }

def sleepSetState (s : State) : State := s.setState s.currentTask .sleeping

def exitSetDead (s : State) : State := s.setState s.currentTask .dead

/-! ## Steps -/

inductive Op
  | createTask (name : Option (List UInt8)) (entry : Entry)
  | killTask (slot : UInt32)
  | timerTick (now currentRsp : UInt64)
  | yield (currentRsp : UInt64)
  | sleepSetWake (ms : UInt32)
  | sleepSetState
  | exitSetDead
  | exitDecrCount
  deriving DecidableEq

/-- The kernel task and the idle task are endless `hlt` loops: they never sleep or return. -/
def runsTaskCode (s : State) : Bool := s.currentTask ≠ 0 ∧ s.currentTask ≠ s.idleTaskId

/-- One step; a tick carries the tick counter it finds, which never goes back. -/
def step (s : State) : Op → Option State
  | .createTask name entry => some (createTask s name entry).1
  | .killTask slot => some (killTask s slot).1
  | .timerTick now rsp => if s.ticks ≤ now then some (timerTick { s with ticks := now } rsp).1 else none
  | .yield rsp => some (yield s rsp).1
  | .sleepSetWake ms => if runsTaskCode s then some (sleepSetWake s ms) else none
  | .sleepSetState => if runsTaskCode s then some (sleepSetState s) else none
  | .exitSetDead => if runsTaskCode s then some (exitSetDead s) else none
  | .exitDecrCount => if runsTaskCode s then some (decrCount s) else none

/-- The steps that may switch tasks: the timer interrupt and `int 0x80`. -/
def Op.schedules : Op → Bool
  | .timerTick _ _ => true
  | .yield _ => true
  | _ => false

/-- The stack pointer an interrupt that may switch tasks comes with. -/
def Op.currentRsp : Op → UInt64
  | .timerTick _ r => r
  | .yield r => r
  | _ => 0

/-- The stack pointer such an interrupt returns on. -/
def returnedRsp (s : State) : Op → UInt64
  | .timerTick now r => (timerTick { s with ticks := now } r).2
  | .yield r => (yield s r).2
  | _ => 0

/-- The slot a step fills with a new task. -/
def allocates (s : State) : Op → Option Slot
  | .createTask name entry => (createTask s name entry).2
  | _ => none

abbrev Step (s : State) (op : Op) (s' : State) : Prop := step s op = some s'

end QuillOS.Scheduler
