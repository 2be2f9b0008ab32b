import QuillOS.Interrupts.Entry
import QuillOS.Scheduler.Context

/-!
# Context switches

The scheduler of `scheduler.cpp` on the stacks of `interrupts.asm`, against a machine in which
every slot has a processor of its own: there a switch moves nothing, and what a task finds when
it goes on is what it left.
-/

namespace QuillOS.Interrupts

open Lib Scheduler

/-! ## Stacks -/

/-- The stack the kernel was started on, and the stacks of `task_stacks`. -/
structure Layout where
  taskStacks : UInt64
  bootLow : ℕ
  bootTop : ℕ
  fits : taskStacks.toNat + maxTasks * 16384 < 2 ^ 64
  apart : bootTop ≤ taskStacks.toNat ∨ taskStacks.toNat + maxTasks * 16384 ≤ bootLow

namespace Layout

variable (L : Layout) (i j : Slot)

/-- The first byte of the stack slot `i` runs on. -/
def low : ℕ := if i = 0 then L.bootLow else L.taskStacks.toNat + i.val * 16384

def top : ℕ := if i = 0 then L.bootTop else L.taskStacks.toNat + (i.val + 1) * 16384

/-- The addresses of the stack of slot `i`. -/
def Owns (x : ℕ) : Prop := L.low i ≤ x ∧ x < L.top i

instance (x : ℕ) : Decidable (L.Owns i x) := inferInstanceAs (Decidable (_ ∧ _))

variable {L i j}

theorem owns_disjoint {x : ℕ} (hij : i ≠ j) (hi : L.Owns i x) : ¬L.Owns j x := by
  have hval : i.val ≠ j.val := fun h => hij (Fin.ext h)
  have hapart := L.apart
  have hi' := i.isLt
  have hj' := j.isLt
  unfold Owns low top at *
  by_cases h0 : i = 0 <;> by_cases h1 : j = 0 <;> simp only [h0, h1, if_true, if_false] at hi ⊢
  · exact absurd (h0.trans h1.symm) hij
  all_goals omega

end Layout

/-- The stack pointer is on the stack of slot `i`, with room for an aligned frame below it. -/
def OnStack (L : Layout) (i : Slot) (c : Cpu) : Prop :=
  L.low i + 192 ≤ c.rsp.toNat ∧ c.rsp.toNat ≤ L.top i

instance (L : Layout) (i : Slot) (c : Cpu) : Decidable (OnStack L i c) :=
  inferInstanceAs (Decidable (_ ∧ _))

/-! ## A processor for each slot -/

/-- What a task sees of the processor: its registers, and its stack from the stack pointer up. -/
structure Processor where
  regs : Reg → UInt64
  rip : UInt64
  cs : UInt16
  rflags : UInt64
  rsp : UInt64
  ss : UInt16
  stack : ℕ → UInt8

def view (L : Layout) (i : Slot) (c : Cpu) : Processor where
  regs := c.regs
  rip := c.rip
  cs := c.cs
  rflags := c.rflags
  rsp := c.rsp
  ss := c.ss
  stack x := if c.rsp.toNat ≤ x ∧ x < L.top i then c.mem x else 0

@[simp] theorem view_rsp (L : Layout) (i : Slot) (c : Cpu) : (view L i c).rsp = c.rsp := rfl

/-- A task that has not run: `task_entry_wrapper` on an empty stack. -/
def fresh (s : State) (i : Slot) : Processor where
  regs _ := 0
  rip := s.taskEntryWrapper
  cs := 0x28
  rflags := 0x202
  rsp := s.stackTop i
  ss := 0x30
  stack _ := 0

/-- The scheduler over separate processors. -/
structure Virtual where
  sched : State × History
  proc : Slot → Processor

/-! ## The kernel on one processor -/

structure System where
  cpu : Cpu
  sched : State × History

inductive Event
  /-- The code of the current slot runs, handlers of other interrupts included. -/
  | exec (c : Cpu)
  /-- It calls a scheduler function that does not schedule. -/
  | call (op : Op)
  /-- The timer interrupt or `int 0x80`, with what the C dispatcher does. -/
  | interrupt (op : Op) (callee : Dispatcher → Cpu → Cpu)

/-- The stub such an interrupt goes through. -/
def stubOf : Op → Stub
  | .timerTick _ _ => .irq 0
  | _ => .schedYield

/-- The frame `create_task_internal` lays out: all zero but for what `iretq` pops. -/
def freshFrame (f : Scheduler.InterruptFrame) : InterruptFrame where
  gp _ := 0
  intNo := 0
  errorCode := 0
  rip := f.rip
  cs := f.cs
  rflags := f.rflags
  rsp := f.rsp
  ss := f.ss

def writeFrame (m : Mem) (a : ℕ) (f : InterruptFrame) : Mem := m.storeWords a f.words

/-- The memory after a call: a new task has its frame written to the top of its stack. -/
def built (s : State) (op : Op) (s' : State) (m : Mem) : Mem :=
  match allocates s op with
  | some i => writeFrame m (s'.frameAddr i).toNat (freshFrame (s'.frames i))
  | none => m

/-- The dispatcher returns what the scheduler returns, and of the stacks it writes only the free
part of the one it runs on. -/
def Dispatches (L : Layout) (s : State) (op : Op) (callee : Dispatcher → Cpu → Cpu) (k : Cpu) :
    Prop :=
  (callee (stubOf op).dispatcher k).regs .rax = returnedRsp s op ∧
    ∀ i x, L.Owns i x → (i = s.currentTask → k.rsp.toNat ≤ x) →
      (callee (stubOf op).dispatcher k).mem x = k.mem x

/-- One step of the kernel. Code keeps to its own stack. -/
inductive KernelStep (L : Layout) (img : Image) (idt : Idt) : System → Event → System → Prop
  | exec {cpu c : Cpu} {p : State × History} (hstack : OnStack L p.1.currentTask c)
      (hmem : ∀ i x, i ≠ p.1.currentTask → L.Owns i x → c.mem x = cpu.mem x) :
      KernelStep L img idt ⟨cpu, p⟩ (.exec c) ⟨c, p⟩
  | call {cpu : Cpu} {p q : State × History} {op : Op} (hop : op.schedules = false)
      (hstep : RecordedStep p op q) :
      KernelStep L img idt ⟨cpu, p⟩ (.call op) ⟨{ cpu with mem := built p.1 op q.1 cpu.mem }, q⟩
  | interrupt {cpu cpu' : Cpu} {p q : State × History} {op : Op}
      {callee : Dispatcher → Cpu → Cpu} (hop : op.schedules = true)
      (hframe : op.currentRsp.toNat = framePos cpu) (hstep : RecordedStep p op q)
      (hcallee : Dispatches L p.1 op callee
        (atCall (stubOf op).vector ⟨0x28, img.addr (stubOf op)⟩ none cpu))
      (hcpu : interrupt img (idtInit img idt) callee (stubOf op).vector none cpu = some cpu') :
      KernelStep L img idt ⟨cpu, p⟩ (.interrupt op callee) ⟨cpu', q⟩

/-- No `create_task` fills the slot of the task that is executing, which is free while it runs on
after a `kill_task` of the current slot. -/
def SparesExecuting (sys : System) : Event → Prop
  | .call op => SparesCurrent sys.sched op
  | _ => True

/-- The same step when every slot has its own processor. -/
def Virtual.step (L : Layout) (v : Virtual) : Event → Option Virtual
  | .exec c =>
    let cur := v.sched.1.currentTask
    some { v with proc := Function.update v.proc cur (view L cur c) }
  | .call op =>
    (recordedStep v.sched op).map fun q =>
      { sched := q
        proc := match allocates v.sched.1 op with
          | some i => Function.update v.proc i (fresh q.1 i)
          | none => v.proc }
  | .interrupt op _ => (recordedStep v.sched op).map fun q => { v with sched := q }

/-! ## Stack pointers across a switch -/

/-- A tick or a yield goes through `do_schedule`, or returns the stack pointer it came with. -/
theorem schedules_cases {s s' : State} {op : Op} (hinit : s.initialized = true)
    (hstep : Scheduler.Step s op s') (hop : op.schedules = true) :
    ∃ t, SameContexts s t ∧ ((s', returnedRsp s op) = doSchedule t op.currentRsp ∨
      (s', returnedRsp s op) = (t, op.currentRsp)) := by
  cases op with
  | timerTick now r =>
    simp only [Scheduler.Step, step] at hstep
    split at hstep <;> cases hstep
    obtain ⟨t, hs, -, ht⟩ := timerTick_cases { s with ticks := now } r hinit
    have hsame : SameContexts s t := ⟨hs.currentTask, hs.idleTaskId, hs.initialized, hs.taskStacks,
      hs.taskEntryWrapper, hs.frames, hs.rsp, hs.entry⟩
    exact ⟨t, hsame, ht.imp id And.left⟩
  | yield r =>
    cases hstep
    refine ⟨s, SameContexts.refl s, Or.inl ?_⟩
    simp only [returnedRsp, yield, hinit, Bool.not_true, Bool.false_eq_true, if_false]
    rfl
  | _ => cases hop

/-- `do_schedule` returns the stack pointer it came with when it stays on the current slot. -/
theorem doSchedule_stays {t : State} {r : UInt64}
    (h : (doSchedule t r).1.currentTask = t.currentTask) : (doSchedule t r).2 = r := by
  rw [doSchedule_currentTask] at h
  have hr := saveCurrent_rsp t r t.currentTask
  rw [if_pos rfl] at hr
  unfold doSchedule
  dsimp only
  split
  · rfl
  · rw [h]
    exact hr

/-- What a tick or a yield returns and keeps of the stack pointers of the slots. -/
theorem schedules_rsp {s s' : State} {op : Op} (hinit : s.initialized = true)
    (hstep : Scheduler.Step s op s') (hop : op.schedules = true) :
    (s'.currentTask = s.currentTask → returnedRsp s op = op.currentRsp) ∧
      (s'.currentTask ≠ s.currentTask →
        returnedRsp s op = (s.tasks s'.currentTask).rsp ∧
          (s'.tasks s.currentTask).rsp = op.currentRsp) ∧
      (∀ j, j ≠ s.currentTask → (s'.tasks j).rsp = (s.tasks j).rsp) ∧
      s'.taskStacks = s.taskStacks := by
  obtain ⟨t, hsame, ht | ht⟩ := schedules_cases hinit hstep hop
  · obtain ⟨hs', hret⟩ := Prod.ext_iff.mp ht
    dsimp only at hs' hret
    subst hs'
    have hctx := fun j => (doSchedule_context t op.currentRsp j).1
    rw [← hsame.currentTask, hret]
    refine ⟨doSchedule_stays, fun hcur => ⟨?_, ?_⟩, fun j hj => ?_, ?_⟩
    · rw [doSchedule_returns hcur, hsame.rsp]
    · rw [hctx, if_pos rfl]
    · rw [hctx, if_neg hj, hsame.rsp]
    · exact (doSchedule_frames t op.currentRsp).2.1.trans hsame.taskStacks
  · obtain ⟨hs', hret⟩ := Prod.ext_iff.mp ht
    dsimp only at hs' hret
    subst hs'
    exact ⟨fun _ => hret, fun hcur => absurd hsame.currentTask hcur, fun j _ => hsame.rsp j,
      hsame.taskStacks⟩

/-! ## The relation -/

/-- The frame at address `a` of the stack of slot `i` is the processor `p`. -/
structure Saved (L : Layout) (i : Slot) (m : Mem) (a : ℕ) (p : Processor) : Prop where
  low : L.low i ≤ a
  room : L.low i + 192 ≤ p.rsp.toNat
  below : a + 176 ≤ p.rsp.toNat
  top : p.rsp.toNat ≤ L.top i
  proc : view L i (resume (readFrame m a) m) = p

/-- The current slot is on the processor, and every other slot that was ever filled has its
processor in the frame its stack pointer leads to. -/
structure Represents (L : Layout) (sys : System) (v : Virtual) : Prop where
  sched : v.sched = sys.sched
  contexts : ContextInv sys.sched
  stackBase : sys.sched.1.taskStacks = L.taskStacks
  onStack : OnStack L sys.sched.1.currentTask sys.cpu
  current : view L sys.sched.1.currentTask sys.cpu = v.proc sys.sched.1.currentTask
  saved : ∀ i, i ≠ sys.sched.1.currentTask → sys.sched.2.context i ≠ .unallocated →
    Saved L i sys.cpu.mem (sys.sched.1.tasks i).rsp.toNat (v.proc i)

theorem view_congr {L : Layout} {i : Slot} {c : Cpu} {m : Mem}
    (h : ∀ x, c.rsp.toNat ≤ x → x < L.top i → m x = c.mem x) :
    view L i { c with mem := m } = view L i c := by
  unfold view
  congr 1
  funext x
  dsimp only
  split
  · rename_i hx
    exact h x hx.1 hx.2
  · rfl

/-- A saved processor depends on the stack of its slot. -/
theorem Saved.congr {L : Layout} {i : Slot} {m m' : Mem} {a : ℕ} {p : Processor}
    (h : Saved L i m a p) (hm : ∀ x, L.Owns i x → m' x = m x) : Saved L i m' a p := by
  obtain ⟨hlow, hroom, hbelow, htop, rfl⟩ := h
  have hframe : readFrame m' a = readFrame m a :=
    readFrame_congr fun x h1 h2 => hm x ⟨hlow.trans h1, by
      exact lt_of_lt_of_le h2 (hbelow.trans htop)⟩
  refine ⟨hlow, hroom, hbelow, htop, ?_⟩
  rw [hframe]
  refine view_congr (c := resume (readFrame m a) m) fun x h1 h2 => hm x ⟨?_, h2⟩
  exact (Nat.le_add_right _ _).trans (hroom.trans h1)

/-- A saved processor that is left for is on the stack of its slot. -/
theorem Saved.onStack {L : Layout} {i : Slot} {m : Mem} {a : ℕ} {p : Processor}
    (h : Saved L i m a p) : OnStack L i (resume (readFrame m a) m) := by
  have hp : (resume (readFrame m a) m).rsp = p.rsp := by rw [← h.proc, view_rsp]
  unfold OnStack
  rw [hp]
  exact ⟨h.room, h.top⟩

/-- The frame an interrupt saves is the processor of the interrupted slot. -/
theorem saved_frame {L : Layout} {i : Slot} {c : Cpu} {m : Mem} {v : UInt8} (h : OnStack L i c)
    (hframe : readFrame m (framePos c) = frameOf v none c)
    (hm : ∀ x, c.rsp.toNat ≤ x → x < L.top i → m x = c.mem x) :
    Saved L i m (framePos c) (view L i c) where
  low := by
    have hlow := h.1
    unfold framePos
    omega
  room := h.1
  below := by
    have hlow := h.1
    show framePos c + 176 ≤ c.rsp.toNat
    unfold framePos
    omega
  top := h.2
  proc := by rw [hframe, resume_frameOf, view_congr hm]

/-! ## The frame of a new task -/

theorem toNat_stackTop {L : Layout} {s : State} {i : Slot} (hs : s.taskStacks = L.taskStacks) :
    (s.stackTop i).toNat = L.taskStacks.toNat + (i.val + 1) * 16384 := by
  have hfits := L.fits
  have hi := i.isLt
  simp only [State.stackTop, stackSize, hs, UInt64.toNat_add, UInt64.toNat_mul, UInt64.reduceToNat,
    UInt64.toNat_ofNat']
  omega

theorem toNat_frameAddr {L : Layout} {s : State} {i : Slot} (hs : s.taskStacks = L.taskStacks) :
    (s.frameAddr i).toNat + 176 = (s.stackTop i).toNat := by
  have htop := toNat_stackTop (i := i) hs
  have hle : sizeofInterruptFrame ≤ s.stackTop i := by
    rw [UInt64.le_iff_toNat_le, htop]
    simp only [sizeofInterruptFrame, UInt64.reduceToNat]
    omega
  rw [State.frameAddr, UInt64.toNat_sub_of_le _ _ hle]
  simp only [sizeofInterruptFrame, UInt64.reduceToNat] at hle ⊢
  omega

/-- The frame `create_task_internal` writes is that of a task that has not run. -/
theorem saved_fresh {L : Layout} {s : State} {i : Slot} (m : Mem) (hi : i ≠ 0)
    (hs : s.taskStacks = L.taskStacks) :
    Saved L i (writeFrame m (s.frameAddr i).toNat (freshFrame (initialFrame s i)))
      (s.frameAddr i).toNat (fresh s i) := by
  have htop := toNat_stackTop (i := i) hs
  have haddr := toNat_frameAddr (i := i) hs
  have hframe : readFrame (writeFrame m (s.frameAddr i).toNat (freshFrame (initialFrame s i)))
      (s.frameAddr i).toNat = freshFrame (initialFrame s i) :=
    holds_words_iff.mp (Mem.holds_storeWords _)
  have hlow : L.low i + 16384 = (s.stackTop i).toNat := by
    rw [htop, Layout.low, if_neg hi]
    omega
  have htop' : L.top i = (s.stackTop i).toNat := by
    rw [htop, Layout.top, if_neg hi]
  refine ⟨by omega, ?_, haddr.le, htop'.ge, ?_⟩
  · show L.low i + 192 ≤ (s.stackTop i).toNat
    omega
  · rw [hframe]
    unfold view fresh
    congr 1
    funext x
    rw [if_neg]
    rintro ⟨h1, h2⟩
    rw [htop'] at h2
    exact absurd h2 (not_lt.mpr h1)

/-- Writing the frame of one slot leaves the other stacks alone. -/
theorem writeFrame_of_ne {L : Layout} {s : State} {i j : Slot} {m : Mem} {f : InterruptFrame}
    (hi : i ≠ 0) (hs : s.taskStacks = L.taskStacks) (hij : i ≠ j) {x : ℕ} (hx : L.Owns j x) :
    writeFrame m (s.frameAddr i).toNat f x = m x := by
  have htop := toNat_stackTop (i := i) hs
  have haddr := toNat_frameAddr (i := i) hs
  apply Mem.storeWords_of_outside
  rw [length_words]
  by_contra hin
  refine L.owns_disjoint hij ⟨?_, ?_⟩ hx
  · rw [Layout.low, if_neg hi]
    omega
  · rw [Layout.top, if_neg hi]
    omega

/-! ## Steps keep the relation -/

section Steps

variable {L : Layout} {img : Image} {idt : Idt} {cpu : Cpu} {p q : State × History} {v : Virtual}
  {op : Op}

theorem OnStack.frameFits {i : Slot} {c : Cpu} (h : OnStack L i c) : FrameFits c := by
  have hlow := h.1
  unfold FrameFits
  rw [toNat_aligned]
  omega

/-- The stack of the current slot from the stack pointer up is its own. -/
theorem OnStack.owns {i : Slot} {c : Cpu} (h : OnStack L i c) {x : ℕ} (hx : c.rsp.toNat ≤ x)
    (htop : x < L.top i) : L.Owns i x :=
  ⟨(Nat.le_add_right _ _).trans (h.1.trans hx), htop⟩

theorem represents_exec {c : Cpu} (h : Represents L ⟨cpu, p⟩ v) (hstack : OnStack L p.1.currentTask c)
    (hmem : ∀ i x, i ≠ p.1.currentTask → L.Owns i x → c.mem x = cpu.mem x) :
    ∃ v', v.step L (.exec c) = some v' ∧ Represents L ⟨c, p⟩ v' := by
  have hsched : v.sched = p := h.sched
  refine ⟨_, rfl, ⟨h.sched, h.contexts, h.stackBase, hstack, ?_, fun i hi hc => ?_⟩⟩
  · simp only [hsched, Function.update_self]
  · dsimp only at hi
    simp only [hsched, Function.update_of_ne hi]
    exact (h.saved i hi hc).congr fun x hx => hmem i x hi hx

/-- A call that fills no slot keeps the stack pointers and the history. -/
theorem call_none (hstep : RecordedStep p op q) (hop : op.schedules = false)
    (hnone : allocates p.1 op = none) : SameContexts p.1 q.1 ∧ q.2 = p.2 := by
  obtain ⟨hs, hq⟩ := recordedStep_eq hstep
  by_cases hcreate : ∃ name entry, op = .createTask name entry
  · obtain ⟨name, entry, rfl⟩ := hcreate
    have hres : (createTask p.1 name entry).2 = none := hnone
    rcases createTask_cases p.1 name entry with hc | ⟨i, -, -, hsome, -⟩
    · have hq1 : q.1 = p.1 := by
        rw [← Option.some.inj hs, hc]
      refine ⟨hq1 ▸ SameContexts.refl p.1, ?_⟩
      rw [hq, History.record, hres]
    · rw [hres] at hsome
      cases hsome
  · push Not at hcreate
    exact ⟨(step_sameContexts hs hop hcreate).1,
      hq.trans (record_other hop hcreate (step_currentTask hs hop))⟩

/-- A call that fills slot `i` is a `create_task`, and only that slot's context changes. -/
theorem call_some {i : Slot} (hstep : RecordedStep p op q) (hsome : allocates p.1 op = some i) :
    i ≠ 0 ∧ q.1.taskStacks = p.1.taskStacks ∧ q.1.frames i = initialFrame q.1 i ∧
      (q.1.tasks i).rsp = q.1.frameAddr i ∧
      ∀ j, j ≠ i → (q.1.tasks j).rsp = (p.1.tasks j).rsp ∧ q.2.context j = p.2.context j := by
  obtain ⟨hs, hq⟩ := recordedStep_eq hstep
  cases op with
  | createTask name entry =>
    have hres : (createTask p.1 name entry).2 = some i := hsome
    have hq1 : q.1 = (createTask p.1 name entry).1 := (Option.some.inj hs).symm
    obtain ⟨hstk, hwrap, hframes⟩ := createTask_frames hres
    rcases createTask_cases p.1 name entry with hc | ⟨k, hk0, -, hk, hother, -, hrsp, -⟩
    · rw [hc] at hres
      cases hres
    obtain rfl : k = i := Option.some.inj (hk.symm.trans hres)
    rw [hq1] at hq ⊢
    refine ⟨hk0, hstk, ?_, ?_, fun j hj => ⟨by rw [hother j hj], ?_⟩⟩
    · rw [hframes, Function.update_self]
      simp only [initialFrame, State.stackTop, hstk, hwrap]
    · rw [hrsp]
      simp only [State.frameAddr, State.stackTop, hstk]
    · rw [hq, History.record, hres]
      exact Function.update_of_ne hj _ _
  | _ => cases hsome

theorem represents_call (h : Represents L ⟨cpu, p⟩ v) (hop : op.schedules = false)
    (hspare : SparesCurrent p op) (hstep : RecordedStep p op q) :
    ∃ v', v.step L (.call op) = some v' ∧
      Represents L ⟨{ cpu with mem := built p.1 op q.1 cpu.mem }, q⟩ v' := by
  have hsched : v.sched = p := h.sched
  have hvstep : recordedStep v.sched op = some q := hsched ▸ hstep
  have hctx := (step_contextInv h.contexts hspare hstep).1
  have hcur : q.1.currentTask = p.1.currentTask := step_currentTask (recordedStep_eq hstep).1 hop
  refine ⟨_, by rw [Virtual.step, hvstep]; rfl, ?_⟩
  rw [hsched]
  cases halloc : allocates p.1 op with
  | none =>
    obtain ⟨hsame, hhist⟩ := call_none hstep hop halloc
    refine ⟨rfl, hctx, hsame.taskStacks.trans h.stackBase, ?_, ?_, fun i hi hc => ?_⟩
    · rw [hcur]
      exact h.onStack
    · simp only [built, halloc, hcur]
      exact h.current
    · simp only [built, halloc, hsame.rsp]
      exact h.saved i (hcur ▸ hi) (hhist ▸ hc)
  | some k =>
    obtain ⟨hk0, hstk, hframe, hrsp, hother⟩ := call_some hstep halloc
    have hbase : q.1.taskStacks = L.taskStacks := hstk.trans h.stackBase
    have hkcur : k ≠ p.1.currentTask := fun hk => hspare (hk ▸ halloc)
    refine ⟨rfl, hctx, hbase, ?_, ?_, fun i hi hc => ?_⟩
    · rw [hcur]
      exact h.onStack
    · simp only [built, halloc, hcur, Function.update_of_ne hkcur.symm]
      rw [view_congr fun x h1 h2 =>
        writeFrame_of_ne hk0 hbase hkcur (h.onStack.owns (x := x) h1 h2)]
      exact h.current
    · simp only [built, halloc, hframe]
      by_cases hik : i = k
      · subst hik
        rw [Function.update_self, hrsp]
        exact saved_fresh cpu.mem hk0 hbase
      · obtain ⟨hirsp, hictx⟩ := hother i hik
        rw [Function.update_of_ne hik, hirsp]
        exact (h.saved i (hcur ▸ hi) (hictx ▸ hc)).congr fun x hx =>
          writeFrame_of_ne hk0 hbase (Ne.symm hik) hx

theorem stubOf_cases (op : Op) : stubOf op = .irq 0 ∨ stubOf op = .schedYield := by
  cases op <;> simp [stubOf]

theorem allocates_of_schedules {s : State} (hop : op.schedules = true) : allocates s op = none := by
  cases op with
  | createTask name entry => cases hop
  | _ => rfl

/-- The interrupt of a step leaves on the frame at the stack pointer the scheduler returned, and
of the stacks only the part below the saved frame may have changed. -/
theorem interrupt_schedules {callee : Dispatcher → Cpu → Cpu} {cpu' : Cpu} {s : State}
    (hon : OnStack L s.currentTask cpu)
    (hcallee : Dispatches L s op callee
      (atCall (stubOf op).vector ⟨0x28, img.addr (stubOf op)⟩ none cpu))
    (hcpu : interrupt img (idtInit img idt) callee (stubOf op).vector none cpu = some cpu')
    (htop : (returnedRsp s op).toNat + 176 ≤ 2 ^ 64) :
    ∃ m, cpu' = resume (readFrame m (returnedRsp s op).toNat) m ∧
      readFrame m (framePos cpu) = frameOf (stubOf op).vector none cpu ∧
      (∀ x, cpu.rsp.toNat ≤ x → x < L.top s.currentTask → m x = cpu.mem x) ∧
      ∀ i x, i ≠ s.currentTask → L.Owns i x → m x = cpu.mem x := by
  have herr : (none : Option UInt64).isSome = pushesErrorCode (stubOf op).vector := by
    rcases stubOf_cases op with h | h <;> rw [h] <;> decide
  have hdisp : (stubOf op).dispatcher ≠ .isrDispatch := by
    rcases stubOf_cases op with h | h <;> rw [h] <;> decide
  have hfits := hon.frameFits
  obtain ⟨-, hbelow, -⟩ := framePos_spec hfits
  have hlow := hon.1
  have hframe := atCall_frame (v := (stubOf op).vector) (g := ⟨0x28, img.addr (stubOf op)⟩)
    (e := none) hfits
  have hout := fun x => atCall_outside (v := (stubOf op).vector)
    (g := ⟨0x28, img.addr (stubOf op)⟩) (e := none) hfits (x := x)
  have hsp := atCall_rsp (v := (stubOf op).vector) (g := ⟨0x28, img.addr (stubOf op)⟩)
    (e := none) hfits
  rw [interrupt_eq img idt (stubOf op) herr cpu, Option.some.injEq] at hcpu
  generalize atCall (stubOf op).vector ⟨0x28, img.addr (stubOf op)⟩ none cpu = k at *
  obtain ⟨hrax, hmem⟩ := hcallee
  rw [hsp] at hmem
  refine ⟨(callee (stubOf op).dispatcher k).mem, ?_, ?_, fun x h1 h2 => ?_, fun i x hi hx => ?_⟩
  · rw [← hcpu, runCode_epilogue (stubOf op) _ (a := returnedRsp s op) (by rw [if_neg hdisp, hrax])
      htop]
  · rw [← hframe]
    refine readFrame_congr fun x h1 h2 => hmem s.currentTask x ⟨?_, ?_⟩ fun _ => h1
    · unfold framePos at h1
      omega
    · exact lt_of_lt_of_le h2 (hbelow.trans hon.2)
  · rw [hmem s.currentTask x (hon.owns h1 h2) fun _ => by omega, hout x (Or.inr (hbelow.trans h1))]
  · rw [hmem i x hx fun h => absurd h hi, hout x]
    -- The frame lies on the stack of the current slot, which shares no byte with another.
    by_contra hin
    refine L.owns_disjoint hi.symm ⟨?_, ?_⟩ hx
    · unfold framePos at hin
      omega
    · have htop' := hon.2
      omega

theorem represents_interrupt {callee : Dispatcher → Cpu → Cpu} {cpu' : Cpu}
    (h : Represents L ⟨cpu, p⟩ v) (hop : op.schedules = true)
    (hpos : op.currentRsp.toNat = framePos cpu) (hstep : RecordedStep p op q)
    (hcallee : Dispatches L p.1 op callee
      (atCall (stubOf op).vector ⟨0x28, img.addr (stubOf op)⟩ none cpu))
    (hcpu : interrupt img (idtInit img idt) callee (stubOf op).vector none cpu = some cpu') :
    ∃ v', v.step L (.interrupt op callee) = some v' ∧ Represents L ⟨cpu', q⟩ v' := by
  have hsched : v.sched = p := h.sched
  have hvstep : recordedStep v.sched op = some q := hsched ▸ hstep
  have hspare : SparesCurrent p op := by
    unfold SparesCurrent
    rw [allocates_of_schedules hop]
    exact Option.some_ne_none _ ∘ Eq.symm
  have hon : OnStack L p.1.currentTask cpu := h.onStack
  have hcurrent : view L p.1.currentTask cpu = v.proc p.1.currentTask := h.current
  have hle := (framePos_spec hon.frameFits).2.1
  have hcpulow := cpu.rsp.toNat_lt
  obtain ⟨hctx, hresumes⟩ := step_contextInv h.contexts hspare hstep
  obtain ⟨hs, hq⟩ := recordedStep_eq hstep
  obtain ⟨hstay, hswitch, hrsp, hbase⟩ := schedules_rsp h.contexts.inv.initialized hs hop
  rw [record_schedules hop h.contexts.executing] at hq
  refine ⟨{ v with sched := q }, by rw [Virtual.step, hvstep]; rfl, ?_⟩
  by_cases hcur : q.1.currentTask = p.1.currentTask
  · rw [if_pos hcur] at hq
    have hret : (returnedRsp p.1 op).toNat = framePos cpu := by rw [hstay hcur, hpos]
    obtain ⟨m, rfl, hframe, hown, hother⟩ := interrupt_schedules hon hcallee hcpu (by omega)
    rw [hret, hframe, resume_frameOf]
    refine ⟨rfl, hctx, hbase.trans h.stackBase, ?_, ?_, fun i hi hc => ?_⟩
    · rw [hcur]
      exact hon
    · rw [hcur, view_congr hown]
      exact hcurrent
    · dsimp only at hi hc ⊢
      rw [hcur] at hi
      rw [hq] at hc
      rw [hrsp i hi]
      exact (h.saved i hi hc).congr fun x hx => hother i x hi hx
  · rw [if_neg hcur] at hq
    obtain ⟨hret, hsaved⟩ := hswitch hcur
    have hc : p.2.context q.1.currentTask ≠ .unallocated := by
      intro hc
      have hr := hresumes hop hcur
      rw [hc] at hr
      exact hr
    have hto := h.saved q.1.currentTask hcur hc
    dsimp only at hto
    rw [← hret] at hto
    have hbelow : (returnedRsp p.1 op).toNat + 176 ≤ (v.proc q.1.currentTask).rsp.toNat := hto.below
    have htop := (v.proc q.1.currentTask).rsp.toNat_lt
    obtain ⟨m, rfl, hframe, hown, hother⟩ := interrupt_schedules hon hcallee hcpu (by omega)
    have hto' := hto.congr fun x hx => hother _ x hcur hx
    refine ⟨rfl, hctx, hbase.trans h.stackBase, ?_, hto'.proc, fun i hi hci => ?_⟩
    · exact hto'.onStack
    · dsimp only at hi hci ⊢
      by_cases hip : i = p.1.currentTask
      · subst hip
        rw [hsaved, hpos, ← hcurrent]
        exact saved_frame hon hframe hown
      · rw [hq] at hci
        simp only [Function.update_of_ne hi, Function.update_of_ne hip] at hci
        rw [hrsp i hip]
        exact (h.saved i hip hci).congr fun x hx => hother i x hip hx

/-- Every step of the kernel is the same step of the separate processors. -/
theorem represents_step {sys sys' : System} {e : Event} (h : Represents L sys v)
    (hstep : KernelStep L img idt sys e sys') (hspare : SparesExecuting sys e) :
    ∃ v', v.step L e = some v' ∧ Represents L sys' v' := by
  cases hstep with
  | exec hstack hmem => exact represents_exec h hstack hmem
  | call hop hstep => exact represents_call h hop hspare hstep
  | interrupt hop hpos hstep hcallee hcpu => exact represents_interrupt h hop hpos hstep hcallee hcpu

end Steps

/-! ## Runs -/

/-- After `Scheduler::init`: the kernel goes on, and the idle task has its frame on its stack. -/
def bootSystem (c : Cpu) (s0 : State) : System where
  cpu :=
    { c with
      mem := writeFrame c.mem ((init s0).frameAddr (init s0).idleTaskId).toNat
        (freshFrame ((init s0).frames (init s0).idleTaskId)) }
  sched := recordedInit s0

def bootVirtual (L : Layout) (c : Cpu) (s0 : State) : Virtual where
  sched := recordedInit s0
  proc i := if i = 0 then view L 0 c else fresh (init s0) i

theorem represents_boot {L : Layout} {c : Cpu} {s0 : State}
    (hbase : (init s0).taskStacks = L.taskStacks) (hon : OnStack L 0 c) :
    Represents L (bootSystem c s0) (bootVirtual L c s0) := by
  obtain ⟨-, hcur, hne, -, -, hrsp, -, hframe, -⟩ := init_spec s0
  have hcur' : (bootSystem c s0).sched.1.currentTask = 0 := hcur
  have hkept : ∀ x, c.rsp.toNat ≤ x → x < L.top 0 →
      writeFrame c.mem ((init s0).frameAddr (init s0).idleTaskId).toNat
        (freshFrame ((init s0).frames (init s0).idleTaskId)) x = c.mem x :=
    fun x h1 h2 => writeFrame_of_ne hne hbase hne (hon.owns h1 h2)
  refine ⟨rfl, start_contextInv s0, hbase, ?_, ?_, fun i hi hc => ?_⟩
  · rw [hcur']
    simpa only [OnStack, bootSystem] using hon
  · rw [hcur']
    simp only [bootVirtual, if_true]
    exact view_congr hkept
  · rw [hcur'] at hi
    have hidle : i = (init s0).idleTaskId := by
      by_contra hid
      refine hc ?_
      show (History.start (init s0)).context i = .unallocated
      simp only [History.start, if_neg hi, if_neg hid]
    subst hidle
    have hs := saved_fresh c.mem hne hbase
    rw [← hframe, ← hrsp] at hs
    simpa only [bootVirtual, if_neg hne, bootSystem, recordedInit, hrsp] using hs

abbrev VirtualStep (L : Layout) (v : Virtual) (e : Event) (v' : Virtual) : Prop :=
  v.step L e = some v'

/-- A dispatcher that does nothing but return `r`. -/
def plainDispatch (r : UInt64) : Dispatcher → Cpu → Cpu :=
  fun _ k => { k with regs := Function.update k.regs .rax r }

/-- A tick or a yield can be taken wherever the stack pointer is that of its frame. -/
theorem exists_interrupt {L : Layout} {cpu : Cpu} {p q : State × History} {v : Virtual} {op : Op}
    (img : Image) (idt : Idt) (h : Represents L ⟨cpu, p⟩ v) (hop : op.schedules = true)
    (hpos : op.currentRsp.toNat = framePos cpu) (hstep : RecordedStep p op q) :
    ∃ cpu', KernelStep L img idt ⟨cpu, p⟩ (.interrupt op (plainDispatch (returnedRsp p.1 op)))
        ⟨cpu', q⟩ ∧ Represents L ⟨cpu', q⟩ { v with sched := q } := by
  have herr : (none : Option UInt64).isSome = pushesErrorCode (stubOf op).vector := by
    rcases stubOf_cases op with hs | hs <;> rw [hs] <;> decide
  have hcallee : ∀ k, Dispatches L p.1 op (plainDispatch (returnedRsp p.1 op)) k := by
    refine fun k => ⟨?_, fun _ _ _ _ => rfl⟩
    simp only [plainDispatch, Function.update_self]
  have hk := KernelStep.interrupt (L := L) hop hpos hstep (hcallee _)
    (interrupt_eq img idt (stubOf op) herr cpu)
  obtain ⟨v', hv', hrep⟩ := represents_step h hk trivial
  have hsched : v.sched = p := h.sched
  rw [Virtual.step, hsched, hstep] at hv'
  cases hv'
  exact ⟨_, hk, hrep⟩

/-- The stubs and the scheduler on one processor and one memory refine a machine with a processor
for every slot: whatever run the kernel makes, as long as no new task is put in the place of the
executing one, the separate processors make it too, and they end with the registers and stacks the
kernel has, on the processor or in the saved frames. -/
theorem kernel_refines_processors (L : Layout) (img : Image) (idt : Idt) (c : Cpu) (s0 : State)
    (es : List Event) (sys : System) (hbase : (init s0).taskStacks = L.taskStacks)
    (hon : OnStack L 0 c)
    (hrun : Run (Where SparesExecuting (KernelStep L img idt)) (bootSystem c s0) es sys) :
    ∃ v, Run (VirtualStep L) (bootVirtual L c s0) es v ∧ Represents L sys v := by
  induction hrun with
  | nil => exact ⟨_, Run.nil _, represents_boot hbase hon⟩
  | snoc _ hstep ih =>
    obtain ⟨v, hv, hrep⟩ := ih
    obtain ⟨v', hv', hrep'⟩ := represents_step hrep hstep.2 hstep.1
    exact ⟨v', hv.snoc hv', hrep'⟩

def sampleLayout : Layout where
  taskStacks := 0x100000
  bootLow := 0x8000
  bootTop := 0x9000
  fits := by decide
  apart := by decide

/-- The kernel creates a task, which gets slot 2. -/
def createOp : Op := .createTask (some [97]) 0x3000

def createdSched : State × History :=
  (recordedStep (recordedInit Scheduler.sampleImage) createOp).get (by decide +kernel)

/-- The kernel yields to it. -/
def yieldedSched : State × History :=
  (recordedStep createdSched (.yield 0x8F50)).get (by decide +kernel)

/-- A tick comes while the task runs. -/
def tickedSched : State × History :=
  (recordedStep yieldedSched (.timerTick 1 0x10BF40)).get (by decide +kernel)

/-- The task yields. -/
def returnedSched : State × History :=
  (recordedStep tickedSched (.yield 0x10BF40)).get (by decide +kernel)

def createdVirtual : Virtual where
  sched := createdSched
  proc := Function.update (bootVirtual sampleLayout sampleCpu Scheduler.sampleImage).proc 2
    (fresh createdSched.1 2)

/-- The kernel creates a task and yields to it. -/
theorem sample_runs : ∃ p q : System,
    Run (Where SparesExecuting (KernelStep sampleLayout sampleImage emptyIdt))
      (bootSystem sampleCpu Scheduler.sampleImage) [.call createOp] p ∧
    KernelStep sampleLayout sampleImage emptyIdt p
      (.interrupt (.yield 0x8F50) (plainDispatch (returnedRsp createdSched.1 (.yield 0x8F50)))) q ∧
    p.sched = createdSched ∧ q.sched = yieldedSched ∧
    Represents sampleLayout q { createdVirtual with sched := yieldedSched } := by
  have hboot : Represents sampleLayout (bootSystem sampleCpu Scheduler.sampleImage)
      (bootVirtual sampleLayout sampleCpu Scheduler.sampleImage) :=
    represents_boot (by decide +kernel) (by decide +kernel)
  have hcreate : RecordedStep (recordedInit Scheduler.sampleImage) createOp createdSched :=
    (Option.some_get _).symm
  have hspare : SparesCurrent (recordedInit Scheduler.sampleImage) createOp := by decide +kernel
  have hcall : KernelStep sampleLayout sampleImage emptyIdt
      (bootSystem sampleCpu Scheduler.sampleImage) (.call createOp) _ :=
    KernelStep.call rfl hcreate
  have hfills : allocates (recordedInit Scheduler.sampleImage).1 createOp = some 2 := by
    decide +kernel
  obtain ⟨v, hv, hrep⟩ := represents_step hboot hcall hspare
  have hv1 : v = createdVirtual := by
    refine Option.some.inj (hv.symm.trans ?_)
    rw [Virtual.step, show (bootVirtual sampleLayout sampleCpu Scheduler.sampleImage).sched =
      recordedInit Scheduler.sampleImage from rfl, hcreate, Option.map_some, hfills]
    rfl
  subst hv1
  have hyield : RecordedStep createdSched (.yield 0x8F50) yieldedSched := (Option.some_get _).symm
  obtain ⟨cpu, hstep, hq⟩ := exists_interrupt sampleImage emptyIdt hrep rfl
    (by decide +kernel) hyield
  exact ⟨_, _, Run.single ⟨hspare, hcall⟩, hstep, rfl, rfl, hq⟩

theorem kernel_refines_processors_yield : ∃ (sys : System) (v : Virtual),
    sys.sched.1.currentTask = 2 ∧
      Run (VirtualStep sampleLayout) (bootVirtual sampleLayout sampleCpu Scheduler.sampleImage)
        [.call createOp, .interrupt (.yield 0x8F50)
          (plainDispatch (returnedRsp createdSched.1 (.yield 0x8F50)))] v ∧
      Represents sampleLayout sys v := by
  obtain ⟨p, q, hrun, hstep, -, hq, -⟩ := sample_runs
  have hyield : SparesExecuting p (.interrupt (.yield 0x8F50)
      (plainDispatch (returnedRsp createdSched.1 (.yield 0x8F50)))) := trivial
  obtain ⟨v, hv, hrep⟩ := kernel_refines_processors sampleLayout sampleImage _ sampleCpu
    Scheduler.sampleImage _ q (by decide +kernel) (by decide +kernel)
    (hrun.snoc ⟨hyield, hstep⟩)
  exact ⟨q, v, by rw [hq]; decide +kernel, hv, hrep⟩

/-- The slot an event fills with a new task. -/
def Event.fills (s : State) : Event → Option Slot
  | .call op => allocates s op
  | _ => none

/-- A slot that is not executing keeps its processor until a new task is put there. -/
theorem virtual_step_proc {L : Layout} {v v' : Virtual} {e : Event} {i : Slot}
    (h : v.step L e = some v') (hi : i ≠ v.sched.1.currentTask)
    (hfill : e.fills v.sched.1 ≠ some i) : v'.proc i = v.proc i := by
  cases e with
  | exec c =>
    obtain rfl : _ = v' := Option.some.inj h
    exact Function.update_of_ne hi _ _
  | call op =>
    obtain ⟨q, -, rfl⟩ := Option.map_eq_some_iff.mp h
    dsimp only
    cases halloc : allocates v.sched.1 op with
    | none => rfl
    | some k =>
      have hik : i ≠ k := by
        rintro rfl
        exact hfill halloc
      exact Function.update_of_ne hik _ _
  | interrupt op callee =>
    obtain ⟨q, -, rfl⟩ := Option.map_eq_some_iff.mp h
    rfl

/-- Only an interrupt changes the current slot. -/
theorem fills_of_switch {L : Layout} {img : Image} {idt : Idt} {sys sys' : System} {e : Event}
    (h : KernelStep L img idt sys e sys')
    (hne : sys'.sched.1.currentTask ≠ sys.sched.1.currentTask) :
    e.fills sys.sched.1 = none ∧ SparesExecuting sys e := by
  cases h with
  | exec hstack hmem => exact absurd rfl hne
  | call hop hstep => exact absurd (step_currentTask (recordedStep_eq hstep).1 hop) hne
  | interrupt hop hpos hstep hcallee hcpu => exact ⟨rfl, trivial⟩

/-- A task that was switched out finds, when its slot is switched to again, all its registers,
its flags and its stack as they were, whatever ran in between, as long as no new task was put in
its place or in that of the task executing at the time. -/
theorem task_goes_on (L : Layout) (img : Image) (idt : Idt) (c : Cpu) (s0 : State)
    (es away : List Event) (p q r r' : System) (out back : Event)
    (hbase : (init s0).taskStacks = L.taskStacks) (hon : OnStack L 0 c)
    (hrun : Run (Where SparesExecuting (KernelStep L img idt)) (bootSystem c s0) es p)
    (hout : KernelStep L img idt p out q)
    (hleft : q.sched.1.currentTask ≠ p.sched.1.currentTask)
    (haway : Run (Where (fun s e => s.sched.1.currentTask ≠ p.sched.1.currentTask ∧
      e.fills s.sched.1 ≠ some p.sched.1.currentTask ∧ SparesExecuting s e)
      (KernelStep L img idt)) q away r)
    (hr : r.sched.1.currentTask ≠ p.sched.1.currentTask) (hback : KernelStep L img idt r back r')
    (hthere : r'.sched.1.currentTask = p.sched.1.currentTask) :
    view L p.sched.1.currentTask r'.cpu = view L p.sched.1.currentTask p.cpu := by
  -- The processor of the slot, from the switch out to the switch back.
  let kept (s : System) : Prop := ∃ v, Represents L s v ∧
    v.proc p.sched.1.currentTask = view L p.sched.1.currentTask p.cpu
  have hstep : ∀ s e s', kept s → s.sched.1.currentTask ≠ p.sched.1.currentTask →
      e.fills s.sched.1 ≠ some p.sched.1.currentTask → SparesExecuting s e →
      KernelStep L img idt s e s' → kept s' := by
    rintro s e s' ⟨v, hv, hproc⟩ hne hfill hspare hs
    obtain ⟨v', hv', hrep⟩ := represents_step hv hs hspare
    rw [← hv.sched] at hne hfill
    exact ⟨v', hrep, (virtual_step_proc hv' hne.symm hfill).trans hproc⟩
  obtain ⟨v, hv⟩ : ∃ v, Represents L p v := by
    refine hrun.invariant (fun s => ∃ v, Represents L s v) ⟨_, represents_boot hbase hon⟩ ?_
    rintro a e b ⟨v, hv⟩ ⟨hspare, hs⟩
    obtain ⟨v', -, hrep⟩ := represents_step hv hs hspare
    exact ⟨v', hrep⟩
  have hq : kept q := by
    obtain ⟨v', hv', hrep⟩ := represents_step hv hout (fills_of_switch hout hleft).2
    refine ⟨v', hrep, ?_⟩
    rw [hv.current]
    cases hout with
    | exec hstack hmem => exact absurd rfl hleft
    | call hop hs => exact absurd (step_currentTask (recordedStep_eq hs).1 hop) hleft
    | interrupt hop hpos hs hcallee hcpu =>
      obtain ⟨w, -, rfl⟩ := Option.map_eq_some_iff.mp hv'
      rfl
  have hr' : kept r := haway.invariant kept hq fun a e b ha hs =>
    hstep a e b ha hs.1.1 hs.1.2.1 hs.1.2.2 hs.2
  obtain ⟨hfill, hspare⟩ := fills_of_switch hback (hthere.trans_ne hr.symm)
  have hnone : back.fills r.sched.1 ≠ some p.sched.1.currentTask := by
    rw [hfill]
    exact Option.some_ne_none _ ∘ Eq.symm
  obtain ⟨v, hv, hproc⟩ := hstep r back r' hr' hr hnone hspare hback
  have hcurrent := hv.current
  rw [hthere, hproc] at hcurrent
  exact hcurrent

/-- The task leaves a word on its stack. -/
def wroteCpu (cpu : Cpu) : Cpu :=
  { cpu with rsp := 0x10BFF0, mem := Function.update cpu.mem 0x10BFF0 7 }

/-- The kernel creates a task and yields to it; the task runs, is ticked and yields. -/
theorem task_goes_on_yield : ∃ (p q r r' : System) (away : List Event),
    p.sched.1.currentTask = 0 ∧ q.sched.1.currentTask = 2 ∧ r'.sched.1.currentTask = 0 ∧
      Run (KernelStep sampleLayout sampleImage emptyIdt) q away r ∧ away.length = 2 ∧
      view sampleLayout 0 r'.cpu = view sampleLayout 0 p.cpu := by
  obtain ⟨p, q, hrun, hstep, hp, hq, hrep⟩ := sample_runs
  obtain ⟨cpu, sched⟩ := q
  dsimp only at hq
  subst hq
  have hp0 : p.sched.1.currentTask = 0 := by rw [hp]; decide +kernel
  have hq2 : yieldedSched.1.currentTask = 2 := by decide +kernel
  have ht2 : tickedSched.1.currentTask = 2 := by decide +kernel
  have hr0 : returnedSched.1.currentTask = 0 := by decide +kernel
  have hwrote : KernelStep sampleLayout sampleImage emptyIdt ⟨cpu, yieldedSched⟩
      (.exec (wroteCpu cpu)) ⟨wroteCpu cpu, yieldedSched⟩ := by
    refine KernelStep.exec ?_ fun i x hi hx => Function.update_of_ne ?_ _ _
    · rw [hq2]
      exact (by decide +kernel : sampleLayout.low 2 + 192 ≤ 0x10BFF0 ∧
        0x10BFF0 ≤ sampleLayout.top 2)
    · rintro rfl
      rw [hq2] at hi
      exact sampleLayout.owns_disjoint hi hx (by decide +kernel)
  obtain ⟨v, -, hv⟩ := represents_step hrep hwrote trivial
  have hpos : ∀ c : Cpu, c.rsp = 0x10BFF0 → (0x10BF40 : UInt64).toNat = framePos c := by
    intro c hc
    unfold framePos
    rw [hc]
    decide +kernel
  have htick : RecordedStep yieldedSched (.timerTick 1 0x10BF40) tickedSched :=
    (Option.some_get _).symm
  obtain ⟨cpu', hticked, ht⟩ := exists_interrupt sampleImage emptyIdt hv rfl
    (by exact hpos (wroteCpu cpu) rfl) htick
  -- The tick lets the task go on where it was.
  have hrsp : cpu'.rsp = 0x10BFF0 := by
    have hnow := ht.current
    have hthen := hv.current
    dsimp only at hnow hthen
    rw [ht2] at hnow
    rw [hq2] at hthen
    exact congrArg Processor.rsp (hnow.trans hthen.symm)
  have hret : RecordedStep tickedSched (.yield 0x10BF40) returnedSched := (Option.some_get _).symm
  obtain ⟨cpu'', hback, -⟩ := exists_interrupt sampleImage emptyIdt ht rfl
    (by exact hpos cpu' hrsp) hret
  have haway : Run (Where (fun s e => s.sched.1.currentTask ≠ p.sched.1.currentTask ∧
      e.fills s.sched.1 ≠ some p.sched.1.currentTask ∧ SparesExecuting s e)
      (KernelStep sampleLayout sampleImage emptyIdt)) ⟨cpu, yieldedSched⟩
      [.exec (wroteCpu cpu), .interrupt (.timerTick 1 0x10BF40)
        (plainDispatch (returnedRsp yieldedSched.1 (.timerTick 1 0x10BF40)))]
      ⟨cpu', tickedSched⟩ := by
    rw [hp0]
    have hne : yieldedSched.1.currentTask ≠ 0 := hq2.trans_ne (by decide)
    have hnone : (none : Option Slot) ≠ some 0 := by decide
    exact (Run.single ⟨⟨hne, hnone, trivial⟩, hwrote⟩).snoc ⟨⟨hne, hnone, trivial⟩, hticked⟩
  refine ⟨p, ⟨cpu, yieldedSched⟩, ⟨cpu', tickedSched⟩, ⟨cpu'', returnedSched⟩, _, hp0, hq2, hr0,
    haway.of_where, rfl, ?_⟩
  have hgoes := task_goes_on sampleLayout sampleImage _ sampleCpu Scheduler.sampleImage _ _ p _ _ _ _ _
    (by decide +kernel) (by decide +kernel) hrun hstep (by rw [hp0]; exact hq2.trans_ne (by decide))
    haway (by rw [hp0]; exact ht2.trans_ne (by decide)) hback (by rw [hp0]; exact hr0)
  rwa [hp0] at hgoes

end QuillOS.Interrupts
