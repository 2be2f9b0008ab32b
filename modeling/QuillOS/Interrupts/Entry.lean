import Mathlib.Tactic.Common
import QuillOS.Interrupts.Model

/-!
# What the stubs do

Whatever the vector, the dispatcher is called on an aligned stack with an `InterruptFrame` of the
interrupted state, and a stub that is left on the address of a frame loads all of that frame.
-/

namespace QuillOS.Interrupts

open Lib

/-! ## Gates -/

/-- The three parts of an address put together again. -/
theorem offset_parts (a : UInt64) :
    (a &&& 0xFFFF).toUInt16.toUInt64 ||| ((a >>> 16) &&& 0xFFFF).toUInt16.toUInt64 <<< 16 |||
      ((a >>> 32) &&& 0xFFFFFFFF).toUInt32.toUInt64 <<< 32 = a := by
  have ha := a.toNat_lt
  have h16 : ∀ x, x &&& 65535 = x % 2 ^ 16 := fun x => Nat.and_two_pow_sub_one_eq_mod x 16
  have h32 : ∀ x, x &&& 4294967295 = x % 2 ^ 32 := fun x => Nat.and_two_pow_sub_one_eq_mod x 32
  have hlow : (a &&& 0xFFFF).toUInt16.toUInt64.toNat = a.toNat % 2 ^ 16 := by
    simp [h16]
  have hmid : (((a >>> 16) &&& 0xFFFF).toUInt16.toUInt64 <<< 16).toNat =
      2 ^ 16 * (a.toNat / 2 ^ 16 % 2 ^ 16) := by
    simp [h16, Nat.shiftRight_eq_div_pow, Nat.shiftLeft_eq]
    omega
  have hhigh : (((a >>> 32) &&& 0xFFFFFFFF).toUInt32.toUInt64 <<< 32).toNat =
      2 ^ 32 * (a.toNat / 2 ^ 32) := by
    simp [h32, Nat.shiftRight_eq_div_pow, Nat.shiftLeft_eq]
    omega
  apply UInt64.toNat_inj.mp
  rw [UInt64.toNat_or, UInt64.toNat_or, hlow, hmid, hhigh, Nat.or_comm (_ % _),
    ← Nat.two_pow_add_eq_or_of_lt (Nat.mod_lt _ (by decide)), Nat.or_comm,
    ← Nat.two_pow_add_eq_or_of_lt (by omega)]
  omega

theorem gate_setIdtEntry (idt : Idt) (num v : UInt8) (handler : UInt64) :
    (setIdtEntry idt num handler 0x8E v).gate =
      if v = num then some ⟨0x28, handler⟩ else (idt v).gate := by
  unfold setIdtEntry
  rw [Function.update_apply]
  split
  · unfold IDTEntry.gate
    dsimp only
    rw [if_pos (by decide), offset_parts]
  · rfl

/-- A loop that fills the gates of `n` vectors from `base` on. -/
theorem gate_foldl (idt : Idt) (num : ℕ → UInt8) (handler : ℕ → UInt64) (base n : ℕ) (v : UInt8)
    (hnum : ∀ i < n, (num i).toNat = base + i) :
    ((List.range n).foldl (fun idt i => setIdtEntry idt (num i) (handler i) 0x8E) idt v).gate =
      if base ≤ v.toNat ∧ v.toNat < base + n then some ⟨0x28, handler (v.toNat - base)⟩
      else (idt v).gate := by
  induction n with
  | zero => rw [if_neg (by omega)]; rfl
  | succ n ih =>
    have hn := hnum n (Nat.lt_succ_self n)
    rw [List.range_succ, List.foldl_append, List.foldl_cons, List.foldl_nil, gate_setIdtEntry,
      ih fun i hi => hnum i (Nat.lt_succ_of_lt hi)]
    by_cases hv : v = num n
    · rw [if_pos hv, if_pos (by rw [hv]; omega), hv, hn, Nat.add_sub_cancel_left]
    · have hne : v.toNat ≠ base + n := fun h => hv (UInt8.toNat_inj.mp (h.trans hn.symm))
      rw [if_neg hv]
      congr 1
      exact propext ⟨by omega, by omega⟩

/-- `idt_init` leads every vector it installs to its own stub. -/
theorem gate_idtInit (img : Image) (idt : Idt) (s : Stub) :
    (idtInit img idt s.vector).gate = some ⟨0x28, img.addr s⟩ := by
  have hisr : ∀ i < 32, (UInt8.ofNat i).toNat = 0 + i := by decide
  have hirq : ∀ i < 16, (UInt8.ofNat (32 + i)).toNat = 32 + i := by decide
  unfold idtInit
  rw [gate_setIdtEntry, gate_foldl _ _ _ 32 16 _ hirq, gate_foldl _ _ _ 0 32 _ hisr]
  cases s with
  | isr n =>
    have hv : (Stub.isr n).vector.toNat = n.val := (hisr n.val n.isLt).trans (Nat.zero_add _)
    have hne : (Stub.isr n).vector ≠ 0x80 := by
      intro h
      rw [h] at hv
      exact absurd hv (by simp; omega)
    rw [if_neg hne, hv, if_neg (by omega), if_pos (by omega)]
    have htable : ∀ n : Fin 32, isrStubTable.getD n.val .schedYield = .isr n := by decide
    rw [Nat.sub_zero, htable]
  | irq n =>
    have hv : (Stub.irq n).vector.toNat = 32 + n.val := hirq n.val n.isLt
    have hne : (Stub.irq n).vector ≠ 0x80 := by
      intro h
      rw [h] at hv
      exact absurd hv (by simp; omega)
    rw [if_neg hne, hv, if_pos (by omega)]
    have htable : ∀ n : Fin 16, isrStubTable.getD (32 + n.val) .schedYield = .irq n := by decide
    rw [Nat.add_sub_cancel_left, htable]
  | schedYield => exact if_pos rfl

/-! ## Frames in memory -/

/-- The registers in the order they are pushed. -/
def savedRegs : List Reg :=
  [.rax, .rbx, .rcx, .rdx, .rsi, .rdi, .rbp, .r8, .r9, .r10, .r11, .r12, .r13, .r14, .r15]

theorem mem_savedRegs (r : Reg) : r ∈ savedRegs := by
  cases r <;> decide

/-- The words of a frame, from its address up. -/
def InterruptFrame.words (f : InterruptFrame) : List UInt64 :=
  savedRegs.reverse.map f.gp ++ [f.intNo, f.errorCode, f.rip, f.cs, f.rflags, f.rsp, f.ss]

theorem words_eq (f : InterruptFrame) : f.words =
    [f.gp .r15, f.gp .r14, f.gp .r13, f.gp .r12, f.gp .r11, f.gp .r10, f.gp .r9, f.gp .r8,
      f.gp .rbp, f.gp .rdi, f.gp .rsi, f.gp .rdx, f.gp .rcx, f.gp .rbx, f.gp .rax, f.intNo,
      f.errorCode, f.rip, f.cs, f.rflags, f.rsp, f.ss] := rfl

theorem holds_words_iff {m : Mem} {a : ℕ} {f : InterruptFrame} :
    m.Holds a f.words ↔ readFrame m a = f := by
  simp only [words_eq, Mem.Holds, Nat.add_assoc, Nat.reduceAdd, and_true]
  constructor
  · rintro ⟨h15, h14, h13, h12, h11, h10, h9, h8, hbp, hdi, hsi, hdx, hcx, hbx, hax, hint, herr,
      hip, hcs, hfl, hsp, hss⟩
    have hgp : (fun r => m.word (a + gpOffset r)) = f.gp := by
      funext r
      cases r
      exacts [hax, hbx, hcx, hdx, hsi, hdi, hbp, h8, h9, h10, h11, h12, h13, h14, h15]
    unfold readFrame
    rw [hgp, hint, herr, hip, hcs, hfl, hsp, hss]
  · rintro rfl
    simp only [readFrame, gpOffset, Nat.add_zero, and_self]

theorem length_words (f : InterruptFrame) : f.words.length = 22 := rfl

theorem readFrame_congr {m m' : Mem} {a : ℕ} (h : ∀ x, a ≤ x → x < a + 176 → m' x = m x) :
    readFrame m' a = readFrame m a :=
  holds_words_iff.mp ((holds_words_iff.mpr rfl).congr h)

/-! ## Code -/

variable {callee : Dispatcher → Cpu → Cpu}

theorem runCode_append (as bs : List Instr) (c : Cpu) :
    runCode callee (as ++ bs) c = runCode callee bs (runCode callee as c) :=
  List.foldl_append

theorem runCode_nil (c : Cpu) : runCode callee [] c = c := rfl

theorem runCode_cons (i : Instr) (code : List Instr) (c : Cpu) :
    runCode callee (i :: code) c = runCode callee code (i.step callee c) := rfl

theorem runCode_push (rs : List Reg) (c : Cpu) :
    runCode callee (rs.map .push) c = { c with toCore := c.toCore.pushes rs } := by
  induction rs generalizing c with
  | nil => rfl
  | cons r rs ih => rw [List.map_cons, runCode_cons, ih]; rfl

theorem runCode_pop (rs : List Reg) (c : Cpu) :
    runCode callee (rs.map .pop) c = { c with toCore := c.toCore.pops rs } := by
  induction rs generalizing c with
  | nil => rfl
  | cons r rs ih => rw [List.map_cons, runCode_cons, ih]; rfl

/-! ## Up to the call -/

/-- Who a stub calls. -/
def Stub.dispatcher : Stub → Dispatcher
  | .isr _ => .isrDispatch
  | .irq _ => .irqDispatch
  | .schedYield => .schedYieldDispatch

/-- The words a stub pushes below what the processor pushed. -/
def Stub.numbers (s : Stub) : List Instr :=
  if pushesErrorCode s.vector then [.pushQword s.vector.toUInt64]
  else [.pushQword 0, .pushQword s.vector.toUInt64]

/-- What a stub executes after its dispatcher has returned. -/
def Stub.epilogue : Stub → List Instr
  | .isr _ => restoreRegs ++ leave
  | _ => .movRspRax :: (restoreRegs ++ leave)

/-- The exceptions the stubs treat as having an error code are those that have one. -/
theorem Stub.code_eq (s : Stub) :
    s.code = s.numbers ++ saveRegs ++ [.cld, .movRdiRsp, .call s.dispatcher] ++ s.epilogue := by
  cases s with
  | isr n => decide +revert
  | irq n => decide +revert
  | schedYield => rfl

/-- The stack when the dispatcher is called, over the aligned stack of the interrupted code. -/
@[irreducible] def savedCore (v : UInt8) (err : Option UInt64) (c : Cpu) : Core Reg :=
  let k : Core Reg := { c.toCore with rsp := c.rsp &&& ~~~0xF }
  let k := ((((k.push c.ss.toUInt64).push c.rsp).push c.rflags).push c.cs.toUInt64).push c.rip
  ((k.push (err.getD 0)).push v.toUInt64).pushes savedRegs

/-- The state in which the dispatcher is called. -/
def atCall (v : UInt8) (g : Gate) (err : Option UInt64) (c : Cpu) : Cpu where
  toCore :=
    { savedCore v err c with
      regs := Function.update (savedCore v err c).regs .rdi (savedCore v err c).rsp }
  rip := g.offset
  cs := g.selector
  rflags := (c.rflags &&& ~~~gateFlags) &&& ~~~directionFlag
  ss := c.ss

/-- The frame of an interrupted state. -/
def frameOf (v : UInt8) (err : Option UInt64) (c : Cpu) : InterruptFrame where
  gp := c.regs
  intNo := v.toUInt64
  errorCode := err.getD 0
  rip := c.rip
  cs := c.cs.toUInt64
  rflags := c.rflags
  rsp := c.rsp
  ss := c.ss.toUInt64

/-- An interrupt calls the dispatcher of its stub in `atCall`, and then leaves. -/
theorem interrupt_eq (img : Image) (idt : Idt) (s : Stub) {err : Option UInt64}
    (herr : err.isSome = pushesErrorCode s.vector) (c : Cpu) :
    interrupt img (idtInit img idt) callee s.vector err c =
      some (runCode callee s.epilogue
        (callee s.dispatcher (atCall s.vector ⟨0x28, img.addr s⟩ err c))) := by
  have hnum : runCode callee s.numbers (enter ⟨0x28, img.addr s⟩ err c) =
      { enter ⟨0x28, img.addr s⟩ none c with
        toCore := ((enter ⟨0x28, img.addr s⟩ none c).toCore.push (err.getD 0)).push
          s.vector.toUInt64 } := by
    unfold Stub.numbers
    rw [← herr]
    cases err <;> rfl
  unfold interrupt
  rw [gate_idtInit, Option.map_some, img.code_addr, s.code_eq, runCode_append, runCode_append,
    runCode_append, hnum, show saveRegs = savedRegs.map .push from rfl, runCode_push]
  simp only [runCode_cons, runCode_nil, Instr.step, enter, atCall, savedCore]

/-- What was pushed when the dispatcher is called. -/
theorem savedCore_pushed (v : UInt8) (err : Option UInt64) (c : Cpu)
    (hroom : 176 ≤ (c.rsp &&& ~~~0xF).toNat) :
    Core.Pushed { c.toCore with rsp := c.rsp &&& ~~~0xF } (savedCore v err c)
      (frameOf v err c).words := by
  have hpush : ∀ {k : Core Reg} {vs : List UInt64},
      Core.Pushed { c.toCore with rsp := c.rsp &&& ~~~0xF } k vs → vs.length < 7 → ∀ w,
        Core.Pushed { c.toCore with rsp := c.rsp &&& ~~~0xF } (k.push w) (w :: vs) := by
    intro k vs hk hlen w
    have hsp := hk.rsp
    dsimp only at hsp
    exact hk.push (by omega)
  have h0 := Core.Pushed.refl { c.toCore with rsp := c.rsp &&& ~~~0xF }
  have h5 := hpush (hpush (hpush (hpush (hpush h0 (by simp) c.ss.toUInt64) (by simp) c.rsp)
    (by simp) c.rflags) (by simp) c.cs.toUInt64) (by simp) c.rip
  have h7 := hpush (hpush h5 (by simp) (err.getD 0)) (by simp) v.toUInt64
  have hsp := h7.rsp
  simp only [List.length_cons, List.length_nil] at hsp
  unfold savedCore
  exact h7.pushes savedRegs (by simp only [savedRegs, List.length_cons, List.length_nil]; omega)

/-- The stack pointer the processor aligns before it pushes. -/
theorem toNat_aligned (a : UInt64) : (a &&& ~~~0xF).toNat = 16 * (a.toNat / 16) := by
  have hmask : ∀ i, (~~~(0xF : UInt64)).toNat.testBit i = (decide (i < 64) && !decide (i < 4)) := by
    intro i
    have h : (~~~(0xF : UInt64)).toNat.testBit i = (~~~(0xF#64)).getLsbD i := rfl
    rw [h, BitVec.getLsbD_not, show (0xF#64).getLsbD i = (2 ^ 4 - 1).testBit i from rfl,
      Nat.testBit_two_pow_sub_one]
  apply Nat.eq_of_testBit_eq
  intro i
  rw [UInt64.toNat_and, Nat.testBit_and, hmask, show 16 * (a.toNat / 16) = 2 ^ 4 * (a.toNat / 2 ^ 4)
    from rfl, Nat.testBit_two_pow_mul, Nat.testBit_div_two_pow]
  by_cases hi : i < 64
  · grind
  · have hbit : a.toNat.testBit i = false :=
      Nat.testBit_lt_two_pow (a.toNat_lt.trans_le (Nat.pow_le_pow_right (by decide) (by omega)))
    grind

/-- Room on the stack for a frame below the aligned stack pointer. -/
def FrameFits (c : Cpu) : Prop := 176 ≤ (c.rsp &&& ~~~0xF).toNat

instance (c : Cpu) : Decidable (FrameFits c) := inferInstanceAs (Decidable (_ ≤ _))

/-- Where the frame of an interrupted state is built. -/
def framePos (c : Cpu) : ℕ := 16 * (c.rsp.toNat / 16) - 176

variable {v : UInt8} {g : Gate} {e : Option UInt64} {c : Cpu}

/-- A frame is as aligned as the stack it is pushed on, and lies below the stack pointer. -/
theorem framePos_spec (h : FrameFits c) :
    framePos c % 16 = 0 ∧ framePos c + 176 ≤ c.rsp.toNat ∧ c.rsp.toNat < framePos c + 192 := by
  unfold FrameFits at h
  rw [toNat_aligned] at h
  unfold framePos
  omega

@[simp] theorem atCall_mem : (atCall v g e c).mem = (savedCore v e c).mem := rfl
@[simp] theorem atCall_savedRsp : (atCall v g e c).rsp = (savedCore v e c).rsp := rfl

theorem atCall_rdi : (atCall v g e c).regs .rdi = (atCall v g e c).rsp := by
  unfold atCall
  simp only [Function.update_self]

theorem savedCore_rsp (h : FrameFits c) : (savedCore v e c).rsp.toNat = framePos c := by
  have hsp := (savedCore_pushed v e c h).rsp
  simp only [length_words, toNat_aligned] at hsp
  exact Nat.eq_sub_of_add_eq hsp

theorem atCall_rsp (h : FrameFits c) : (atCall v g e c).rsp.toNat = framePos c := by
  rw [atCall_savedRsp, savedCore_rsp h]

theorem atCall_frame (h : FrameFits c) :
    readFrame (atCall v g e c).mem (framePos c) = frameOf v e c := by
  have hholds := (savedCore_pushed v e c h).holds
  rw [savedCore_rsp h, holds_words_iff] at hholds
  rw [atCall_mem, hholds]

theorem atCall_outside (h : FrameFits c) {x : ℕ} (hx : x < framePos c ∨ framePos c + 176 ≤ x) :
    (atCall v g e c).mem x = c.mem x := by
  have hout := (savedCore_pushed v e c h).outside x
  unfold FrameFits at h
  rw [savedCore_rsp h] at hout
  rw [toNat_aligned] at h hout
  have htop : framePos c + 176 = 16 * (c.rsp.toNat / 16) := Nat.sub_add_cancel h
  rw [atCall_mem, hout (hx.imp_right htop.symm.le.trans)]

/-! ## The way out -/

/-- The state a frame is left for. -/
def resume (f : InterruptFrame) (m : Mem) : Cpu where
  regs := f.gp
  rsp := f.rsp
  mem := m
  rip := f.rip
  cs := f.cs.toUInt16
  rflags := f.rflags
  ss := f.ss.toUInt16

/-- Popping the registers of a frame. -/
theorem pops_frame {k : Core Reg} (htop : k.rsp.toNat + 176 ≤ 2 ^ 64) :
    (k.pops savedRegs.reverse).mem = k.mem ∧
      (k.pops savedRegs.reverse).rsp.toNat = k.rsp.toNat + 120 ∧
      (k.pops savedRegs.reverse).regs = (readFrame k.mem k.rsp.toNat).gp := by
  have hwords : k.mem.Holds k.rsp.toNat (readFrame k.mem k.rsp.toNat).words :=
    holds_words_iff.mpr rfl
  rw [InterruptFrame.words, Mem.holds_append] at hwords
  have hlen : savedRegs.reverse.length = 15 := rfl
  obtain ⟨hmem, hrsp, hregs⟩ := Core.pops_spec hwords.1 (by rw [hlen]; omega)
  rw [hlen] at hrsp
  refine ⟨hmem, hrsp, funext fun r => ?_⟩
  rw [hregs, if_pos (List.mem_reverse.mpr (mem_savedRegs r))]

/-- The last instructions of a stub load the frame at the stack pointer. -/
theorem runCode_leave (c : Cpu) (htop : c.rsp.toNat + 176 ≤ 2 ^ 64) :
    runCode callee (restoreRegs ++ leave) c = resume (readFrame c.mem c.rsp.toNat) c.mem := by
  obtain ⟨hmem, hrsp, hgp⟩ := pops_frame htop
  rw [runCode_append, show restoreRegs = savedRegs.reverse.map .pop from rfl, runCode_pop]
  generalize c.toCore.pops savedRegs.reverse = k at hmem hrsp hgp
  have hsp : (k.rsp + 16).toNat = c.rsp.toNat + 136 := by
    rw [UInt64.toNat_add, hrsp]
    simp only [UInt64.reduceToNat]
    omega
  simp only [leave, runCode_cons, runCode_nil, Instr.step, iretq, hsp, hmem, hgp, resume, readFrame,
    Nat.add_assoc, Nat.reduceAdd]

/-! ## Entry and exit put together -/

/-- Stubs in vector order, 16 bytes apart. -/
def sampleImage : Image where
  addr s := 0x1000 + s.vector.toUInt64 * 16
  code a :=
    let v := ((a - 0x1000) / 16).toNat
    if h : v < 32 then (Stub.isr ⟨v, h⟩).code
    else if h : v - 32 < 16 then (Stub.irq ⟨v - 32, h⟩).code else Stub.schedYield.code
  code_addr s := by cases s <;> decide +revert

/-- An interrupt table in which no gate is present. -/
def emptyIdt : Idt := fun _ => ⟨0, 0, 0, 0, 0, 0, 0⟩

/-- Kernel code with `0x9000` in its stack pointer. -/
def sampleCpu : Cpu where
  regs _ := 7
  rsp := 0x9000
  mem _ := 0
  rip := 0x1000
  cs := 0x28
  rflags := 0x202
  ss := 0x30

/-- Whatever the vector and the interrupted state, the stub of the vector calls its dispatcher
with the address of an `InterruptFrame` of that state, on a stack aligned to 16 bytes, with
interrupts off and the direction flag clear, and has written nothing but the frame. -/
theorem dispatcher_gets_frame (img : Image) (idt : Idt) (callee : Dispatcher → Cpu → Cpu) (s : Stub)
    (err : Option UInt64) (c : Cpu) (herr : err.isSome = pushesErrorCode s.vector)
    (hroom : FrameFits c) :
    ∃ k : Cpu,
      interrupt img (idtInit img idt) callee s.vector err c =
        some (runCode callee s.epilogue (callee s.dispatcher k)) ∧
      k.regs .rdi = k.rsp ∧ k.rsp.toNat % 16 = 0 ∧
      readFrame k.mem k.rsp.toNat =
        { gp := c.regs, intNo := s.vector.toUInt64, errorCode := err.getD 0, rip := c.rip,
          cs := c.cs.toUInt64, rflags := c.rflags, rsp := c.rsp, ss := c.ss.toUInt64 } ∧
      k.rflags &&& 0x600 = 0 ∧
      ∀ x, x < k.rsp.toNat ∨ k.rsp.toNat + 176 ≤ x → k.mem x = c.mem x := by
  have hsp := atCall_rsp (v := s.vector) (g := ⟨0x28, img.addr s⟩) (e := err) hroom
  refine ⟨_, interrupt_eq img idt s herr c, atCall_rdi, ?_, ?_, ?_, fun x hx => ?_⟩
  · rw [hsp, (framePos_spec hroom).1]
  · rw [hsp, atCall_frame hroom]
    rfl
  · have hmask : ~~~gateFlags &&& (~~~directionFlag &&& 0x600) = 0 := by decide
    simp only [atCall, UInt64.and_assoc, hmask, UInt64.and_zero]
  · rw [hsp] at hx
    exact atCall_outside hroom hx

/-- A page fault comes with an error code. -/
theorem dispatcher_gets_frame_page_fault : ∃ k : Cpu,
    k.rsp.toNat % 16 = 0 ∧ (readFrame k.mem k.rsp.toNat).intNo = 14 ∧
      (readFrame k.mem k.rsp.toNat).errorCode = 2 := by
  obtain ⟨k, -, -, hmod, hframe, -⟩ := dispatcher_gets_frame sampleImage emptyIdt (fun _ c => c) (.isr 14)
    (some 2) sampleCpu (by decide) (by decide)
  exact ⟨k, hmod, by rw [hframe]; rfl, by rw [hframe]; rfl⟩

/-- The dispatchers keep the stack pointer and the frame they are given, and the ones whose result
is taken for the stack pointer return the address of that frame. -/
def ReturnsFrame (callee : Dispatcher → Cpu → Cpu) : Prop :=
  ∀ f k, (callee f k).rsp = k.rsp ∧ (f ≠ .isrDispatch → (callee f k).regs .rax = k.rsp) ∧
    ∀ x, k.rsp.toNat ≤ x → x < k.rsp.toNat + 176 → (callee f k).mem x = k.mem x

/-- An epilogue leaves on the frame at the stack pointer, or at the address returned. -/
theorem runCode_epilogue (s : Stub) (d : Cpu) {a : UInt64}
    (ha : if s.dispatcher = .isrDispatch then d.rsp = a else d.regs .rax = a)
    (htop : a.toNat + 176 ≤ 2 ^ 64) :
    runCode callee s.epilogue d = resume (readFrame d.mem a.toNat) d.mem := by
  have hother : d.regs .rax = a → runCode callee (.movRspRax :: (restoreRegs ++ leave)) d =
      resume (readFrame d.mem a.toNat) d.mem := by
    rintro rfl
    rw [runCode_cons, Instr.step]
    exact runCode_leave { d with rsp := d.regs .rax } htop
  cases s with
  | isr n =>
    simp only [Stub.dispatcher, if_true] at ha
    subst ha
    exact runCode_leave d htop
  | irq n =>
    simp only [Stub.dispatcher, reduceCtorEq, if_false] at ha
    exact hother ha
  | schedYield =>
    simp only [Stub.dispatcher, reduceCtorEq, if_false] at ha
    exact hother ha

theorem resume_frameOf (v : UInt8) (err : Option UInt64) (c : Cpu) (m : Mem) :
    resume (frameOf v err c) m = { c with mem := m } := by
  unfold resume frameOf
  simp only [UInt16.toUInt16_toUInt64]

/-- An interrupt whose dispatcher goes back to the frame it was given changes nothing the
interrupted code can see but memory: all registers, the flags and the stack pointer come back. -/
theorem interrupt_transparent (img : Image) (idt : Idt) (callee : Dispatcher → Cpu → Cpu) (s : Stub)
    (err : Option UInt64) (c : Cpu) (herr : err.isSome = pushesErrorCode s.vector)
    (hroom : FrameFits c) (hret : ReturnsFrame callee) :
    interrupt img (idtInit img idt) callee s.vector err c =
      some { c with
        mem := (callee s.dispatcher (atCall s.vector ⟨0x28, img.addr s⟩ err c)).mem } := by
  have hsp := atCall_rsp (v := s.vector) (g := ⟨0x28, img.addr s⟩) (e := err) hroom
  have hframe := atCall_frame (v := s.vector) (g := ⟨0x28, img.addr s⟩) (e := err) hroom
  rw [interrupt_eq img idt s herr c]
  generalize atCall s.vector ⟨0x28, img.addr s⟩ err c = k at hsp hframe
  obtain ⟨hrsp, hrax, hmem⟩ := hret s.dispatcher k
  have hle := (framePos_spec hroom).2.1
  have htop := c.rsp.toNat_lt
  rw [runCode_epilogue s _ (a := k.rsp) (by split_ifs with hs; exacts [hrsp, hrax hs]) (by omega),
    readFrame_congr hmem, hsp, hframe, resume_frameOf]

/-- A key press, vector 33, that is handled without a switch. -/
theorem interrupt_transparent_key :
    ∃ m, interrupt sampleImage (idtInit sampleImage emptyIdt)
      (fun _ k => { k with regs := Function.update k.regs .rax k.rsp }) 33 none sampleCpu =
        some { sampleCpu with mem := m } := by
  refine ⟨_, interrupt_transparent sampleImage emptyIdt _ (.irq ⟨1, by decide⟩) none sampleCpu
    (by decide) (by decide) fun _ _ => ⟨rfl, fun _ => ?_, fun _ _ _ => rfl⟩⟩
  simp only [Function.update_self]

end QuillOS.Interrupts
