import Mathlib.Data.UInt
import QuillOS.Lib.Stack

/-!
# Interrupt entry and exit

The stubs of `interrupts.asm` as instructions over the registers and a byte memory, the gates
`idt.cpp` installs for them, and what the processor does by itself when it delivers an interrupt
and when it executes `iretq`. The C dispatchers the stubs call are a parameter.
-/

namespace QuillOS.Interrupts

open Lib

/-- The general purpose registers other than `rsp`. -/
inductive Reg
  | rax | rbx | rcx | rdx | rsi | rdi | rbp | r8 | r9 | r10 | r11 | r12 | r13 | r14 | r15
  deriving DecidableEq, Repr

structure Cpu extends Core Reg where
  rip : UInt64
  cs : UInt16
  rflags : UInt64
  ss : UInt16

/-! ## The frame -/

/-- `struct InterruptFrame`. -/
structure InterruptFrame where
  gp : Reg → UInt64
  intNo : UInt64
  errorCode : UInt64
  rip : UInt64
  cs : UInt64
  rflags : UInt64
  rsp : UInt64
  ss : UInt64

/-- Where a register lies in the struct. -/
def gpOffset : Reg → ℕ
  | .r15 => 0
  | .r14 => 8
  | .r13 => 16
  | .r12 => 24
  | .r11 => 32
  | .r10 => 40
  | .r9 => 48
  | .r8 => 56
  | .rbp => 64
  | .rdi => 72
  | .rsi => 80
  | .rdx => 88
  | .rcx => 96
  | .rbx => 104
  | .rax => 112

/-- The struct at address `a`. -/
def readFrame (m : Mem) (a : ℕ) : InterruptFrame where
  gp r := m.word (a + gpOffset r)
  intNo := m.word (a + 120)
  errorCode := m.word (a + 128)
  rip := m.word (a + 136)
  cs := m.word (a + 144)
  rflags := m.word (a + 152)
  rsp := m.word (a + 160)
  ss := m.word (a + 168)

/-! ## Instructions -/

inductive Dispatcher
  | isrDispatch | irqDispatch | schedYieldDispatch
  deriving DecidableEq, Repr

inductive Instr
  | pushQword (v : UInt64)
  | push (r : Reg)
  | pop (r : Reg)
  | cld
  | movRdiRsp
  | call (f : Dispatcher)
  | movRspRax
  | addRsp (n : UInt64)
  | iretq
  deriving DecidableEq, Repr

def directionFlag : UInt64 := 0x400

/-- A return from an interrupt loads everything an interrupt saves. -/
def iretq (c : Cpu) : Cpu :=
  let a := c.rsp.toNat
  { c with
    rip := c.mem.word a
    cs := (c.mem.word (a + 8)).toUInt16
    rflags := c.mem.word (a + 16)
    rsp := c.mem.word (a + 24)
    ss := (c.mem.word (a + 32)).toUInt16 }

/-- One instruction. A call is given by the state it returns in: the return address and the
locals of the callee lie below the stack pointer. The flags `add` sets are left out, as `iretq`
loads all of them. -/
def Instr.step (callee : Dispatcher → Cpu → Cpu) : Instr → Cpu → Cpu
  | .pushQword v, c => { c with toCore := c.toCore.push v }
  | .push r, c => { c with toCore := c.toCore.push (c.regs r) }
  | .pop r, c => { c with toCore := c.toCore.pop r }
  | .cld, c => { c with rflags := c.rflags &&& ~~~directionFlag }
  | .movRdiRsp, c => { c with regs := Function.update c.regs .rdi c.rsp }
  | .call f, c => callee f c
  | .movRspRax, c => { c with rsp := c.regs .rax }
  | .addRsp n, c => { c with rsp := c.rsp + n }
  | .iretq, c => Interrupts.iretq c

def runCode (callee : Dispatcher → Cpu → Cpu) (code : List Instr) (c : Cpu) : Cpu :=
  code.foldl (fun c i => i.step callee c) c

/-! ## The stubs -/

def saveRegs : List Instr :=
  [.push .rax, .push .rbx, .push .rcx, .push .rdx, .push .rsi, .push .rdi, .push .rbp, .push .r8,
   .push .r9, .push .r10, .push .r11, .push .r12, .push .r13, .push .r14, .push .r15]

def restoreRegs : List Instr :=
  [.pop .r15, .pop .r14, .pop .r13, .pop .r12, .pop .r11, .pop .r10, .pop .r9, .pop .r8,
   .pop .rbp, .pop .rdi, .pop .rsi, .pop .rdx, .pop .rcx, .pop .rbx, .pop .rax]

/-- The last two instructions of the common handlers. -/
def leave : List Instr := [.addRsp 16, .iretq]

def isrCommon : List Instr :=
  saveRegs ++ [.cld, .movRdiRsp, .call .isrDispatch] ++ restoreRegs ++ leave

def irqCommon : List Instr :=
  saveRegs ++ [.cld, .movRdiRsp, .call .irqDispatch, .movRspRax] ++ restoreRegs ++ leave

def schedYieldStub : List Instr :=
  [.pushQword 0, .pushQword 0x80] ++ saveRegs ++
    [.cld, .movRdiRsp, .call .schedYieldDispatch, .movRspRax] ++ restoreRegs ++ leave

def isrNoErrCode (n : UInt64) : List Instr := [.pushQword 0, .pushQword n] ++ isrCommon

/-- The processor has already pushed the error code. -/
def isrErrCode (n : UInt64) : List Instr := [.pushQword n] ++ isrCommon

def irqStub (n : UInt64) : List Instr := [.pushQword 0, .pushQword n] ++ irqCommon

/-- The exceptions that have an `ISR_ERRCODE` line. -/
def isrErrCodes : List ℕ := [8, 10, 11, 12, 13, 14, 17, 21, 29, 30]

/-- The labels of the stubs. -/
inductive Stub
  | isr (n : Fin 32)
  | irq (n : Fin 16)
  | schedYield
  deriving DecidableEq, Repr

/-- The code at a label; the `jmp` at the end of a stub goes on in the common handler. -/
def Stub.code : Stub → List Instr
  | .isr n =>
    if n.val ∈ isrErrCodes then isrErrCode (UInt64.ofNat n.val)
    else isrNoErrCode (UInt64.ofNat n.val)
  | .irq n => irqStub (UInt64.ofNat (32 + n.val))
  | .schedYield => schedYieldStub

/-- The vector a stub is installed for, which is also the number it pushes. -/
def Stub.vector : Stub → UInt8
  | .isr n => UInt8.ofNat n.val
  | .irq n => UInt8.ofNat (32 + n.val)
  | .schedYield => 0x80

def isrStubTable : List Stub := (List.finRange 32).map .isr ++ (List.finRange 16).map .irq

/-- A kernel image: where each stub lies, and the code found there. -/
structure Image where
  addr : Stub → UInt64
  code : UInt64 → List Instr
  code_addr : ∀ s, code (addr s) = s.code

/-! ## Gates -/

structure IDTEntry where
  offsetLow : UInt16
  selector : UInt16
  ist : UInt8
  typeAttr : UInt8
  offsetMid : UInt16
  offsetHigh : UInt32
  zero : UInt32
  deriving DecidableEq

abbrev Idt := UInt8 → IDTEntry

def setIdtEntry (idt : Idt) (num : UInt8) (handler : UInt64) (typeAttr : UInt8) : Idt :=
  Function.update idt num
    { offsetLow := (handler &&& 0xFFFF).toUInt16
      selector := 0x28
      ist := 0
      typeAttr := typeAttr
      offsetMid := ((handler >>> 16) &&& 0xFFFF).toUInt16
      offsetHigh := ((handler >>> 32) &&& 0xFFFFFFFF).toUInt32
      zero := 0 }

/-- The gates `idt_init` installs, over whatever the table held. -/
def idtInit (img : Image) (idt : Idt) : Idt :=
  let idt := (List.range 32).foldl (fun idt i =>
    setIdtEntry idt (UInt8.ofNat i) (img.addr (isrStubTable.getD i .schedYield)) 0x8E) idt
  let idt := (List.range 16).foldl (fun idt i =>
    setIdtEntry idt (UInt8.ofNat (32 + i)) (img.addr (isrStubTable.getD (32 + i) .schedYield)) 0x8E)
      idt
  setIdtEntry idt 0x80 (img.addr .schedYield) 0x8E

/-- What the processor reads from an entry. -/
structure Gate where
  selector : UInt16
  offset : UInt64
  deriving DecidableEq

/-- A present 64-bit interrupt gate that stays on the current stack; nothing else is delivered. -/
def IDTEntry.gate (e : IDTEntry) : Option Gate :=
  if e.typeAttr &&& 0x9F = 0x8E ∧ e.ist &&& 7 = 0 then
    some
      { selector := e.selector
        offset := e.offsetLow.toUInt64 ||| e.offsetMid.toUInt64 <<< 16 |||
          e.offsetHigh.toUInt64 <<< 32 }
  else none

/-! ## Delivery -/

/-- The exceptions for which the processor pushes an error code. -/
def pushesErrorCode (v : UInt8) : Bool :=
  v = 8 || (10 ≤ v && v ≤ 14) || v = 17 || v = 21 || v = 29 || v = 30

/-- The flags an interrupt gate clears: TF, IF, NT, RF and VM. -/
def gateFlags : UInt64 := 0x34300

/-- Entry through a gate: the stack is aligned to 16 bytes, the interrupted state is pushed and,
for some exceptions, an error code. -/
def enter (g : Gate) (err : Option UInt64) (c : Cpu) : Cpu :=
  let k : Core Reg := { c.toCore with rsp := c.rsp &&& ~~~0xF }
  let k := ((((k.push c.ss.toUInt64).push c.rsp).push c.rflags).push c.cs.toUInt64).push c.rip
  let k := match err with
    | some e => k.push e
    | none => k
  { toCore := k, rip := g.offset, cs := g.selector, rflags := c.rflags &&& ~~~gateFlags, ss := c.ss }

/-- An interrupt from its delivery to the end of its stub. -/
def interrupt (img : Image) (idt : Idt) (callee : Dispatcher → Cpu → Cpu) (v : UInt8)
    (err : Option UInt64) (c : Cpu) : Option Cpu :=
  (idt v).gate.map fun g => runCode callee (img.code g.offset) (enter g err c)

end QuillOS.Interrupts
