import Mathlib.Tactic
import QuillOS.Lib.ByteMemory
import QuillOS.Lib.Run

/-!
# Interrupt lines

The two 8259 controllers as `pic_remap` programs them, and the functions of `idt.cpp` that mask
lines, register handlers and dispatch. A controller is modelled by the ports it is reached
through, the lines that are raised and the lines that are being served.
-/

namespace QuillOS.Interrupts

open Lib

/-! ## A controller -/

/-- The initialisation word a controller waits for at its data port; `ic4` says whether the
fourth one comes. -/
inductive InitStep
  | ready
  | icw2 (ic4 : Bool)
  | icw3 (ic4 : Bool)
  | icw4
  deriving DecidableEq, Repr

structure Pic where
  init : InitStep
  /-- The vector of line 0. -/
  base : UInt8
  /-- How the two controllers are wired: a mask of lines at the master, a line at the slave. -/
  cascade : UInt8
  /-- The masked lines. -/
  imr : UInt8
  /-- The lines that are raised, and the lines in service. -/
  irr : ℕ → Bool
  isr : ℕ → Bool

namespace Pic

/-- An end of interrupt ends the service of the first line in service. -/
def endOfInterrupt (p : Pic) : Pic :=
  match (List.range 8).find? p.isr with
  | some i => { p with isr := Function.update p.isr i false }
  | none => p

/-- A write to the command port: the first initialisation word, or an end of interrupt. -/
def command (p : Pic) (v : UInt8) : Pic :=
  if v &&& 0x10 ≠ 0 then { p with init := .icw2 (v &&& 1 ≠ 0), imr := 0, isr := fun _ => false }
  else if v = 0x20 then p.endOfInterrupt else p

/-- A write to the data port. -/
def data (p : Pic) (v : UInt8) : Pic :=
  match p.init with
  | .icw2 ic4 => { p with base := v &&& 0xF8, init := .icw3 ic4 }
  | .icw3 ic4 => { p with cascade := v, init := if ic4 then .icw4 else .ready }
  | .icw4 => { p with init := .ready }
  | .ready => { p with imr := v }

def masks (p : Pic) (i : ℕ) : Bool := p.imr &&& bitMask i != 0

/-- The line a controller requests an interrupt for: the first raised line that is not masked,
unless it or one before it is in service. -/
def request (p : Pic) (raised : ℕ → Bool) : Option ℕ :=
  (List.range 8).find? fun i => raised i && !p.masks i && !(List.range (i + 1)).any p.isr

end Pic

/-! ## The functions of `idt.cpp` -/

/-- The controllers with the tables of `idt.cpp`; `called` lists the handler calls. -/
structure Lines (η : Type*) where
  master : Pic
  slave : Pic
  handlers : UInt8 → Option η
  counts : UInt8 → UInt64
  called : List (UInt8 × η)

namespace Lines

variable {η : Type*}

def outb (s : Lines η) (port : UInt16) (v : UInt8) : Lines η :=
  if port = 0x20 then { s with master := s.master.command v }
  else if port = 0x21 then { s with master := s.master.data v }
  else if port = 0xA0 then { s with slave := s.slave.command v }
  else if port = 0xA1 then { s with slave := s.slave.data v }
  else s

/-- The data ports read the masks. -/
def inb (s : Lines η) (port : UInt16) : UInt8 :=
  if port = 0x21 then s.master.imr else if port = 0xA1 then s.slave.imr else 0xFF

def ioWait (s : Lines η) : Lines η := s.outb 0x80 0

def picRemap (s : Lines η) : Lines η :=
  let s := (s.outb 0x20 0x11).ioWait
  let s := (s.outb 0xA0 0x11).ioWait
  let s := (s.outb 0x21 0x20).ioWait
  let s := (s.outb 0xA1 0x28).ioWait
  let s := (s.outb 0x21 0x04).ioWait
  let s := (s.outb 0xA1 0x02).ioWait
  let s := (s.outb 0x21 0x01).ioWait
  let s := (s.outb 0xA1 0x01).ioWait
  let s := s.outb 0x21 0xFF
  s.outb 0xA1 0xFF

/-- The bit of a line in a mask, as `1 << irq` cut to a byte. -/
def lineBit (irq : UInt8) : UInt8 := UInt8.ofNat (1 <<< irq.toNat)

def irqMask (s : Lines η) (irq : UInt8) : Lines η :=
  let (port, line) := if irq < 8 then (0x21, irq) else (0xA1, irq - 8)
  s.outb port (s.inb port ||| lineBit line)

def irqUnmask (s : Lines η) (irq : UInt8) : Lines η :=
  let (port, line) := if irq < 8 then (0x21, irq) else (0xA1, irq - 8)
  let s := s.outb port (s.inb port &&& ~~~lineBit line)
  -- A line of the slave also needs the line the slave is wired to.
  if irq ≥ 8 then s.outb 0x21 (s.inb 0x21 &&& ~~~lineBit 2) else s

def picSendEoi (s : Lines η) (irq : UInt8) : Lines η :=
  let s := if irq ≥ 8 then s.outb 0xA0 0x20 else s
  s.outb 0x20 0x20

def irqRegister (s : Lines η) (irq : UInt8) (handler : Option η) : Lines η :=
  if irq ≥ 16 then s
  else irqUnmask { s with handlers := Function.update s.handlers irq handler } irq

def irqUnregister (s : Lines η) (irq : UInt8) : Lines η :=
  if irq ≥ 16 then s
  else
    let s := s.irqMask irq
    { s with handlers := Function.update s.handlers irq none }

/-- `irq_dispatch` up to the call of `Scheduler::timer_tick`. -/
def irqDispatch (s : Lines η) (intNo : UInt64) : Lines η :=
  let irq := (intNo - 32).toUInt8
  if irq < 16 then
    let s := { s with counts := Function.update s.counts irq (s.counts irq + 1) }
    let s := match s.handlers irq with
      | some handler => { s with called := s.called ++ [(irq, handler)] }
      | none => s
    s.picSendEoi irq
  else s

/-! ## Delivery -/

/-- Line 2 of the master is the request of the slave. -/
def masterRaised (s : Lines η) (i : ℕ) : Bool :=
  if i = 2 then (s.slave.request s.slave.irr).isSome else s.master.irr i

/-- The processor takes an interrupt: the vector it is given, and the controllers after that. The
slave gives the vector for the line both controllers were told it is wired to. -/
def acknowledge (s : Lines η) : Option (UInt8 × Lines η) :=
  match s.master.request s.masterRaised with
  | none => none
  | some i =>
    let master : Pic :=
      { s.master with
        irr := if i = 2 then s.master.irr else Function.update s.master.irr i false
        isr := Function.update s.master.isr i true }
    match if i = 2 ∧ s.master.cascade = 4 ∧ s.slave.cascade = 2 then s.slave.request s.slave.irr
      else none with
    | some j =>
      some (s.slave.base + UInt8.ofNat j,
        { s with
          master := master
          slave :=
            { s.slave with
              irr := Function.update s.slave.irr j false
              isr := Function.update s.slave.isr j true } })
    | none => some (s.master.base + UInt8.ofNat i, { s with master := master })

/-- An interrupt from its acknowledgement to the end of `irq_dispatch`, with the number the stub
of the vector pushes. -/
def deliver (s : Lines η) : Option (Lines η) :=
  s.acknowledge.map fun (v, s) => s.irqDispatch v.toUInt64

/-- A device raises its line. -/
def raise (s : Lines η) (irq : UInt8) : Lines η :=
  if irq < 8 then
    { s with master := { s.master with irr := Function.update s.master.irr irq.toNat true } }
  else { s with slave := { s.slave with irr := Function.update s.slave.irr (irq - 8).toNat true } }

def raised (s : Lines η) (irq : UInt8) : Bool :=
  if irq < 8 then s.master.irr irq.toNat else s.slave.irr (irq - 8).toNat

def masked (s : Lines η) (irq : UInt8) : Bool :=
  if irq < 8 then s.master.masks irq.toNat else s.slave.masks (irq - 8).toNat

end Lines

inductive LineEvent (η : Type*)
  | raise (irq : UInt8)
  | register (irq : UInt8) (handler : η)
  | unregister (irq : UInt8)
  | deliver
  deriving DecidableEq

def LineEvent.step {η : Type*} (s : Lines η) : LineEvent η → Option (Lines η)
  | .raise irq => if irq < 16 then some (s.raise irq) else none
  | .register irq handler => some (s.irqRegister irq (some handler))
  | .unregister irq => some (s.irqUnregister irq)
  | .deliver => s.deliver

/-! ## The invariant -/

namespace Lines

variable {η : Type*} {s t : Lines η}

/-- The lines that are not masked are the ones with a handler; line 2 of the master is not masked
while the slave has one. -/
structure MasksFit (m v : UInt8) (handlers : UInt8 → Option η) : Prop where
  master : ∀ i < 8, i ≠ 2 → (m &&& bitMask i != 0) = (handlers (UInt8.ofNat i)).isNone
  slave : ∀ j < 8, (v &&& bitMask j != 0) = (handlers (UInt8.ofNat (8 + j))).isNone
  cascade : ∀ j < 8, (handlers (UInt8.ofNat (8 + j))).isSome → (m &&& bitMask 2 != 0) = false

/-- Between interrupts: both controllers are programmed and no line is in service. -/
structure Routed (s : Lines η) : Prop where
  masterReady : s.master.init = .ready
  slaveReady : s.slave.init = .ready
  masterBase : s.master.base = 0x20
  slaveBase : s.slave.base = 0x28
  masterCascade : s.master.cascade = 4
  slaveCascade : s.slave.cascade = 2
  masterIsr : s.master.isr = fun _ => false
  slaveIsr : s.slave.isr = fun _ => false
  masks : MasksFit s.master.imr s.slave.imr s.handlers

/-- `pic_remap` programs the controllers and masks every line. -/
theorem picRemap_routed (h : s.handlers = fun _ => none) : s.picRemap.Routed := by
  have hmask : ∀ i < 8, ((0xFF : UInt8) &&& bitMask i != 0) = true := by decide
  have hnone : ∀ irq, s.handlers irq = none := fun irq => congrFun h irq
  refine ⟨rfl, rfl, rfl, rfl, rfl, rfl, rfl, rfl, fun i hi _ => ?_, fun j hj => ?_, fun j _ hs => ?_⟩
  · exact (hmask i hi).trans (by simp [picRemap, outb, ioWait, hnone])
  · exact (hmask j hj).trans (by simp [picRemap, outb, ioWait, hnone])
  · simp [picRemap, outb, ioWait, hnone] at hs

theorem raise_routed (h : s.Routed) (irq : UInt8) : (s.raise irq).Routed := by
  unfold raise
  split
  · exact ⟨h.1, h.2, h.3, h.4, h.5, h.6, h.7, h.8, h.9⟩
  · exact ⟨h.1, h.2, h.3, h.4, h.5, h.6, h.7, h.8, h.9⟩

/-! ## Masks -/

/-- The controllers with other masks. -/
def setMasks (s : Lines η) (m v : UInt8) : Lines η :=
  { s with master := { s.master with imr := m }, slave := { s.slave with imr := v } }

theorem Routed.setMasks (h : s.Routed) {m v : UInt8} {handlers : UInt8 → Option η}
    (hfit : MasksFit m v handlers) :
    Routed { s.setMasks m v with handlers := handlers } :=
  ⟨h.1, h.2, h.3, h.4, h.5, h.6, h.7, h.8, hfit⟩

theorem outb_masterCommand (v : UInt8) :
    s.outb 0x20 v = { s with master := s.master.command v } := rfl

theorem outb_slaveCommand (v : UInt8) : s.outb 0xA0 v = { s with slave := s.slave.command v } := rfl

theorem outb_master (h : s.master.init = .ready) (v : UInt8) :
    s.outb 0x21 v = s.setMasks v s.slave.imr := by
  simp only [outb, Pic.data, h, setMasks]
  rfl

theorem outb_slave (h : s.slave.init = .ready) (v : UInt8) :
    s.outb 0xA1 v = s.setMasks s.master.imr v := by
  simp only [outb, Pic.data, h, setMasks]
  rfl

theorem irqUnmask_low (h : s.master.init = .ready) {irq : UInt8} (hirq : irq < 8) :
    s.irqUnmask irq = s.setMasks (s.master.imr &&& ~~~lineBit irq) s.slave.imr := by
  unfold irqUnmask
  rw [if_pos hirq]
  dsimp only
  rw [if_neg (by simpa using hirq), outb_master h]
  rfl

theorem irqUnmask_high (hm : s.master.init = .ready) (hs : s.slave.init = .ready) {irq : UInt8}
    (hirq : ¬irq < 8) : s.irqUnmask irq =
      s.setMasks (s.master.imr &&& ~~~lineBit 2) (s.slave.imr &&& ~~~lineBit (irq - 8)) := by
  unfold irqUnmask
  rw [if_neg hirq]
  dsimp only
  rw [if_pos (by simpa using hirq), outb_slave hs]
  exact outb_master (s := s.setMasks s.master.imr (s.inb 0xA1 &&& ~~~lineBit (irq - 8))) hm _

theorem irqMask_low (h : s.master.init = .ready) {irq : UInt8} (hirq : irq < 8) :
    s.irqMask irq = s.setMasks (s.master.imr ||| lineBit irq) s.slave.imr := by
  unfold irqMask
  rw [if_pos hirq]
  exact outb_master h _

theorem irqMask_high (h : s.slave.init = .ready) {irq : UInt8} (hirq : ¬irq < 8) :
    s.irqMask irq = s.setMasks s.master.imr (s.slave.imr ||| lineBit (irq - 8)) := by
  unfold irqMask
  rw [if_neg hirq]
  exact outb_slave h _

/-- A line number is one of the master, or one of the slave from 8 on. -/
theorem line_cases {irq : UInt8} (h : irq < 16) :
    irq < 8 ∧ (∃ i < 8, irq = UInt8.ofNat i ∧ lineBit irq = bitMask i) ∨
      ¬irq < 8 ∧ ∃ j < 8, irq = UInt8.ofNat (8 + j) ∧ lineBit (irq - 8) = bitMask j := by
  have hlow : ∀ i < 8, UInt8.ofNat i < 8 ∧ lineBit (UInt8.ofNat i) = bitMask i := by decide
  have hhigh : ∀ j < 8, ¬UInt8.ofNat (8 + j) < 8 ∧
      lineBit (UInt8.ofNat (8 + j) - 8) = bitMask j := by decide
  have hlt : irq.toNat < 16 := h
  by_cases h8 : irq.toNat < 8
  · left
    have heq : irq = UInt8.ofNat irq.toNat := UInt8.ofNat_toNat.symm
    exact ⟨h8, irq.toNat, h8, heq, by rw [heq]; simpa using (hlow _ h8).2⟩
  · right
    have heq : irq = UInt8.ofNat (8 + (irq.toNat - 8)) := by
      rw [Nat.add_sub_cancel' (by omega), UInt8.ofNat_toNat]
    exact ⟨h8, irq.toNat - 8, by omega, heq, by rw [← (hhigh _ (by omega)).2, ← heq]⟩

theorem update_line {handlers : UInt8 → Option η} {x : Option η} {i k : ℕ} (hi : i < 16)
    (hk : k < 16) : Function.update handlers (UInt8.ofNat i) x (UInt8.ofNat k) =
      if k = i then x else handlers (UInt8.ofNat k) := by
  have heq : UInt8.ofNat k = UInt8.ofNat i ↔ k = i := by
    rw [← UInt8.toNat_inj, UInt8.toNat_ofNat', UInt8.toNat_ofNat']
    omega
  rw [Function.update_apply]
  simp only [heq]

theorem mask_bit {m : UInt8} {i k : ℕ} (hi : i < 8) (hk : k < 8) :
    ((m ||| bitMask i) &&& bitMask k != 0) = (decide (k = i) || (m &&& bitMask k != 0)) := by
  rw [or_bitMask, Nat.mod_eq_of_lt hi, Nat.mod_eq_of_lt hk]
  simp only [eq_comm]

theorem unmask_bit {m : UInt8} {i k : ℕ} (hi : i < 8) (hk : k < 8) :
    ((m &&& ~~~bitMask i) &&& bitMask k != 0) = (!decide (k = i) && (m &&& bitMask k != 0)) := by
  rw [and_not_bitMask, Nat.mod_eq_of_lt hi, Nat.mod_eq_of_lt hk]
  simp only [eq_comm]

variable {m v : UInt8} {handlers : UInt8 → Option η} {handler : η} {i j : ℕ}

theorem MasksFit.unmaskLow (h : MasksFit m v handlers) (hi : i < 8) :
    MasksFit (m &&& ~~~bitMask i) v (Function.update handlers (UInt8.ofNat i) (some handler)) where
  master k hk hk2 := by
    rw [unmask_bit hi hk, update_line (by omega) (by omega), h.master k hk hk2]
    split <;> simp [*]
  slave k hk := by
    rw [update_line (by omega) (by omega), if_neg (by omega), h.slave k hk]
  cascade k hk hs := by
    rw [update_line (by omega) (by omega), if_neg (by omega)] at hs
    rw [unmask_bit hi (by decide), h.cascade k hk hs, Bool.and_false]

theorem MasksFit.unmaskHigh (h : MasksFit m v handlers) (hj : j < 8) :
    MasksFit (m &&& ~~~bitMask 2) (v &&& ~~~bitMask j)
      (Function.update handlers (UInt8.ofNat (8 + j)) (some handler)) where
  master k hk hk2 := by
    rw [unmask_bit (by decide) hk, update_line (by omega) (by omega), if_neg (by omega),
      h.master k hk hk2]
    simp [hk2]
  slave k hk := by
    rw [unmask_bit hj hk, update_line (by omega) (by omega), h.slave k hk]
    by_cases hkj : k = j <;> simp [hkj]
  cascade k hk hs := by
    rw [unmask_bit (by decide) (by decide)]
    rfl

theorem MasksFit.maskLow (h : MasksFit m v handlers) (hi : i < 8) (hi2 : i ≠ 2) :
    MasksFit (m ||| bitMask i) v (Function.update handlers (UInt8.ofNat i) none) where
  master k hk hk2 := by
    rw [mask_bit hi hk, update_line (by omega) (by omega), h.master k hk hk2]
    split <;> simp [*]
  slave k hk := by
    rw [update_line (by omega) (by omega), if_neg (by omega), h.slave k hk]
  cascade k hk hs := by
    rw [update_line (by omega) (by omega), if_neg (by omega)] at hs
    rw [mask_bit hi (by decide), h.cascade k hk hs, decide_eq_false (Ne.symm hi2), Bool.or_false]

theorem MasksFit.maskHigh (h : MasksFit m v handlers) (hj : j < 8) :
    MasksFit m (v ||| bitMask j) (Function.update handlers (UInt8.ofNat (8 + j)) none) where
  master k hk hk2 := by
    rw [update_line (by omega) (by omega), if_neg (by omega), h.master k hk hk2]
  slave k hk := by
    rw [mask_bit hj hk, update_line (by omega) (by omega), h.slave k hk]
    by_cases hkj : k = j <;> simp [hkj]
  cascade k hk hs := by
    rw [update_line (by omega) (by omega)] at hs
    split at hs
    · cases hs
    · exact h.cascade k hk hs

/-- Registering a handler unmasks its line, and the way there for a line of the slave. -/
theorem irqRegister_routed (h : s.Routed) (irq : UInt8) (handler : η) :
    (s.irqRegister irq (some handler)).Routed := by
  unfold irqRegister
  split
  · exact h
  have hirq : irq < 16 := by simpa using ‹¬irq ≥ 16›
  have h2 : lineBit 2 = bitMask 2 := by decide
  let s' : Lines η := { s with handlers := Function.update s.handlers irq (some handler) }
  show (s'.irqUnmask irq).Routed
  rcases line_cases hirq with ⟨hlow, i, hi, rfl, hbit⟩ | ⟨hhigh, j, hj, rfl, hbit⟩
  · rw [irqUnmask_low (s := s') h.masterReady hlow, hbit]
    exact h.setMasks (h.masks.unmaskLow hi)
  · rw [irqUnmask_high (s := s') h.masterReady h.slaveReady hhigh, hbit, h2]
    exact h.setMasks (h.masks.unmaskHigh hj)

/-- Taking a handler away masks its line first. -/
theorem irqUnregister_routed (h : s.Routed) {irq : UInt8} (hne : irq ≠ 2) :
    (s.irqUnregister irq).Routed := by
  unfold irqUnregister
  split
  · exact h
  have hirq : irq < 16 := by simpa using ‹¬irq ≥ 16›
  rcases line_cases hirq with ⟨hlow, i, hi, rfl, hbit⟩ | ⟨hhigh, j, hj, rfl, hbit⟩
  · have hi2 : i ≠ 2 := by
      rintro rfl
      exact hne rfl
    rw [irqMask_low h.masterReady hlow, hbit]
    exact h.setMasks (h.masks.maskLow hi hi2)
  · rw [irqMask_high h.slaveReady hhigh, hbit]
    exact h.setMasks (h.masks.maskHigh hj)

/-! ## Delivery -/

/-- With no line in service, a request is for the first raised line that is not masked. -/
theorem request_of_idle {p : Pic} (hisr : p.isr = fun _ => false) (raised : ℕ → Bool) :
    p.request raised = (List.range 8).find? fun i => raised i && !p.masks i := by
  have hany : ∀ i, (List.range i).any (fun _ => false) = false := by simp
  unfold Pic.request
  simp only [hisr, hany, Bool.not_false, Bool.and_true]

theorem request_some {p : Pic} (hisr : p.isr = fun _ => false) {raised : ℕ → Bool} {i : ℕ}
    (h : p.request raised = some i) : i < 8 ∧ raised i = true ∧ p.masks i = false := by
  rw [request_of_idle hisr] at h
  have hp := List.find?_some h
  simp only [Bool.and_eq_true, Bool.not_eq_true'] at hp
  exact ⟨List.mem_range.mp (List.mem_of_find?_eq_some h), hp⟩

theorem request_isSome {p : Pic} (hisr : p.isr = fun _ => false) {raised : ℕ → Bool} {i : ℕ}
    (hi : i < 8) (hr : raised i = true) (hm : p.masks i = false) : (p.request raised).isSome := by
  rw [request_of_idle hisr, List.find?_isSome]
  exact ⟨i, List.mem_range.mpr hi, by simp [hr, hm]⟩

/-- The end of interrupt ends the service that just began. -/
theorem command_eoi {p : Pic} (hisr : p.isr = fun _ => false) {i : ℕ} (hi : i < 8) {irr : ℕ → Bool} :
    ({ p with irr := irr, isr := Function.update p.isr i true } : Pic).command 0x20 =
      { p with irr := irr } := by
  have hfind : ∀ i < 8, (List.range 8).find? (Function.update (fun _ => false) i true) = some i := by
    decide
  unfold Pic.command
  rw [if_neg (by decide), if_pos rfl, Pic.endOfInterrupt, hisr, hfind i hi]
  simp only [Function.update_idem]
  rw [Function.update_eq_self_iff.mpr rfl, ← hisr]

/-- A device lowers its line when the interrupt is taken. -/
def lower (s : Lines η) (irq : UInt8) : Lines η :=
  if irq < 8 then
    { s with master := { s.master with irr := Function.update s.master.irr irq.toNat false } }
  else { s with slave := { s.slave with irr := Function.update s.slave.irr (irq - 8).toNat false } }

/-- The state after line `irq` was served by `handler`: one call of it, one more in its count, the
line no longer raised; masks, handlers and the controllers' other state as before. -/
def served (s : Lines η) (irq : UInt8) (handler : η) : Lines η :=
  { s.lower irq with
    counts := Function.update s.counts irq (s.counts irq + 1)
    called := s.called ++ [(irq, handler)] }

theorem deliver_master (h : s.Routed) {i : ℕ} (hi : i < 8) (hi2 : i ≠ 2) {handler : η}
    (hreq : s.master.request s.masterRaised = some i)
    (hhandler : s.handlers (UInt8.ofNat i) = some handler) :
    s.deliver = some (s.served (UInt8.ofNat i) handler) := by
  have hnum : ∀ i < 8, (((0x20 : UInt8) + UInt8.ofNat i).toUInt64 - 32).toUInt8 = UInt8.ofNat i ∧
      UInt8.ofNat i < 16 ∧ UInt8.ofNat i < 8 ∧ ¬UInt8.ofNat i ≥ 8 ∧ (UInt8.ofNat i).toNat = i := by
    decide
  obtain ⟨hirq, h16, h8, hge, hval⟩ := hnum i hi
  have hack : s.acknowledge = some (0x20 + UInt8.ofNat i,
      { s with
        master :=
          { s.master with
            irr := Function.update s.master.irr i false
            isr := Function.update s.master.isr i true } }) := by
    simp only [acknowledge, hreq, hi2, false_and, if_false, h.masterBase]
  unfold deliver
  rw [hack, Option.map_some]
  dsimp only
  unfold irqDispatch
  simp only [hirq, h16, if_true, hhandler, picSendEoi, if_neg hge, outb_masterCommand,
    command_eoi h.masterIsr hi, served, lower, h8, hval]

theorem deliver_slave (h : s.Routed) {j : ℕ} (hj : j < 8) {handler : η}
    (hreq : s.master.request s.masterRaised = some 2)
    (hslave : s.slave.request s.slave.irr = some j)
    (hhandler : s.handlers (UInt8.ofNat (8 + j)) = some handler) :
    s.deliver = some (s.served (UInt8.ofNat (8 + j)) handler) := by
  have hnum : ∀ j < 8, (((0x28 : UInt8) + UInt8.ofNat j).toUInt64 - 32).toUInt8 =
      UInt8.ofNat (8 + j) ∧ UInt8.ofNat (8 + j) < 16 ∧ ¬UInt8.ofNat (8 + j) < 8 ∧
      UInt8.ofNat (8 + j) ≥ 8 ∧ (UInt8.ofNat (8 + j) - 8).toNat = j := by
    decide
  obtain ⟨hirq, h16, h8, hge, hval⟩ := hnum j hj
  have hack : s.acknowledge = some (0x28 + UInt8.ofNat j,
      { s with
        master := { s.master with irr := s.master.irr, isr := Function.update s.master.isr 2 true }
        slave :=
          { s.slave with
            irr := Function.update s.slave.irr j false
            isr := Function.update s.slave.isr j true } }) := by
    simp only [acknowledge, hreq, h.masterCascade, h.slaveCascade, and_self, if_true, hslave,
      h.slaveBase]
  unfold deliver
  rw [hack, Option.map_some]
  dsimp only
  unfold irqDispatch
  simp only [hirq, h16, if_true, hhandler, picSendEoi, if_pos hge, outb_masterCommand,
    outb_slaveCommand, command_eoi h.masterIsr (show 2 < 8 by decide), command_eoi h.slaveIsr hj,
    served, lower, h8, if_false, hval]

/-- What is delivered is the service of a raised line by its own handler. -/
theorem deliver_spec (h : s.Routed) (hdel : s.deliver = some t) :
    ∃ irq handler, irq < 16 ∧ s.raised irq = true ∧ s.handlers irq = some handler ∧
      t = s.served irq handler := by
  cases hreq : s.master.request s.masterRaised with
  | none =>
    rw [deliver, acknowledge, hreq] at hdel
    cases hdel
  | some i =>
    obtain ⟨hi, hr, hm⟩ := request_some h.masterIsr hreq
    by_cases hi2 : i = 2
    · subst hi2
      obtain ⟨j, hslave⟩ := Option.isSome_iff_exists.mp hr
      obtain ⟨hj, hjr, hjm⟩ := request_some h.slaveIsr hslave
      have hnum : ∀ j < 8, UInt8.ofNat (8 + j) < 16 ∧ ¬UInt8.ofNat (8 + j) < 8 ∧
          (UInt8.ofNat (8 + j) - 8).toNat = j := by decide
      obtain ⟨h16, h8, hval⟩ := hnum j hj
      have hnone : (s.handlers (UInt8.ofNat (8 + j))).isNone = false :=
        (h.masks.slave j hj).symm.trans hjm
      obtain ⟨handler, hh⟩ := Option.isSome_iff_exists.mp (Option.isNone_eq_false_iff.mp hnone)
      refine ⟨_, handler, h16, ?_, hh, ?_⟩
      · rw [raised, if_neg h8, hval, hjr]
      · exact Option.some.inj (hdel.symm.trans (deliver_slave h hj hreq hslave hh))
    · have hnum : ∀ i < 8, UInt8.ofNat i < 16 ∧ UInt8.ofNat i < 8 ∧ (UInt8.ofNat i).toNat = i := by
        decide
      obtain ⟨h16, h8, hval⟩ := hnum i hi
      have hnone : (s.handlers (UInt8.ofNat i)).isNone = false :=
        (h.masks.master i hi hi2).symm.trans hm
      obtain ⟨handler, hh⟩ := Option.isSome_iff_exists.mp (Option.isNone_eq_false_iff.mp hnone)
      rw [masterRaised, if_neg hi2] at hr
      refine ⟨_, handler, h16, ?_, hh, ?_⟩
      · rw [raised, if_pos h8, hval, hr]
      · exact Option.some.inj (hdel.symm.trans (deliver_master h hi hi2 hreq hh))

/-- A raised line with a handler has an interrupt delivered, if not its own then one before it. -/
theorem deliver_ne_none (h : s.Routed) {irq : UInt8} (hirq : irq < 16) (hne : irq ≠ 2)
    (hr : s.raised irq = true) (hh : (s.handlers irq).isSome) : s.deliver ≠ none := by
  have hreq : (s.master.request s.masterRaised).isSome := by
    rcases line_cases hirq with ⟨hlow, i, hi, rfl, -⟩ | ⟨hhigh, j, hj, rfl, -⟩
    · have hi2 : i ≠ 2 := by
        rintro rfl
        exact hne rfl
      have hval : (UInt8.ofNat i).toNat = i := by
        rw [UInt8.toNat_ofNat']
        omega
      rw [raised, if_pos hlow, hval] at hr
      refine request_isSome h.masterIsr hi (by rw [masterRaised, if_neg hi2, hr]) ?_
      exact (h.masks.master i hi hi2).trans (Option.isNone_eq_false_iff.mpr hh)
    · have hval : (UInt8.ofNat (8 + j) - 8).toNat = j := by
        have hnum : ∀ j < 8, (UInt8.ofNat (8 + j) - 8).toNat = j := by decide
        exact hnum j hj
      rw [raised, if_neg hhigh, hval] at hr
      have hslave : (s.slave.request s.slave.irr).isSome := by
        refine request_isSome h.slaveIsr hj hr ?_
        exact (h.masks.slave j hj).trans (Option.isNone_eq_false_iff.mpr hh)
      refine request_isSome h.masterIsr (show 2 < 8 by decide) ?_ (h.masks.cascade j hj hh)
      rw [masterRaised, if_pos rfl, hslave]
  intro hnone
  obtain ⟨i, hi⟩ := Option.isSome_iff_exists.mp hreq
  rw [deliver, Option.map_eq_none_iff, acknowledge, hi] at hnone
  dsimp only at hnone
  split at hnone <;> cases hnone

theorem served_routed (h : s.Routed) (irq : UInt8) (handler : η) : (s.served irq handler).Routed := by
  unfold served lower
  split
  · exact ⟨h.1, h.2, h.3, h.4, h.5, h.6, h.7, h.8, h.9⟩
  · exact ⟨h.1, h.2, h.3, h.4, h.5, h.6, h.7, h.8, h.9⟩

theorem step_routed (h : s.Routed) {e : LineEvent η} (he : e ≠ .unregister 2)
    (hstep : e.step s = some t) : t.Routed := by
  cases e with
  | raise irq =>
    simp only [LineEvent.step] at hstep
    split at hstep <;> cases hstep
    exact raise_routed h irq
  | register irq handler =>
    cases hstep
    exact irqRegister_routed h irq handler
  | unregister irq =>
    cases hstep
    exact irqUnregister_routed h fun hirq => he (by rw [hirq])
  | deliver =>
    obtain ⟨irq, handler, -, -, -, rfl⟩ := deliver_spec h hstep
    exact served_routed h irq handler

end Lines

/-- In every run from `pic_remap` of lines raised, handlers registered and taken away (but for the
line that joins the controllers) and interrupts taken: an interrupt taken calls the handler of a
raised line once and counts it for that line; no line is in service between interrupts; and
whenever a line with a handler is raised, an interrupt can be taken. -/
theorem irq_routed {η : Type*} (s0 : Lines η) (h0 : s0.handlers = fun _ => none)
    (es : List (LineEvent η)) (s : Lines η)
    (hrun : Run (Where (fun _ e => e ≠ .unregister 2) fun s e t => e.step s = some t) s0.picRemap es
      s) :
    (∀ t, s.deliver = some t → ∃ irq handler, irq < 16 ∧ s.raised irq = true ∧
      s.handlers irq = some handler ∧ t = s.served irq handler) ∧
    (s.master.isr = (fun _ => false) ∧ s.slave.isr = fun _ => false) ∧
    ((∃ irq, irq < 16 ∧ irq ≠ 2 ∧ s.raised irq = true ∧ (s.handlers irq).isSome) →
      s.deliver ≠ none) := by
  have h : s.Routed := hrun.invariant Lines.Routed (Lines.picRemap_routed h0)
    fun a e b ha hs => Lines.step_routed ha hs.1 hs.2
  refine ⟨fun t => Lines.deliver_spec h, ⟨h.masterIsr, h.slaveIsr⟩, ?_⟩
  rintro ⟨irq, hirq, hne, hr, hh⟩
  exact Lines.deliver_ne_none h hirq hne hr hh

/-- Controllers as firmware may leave them, with a mouse packet waiting. -/
def sampleLines : Lines ℕ where
  master := ⟨.ready, 8, 0, 0xB8, fun _ => false, fun _ => false⟩
  slave := ⟨.ready, 0x70, 0, 0x8F, fun i => i = 4, fun _ => false⟩
  handlers _ := none
  counts _ := 0
  called := []

def sampleLineEvents : List (LineEvent ℕ) :=
  [.register 0 100, .register 1 101, .raise 1, .register 12 112, .deliver, .deliver, .raise 0]

def sampleServed : Lines ℕ :=
  (exec (guarded (fun _ e => e ≠ .unregister 2) LineEvent.step) sampleLines.picRemap
    sampleLineEvents).get (by decide +kernel)

/-- The mouse line was raised from the start; the key press is served first and the mouse after
it. Then the timer can be. -/
theorem irq_routed_mouse :
    sampleServed.called = [(1, 101), (12, 112)] ∧ sampleServed.slave.isr 4 = false ∧
      sampleServed.deliver ≠ none := by
  obtain ⟨-, ⟨-, hslave⟩, hnext⟩ :=
    irq_routed sampleLines rfl sampleLineEvents sampleServed (run_where_get _)
  exact ⟨by decide +kernel, congrFun hslave 4,
    hnext ⟨0, by decide, by decide, by decide +kernel, by decide +kernel⟩⟩

end QuillOS.Interrupts
