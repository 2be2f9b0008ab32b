import QuillOS.Lib.ByteMemory

/-!
# A stack of machine words

Registers, a stack pointer and a byte memory. Words are pushed downwards, so what was pushed
lies in memory with the last word first; registers pushed in one order and popped in the other
come back as they were.
-/

namespace Lib

namespace Mem

/-- The 64-bit word at address `a`. -/
def word (m : Mem) (a : ℕ) : UInt64 := UInt64.ofNat (m.loadNat a 8)

def storeWord (m : Mem) (a : ℕ) (v : UInt64) : Mem := m.storeNat a 8 v.toNat

/-- The words `vs` lie in memory from address `a` on. -/
def Holds (m : Mem) : ℕ → List UInt64 → Prop
  | _, [] => True
  | a, v :: vs => m.word a = v ∧ Holds m (a + 8) vs

variable {m m' : Mem} {a x : ℕ} {v : UInt64}

theorem word_storeWord : (m.storeWord a v).word a = v := by
  unfold word storeWord
  rw [loadNat_storeNat (show v.toNat < 256 ^ 8 from v.toNat_lt), UInt64.ofNat_toNat]

theorem storeWord_of_outside (h : x < a ∨ a + 8 ≤ x) : m.storeWord a v x = m x :=
  storeNat_of_outside h

theorem word_congr (h : ∀ x, a ≤ x → x < a + 8 → m' x = m x) : m'.word a = m.word a := by
  unfold word
  rw [loadNat_congr fun i hi => h (a + i) (by omega) (by omega)]

theorem Holds.congr {vs : List UInt64} (hm : m.Holds a vs)
    (h : ∀ x, a ≤ x → x < a + 8 * vs.length → m' x = m x) : m'.Holds a vs := by
  induction vs generalizing a with
  | nil => trivial
  | cons v vs ih =>
    rw [List.length_cons] at h
    refine ⟨?_, ih hm.2 fun x h1 h2 => h x (by omega) (by omega)⟩
    rw [word_congr fun x h1 h2 => h x h1 (by omega)]
    exact hm.1

theorem holds_append {vs ws : List UInt64} :
    m.Holds a (vs ++ ws) ↔ m.Holds a vs ∧ m.Holds (a + 8 * vs.length) ws := by
  induction vs generalizing a with
  | nil => simp [Holds]
  | cons v vs ih =>
    have hlen : a + 8 + 8 * vs.length = a + 8 * (v :: vs).length := by
      rw [List.length_cons]; omega
    simp only [List.cons_append, Holds, ih, hlen, and_assoc]

/-- The words `vs` stored from address `a` on. -/
def storeWords (m : Mem) : ℕ → List UInt64 → Mem
  | _, [] => m
  | a, v :: vs => (storeWords m (a + 8) vs).storeWord a v

theorem storeWords_of_outside {vs : List UInt64} (h : x < a ∨ a + 8 * vs.length ≤ x) :
    m.storeWords a vs x = m x := by
  induction vs generalizing a with
  | nil => rfl
  | cons v vs ih =>
    rw [List.length_cons] at h
    rw [storeWords, storeWord_of_outside (by omega), ih (by omega)]

theorem holds_storeWords (vs : List UInt64) : (m.storeWords a vs).Holds a vs := by
  induction vs generalizing a with
  | nil => trivial
  | cons v vs ih =>
    exact ⟨word_storeWord, ih.congr fun x hx _ => storeWord_of_outside (Or.inr hx)⟩

end Mem

/-! ## Registers and the stack -/

structure Core (ρ : Type*) where
  regs : ρ → UInt64
  rsp : UInt64
  mem : Mem

namespace Core

variable {ρ : Type*} {c c' : Core ρ} {v : UInt64} {vs : List UInt64}

def push (c : Core ρ) (v : UInt64) : Core ρ :=
  { c with rsp := c.rsp - 8, mem := c.mem.storeWord (c.rsp - 8).toNat v }

/-- Pushes the registers `rs`, the first one first. -/
def pushes (c : Core ρ) (rs : List ρ) : Core ρ := rs.foldl (fun c r => c.push (c.regs r)) c

def pop [DecidableEq ρ] (c : Core ρ) (r : ρ) : Core ρ :=
  { c with regs := Function.update c.regs r (c.mem.word c.rsp.toNat), rsp := c.rsp + 8 }

def pops [DecidableEq ρ] (c : Core ρ) (rs : List ρ) : Core ρ := rs.foldl pop c

@[simp] theorem pushes_nil (c : Core ρ) : c.pushes [] = c := rfl

@[simp] theorem pushes_cons (c : Core ρ) (r : ρ) (rs : List ρ) :
    c.pushes (r :: rs) = (c.push (c.regs r)).pushes rs := rfl

/-- `c'` is `c` with the words `vs` on its stack, the last one pushed at the head. -/
structure Pushed (c c' : Core ρ) (vs : List UInt64) : Prop where
  regs : c'.regs = c.regs
  rsp : c'.rsp.toNat + 8 * vs.length = c.rsp.toNat
  holds : c'.mem.Holds c'.rsp.toNat vs
  outside : ∀ x, x < c'.rsp.toNat ∨ c.rsp.toNat ≤ x → c'.mem x = c.mem x

theorem Pushed.refl (c : Core ρ) : Pushed c c [] := ⟨rfl, rfl, trivial, fun _ _ => rfl⟩

theorem toNat_sub_eight {a : UInt64} (h : 8 ≤ a.toNat) : (a - 8).toNat = a.toNat - 8 :=
  UInt64.toNat_sub_of_le _ _ (by simpa [UInt64.le_iff_toNat_le] using h)

theorem Pushed.push (h : Pushed c c' vs) (hroom : 8 ≤ c'.rsp.toNat) :
    Pushed c (c'.push v) (v :: vs) := by
  have hsp : (c'.rsp - 8).toNat = c'.rsp.toNat - 8 := toNat_sub_eight hroom
  have hrsp := h.rsp
  refine ⟨h.regs, ?_, ⟨Mem.word_storeWord, ?_⟩, fun x hx => ?_⟩
  · simp only [Core.push, hsp, List.length_cons]
    omega
  · simp only [Core.push, hsp, Nat.sub_add_cancel hroom]
    exact h.holds.congr fun x hx _ => Mem.storeWord_of_outside (Or.inr (by omega))
  · simp only [Core.push, hsp] at hx ⊢
    rw [Mem.storeWord_of_outside (by omega)]
    exact h.outside x (by omega)

theorem Pushed.pushes (h : Pushed c c' vs) (rs : List ρ) (hroom : 8 * rs.length ≤ c'.rsp.toNat) :
    Pushed c (c'.pushes rs) ((rs.map c.regs).reverse ++ vs) := by
  induction rs generalizing c' vs with
  | nil => simpa using h
  | cons r rs ih =>
    rw [List.length_cons] at hroom
    have hstep : Pushed c (c'.push (c'.regs r)) (c.regs r :: vs) := by
      rw [← h.regs]
      exact h.push (by omega)
    have hsp : (c'.push (c'.regs r)).rsp.toNat = c'.rsp.toNat - 8 := toNat_sub_eight (by omega)
    simpa using ih hstep (by omega)

/-- Words are popped into registers; `f` says which word each of them finds. -/
theorem pops_spec [DecidableEq ρ] {f : ρ → UInt64} {rs : List ρ}
    (h : c.mem.Holds c.rsp.toNat (rs.map f)) (htop : c.rsp.toNat + 8 * rs.length < 2 ^ 64) :
    (c.pops rs).mem = c.mem ∧ (c.pops rs).rsp.toNat = c.rsp.toNat + 8 * rs.length ∧
      ∀ r, (c.pops rs).regs r = if r ∈ rs then f r else c.regs r := by
  induction rs generalizing c with
  | nil => exact ⟨rfl, rfl, fun _ => rfl⟩
  | cons q rs ih =>
    rw [List.length_cons] at htop
    have hsp : (c.pop q).rsp.toNat = c.rsp.toNat + 8 := by
      simp only [pop, UInt64.toNat_add]
      exact Nat.mod_eq_of_lt (by simp; omega)
    obtain ⟨hmem, hrsp, hregs⟩ := ih (c := c.pop q) (by rw [hsp]; exact h.2) (by omega)
    refine ⟨hmem, ?_, fun r => ?_⟩
    · rw [List.length_cons]
      exact hrsp.trans (by omega)
    · refine (hregs r).trans ?_
      have hq : (c.pop q).regs r = if r = q then f q else c.regs r := by
        simp only [pop, Function.update_apply, h.1]
      rw [hq]
      by_cases hr : r ∈ rs
      · simp [hr]
      · by_cases hrq : r = q
        · simp [hrq]
        · simp [hr, hrq]

end Core

end Lib
