import QuillOS.Lib.ByteMemory

/-!
# Traced buffer accesses

A parser over a byte buffer, written in a monad that records which byte ranges it touches and
the exact value of every unsigned difference it forms. A parse stays inside a buffer of `n` bytes
when every recorded access does.
-/

namespace Lib

inductive Access
  /-- The bytes `off, …, off + count - 1` are read or handed on. -/
  | range (off count : ℕ)
  /-- An unsigned difference was formed whose exact value is `value`. -/
  | length (value : ℤ)
  deriving DecidableEq, Repr

/-- The access lies inside a buffer of `n` bytes, respectively did not wrap below zero. -/
def Access.Within (n : ℕ) : Access → Prop
  | .range off count => off + count ≤ n
  | .length value => 0 ≤ value

instance (n : ℕ) (a : Access) : Decidable (a.Within n) := by
  cases a <;> unfold Access.Within <;> infer_instance

/-- A result together with the accesses made on the way to it. -/
structure Traced (α : Type*) where
  val : α
  log : List Access

namespace Traced

instance : Monad Traced where
  pure a := ⟨a, []⟩
  bind x f := ⟨(f x.val).val, x.log ++ (f x.val).log⟩

def touch (off count : ℕ) : Traced Unit := ⟨(), [.range off count]⟩

/-- The 16-bit difference `a - b` as the machine computes it. -/
def sub16 (a b : UInt16) : Traced UInt16 := ⟨a - b, [.length ((a.toNat : ℤ) - b.toNat)]⟩

def read8 (buf : ℕ → UInt8) (off : ℕ) : Traced UInt8 := ⟨buf off, [.range off 1]⟩

/-- A little-endian load. -/
def read16 (buf : ℕ → UInt8) (off : ℕ) : Traced UInt16 :=
  ⟨(buf off).toUInt16 ||| (buf (off + 1)).toUInt16 <<< 8, [.range off 2]⟩

def read32 (buf : ℕ → UInt8) (off : ℕ) : Traced UInt32 :=
  ⟨(buf off).toUInt32 ||| (buf (off + 1)).toUInt32 <<< 8 ||| (buf (off + 2)).toUInt32 <<< 16 |||
    (buf (off + 3)).toUInt32 <<< 24, [.range off 4]⟩

def readBytes (buf : ℕ → UInt8) (off count : ℕ) : Traced (List UInt8) :=
  ⟨(List.range count).map fun i => buf (off + i), [.range off count]⟩

/-- Every access of `x` stays inside a buffer of `n` bytes. -/
def Within (n : ℕ) {α : Type*} (x : Traced α) : Prop := ∀ a ∈ x.log, a.Within n

instance (n : ℕ) {α : Type*} (x : Traced α) : Decidable (x.Within n) :=
  inferInstanceAs (Decidable (∀ a ∈ x.log, a.Within n))

variable {α β : Type} {n : ℕ}

@[simp] theorem bind_val (x : Traced α) (f : α → Traced β) : (x >>= f).val = (f x.val).val := rfl

@[simp] theorem within_pure (a : α) : (pure a : Traced α).Within n := by
  intro x hx; cases hx

@[simp] theorem within_bind (x : Traced α) (f : α → Traced β) :
    (x >>= f).Within n ↔ x.Within n ∧ (f x.val).Within n :=
  List.forall_mem_append

@[simp] theorem within_touch (off count : ℕ) : (touch off count).Within n ↔ off + count ≤ n := by
  simp [Within, touch, Access.Within]

@[simp] theorem within_sub16 (a b : UInt16) : (sub16 a b).Within n ↔ b.toNat ≤ a.toNat := by
  simp [Within, sub16, Access.Within]

@[simp] theorem sub16_val (a b : UInt16) : (sub16 a b).val = a - b := rfl

@[simp] theorem within_read8 (buf : ℕ → UInt8) (off : ℕ) :
    (read8 buf off).Within n ↔ off + 1 ≤ n := by
  simp [Within, read8, Access.Within]

@[simp] theorem within_read16 (buf : ℕ → UInt8) (off : ℕ) :
    (read16 buf off).Within n ↔ off + 2 ≤ n := by
  simp [Within, read16, Access.Within]

@[simp] theorem within_read32 (buf : ℕ → UInt8) (off : ℕ) :
    (read32 buf off).Within n ↔ off + 4 ≤ n := by
  simp [Within, read32, Access.Within]

@[simp] theorem within_readBytes (buf : ℕ → UInt8) (off count : ℕ) :
    (readBytes buf off count).Within n ↔ off + count ≤ n := by
  simp [Within, readBytes, Access.Within]

/-! A loop that carries a value from turn to turn. -/

theorem foldlM_val (f : β → α → Traced β) (l : List α) (b : β) :
    (l.foldlM f b).val = l.foldl (fun b a => (f b a).val) b := by
  induction l generalizing b with
  | nil => rfl
  | cons a l ih => rw [List.foldlM_cons, bind_val, ih, List.foldl_cons]

/-- A loop stays inside the buffer when each of its turns does. -/
theorem within_foldlM {f : β → α → Traced β} {l : List α}
    (h : ∀ b, ∀ a ∈ l, (f b a).Within n) (b : β) : (l.foldlM f b).Within n := by
  induction l generalizing b with
  | nil => exact within_pure b
  | cons a l ih =>
    rw [List.foldlM_cons, within_bind]
    exact ⟨h b a List.mem_cons_self, ih (fun b a ha => h b a (List.mem_cons_of_mem _ ha)) _⟩

end Traced

/-! ## Stored bytes -/

/-- The bytes `bs` lie in the buffer from offset `off` on. -/
def Stored (buf : ℕ → UInt8) (off : ℕ) (bs : List UInt8) : Prop :=
  ∀ i (h : i < bs.length), buf (off + i) = bs[i]

theorem stored_append {buf : ℕ → UInt8} {off : ℕ} {as bs : List UInt8} :
    Stored buf off (as ++ bs) ↔ Stored buf off as ∧ Stored buf (off + as.length) bs := by
  constructor
  · intro h
    refine ⟨fun i hi => ?_, fun i hi => ?_⟩
    · rw [h i (by rw [List.length_append]; omega), List.getElem_append_left hi]
    · have hlt : as.length + i < (as ++ bs).length := by rw [List.length_append]; omega
      rw [Nat.add_assoc, h _ hlt, List.getElem_append_right (by omega)]
      simp
  · rintro ⟨ha, hb⟩ i hi
    rcases Nat.lt_or_ge i as.length with hlt | hge
    · rw [ha i hlt, List.getElem_append_left hlt]
    · rw [List.getElem_append_right hge, ← hb]
      congr 1
      omega

theorem Stored.byte {buf : ℕ → UInt8} {off : ℕ} {b : UInt8} {bs : List UInt8}
    (h : Stored buf off (b :: bs)) : (Traced.read8 buf off).val = b := h 0 (Nat.succ_pos _)

theorem Stored.tail {buf : ℕ → UInt8} {off : ℕ} {b : UInt8} {bs : List UInt8}
    (h : Stored buf off (b :: bs)) : Stored buf (off + 1) bs := by
  intro i hi
  rw [show off + 1 + i = off + (i + 1) by omega]
  exact h (i + 1) (Nat.succ_lt_succ hi)

/-- A stored word of 16 bits is loaded as it was. -/
theorem Stored.word16 {buf : ℕ → UInt8} {off : ℕ} {x : UInt16}
    (h : Stored buf off [x.toUInt8, (x >>> 8).toUInt8]) : (Traced.read16 buf off).val = x := by
  have h0 : buf off = x.toUInt8 := h.byte
  have h1 : buf (off + 1) = (x >>> 8).toUInt8 := h.tail.byte
  change (buf off).toUInt16 ||| (buf (off + 1)).toUInt16 <<< 8 = x
  rw [h0, h1]
  apply UInt16.toBitVec_inj.mp
  change ((x.toBitVec.setWidth 8).setWidth 16 |||
    ((x.toBitVec >>> 8).setWidth 8).setWidth 16 <<< 8) = x.toBitVec
  ext i hi
  simp only [BitVec.getElem_or, BitVec.getElem_setWidth, BitVec.getElem_shiftLeft,
    BitVec.getLsbD_setWidth, BitVec.getLsbD_ushiftRight]
  grind

/-- A stored word of 32 bits is loaded as it was. -/
theorem Stored.word32 {buf : ℕ → UInt8} {off : ℕ} {x : UInt32}
    (h : Stored buf off
      [x.toUInt8, (x >>> 8).toUInt8, (x >>> 16).toUInt8, (x >>> 24).toUInt8]) :
    (Traced.read32 buf off).val = x := by
  have h0 : buf off = x.toUInt8 := h.byte
  have h1 : buf (off + 1) = (x >>> 8).toUInt8 := h.tail.byte
  have h2 : buf (off + 2) = (x >>> 16).toUInt8 := h.tail.tail.byte
  have h3 : buf (off + 3) = (x >>> 24).toUInt8 := h.tail.tail.tail.byte
  change (buf off).toUInt32 ||| (buf (off + 1)).toUInt32 <<< 8 ||| (buf (off + 2)).toUInt32 <<< 16 |||
    (buf (off + 3)).toUInt32 <<< 24 = x
  rw [h0, h1, h2, h3]
  apply UInt32.toBitVec_inj.mp
  change ((x.toBitVec.setWidth 8).setWidth 32 ||| ((x.toBitVec >>> 8).setWidth 8).setWidth 32 <<< 8 |||
    ((x.toBitVec >>> 16).setWidth 8).setWidth 32 <<< 16 |||
    ((x.toBitVec >>> 24).setWidth 8).setWidth 32 <<< 24) = x.toBitVec
  ext i hi
  simp only [BitVec.getElem_or, BitVec.getElem_setWidth, BitVec.getElem_shiftLeft,
    BitVec.getLsbD_setWidth, BitVec.getLsbD_ushiftRight]
  grind

/-- A load takes the first four bytes of those that are loaded. -/
theorem read32_eq_readLe32 (buf : ℕ → UInt8) {off count : ℕ} (h : 4 ≤ count) :
    (Traced.read32 buf off).val = readLe32 (Mem.load buf off count) := by
  have hbytes : (Mem.load buf off count).take 4 =
      [buf off, buf (off + 1), buf (off + 2), buf (off + 3)] := by
    rw [Mem.take_load, min_eq_left h]
    rfl
  unfold readLe32
  rw [hbytes]
  apply Stored.word32
  have h0 := (buf off).toNat_lt
  have h1 := (buf (off + 1)).toNat_lt
  have h2 := (buf (off + 2)).toNat_lt
  have h3 := (buf (off + 3)).toNat_lt
  have hval : (UInt32.ofNat (leValue [buf off, buf (off + 1), buf (off + 2), buf (off + 3)])).toNat =
      (buf off).toNat + 256 * ((buf (off + 1)).toNat + 256 * ((buf (off + 2)).toNat +
        256 * (buf (off + 3)).toNat)) := by
    rw [UInt32.toNat_ofNat', Nat.mod_eq_of_lt (by simp only [leValue]; omega)]
    simp only [leValue]
    omega
  generalize UInt32.ofNat _ = x at hval
  have hbyte1 : (x >>> 8).toUInt8.toNat = x.toNat / 256 % 256 := by
    simp [Nat.shiftRight_eq_div_pow]
  have hbyte2 : (x >>> 16).toUInt8.toNat = x.toNat / 65536 % 256 := by
    simp [Nat.shiftRight_eq_div_pow]
  have hbyte3 : (x >>> 24).toUInt8.toNat = x.toNat / 16777216 % 256 := by
    simp [Nat.shiftRight_eq_div_pow]
  intro i hi
  apply UInt8.toNat_inj.mp
  rcases i with _ | _ | _ | _ | i
  · change (buf off).toNat = x.toUInt8.toNat
    rw [UInt32.toNat_toUInt8]
    omega
  · change (buf (off + 1)).toNat = (x >>> 8).toUInt8.toNat
    omega
  · change (buf (off + 2)).toNat = (x >>> 16).toUInt8.toNat
    omega
  · change (buf (off + 3)).toNat = (x >>> 24).toUInt8.toNat
    omega
  · exact absurd hi (by simp)

end Lib
