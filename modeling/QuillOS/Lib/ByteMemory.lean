import Mathlib.Data.Nat.Count
import QuillOS.Lib.LittleEndian

/-!
# Byte memory

A memory is a function from addresses to bytes. Stores change a range of addresses and nothing
else; numbers are stored little-endian; a bit array keeps eight bits to the byte.
-/

namespace Lib

abbrev Mem := ℕ → UInt8

namespace Mem

/-- The bytes `l` written from address `a` on. -/
def store (m : Mem) (a : ℕ) (l : List UInt8) : Mem :=
  fun x => if a ≤ x ∧ x < a + l.length then l.getD (x - a) 0 else m x

def load (m : Mem) (a k : ℕ) : List UInt8 := (List.range k).map fun i => m (a + i)

def storeNat (m : Mem) (a k n : ℕ) : Mem := m.store a (leBytes k n)

def loadNat (m : Mem) (a k : ℕ) : ℕ := leValue (m.load a k)

/-- The bytes of `[a, a + n)` all set to `v`. -/
def fill (m : Mem) (a n : ℕ) (v : UInt8) : Mem := fun x => if a ≤ x ∧ x < a + n then v else m x

variable {m m' : Mem} {a b k n x : ℕ}

theorem store_of_outside {l : List UInt8} (h : x < a ∨ a + l.length ≤ x) : m.store a l x = m x := by
  unfold store
  rw [if_neg (by omega)]

theorem storeNat_of_outside (h : x < a ∨ a + k ≤ x) : m.storeNat a k n x = m x := by
  unfold storeNat
  apply store_of_outside
  rwa [length_leBytes]

theorem fill_of_outside {v : UInt8} (h : x < a ∨ a + n ≤ x) : m.fill a n v x = m x := by
  unfold fill
  rw [if_neg (by omega)]

theorem fill_of_inside {v : UInt8} (h : a ≤ x) (h' : x < a + n) : m.fill a n v x = v := by
  unfold fill
  rw [if_pos ⟨h, h'⟩]

theorem load_congr (h : ∀ i < k, m' (a + i) = m (a + i)) : m'.load a k = m.load a k := by
  unfold load
  apply List.map_congr_left
  intro i hi
  exact h i (List.mem_range.mp hi)

theorem loadNat_congr (h : ∀ i < k, m' (a + i) = m (a + i)) : m'.loadNat a k = m.loadNat a k := by
  unfold loadNat
  rw [load_congr h]

/-! What is loaded, as a list. -/

@[simp] theorem length_load (m : Mem) (a k : ℕ) : (m.load a k).length = k := by simp [load]

theorem load_succ (m : Mem) (a k : ℕ) : m.load a (k + 1) = m a :: m.load (a + 1) k := by
  unfold load
  rw [List.range_succ_eq_map, List.map_cons, List.map_map]
  refine congrArg (m a :: ·) (List.map_congr_left fun i _ => ?_)
  simp only [Function.comp_apply, Nat.succ_eq_add_one]
  congr 1
  omega

theorem load_snoc (m : Mem) (a k : ℕ) : m.load a (k + 1) = m.load a k ++ [m (a + k)] := by
  unfold load
  rw [List.range_succ, List.map_append, List.map_singleton]

theorem take_load (m : Mem) (a k j : ℕ) : (m.load a k).take j = m.load a (min j k) := by
  unfold load
  rw [← List.map_take, List.take_range]

theorem drop_load (m : Mem) (a k j : ℕ) : (m.load a k).drop j = m.load (a + j) (k - j) := by
  apply List.ext_getElem
  · simp
  · intro i h1 h2
    simp only [load, List.getElem_drop, List.getElem_map, List.getElem_range]
    congr 1
    omega

theorem load_store (l : List UInt8) : (m.store a l).load a l.length = l := by
  apply List.ext_getElem
  · simp [load]
  · intro i _ hi
    simp [load, store, hi]

/-- A number that fits is read back as it was stored. -/
theorem load_store_of_disjoint {l : List UInt8} (h : b + k ≤ a ∨ a + l.length ≤ b) :
    (m.store a l).load b k = m.load b k :=
  load_congr fun _ _ => store_of_outside (by omega)

/-- A part of what was stored. -/
theorem load_store_inside {l : List UInt8} {j : ℕ} (h : j + k ≤ l.length) :
    (m.store a l).load (a + j) k = (l.drop j).take k := by
  have hall := load_store (m := m) (a := a) l
  rw [← hall, drop_load, take_load, hall, min_eq_left (by omega)]

theorem loadNat_storeNat (h : n < 256 ^ k) : (m.storeNat a k n).loadNat a k = n := by
  have hload : (m.storeNat a k n).load a k = leBytes k n := by
    have := load_store (m := m) (a := a) (leBytes k n)
    rwa [length_leBytes] at this
  unfold loadNat
  rw [hload, leValue_leBytes, Nat.mod_eq_of_lt h]

/-- The low bytes of a number in memory. -/
theorem loadNat_mod {j : ℕ} (h : j ≤ k) : m.loadNat a k % 256 ^ j = m.loadNat a j := by
  unfold loadNat
  rw [← leValue_take, take_load, min_eq_left h]

theorem loadNat_storeNat_of_disjoint {j : ℕ} (h : a + k ≤ b ∨ b + j ≤ a) :
    (m.storeNat b j n).loadNat a k = m.loadNat a k := by
  apply loadNat_congr
  intro i hi
  apply storeNat_of_outside
  omega

end Mem

/-! ## Bits of a byte -/

/-- The mask of bit `i` inside its byte. -/
def bitMask (i : ℕ) : UInt8 := 1 <<< UInt8.ofNat (i % 8)

theorem bitMask_toBitVec (i : ℕ) : (bitMask i).toBitVec = 1#8 <<< (i % 8) := by
  unfold bitMask
  simp [UInt8.toBitVec_shiftLeft]

theorem getLsbD_bitMask (i j : ℕ) :
    (bitMask i).toBitVec.getLsbD (j % 8) = decide (i % 8 = j % 8) := by
  rw [bitMask_toBitVec]
  simp [BitVec.getLsbD_shiftLeft]
  grind

theorem and_mask_eq_zero (v : BitVec 8) (j : ℕ) (hj : j < 8) :
    v &&& 1#8 <<< j = 0#8 ↔ v.getLsbD j = false := by
  constructor
  · intro h
    have hbit := congrArg (fun w : BitVec 8 => w.getLsbD j) h
    simpa [BitVec.getLsbD_shiftLeft, hj] using hbit
  · intro h
    apply BitVec.eq_of_getLsbD_eq
    intro i hi
    by_cases hij : i = j
    · rw [hij, BitVec.getLsbD_and, h, Bool.false_and]
      simp
    · simp only [BitVec.getLsbD_and, BitVec.getLsbD_shiftLeft, BitVec.getLsbD_zero]
      grind

/-- Masking reads one bit of the byte. -/
theorem and_bitMask (v : UInt8) (j : ℕ) : (v &&& bitMask j != 0) = v.toBitVec.getLsbD (j % 8) := by
  have hj : j % 8 < 8 := Nat.mod_lt _ (by decide)
  have h : v &&& bitMask j = 0 ↔ v.toBitVec.getLsbD (j % 8) = false := by
    rw [← and_mask_eq_zero v.toBitVec (j % 8) hj, ← bitMask_toBitVec, ← UInt8.toBitVec_and]
    exact UInt8.toBitVec_inj.symm
  grind

theorem or_bitMask (v : UInt8) (i j : ℕ) : ((v ||| bitMask i) &&& bitMask j != 0) =
    (decide (i % 8 = j % 8) || (v &&& bitMask j != 0)) := by
  rw [and_bitMask, and_bitMask, UInt8.toBitVec_or, BitVec.getLsbD_or, getLsbD_bitMask, Bool.or_comm]

theorem and_not_bitMask (v : UInt8) (i j : ℕ) : ((v &&& ~~~bitMask i) &&& bitMask j != 0) =
    (!decide (i % 8 = j % 8) && (v &&& bitMask j != 0)) := by
  have hj : j % 8 < 8 := Nat.mod_lt _ (by decide)
  rw [and_bitMask, and_bitMask, UInt8.toBitVec_and, UInt8.toBitVec_not, BitVec.getLsbD_and,
    BitVec.getLsbD_not, getLsbD_bitMask, Bool.and_comm, decide_eq_true hj, Bool.true_and]

/-! ## Bit arrays -/

namespace Mem

variable {m m' : Mem} {a i j x : ℕ}

def setBit (m : Mem) (a i : ℕ) : Mem := m.store (a + i / 8) [m (a + i / 8) ||| bitMask i]

def clearBit (m : Mem) (a i : ℕ) : Mem := m.store (a + i / 8) [m (a + i / 8) &&& ~~~bitMask i]

def testBit (m : Mem) (a i : ℕ) : Bool := m (a + i / 8) &&& bitMask i != 0

theorem setBit_of_ne (h : x ≠ a + i / 8) : m.setBit a i x = m x := by
  unfold setBit
  apply store_of_outside
  simp only [List.length_singleton]
  omega

theorem clearBit_of_ne (h : x ≠ a + i / 8) : m.clearBit a i x = m x := by
  unfold clearBit
  apply store_of_outside
  simp only [List.length_singleton]
  omega

theorem testBit_congr (h : m' (a + j / 8) = m (a + j / 8)) : m'.testBit a j = m.testBit a j := by
  unfold testBit
  rw [h]

@[simp] theorem store_singleton (v : UInt8) : m.store a [v] a = v := by
  simp [store]

/-- Bits in one byte are the same exactly when their positions are. -/
theorem mod_eq_iff_of_div_eq (h : i / 8 = j / 8) : i % 8 = j % 8 ↔ i = j := by
  omega

@[simp] theorem testBit_setBit : (m.setBit a i).testBit a j = (decide (i = j) || m.testBit a j) := by
  by_cases h : i / 8 = j / 8
  · unfold setBit testBit
    rw [h, store_singleton, or_bitMask]
    simp only [mod_eq_iff_of_div_eq h]
  · have hij : i ≠ j := fun hij => h (by rw [hij])
    rw [testBit_congr (setBit_of_ne (by omega)), decide_eq_false hij, Bool.false_or]

@[simp] theorem testBit_clearBit :
    (m.clearBit a i).testBit a j = (!decide (i = j) && m.testBit a j) := by
  by_cases h : i / 8 = j / 8
  · unfold clearBit testBit
    rw [h, store_singleton, and_not_bitMask]
    simp only [mod_eq_iff_of_div_eq h]
  · have hij : i ≠ j := fun hij => h (by rw [hij])
    rw [testBit_congr (clearBit_of_ne (by omega)), decide_eq_false hij, Bool.not_false,
      Bool.true_and]

/-- A range of bytes filled with ones has all its bits set. -/
theorem testBit_fill_ones {n : ℕ} (h : j / 8 < n) : (m.fill a n 0xFF).testBit a j = true := by
  have hones : ∀ k < 8, (0xFF : UInt8).toBitVec.getLsbD k = true := by decide
  unfold testBit
  rw [fill_of_inside (by omega) (by omega), and_bitMask]
  exact hones _ (Nat.mod_lt _ (by decide))

/-! ## Counting bits -/

/-- The number of set bits among the first `n`. -/
def countBits (m : Mem) (a n : ℕ) : ℕ := n.count fun i => m.testBit a i = true

variable {n : ℕ}

theorem countBits_succ : m.countBits a (n + 1) =
    m.countBits a n + if m.testBit a n = true then 1 else 0 :=
  Nat.count_succ _ n

theorem countBits_congr (h : ∀ j < n, m'.testBit a j = m.testBit a j) :
    m'.countBits a n = m.countBits a n := by
  induction n with
  | zero => rfl
  | succ n ih =>
    rw [countBits_succ, countBits_succ, h n (Nat.lt_succ_self n),
      ih fun j hj => h j (Nat.lt_succ_of_lt hj)]

theorem countBits_le : m.countBits a n ≤ n := Nat.count_le _

theorem countBits_of_all (h : ∀ j < n, m.testBit a j = true) : m.countBits a n = n :=
  Nat.count_iff_forall.mpr h

/-- A clear bit leaves the count below the number of bits. -/
theorem countBits_lt (hi : i < n) (hclear : m.testBit a i = false) : m.countBits a n < n := by
  refine lt_of_le_of_ne countBits_le fun heq => ?_
  have hset := Nat.count_iff_forall.mp heq i hi
  rw [hclear] at hset
  cases hset

theorem countBits_setBit (hi : i < n) (hclear : m.testBit a i = false) :
    (m.setBit a i).countBits a n = m.countBits a n + 1 := by
  induction n with
  | zero => exact absurd hi (Nat.not_lt_zero i)
  | succ n ih =>
    rw [countBits_succ, countBits_succ, testBit_setBit]
    by_cases hin : i = n
    · have hsame : (m.setBit a i).countBits a n = m.countBits a n := by
        apply countBits_congr
        intro j hj
        rw [testBit_setBit, decide_eq_false (by omega), Bool.false_or]
      rw [hsame, ← hin, decide_eq_true rfl, Bool.true_or, hclear]
      rfl
    · rw [ih (by omega), decide_eq_false hin, Bool.false_or]
      omega

theorem countBits_clearBit (hi : i < n) (hset : m.testBit a i = true) :
    (m.clearBit a i).countBits a n + 1 = m.countBits a n := by
  -- Setting the bit again counts it once more.
  have hclear : (m.clearBit a i).testBit a i = false := by
    rw [testBit_clearBit, decide_eq_true rfl]
    rfl
  rw [← countBits_setBit hi hclear]
  apply countBits_congr
  intro j hj
  rw [testBit_setBit, testBit_clearBit]
  by_cases hij : i = j
  · rw [← hij, hset, decide_eq_true rfl]
    rfl
  · rw [decide_eq_false hij]
    simp

end Mem

end Lib
