import Mathlib.Tactic

/-!
# Little-endian numbers

A number written as a fixed count of bytes, least significant first, and read back.
-/

namespace Lib

/-- The low `k` bytes of `n`. -/
def leBytes : ℕ → ℕ → List UInt8
  | 0, _ => []
  | k + 1, n => UInt8.ofNat n :: leBytes k (n / 256)

def leValue : List UInt8 → ℕ
  | [] => 0
  | b :: bs => b.toNat + 256 * leValue bs

@[simp] theorem length_leBytes (k n : ℕ) : (leBytes k n).length = k := by
  induction k generalizing n with
  | zero => rfl
  | succ k ih => simp [leBytes, ih]

/-- What is read back is the number reduced to the bytes written. -/
theorem leValue_leBytes (k n : ℕ) : leValue (leBytes k n) = n % 256 ^ k := by
  induction k generalizing n with
  | zero => simp [leBytes, leValue, Nat.mod_one]
  | succ k ih =>
    have hbyte : (UInt8.ofNat n).toNat = n % 256 := by simp
    rw [leBytes, leValue, ih, hbyte, pow_succ', Nat.mod_mul]

theorem leValue_lt (l : List UInt8) : leValue l < 256 ^ l.length := by
  induction l with
  | nil => simp [leValue]
  | cons b bs ih =>
    have hb := b.toNat_lt
    rw [leValue, List.length_cons, pow_succ]
    omega

/-- The low bytes stand for the number reduced to them. -/
theorem leValue_take (l : List UInt8) (j : ℕ) : leValue (l.take j) = leValue l % 256 ^ j := by
  induction j generalizing l with
  | zero => simp [leValue, Nat.mod_one]
  | succ j ih =>
    cases l with
    | nil => simp [leValue]
    | cons b bs =>
      have hb := b.toNat_lt
      have hlow : (b.toNat + 256 * leValue bs) % 256 = b.toNat := by omega
      have hhigh : (b.toNat + 256 * leValue bs) / 256 = leValue bs := by omega
      rw [List.take_succ_cons, leValue, leValue, ih, pow_succ', Nat.mod_mul, hlow, hhigh]

/-- Bytes are what their value is written as. -/
theorem leBytes_leValue (l : List UInt8) : leBytes l.length (leValue l) = l := by
  induction l with
  | nil => rfl
  | cons b bs ih =>
    have hb := b.toNat_lt
    have hbyte : UInt8.ofNat (b.toNat + 256 * leValue bs) = b := by
      apply UInt8.toNat_inj.mp
      rw [UInt8.toNat_ofNat']
      omega
    rw [leValue, List.length_cons, leBytes, hbyte, Nat.add_mul_div_left _ _ (by omega),
      Nat.div_eq_of_lt (by omega), Nat.zero_add, ih]

/-! ## Words of 16 bits -/

/-- Two bytes put together are the number they stand for. -/
theorem toNat_word16 (lo hi : UInt8) :
    (lo.toUInt16 ||| hi.toUInt16 <<< 8).toNat = lo.toNat + 256 * hi.toNat := by
  have hlo := lo.toNat_lt
  have hhi := hi.toNat_lt
  have hshift : (hi.toUInt16 <<< 8).toNat = 2 ^ 8 * hi.toNat := by
    simp [Nat.shiftLeft_eq]
    omega
  rw [UInt16.toNat_or, hshift, Nat.or_comm, ← Nat.two_pow_add_eq_or_of_lt (by simpa using hlo)]
  simp
  omega

/-! ## Words of 32 bits -/

def le32 (x : UInt32) : List UInt8 := leBytes 4 x.toNat

def readLe32 (l : List UInt8) : UInt32 := UInt32.ofNat (leValue (l.take 4))

@[simp] theorem length_le32 (x : UInt32) : (le32 x).length = 4 := length_leBytes 4 _

theorem readLe32_append (x : UInt32) (l : List UInt8) : readLe32 (le32 x ++ l) = x := by
  unfold readLe32
  rw [List.take_left' (length_le32 x), le32, leValue_leBytes,
    Nat.mod_eq_of_lt (show x.toNat < 256 ^ 4 from x.toNat_lt)]
  exact UInt32.ofNat_toNat

theorem readLe32_le32 (x : UInt32) : readLe32 (le32 x) = x := by
  simpa using readLe32_append x []

end Lib
