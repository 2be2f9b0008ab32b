import Mathlib.Data.Nat.ModEq
import Mathlib.Tactic

/-!
# One's complement sums

Words are numbers up to `m`, the word of all ones, and are added with the carry added back. A sum of
words is determined by its residue modulo `m`, but that zero and `m` stand for the same residue: the
sum is zero if all words are, and never otherwise.
-/

namespace Lib.OnesComplement

variable {m n r a b k : ℕ} {words : List ℕ}

/-- The sum of two words, with the carry added back. -/
def add (m a b : ℕ) : ℕ := if a + b ≤ m then a + b else a + b - m

def sum (m : ℕ) (words : List ℕ) : ℕ := words.foldl (add m) 0

/-- The word a sum comes to: zero, or its residue from `1` to `m`. -/
def residue (m n : ℕ) : ℕ := if n = 0 then 0 else (n - 1) % m + 1

theorem residue_le (hm : 0 < m) (n : ℕ) : residue m n ≤ m := by
  have hmod := Nat.mod_lt (n - 1) hm
  unfold residue
  split_ifs
  all_goals omega

theorem residue_eq_zero_iff : residue m n = 0 ↔ n = 0 := by
  unfold residue
  split_ifs with hn
  · exact iff_of_true rfl hn
  · exact iff_of_false nofun hn

theorem residue_modEq (m n : ℕ) : residue m n ≡ n [MOD m] := by
  unfold residue
  split_ifs with hn
  · rw [hn]
  · calc (n - 1) % m + 1 ≡ n - 1 + 1 [MOD m] := (Nat.mod_modEq _ _).add_right 1
      _ = n := Nat.sub_add_cancel (Nat.pos_of_ne_zero hn)

/-- The word of a sum is the only one with its residue and its zero. -/
theorem residue_eq (hr : r ≤ m) (hmod : r ≡ n [MOD m]) (hzero : r = 0 ↔ n = 0) :
    residue m n = r := by
  unfold residue
  split_ifs with hn
  · exact (hzero.mpr hn).symm
  · have hpos : 0 < r := Nat.pos_of_ne_zero (mt hzero.mp hn)
    have hpred : n - 1 ≡ r - 1 [MOD m] := by
      apply Nat.ModEq.add_right_cancel' 1
      rw [Nat.sub_add_cancel hpos, Nat.sub_add_cancel (Nat.pos_of_ne_zero hn)]
      exact hmod.symm
    have hlow : (n - 1) % m = r - 1 := Nat.mod_eq_of_modEq hpred (by omega)
    omega

theorem residue_of_le (hn : n ≤ m) : residue m n = n := residue_eq hn rfl Iff.rfl

theorem residue_congr (hm : 0 < m) (hmod : a ≡ b [MOD m]) (hzero : a = 0 ↔ b = 0) :
    residue m a = residue m b :=
  residue_eq (residue_le hm b) ((residue_modEq m b).trans hmod.symm)
    (residue_eq_zero_iff.trans hzero.symm)

theorem residue_add (hm : 0 < m) (a b : ℕ) : residue m (residue m a + b) = residue m (a + b) := by
  apply residue_congr hm ((residue_modEq m a).add_right b)
  rw [Nat.add_eq_zero_iff, residue_eq_zero_iff, Nat.add_eq_zero_iff]

/-- Adding the carry of a sum back does not change the word it comes to. -/
theorem residue_carry (hm : 0 < m) (n : ℕ) :
    residue m (n % (m + 1) + n / (m + 1)) = residue m n := by
  have hdiv := Nat.mod_add_div n (m + 1)
  apply residue_congr hm
  · calc n % (m + 1) + n / (m + 1) ≡ n % (m + 1) + n / (m + 1) + m * (n / (m + 1)) [MOD m] := by
          rw [Nat.ModEq, Nat.add_mul_mod_self_left]
      _ = n % (m + 1) + (m + 1) * (n / (m + 1)) := by ring
      _ = n := hdiv
  · constructor
    · intro h
      rw [Nat.add_eq_zero_iff] at h
      rw [← hdiv, h.1, h.2]
      rfl
    · rintro rfl
      rw [Nat.zero_mod, Nat.zero_div]

theorem add_eq (ha : a ≤ m) (hb : b ≤ m) : add m a b = residue m (a + b) := by
  symm
  unfold add
  split_ifs with hsum
  · exact residue_of_le hsum
  · apply residue_eq
    · omega
    · rw [Nat.ModEq, ← Nat.mod_eq_sub_mod (by omega)]
    · omega

/-- The sum of words comes to the word of the sum of their values. -/
theorem sum_eq (hm : 0 < m) (hwords : ∀ w ∈ words, w ≤ m) : sum m words = residue m words.sum := by
  unfold sum
  induction words using List.reverseRecOn with
  | nil => rfl
  | append_singleton words w ih =>
    rw [List.forall_mem_append, List.forall_mem_singleton] at hwords
    rw [List.foldl_append, List.foldl_cons, List.foldl_nil, ih hwords.1,
      add_eq (residue_le hm _) hwords.2, residue_add hm, List.sum_append, List.sum_singleton]

/-! ## Checking a sum -/

/-- A sum comes to all ones if it is a multiple of `m`, but not zero. -/
theorem residue_eq_top_iff (hm : 0 < m) : residue m n = m ↔ n ≠ 0 ∧ m ∣ n := by
  constructor
  · intro h
    refine ⟨fun hn => ?_, ?_⟩
    · rw [residue_eq_zero_iff.mpr hn] at h
      omega
    · have hmod := residue_modEq m n
      rw [h] at hmod
      exact (Nat.modEq_zero_iff_dvd.mp (hmod.symm.trans (by simp [Nat.ModEq])))
  · rintro ⟨hn, hdvd⟩
    refine residue_eq le_rfl ?_ ?_
    · rw [Nat.ModEq, Nat.mod_self, Nat.mod_eq_zero_of_dvd hdvd]
    · omega

/-- A sum and its complement come to all ones. -/
theorem residue_complement (hm : 0 < m) (n : ℕ) : residue m (n + (m - residue m n)) = m := by
  have hle := residue_le hm n
  rw [← residue_add hm, Nat.add_sub_cancel' hle, residue_of_le le_rfl]

/-- Whether a sum comes to all ones does not depend on a factor prime to `m`, such as the one by
which the bytes of the words change places. -/
theorem residue_eq_top_congr (hm : 0 < m) (hk : Nat.Coprime m k) (hmod : k * a ≡ b [MOD m])
    (hzero : a = 0 ↔ b = 0) : residue m a = m ↔ residue m b = m := by
  rw [residue_eq_top_iff hm, residue_eq_top_iff hm, ← hmod.dvd_iff dvd_rfl, hk.dvd_mul_left,
    ne_eq, hzero]

end Lib.OnesComplement
