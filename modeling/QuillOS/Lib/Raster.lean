import Mathlib.Data.List.Range
import Mathlib.Logic.Function.Basic
import Mathlib.Tactic.Common

/-!
# Pictures in a linear memory

A picture lies in memory row by row, `p` words to a row. Loops over rows and columns in this order
run through consecutive words, so that filling the picture and moving it up are loops over an
interval.
-/

namespace Lib.Raster

variable {α β : Type*}

/-- The word of a pixel. -/
def word (p x y : ℕ) : ℕ := y * p + x

theorem word_inj {p x y x' y' : ℕ} (hx : x < p) (hx' : x' < p) (h : word p x y = word p x' y') :
    x = x' ∧ y = y' := by
  unfold word at h
  have hmod := congrArg (· % p) h
  simp only [Nat.mul_add_mod_self_right, Nat.mod_eq_of_lt hx, Nat.mod_eq_of_lt hx'] at hmod
  subst hmod
  exact ⟨rfl, Nat.eq_of_mul_eq_mul_right (Nat.zero_lt_of_lt hx) (Nat.add_right_cancel h)⟩

theorem word_lt {p h x y : ℕ} (hx : x < p) (hy : y < h) : word p x y < h * p := by
  calc y * p + x < y * p + p := Nat.add_lt_add_left hx _
    _ = (y + 1) * p := (Nat.succ_mul y p).symm
    _ ≤ h * p := Nat.mul_le_mul_right p hy

/-- Row by row is word by word. -/
theorem flatMap_rows (f : ℕ → β) (p h : ℕ) :
    ((List.range h).flatMap fun y => (List.range p).map fun x => f (word p x y)) =
      (List.range (h * p)).map f := by
  induction h with
  | zero => simp
  | succ h ih =>
    rw [List.range_succ, List.flatMap_append, ih, Nat.succ_mul, List.range_add, List.map_append]
    simp [word]

/-! ## Moving -/

/-- Words that are moved down by `d`, the lowest first, are the words there were. -/
theorem foldl_move {d : ℕ} (hd : 0 < d) (n : ℕ) (m : ℕ → α) (j : ℕ) :
    (List.range n).foldl (fun m k => Function.update m k (m (k + d))) m j =
      if j < n then m (j + d) else m j := by
  induction n generalizing j with
  | zero => rfl
  | succ n ih =>
    rw [List.range_succ, List.foldl_append, List.foldl_cons, List.foldl_nil]
    by_cases hj : j = n
    · subst hj
      rw [Function.update_self, ih, if_neg (by omega), if_pos (by omega)]
    · rw [Function.update_of_ne hj, ih]
      by_cases hlt : j < n
      · rw [if_pos hlt, if_pos (by omega)]
      · rw [if_neg hlt, if_neg (by omega)]

end Lib.Raster
