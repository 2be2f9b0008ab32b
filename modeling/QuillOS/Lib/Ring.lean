import Mathlib.Data.Int.ModEq
import Mathlib.Data.List.Range

/-!
# Rings of slots

A ring has `n` slots. A producer and a consumer count what they have put and taken; the counters
only grow, and a counter stands for the slot that is its remainder. Between the counters lie the
entries of the ring. Registers hold remainders, so that a reader of the registers sees the window
from the head register up to the tail register, which is empty when the two are equal.
-/

namespace Lib.Ring

variable {α : Type*} {n h t k : ℕ} {read read' : ℕ → α}

/-- The entries between the counters `h` and `t`, each read in its slot. -/
def entries (n : ℕ) (read : ℕ → α) (h t : ℕ) : List α :=
  (List.range' h (t - h)).map fun k => read (k % n)

/-- What lies in the slots from the head register up to, not including, the tail register. -/
def window (n : ℕ) (read : ℕ → α) (head tail : ℕ) : List α :=
  (List.range ((tail + n - head) % n)).map fun k => read ((head + k) % n)

@[simp] theorem entries_self : entries n read h h = [] := by simp [entries]

@[simp] theorem length_entries : (entries n read h t).length = t - h := by simp [entries]

@[simp] theorem window_self : window n read h h = [] := by simp [window]

/-- Slots of counters less than a lap apart are different. -/
theorem slot_inj {j : ℕ} (hj : h ≤ j) (hj' : j < h + n) (hk : h ≤ k) (hk' : k < h + n)
    (heq : j % n = k % n) : j = k := by
  have hmod : j ≡ k [MOD n] := heq
  rcases Nat.le_total j k with hle | hle
  · have := (Nat.modEq_iff_dvd' hle).mp hmod
    have := Nat.eq_zero_of_dvd_of_lt this (by omega)
    omega
  · have := (Nat.modEq_iff_dvd' hle).mp hmod.symm
    have := Nat.eq_zero_of_dvd_of_lt this (by omega)
    omega

theorem mem_entries {a : α} : a ∈ entries n read h t ↔ ∃ k, h ≤ k ∧ k < t ∧ read (k % n) = a := by
  unfold entries
  simp only [List.mem_map, List.mem_range'_1]
  constructor
  · rintro ⟨k, ⟨hlo, hhi⟩, ha⟩
    exact ⟨k, hlo, by omega, ha⟩
  · rintro ⟨k, hlo, hhi, ha⟩
    exact ⟨k, ⟨hlo, by omega⟩, ha⟩

/-- A slot that was ever written is the slot of a counter of the last lap. -/
theorem exists_entry {i : ℕ} (hi : i < n) (hit : i < t) :
    ∃ k, t - n ≤ k ∧ k < t ∧ k % n = i := by
  have hdiv := Nat.div_add_mod (t - 1 - i) n
  have hmod := Nat.mod_lt (t - 1 - i) (Nat.zero_lt_of_lt hi)
  refine ⟨i + n * ((t - 1 - i) / n), by omega, by omega, ?_⟩
  rw [Nat.add_mul_mod_self_left, Nat.mod_eq_of_lt hi]

/-- A slot outside the entries may change. -/
theorem entries_congr (hsame : ∀ k, h ≤ k → k < t → read' (k % n) = read (k % n)) :
    entries n read' h t = entries n read h t := by
  apply List.map_congr_left
  intro k hk
  obtain ⟨hlo, hhi⟩ := List.mem_range'_1.mp hk
  exact hsame k hlo (by omega)

/-- Writing the slot of the tail counter leaves a ring that is not full as it is. -/
theorem entries_of_ne (hfull : t < h + n) (hsame : ∀ i, i ≠ t % n → read' i = read i) :
    entries n read' h t = entries n read h t := by
  apply entries_congr
  intro k hlo hhi
  apply hsame
  intro heq
  have := slot_inj hlo (by omega) (hlo.trans hhi.le) hfull heq
  omega

theorem entries_push (hle : h ≤ t) :
    entries n read h (t + 1) = entries n read h t ++ [read (t % n)] := by
  unfold entries
  rw [show t + 1 - h = t - h + 1 by omega, List.range'_concat, List.map_append]
  simp [show h + (t - h) = t by omega]

theorem entries_pop (hlt : h < t) :
    entries n read h t = read (h % n) :: entries n read (h + 1) t := by
  unfold entries
  rw [show t - h = t - (h + 1) + 1 by omega, List.range'_succ, List.map_cons]

/-- The registers of a ring that is less than a lap full show all its entries. -/
theorem window_eq_entries (hle : h ≤ t) (hlt : t < h + n) :
    window n read (h % n) (t % n) = entries n read h t := by
  have hlen : (t % n + n - h % n) % n = t - h := by
    have hh : h % n < n := Nat.mod_lt _ (by omega)
    have hmod : h % n + (t % n + n - h % n) ≡ h % n + (t - h) [MOD n] := by
      rw [show h % n + (t % n + n - h % n) = t % n + n by omega]
      calc t % n + n ≡ t [MOD n] := by simp [Nat.ModEq]
        _ = h + (t - h) := by omega
        _ ≡ h % n + (t - h) [MOD n] := by simp [Nat.ModEq]
    have := Nat.ModEq.add_left_cancel' _ hmod
    rw [this, Nat.mod_eq_of_lt (by omega)]
  unfold window entries
  rw [hlen, List.range'_eq_map_range, List.map_map]
  apply List.map_congr_left
  intro k _
  simp [Nat.mod_add_mod]

/-! ## The last lap -/

/-- Read from the tail register once around, a ring shows the slots that were never written and
then the entries of the last lap, oldest first. -/
theorem rotation_eq :
    ((List.range n).map fun i => read ((t % n + i) % n)) =
      (List.range' t (n - t)).map read ++ entries n read (t - n) t := by
  rcases Nat.lt_or_ge t n with hlt | hge
  · rw [show n = n - t + t by omega, List.range_add, List.map_append, List.map_map]
    congr 1
    · rw [show n - t + t - t = n - t by omega, List.range'_eq_map_range, List.map_map]
      apply List.map_congr_left
      intro i hi
      have hi := List.mem_range.mp hi
      simp only [Function.comp_apply, show n - t + t = n by omega, Nat.mod_eq_of_lt hlt]
      rw [Nat.mod_eq_of_lt (by omega)]
    · rw [show t - (n - t + t) = 0 by omega, entries, List.range'_eq_map_range, List.map_map]
      apply List.map_congr_left
      intro i hi
      have hi := List.mem_range.mp hi
      simp only [Function.comp_apply, show n - t + t = n by omega, Nat.mod_eq_of_lt hlt, zero_add]
      rw [show t + (n - t + i) = i + n by omega, Nat.add_mod_right]
  · rw [show n - t = 0 by omega, List.range'_zero, List.map_nil, List.nil_append, entries,
      show t - (t - n) = n by omega, List.range'_eq_map_range, List.map_map]
    apply List.map_congr_left
    intro i _
    have hmod : t % n = (t - n) % n := Nat.mod_eq_sub_mod hge
    simp only [Function.comp_apply, hmod, Nat.mod_add_mod]

end Lib.Ring
