import Mathlib.Data.Fintype.Card
import Mathlib.Tactic

/-!
# Round robin

A ring of `n` places is scanned from the place behind the current one on, once around, for a place
that is ready. A place that stays ready comes closer with every other choice, so that no place is
chosen twice before it.
-/

namespace Lib.RoundRobin

variable {n : ℕ} [NeZero n] {ready : Fin n → Bool} {b c m : Fin n} {l : List (Fin n)}

/-- The first ready place after `c`, which itself comes last. -/
def scan (ready : Fin n → Bool) (c : Fin n) : Option (Fin n) :=
  (Fin.find? fun k => ready (c + 1 + k)).map (c + 1 + ·)

/-- How many places a scan from `c` passes before it comes to `b`. -/
def ahead (b c : Fin n) : ℕ := (b - (c + 1)).val

theorem ahead_lt (b c : Fin n) : ahead b c < n := (b - (c + 1)).isLt

theorem ahead_self (b : Fin n) : ahead b b + 1 = n := by
  have hn : 0 < n := Nat.pos_of_ne_zero (NeZero.ne n)
  have hlt := ahead_lt b b
  have hsum : b - (b + 1) + 1 = 0 := by abel
  by_contra hne
  have hval := congrArg Fin.val hsum
  unfold ahead at *
  rw [Fin.val_add_one_of_lt' (by omega)] at hval
  simp at hval

/-- A place passed by the scan is as much closer to `b` as places were passed. -/
theorem ahead_add (k : Fin n) (hk : k.val < ahead b c) :
    ahead b (c + 1 + k) + k.val + 1 = ahead b c := by
  have hlt := ahead_lt b c
  unfold ahead at *
  have hsucc : (k + 1).val = k.val + 1 := Fin.val_add_one_of_lt' (by omega)
  have hle : k + 1 ≤ b - (c + 1) := by
    rw [Fin.le_def, hsucc]
    exact hk
  have hsub : b - (c + 1 + k + 1) = b - (c + 1) - (k + 1) := by abel
  rw [hsub, Fin.sub_val_of_le hle, hsucc]
  omega

/-- While `b` is ready the scan comes to a ready place, at the latest to `b`. -/
theorem scan_ready (hb : ready b = true) :
    ∃ m, scan ready c = some m ∧ ready m = true ∧ (m = b ∨ ahead b m < ahead b c) := by
  have hlast : ready (c + 1 + (b - (c + 1))) = true := by rwa [add_sub_cancel]
  cases hfind : Fin.find? fun k => ready (c + 1 + k) with
  | none => exact absurd hlast (by simpa using Fin.find?_eq_none_iff.mp hfind (b - (c + 1)))
  | some k =>
    obtain ⟨hk, hfirst⟩ := Fin.find?_eq_some_iff.mp hfind
    refine ⟨c + 1 + k, by simp [scan, hfind], by simpa using hk, ?_⟩
    rcases lt_or_ge k.val (ahead b c) with hlt | hge
    · right
      have hadd := ahead_add k hlt
      omega
    · -- Nothing behind `b` is looked at.
      left
      have hle : k ≤ b - (c + 1) := by
        by_contra hlt
        have hpassed := hfirst _ (not_le.mp hlt)
        rw [hlast] at hpassed
        cases hpassed
      have heq : k = b - (c + 1) := le_antisymm hle (Fin.le_def.mpr hge)
      rw [heq, add_sub_cancel]

/-! ## Choices in a row -/

/-- Choices made one after another from `c` on, each closer to `b` than the one before. -/
def Approach (b c : Fin n) (l : List (Fin n)) : Prop :=
  (c :: l).IsChain fun x y => ahead b y < ahead b x

theorem approach_nil (b c : Fin n) : Approach b c [] := List.IsChain.singleton c

/-- One more choice, from the last one on. -/
theorem Approach.concat (h : Approach b c l)
    (hm : ahead b m < ahead b ((c :: l).getLast (List.cons_ne_nil c l))) :
    Approach b c (l ++ [m]) := by
  unfold Approach at *
  rw [← List.cons_append]
  refine List.isChain_append.mpr ⟨h, List.IsChain.singleton m, ?_⟩
  intro x hx y hy
  obtain rfl : m = y := by simpa using hy
  rw [List.getLast?_eq_some_getLast (List.cons_ne_nil c l)] at hx
  obtain rfl := Option.some.inj hx
  exact hm

theorem Approach.pairwise (h : Approach b c l) :
    (c :: l).Pairwise fun x y => ahead b y < ahead b x := by
  have htrans : Trans (fun x y : Fin n => ahead b y < ahead b x)
      (fun x y => ahead b y < ahead b x) fun x y => ahead b y < ahead b x :=
    ⟨fun hxy hyz => hyz.trans hxy⟩
  exact List.isChain_iff_pairwise.mp h

/-- No place is chosen twice. -/
theorem Approach.nodup (h : Approach b c l) : l.Nodup :=
  h.pairwise.of_cons.imp fun hlt heq => absurd hlt (by rw [heq]; exact lt_irrefl _)

theorem Approach.lt_of_mem (h : Approach b c l) (hm : m ∈ l) : ahead b m < ahead b c :=
  List.rel_of_pairwise_cons h.pairwise hm

/-- The place that is waited for is not among the choices. -/
theorem Approach.notMem (h : Approach b c l) : b ∉ l := by
  intro hb
  have hlt := h.lt_of_mem hb
  have hself := ahead_self b
  have hbound := ahead_lt b c
  omega

/-- There are fewer choices than places. -/
theorem Approach.length_lt (h : Approach b c l) : l.length < n := by
  have hperm : (b :: l).Nodup := List.nodup_cons.mpr ⟨h.notMem, h.nodup⟩
  have hcard := hperm.length_le_card
  rw [Fintype.card_fin, List.length_cons] at hcard
  omega

end Lib.RoundRobin
