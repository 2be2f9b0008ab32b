import QuillOS.Lib.ByteMemory

/-!
# Records of a fixed size

Lists laid end to end, each as long as the others, are found again by their number; a memory that
is filled record by record holds them all, whatever the order.
-/

namespace Lib

variable {α : Type*}

theorem length_flatten_of_length {n : ℕ} {l : List (List α)} (h : ∀ x ∈ l, x.length = n) :
    l.flatten.length = n * l.length := by
  induction l with
  | nil => rfl
  | cons x xs ih =>
    rw [List.flatten_cons, List.length_append, h x List.mem_cons_self,
      ih fun y hy => h y (List.mem_cons_of_mem x hy), List.length_cons]
    ring

/-- Record `i` starts where `i` records end. -/
theorem take_drop_flatten {n : ℕ} {l : List (List α)} (h : ∀ x ∈ l, x.length = n) {i : ℕ}
    (hi : i < l.length) : (l.flatten.drop (n * i)).take n = l[i] := by
  induction l generalizing i with
  | nil => cases hi
  | cons x xs ih =>
    have hx := h x List.mem_cons_self
    rw [List.flatten_cons]
    cases i with
    | zero => rw [Nat.mul_zero, List.drop_zero, List.getElem_cons_zero, List.take_left' hx]
    | succ i =>
      rw [show n * (i + 1) = x.length + n * i by rw [hx]; ring, List.drop_length_add_append,
        ih (fun y hy => h y (List.mem_cons_of_mem x hy)) (Nat.lt_of_succ_lt_succ hi)]
      rfl

/-- A loop that stores a record in each of its turns, the one for `i` at `n * i`. -/
theorem load_foldl_store {n k : ℕ} (f : Fin k → List UInt8) (hf : ∀ i, (f i).length = n)
    {i : Fin k} {l : List (Fin k)} (hi : i ∈ l) (m : Mem) :
    (l.foldl (fun m j => m.store (n * j.val) (f j)) m).load (n * i.val) n = f i := by
  -- A turn for another record leaves this one alone, a turn for this one puts the same bytes.
  have hkeep : ∀ (l : List (Fin k)) (m : Mem), m.load (n * i.val) n = f i →
      (l.foldl (fun m j => m.store (n * j.val) (f j)) m).load (n * i.val) n = f i := by
    intro l
    induction l with
    | nil => exact fun m h => h
    | cons j l ih =>
      intro m h
      refine ih _ ?_
      rcases eq_or_ne j i with rfl | hne
      · have hstored := Mem.load_store (m := m) (a := n * j.val) (f j)
        rwa [hf] at hstored
      · rw [Mem.load_store_of_disjoint, h]
        rw [hf]
        rcases Nat.lt_or_gt_of_ne (Fin.val_ne_of_ne hne) with hlt | hgt
        · exact .inr (by nlinarith)
        · exact .inl (by nlinarith)
  induction l generalizing m with
  | nil => cases hi
  | cons j l ih =>
    rcases List.mem_cons.mp hi with rfl | hmem
    · refine hkeep l _ ?_
      have hstored := Mem.load_store (m := m) (a := n * i.val) (f i)
      rwa [hf] at hstored
    · exact ih hmem _

end Lib
