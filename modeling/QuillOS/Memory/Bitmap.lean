import QuillOS.Memory.Blocks

/-!
# The page bitmap

Marking and clearing pages changes their bits, the count of used pages and nothing else.
-/

namespace QuillOS.Memory

open Lib Lib.Mem

/-- What no operation of the heap changes. -/
structure Layout where
  hhdm : ℕ
  pmmBitmap : ℕ
  pmmBitmapBytes : ℕ
  pmmHighestPage : ℕ
  pmmSearchHint : ℕ
  heapHead : ℕ
  heapRegionStart : ℕ
  heapMaxBytes : ℕ
  heapPhysBase : ℕ

def State.layout (s : State) : Layout :=
  ⟨s.hhdm, s.pmmBitmap, s.pmmBitmapBytes, s.pmmHighestPage, s.pmmSearchHint, s.heapHead,
    s.heapRegionStart, s.heapMaxBytes, s.heapPhysBase⟩

variable {s s' : State} {start count page base y : ℕ}

theorem bmpTest_congr (hlayout : s'.layout = s.layout)
    (hmem : s'.mem (s.pmmBitmap + page / 8) = s.mem (s.pmmBitmap + page / 8)) :
    bmpTest s' page = bmpTest s page := by
  unfold bmpTest
  rw [show s'.pmmBitmap = s.pmmBitmap from congrArg Layout.pmmBitmap hlayout]
  exact testBit_congr hmem

/-! ## Marking pages used -/

theorem markPage_layout : (markPage s page).layout = s.layout := by
  unfold markPage
  split <;> rfl

theorem markPage_committed : (markPage s page).heapCommitted = s.heapCommitted := by
  unfold markPage
  split <;> rfl

theorem bmpTest_markPage (p : ℕ) :
    bmpTest (markPage s page) p = (decide (page = p) || bmpTest s p) := by
  unfold markPage
  split
  · next hset =>
    by_cases hp : page = p
    · rw [← hp, hset]
      simp
    · simp [hp]
  · exact testBit_setBit

theorem markPage_mem (hy : y ≠ s.pmmBitmap + page / 8) : (markPage s page).mem y = s.mem y := by
  unfold markPage
  split
  · rfl
  · exact setBit_of_ne hy

@[simp] theorem markPages_layout : (markPages s start count).layout = s.layout := by
  induction count with
  | zero => rfl
  | succ count ih => rw [markPages, markPage_layout, ih]

@[simp] theorem markPages_committed : (markPages s start count).heapCommitted = s.heapCommitted := by
  induction count with
  | zero => rfl
  | succ count ih => rw [markPages, markPage_committed, ih]

/-- Exactly the pages of the window are marked on top of those that were. -/
theorem bmpTest_markPages (p : ℕ) : bmpTest (markPages s start count) p =
    (decide (start ≤ p ∧ p < start + count) || bmpTest s p) := by
  induction count with
  | zero =>
    have hempty : ¬(start ≤ p ∧ p < start + 0) := by omega
    rw [markPages, decide_eq_false hempty, Bool.false_or]
  | succ count ih =>
    rw [markPages, bmpTest_markPage, ih, ← Bool.or_assoc, ← Bool.decide_or]
    congr 2
    simp only [eq_iff_iff]
    omega

/-- Marking pages writes to the bitmap only. -/
theorem markPages_mem (hpages : start + count ≤ 8 * s.pmmBitmapBytes)
    (hy : y < s.pmmBitmap ∨ s.pmmBitmap + s.pmmBitmapBytes ≤ y) :
    (markPages s start count).mem y = s.mem y := by
  induction count with
  | zero => rfl
  | succ count ih =>
    have hbitmap : (markPages s start count).pmmBitmap = s.pmmBitmap :=
      congrArg Layout.pmmBitmap markPages_layout
    rw [markPages, markPage_mem, ih (by omega)]
    rw [hbitmap]
    omega

/-! ## Marking pages free -/

@[simp] theorem clearPages_layout : (clearPages s base count).layout = s.layout := by
  induction count with
  | zero => rfl
  | succ count ih => exact ih

/-- Exactly the pages of the window are cleared. -/
theorem bmpTest_clearPages (p : ℕ) : bmpTest (clearPages s base count) p =
    (!decide (base ≤ p ∧ p < base + count) && bmpTest s p) := by
  induction count with
  | zero =>
    have hempty : ¬(base ≤ p ∧ p < base + 0) := by omega
    rw [clearPages, decide_eq_false hempty, Bool.not_false, Bool.true_and]
  | succ count ih =>
    have hclear : bmpTest (clearPages s base (count + 1)) p =
        (!decide (base + count = p) && bmpTest (clearPages s base count) p) := testBit_clearBit
    rw [hclear, ih, ← Bool.and_assoc, ← Bool.not_or, ← Bool.decide_or]
    congr 3
    simp only [eq_iff_iff]
    omega

/-! ## Looking for a free page -/

/-- The scan finds a clear bit in its range, the first one. -/
theorem findClear_some {i : ℕ} (h : findClear s i count = some page) :
    i ≤ page ∧ page < i + count ∧ bmpTest s page = false ∧
      ∀ p, i ≤ p → p < page → bmpTest s p = true := by
  induction count generalizing i with
  | zero => cases h
  | succ count ih =>
    unfold findClear at h
    split at h
    · next hset =>
      obtain ⟨hlo, hhi, hclear, hbefore⟩ := ih h
      refine ⟨by omega, by omega, hclear, ?_⟩
      intro p hp hp'
      by_cases hip : p = i
      · rw [hip, hset]
      · exact hbefore p (by omega) hp'
    · next hclear =>
      obtain rfl := Option.some.inj h
      exact ⟨le_rfl, by omega, by simpa using hclear, fun p hp hp' => by omega⟩

theorem findClear_none {i : ℕ} (h : findClear s i count = none) :
    ∀ p, i ≤ p → p < i + count → bmpTest s p = true := by
  induction count generalizing i with
  | zero => exact fun p hp hp' => by omega
  | succ count ih =>
    unfold findClear at h
    split at h
    · next hset =>
      intro p hp hp'
      by_cases hip : p = i
      · rw [hip, hset]
      · exact ih h p (by omega) (by omega)
    · cases h

/-- What holds wherever a page is taken, and where none is, holds of the allocator. -/
theorem pmmAllocPage_of_takePage {p : ℕ × State → Prop} (htake : ∀ i, p (takePage s i))
    (hnone : p (0, s)) : p (pmmAllocPage s) := by
  unfold pmmAllocPage
  split
  · exact htake _
  · split
    · exact htake _
    · exact hnone

/-- Either the allocator takes a page with a clear bit, or every bit is set and nothing changes. -/
theorem pmmAllocPage_cases (hhint : s.pmmSearchHint ≤ s.pmmHighestPage) :
    (∃ page, page < s.pmmHighestPage ∧ bmpTest s page = false ∧
      pmmAllocPage s = takePage s page) ∨
    (∀ p < s.pmmHighestPage, bmpTest s p = true) ∧ pmmAllocPage s = (0, s) := by
  unfold pmmAllocPage
  cases hfirst : findClear s s.pmmSearchHint (s.pmmHighestPage - s.pmmSearchHint) with
  | some page =>
    obtain ⟨-, hhi, hclear, -⟩ := findClear_some hfirst
    exact Or.inl ⟨page, by omega, hclear, rfl⟩
  | none =>
    cases hsecond : findClear s 0 s.pmmSearchHint with
    | some page =>
      obtain ⟨-, hhi, hclear, -⟩ := findClear_some hsecond
      exact Or.inl ⟨page, by omega, hclear, rfl⟩
    | none =>
      refine Or.inr ⟨?_, rfl⟩
      intro p hp
      by_cases hhinted : p < s.pmmSearchHint
      · exact findClear_none hsecond p (Nat.zero_le p) (by omega)
      · exact findClear_none hfirst p (by omega) (by omega)

/-! ## Pages and who holds them -/

/-- Of the first `n` pages those with a clear bit satisfy `P`; the pages held are different ones,
with a set bit, and satisfy `P` as well. -/
structure Holdings (P : ℕ → Prop) (test : ℕ → Bool) (n : ℕ) (held : List ℕ) : Prop where
  clear : ∀ p < n, test p = false → P p
  nodup : held.Nodup
  held : ∀ phys ∈ held, ∃ p < n, phys = p * pageSize ∧ test p = true ∧ P p

variable {P Q : ℕ → Prop} {test test' : ℕ → Bool} {n p phys : ℕ} {held held' : List ℕ}

theorem Holdings.congr (h : Holdings P test n held) (hPQ : ∀ q, P q → Q q)
    (htest : ∀ q < n, test' q = test q) : Holdings Q test' n held := by
  refine ⟨fun q hq hclear => hPQ q (h.clear q hq ((htest q hq).symm.trans hclear)), h.nodup, ?_⟩
  intro phys hphys
  obtain ⟨q, hq, heq, hset, hP⟩ := h.held phys hphys
  exact ⟨q, hq, heq, (htest q hq).trans hset, hPQ q hP⟩

/-- A page with a clear bit is not held. -/
theorem Holdings.not_held (h : Holdings P test n held) (hclear : test p = false) :
    p * pageSize ∉ held := by
  intro hin
  obtain ⟨q, -, heq, hset, -⟩ := h.held _ hin
  rw [Nat.eq_of_mul_eq_mul_right (by decide) heq, hset] at hclear
  cases hclear

/-- The bit of a free page is set, and the page perhaps handed out. -/
theorem Holdings.take (h : Holdings P test n held) (hPQ : ∀ q, P q → Q q) (hp : p < n)
    (hclear : test p = false) (htest : ∀ q, test' q = (decide (p = q) || test q))
    (hnodup : held'.Nodup) (hheld : ∀ phys ∈ held', phys ∈ held ∨ phys = p * pageSize) :
    Holdings Q test' n held' := by
  refine ⟨?_, hnodup, ?_⟩
  · intro q hq hclear'
    rw [htest q, Bool.or_eq_false_iff] at hclear'
    exact hPQ q (h.clear q hq hclear'.2)
  · intro phys hphys
    rcases hheld phys hphys with hold | rfl
    · obtain ⟨q, hq, heq, hset, hP⟩ := h.held phys hold
      exact ⟨q, hq, heq, by rw [htest q, hset, Bool.or_true], hPQ q hP⟩
    · exact ⟨p, hp, rfl, by rw [htest p, decide_eq_true rfl, Bool.true_or],
        hPQ p (h.clear p hp hclear)⟩

/-- The bit of a page that was held is cleared, and the page held no longer. -/
theorem Holdings.give (h : Holdings P test n held) (hPQ : ∀ q, P q → Q q) (hP : P p)
    (htest : ∀ q, test' q = (!decide (p = q) && test q)) :
    Holdings Q test' n (held.erase (p * pageSize)) := by
  refine ⟨?_, h.nodup.erase _, ?_⟩
  · intro q hq hclear
    rw [htest q] at hclear
    by_cases hpq : p = q
    · exact hPQ q (hpq ▸ hP)
    · rw [decide_eq_false hpq, Bool.not_false, Bool.true_and] at hclear
      exact hPQ q (h.clear q hq hclear)
  · intro phys hphys
    obtain ⟨hne, hin⟩ := (h.nodup.mem_erase_iff).mp hphys
    obtain ⟨q, hq, heq, hset, hPq⟩ := h.held phys hin
    have hpq : p ≠ q := by
      rintro rfl
      exact hne heq
    refine ⟨q, hq, heq, ?_, hPQ q hPq⟩
    rw [htest q, decide_eq_false hpq, hset]
    rfl

end QuillOS.Memory
