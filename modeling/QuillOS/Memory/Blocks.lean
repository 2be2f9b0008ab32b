import QuillOS.Lib.Tiling
import QuillOS.Memory.Model

/-!
# The block list in memory

What the headers of the heap say about a list of tiles, what writing one header field does to
that, and where the three walks over the list end.
-/

namespace QuillOS.Memory

open Lib Lib.Mem Lib.Tiling

theorem w64_eq {n : ℕ} (h : n < 2 ^ 64) : w64 n = n := by
  unfold w64
  exact Nat.mod_eq_of_lt h

theorem w64_lt (n : ℕ) : w64 n < 2 ^ 64 := by
  unfold w64
  exact Nat.mod_lt _ (by decide)

theorem sub64_eq {a b : ℕ} (ha : a < 2 ^ 64) (hb : b ≤ a) : sub64 a b = a - b := by
  unfold sub64 w64
  omega

/-- The header at `x` describes the tile `t` and names `n` as the next block. -/
structure Header (m : Mem) (x : ℕ) (t : Tile) (n : ℕ) : Prop where
  magic : m.loadNat x 4 = blockMagic
  free : (m (x + 4) != 0) = t.free
  size : m.loadNat (x + 8) 8 = t.size
  next : m.loadNat (x + 16) 8 = n

variable {m m' : Mem} {s s' : State} {x y n k a : ℕ} {t u : Tile} {ts pre post : List Tile}

theorem Header.magicAt_eq (hx : Header s.mem x t n) : magicAt s x = blockMagic := hx.magic
theorem Header.freeAt_eq (hx : Header s.mem x t n) : freeAt s x = t.free := hx.free
theorem Header.sizeAt_eq (hx : Header s.mem x t n) : sizeAt s x = t.size := hx.size
theorem Header.nextAt_eq (hx : Header s.mem x t n) : nextAt s x = n := hx.next

theorem Header.congr (hx : Header m x t n) (h : ∀ i < sizeofBlock, m' (x + i) = m (x + i)) :
    Header m' x t n := by
  unfold sizeofBlock at h
  constructor
  · rw [← hx.magic]
    exact loadNat_congr fun i hi => h i (by omega)
  · rw [← hx.free, h 4 (by omega)]
  · rw [← hx.size]
    apply loadNat_congr
    intro i hi
    rw [Nat.add_assoc]
    exact h (8 + i) (by omega)
  · rw [← hx.next]
    apply loadNat_congr
    intro i hi
    rw [Nat.add_assoc]
    exact h (16 + i) (by omega)

/-! ## Writing one field -/

theorem Header.setFree (hx : Header s.mem x t n) (b : Bool) :
    Header (setFree s x b).mem x ⟨t.size, b⟩ n := by
  constructor
  · rw [← hx.magic]
    exact loadNat_congr fun i hi => store_of_outside (Or.inl (by omega))
  · show (s.mem.store (x + 4) [if b then 1 else 0] (x + 4) != 0) = b
    rw [store_singleton]
    cases b <;> rfl
  · rw [← hx.size]
    exact loadNat_congr fun i hi => store_of_outside (Or.inr (by simp; omega))
  · rw [← hx.next]
    exact loadNat_congr fun i hi => store_of_outside (Or.inr (by simp; omega))

theorem Header.setSize (hx : Header s.mem x t n) (hk : k < 2 ^ 64) :
    Header (setSize s x k).mem x ⟨k, t.free⟩ n := by
  constructor
  · rw [← hx.magic]
    exact loadNat_storeNat_of_disjoint (Or.inl (by omega))
  · rw [← hx.free]
    show (s.mem.storeNat (x + 8) 8 k (x + 4) != 0) = _
    rw [storeNat_of_outside (Or.inl (by omega))]
  · exact loadNat_storeNat hk
  · rw [← hx.next]
    exact loadNat_storeNat_of_disjoint (Or.inr (by omega))

theorem Header.setNext (hx : Header s.mem x t n) (hk : k < 2 ^ 64) :
    Header (setNext s x k).mem x t k := by
  constructor
  · rw [← hx.magic]
    exact loadNat_storeNat_of_disjoint (Or.inl (by omega))
  · rw [← hx.free]
    show (s.mem.storeNat (x + 16) 8 k (x + 4) != 0) = _
    rw [storeNat_of_outside (Or.inl (by omega))]
  · rw [← hx.size]
    exact loadNat_storeNat_of_disjoint (Or.inl (by omega))
  · exact loadNat_storeNat hk

/-- Memory outside `[lo, hi)` is as it was. -/
def SameOutside (m m' : Mem) (lo hi : ℕ) : Prop := ∀ y, y < lo ∨ hi ≤ y → m' y = m y

theorem SameOutside.trans {m'' : Mem} {lo hi : ℕ} (h : SameOutside m m' lo hi)
    (h' : SameOutside m' m'' lo hi) : SameOutside m m'' lo hi := by
  intro y hy
  rw [h' y hy, h y hy]

theorem SameOutside.mono {lo hi lo' hi' : ℕ} (h : SameOutside m m' lo hi) (hlo : lo' ≤ lo)
    (hhi : hi ≤ hi') : SameOutside m m' lo' hi' := fun y hy => h y (by omega)

theorem Header.outside {lo hi : ℕ} (hx : Header m x t n) (h : SameOutside m m' lo hi)
    (hd : x + sizeofBlock ≤ lo ∨ hi ≤ x) : Header m' x t n :=
  hx.congr fun i hi => h _ (by omega)

theorem setMagic_outside (s : State) (x : ℕ) :
    SameOutside s.mem (setMagic s x).mem x (x + sizeofBlock) := by
  intro y hy
  unfold sizeofBlock at hy
  exact storeNat_of_outside (by omega)

theorem setFree_outside (s : State) (x : ℕ) (b : Bool) :
    SameOutside s.mem (setFree s x b).mem x (x + sizeofBlock) := by
  intro y hy
  unfold sizeofBlock at hy
  exact store_of_outside (by rw [List.length_singleton]; omega)

theorem setSize_outside (s : State) (x k : ℕ) :
    SameOutside s.mem (setSize s x k).mem x (x + sizeofBlock) := by
  intro y hy
  unfold sizeofBlock at hy
  exact storeNat_of_outside (by omega)

theorem setNext_outside (s : State) (x k : ℕ) :
    SameOutside s.mem (setNext s x k).mem x (x + sizeofBlock) := by
  intro y hy
  unfold sizeofBlock at hy
  exact storeNat_of_outside (by omega)

/-- Whatever lay at `x`, magic number and free flag written there make it a header. -/
theorem header_fresh (s : State) (x : ℕ) : ∃ k n,
    Header (setFree (setMagic s x) x true).mem x ⟨k, true⟩ n := by
  have hmagic : Header (setMagic s x).mem x ⟨sizeAt (setMagic s x) x, freeAt (setMagic s x) x⟩
      (nextAt (setMagic s x) x) :=
    ⟨loadNat_storeNat (by decide), rfl, rfl, rfl⟩
  exact ⟨_, _, hmagic.setFree true⟩

theorem writeBlock_header (s : State) (hk : k < 2 ^ 64) (hn : n < 2 ^ 64) :
    Header (writeBlock s x k n).mem x ⟨k, true⟩ n := by
  obtain ⟨k', n', hx⟩ := header_fresh s x
  exact (hx.setSize hk).setNext hn

theorem writeBlock_outside (s : State) (x k n : ℕ) :
    SameOutside s.mem (writeBlock s x k n).mem x (x + sizeofBlock) :=
  (((setMagic_outside s x).trans (setFree_outside _ x true)).trans (setSize_outside _ x k)).trans
    (setNext_outside _ x n)

/-- A block that takes over the one behind it describes both. -/
theorem absorb_header (hx : Header s.mem x t y) (hy : Header s.mem y u n)
    (hxy : y = x + sizeofBlock + t.size) (hsum : (merge sizeofBlock t u).size < 2 ^ 64)
    (hn : n < 2 ^ 64) : Header (absorb s x y).mem x (merge sizeofBlock t u) n := by
  have hsize : w64 (sizeAt s x + (sizeofBlock + sizeAt s y)) = (merge sizeofBlock t u).size := by
    rw [hx.sizeAt_eq, hy.sizeAt_eq, ← Nat.add_assoc]
    exact w64_eq hsum
  have hmid := hx.setSize hsum
  have hnext : nextAt (setSize s x (merge sizeofBlock t u).size) y = n := by
    rw [← hy.next]
    apply loadNat_storeNat_of_disjoint
    unfold sizeofBlock at hxy
    omega
  unfold absorb
  simp only
  rw [hsize, hnext]
  exact hmid.setNext hn

theorem absorb_outside (s : State) (x y : ℕ) :
    SameOutside s.mem (absorb s x y).mem x (x + sizeofBlock) :=
  (setSize_outside s x _).trans (setNext_outside _ x _)

/-- Splitting a block: the first part keeps the flag, the second is free and names the block that
came next. -/
theorem splitBlock_headers (hx : Header s.mem x t n) (hk : k + sizeofBlock ≤ t.size)
    (hend : x + sizeofBlock + t.size ≤ 2 ^ 64) (hn : n < 2 ^ 64) :
    Header (splitBlock s x k).mem x ⟨k, t.free⟩ (x + sizeofBlock + k) ∧
      Header (splitBlock s x k).mem (x + sizeofBlock + k) ⟨t.size - k - sizeofBlock, true⟩ n ∧
      SameOutside s.mem (splitBlock s x k).mem x (x + sizeofBlock + t.size) := by
  have hblock : sizeofBlock = 24 := rfl
  have hr : w64 (x + sizeofBlock + k) = x + sizeofBlock + k := by
    apply w64_eq
    omega
  unfold splitBlock
  simp only [hr]
  generalize hrem : x + sizeofBlock + k = r
  -- First the remainder's header is written, then the fields of the block in front of it.
  set s₁ := setFree (setMagic s r) r true
  have hout₁ : SameOutside s.mem s₁.mem r (r + sizeofBlock) :=
    (setMagic_outside s r).trans (setFree_outside _ r true)
  have hx₁ : Header s₁.mem x t n := hx.outside hout₁ (Or.inl (by omega))
  have hsize : sub64 (sub64 (sizeAt s₁ x) k) sizeofBlock = t.size - k - sizeofBlock := by
    have hinner : sub64 t.size k = t.size - k := sub64_eq (by omega) (by omega)
    rw [hx₁.sizeAt_eq, hinner, sub64_eq (by omega) (by omega)]
  rw [hsize]
  set s₂ := setSize s₁ r (t.size - k - sizeofBlock)
  have hout₂ : SameOutside s₁.mem s₂.mem r (r + sizeofBlock) := setSize_outside _ r _
  have hx₂ : Header s₂.mem x t n := hx₁.outside hout₂ (Or.inl (by omega))
  rw [hx₂.nextAt_eq]
  set s₃ := setNext s₂ r n
  have hout₃ : SameOutside s₂.mem s₃.mem r (r + sizeofBlock) := setNext_outside _ r _
  have hx₃ : Header s₃.mem x t n := hx₂.outside hout₃ (Or.inl (by omega))
  have hr₃ : Header s₃.mem r ⟨t.size - k - sizeofBlock, true⟩ n := by
    obtain ⟨k', n', hfresh⟩ := header_fresh s r
    exact (hfresh.setSize (by omega)).setNext hn
  have hout₄ : SameOutside s₃.mem (setNext (setSize s₃ x k) x r).mem x (x + sizeofBlock) :=
    (setSize_outside _ x k).trans (setNext_outside _ x r)
  refine ⟨(hx₃.setSize (by omega)).setNext (by omega),
    hr₃.outside hout₄ (Or.inr (by omega)), ?_⟩
  have hbehind : SameOutside s.mem s₃.mem x (x + sizeofBlock + t.size) :=
    ((hout₁.trans hout₂).trans hout₃).mono (by omega) (by omega)
  exact hbehind.trans (hout₄.mono le_rfl (by omega))

/-! ## Chains of headers -/

/-- The tiles `ts` from `a` on are described by the headers in memory, linked up to `n`. -/
abbrev Blocks (m : Mem) (a : ℕ) (ts : List Tile) (n : ℕ) : Prop :=
  Chain sizeofBlock (Header m) a ts n

/-- A change outside the headers keeps the blocks. -/
theorem Blocks.congr (hc : Blocks m a ts n)
    (h : ∀ x ∈ starts sizeofBlock a ts, ∀ i < sizeofBlock, m' (x + i) = m (x + i)) :
    Blocks m' a ts n := by
  apply Chain.mono hc
  intro x t k hx hheader
  exact hheader.congr (h x hx)

/-- Where the blocks `old` stood, memory changes so as to describe `mid`. -/
theorem Blocks.replace {old mid : List Tile} (hc : Blocks m a (pre ++ (old ++ post)) n)
    (hold : old ≠ []) (hmid : mid ≠ [])
    (hstop : stop sizeofBlock x mid = stop sizeofBlock x old)
    (hx : x = stop sizeofBlock a pre)
    (hsame : SameOutside m m' x (stop sizeofBlock x old))
    (hnew : Blocks m' x mid (if post = [] then n else stop sizeofBlock x old)) :
    Blocks m' a (pre ++ (mid ++ post)) n := by
  subst hx
  apply Chain.replace hc hold hmid hstop _ hnew
  intro y t k hy hheader
  apply hheader.congr
  intro i hi
  apply hsame
  rcases hy with hy | hy
  · have hbounds := starts_bounds hy
    omega
  · have hbounds := starts_bounds hy
    omega

/-- A header that is not the last names the next one. -/
theorem next_mem_starts (hc : Blocks s.mem a ts 0) (hx : x ∈ starts sizeofBlock a ts)
    (hne : nextAt s x ≠ 0) : nextAt s x ∈ starts sizeofBlock a ts := by
  induction ts generalizing a with
  | nil => cases hx
  | cons t ts ih =>
    have hheader := hc.1
    rcases List.mem_cons.mp hx with rfl | hx
    · rw [hheader.nextAt_eq] at hne ⊢
      cases ts with
      | nil => exact absurd rfl hne
      | cons u ts =>
        rw [if_neg (List.cons_ne_nil _ _)]
        exact List.mem_cons_of_mem _ List.mem_cons_self
    · exact List.mem_cons_of_mem _ (ih hc.2 hx)

/-! ## Walks over the list -/

theorem search_none (hc : Blocks s.mem a ts 0) (ha : 0 < a) (hnone : ∀ t ∈ ts, ¬Fits n t)
    {fuel : ℕ} (hfuel : ts.length < fuel) :
    search s n fuel (if ts = [] then 0 else a) = some .exhausted := by
  induction ts generalizing a fuel with
  | nil =>
    obtain ⟨fuel, rfl⟩ : ∃ f, fuel = f + 1 := ⟨fuel - 1, by simp at hfuel; omega⟩
    simp [search]
  | cons t ts ih =>
    obtain ⟨fuel, rfl⟩ : ∃ f, fuel = f + 1 := ⟨fuel - 1, by simp at hfuel; omega⟩
    have hheader := hc.1
    have hfit : ¬(freeAt s a = true ∧ n ≤ sizeAt s a) := by
      rw [hheader.freeAt_eq, hheader.sizeAt_eq]
      exact hnone t List.mem_cons_self
    rw [if_neg (List.cons_ne_nil t ts), search, if_neg (by omega),
      if_neg (not_not.mpr hheader.magicAt_eq), if_neg hfit, hheader.nextAt_eq]
    apply ih hc.2 (by omega)
    · intro u hu
      exact hnone u (List.mem_cons_of_mem _ hu)
    · simp at hfuel
      omega

theorem search_found (hc : Blocks s.mem a (pre ++ t :: post) 0) (ha : 0 < a)
    (hpre : ∀ u ∈ pre, ¬Fits n u) (ht : Fits n t) {fuel : ℕ} (hfuel : pre.length < fuel) :
    search s n fuel a = some (.found (stop sizeofBlock a pre)) := by
  induction pre generalizing a fuel with
  | nil =>
    obtain ⟨fuel, rfl⟩ : ∃ f, fuel = f + 1 := ⟨fuel - 1, by simp at hfuel; omega⟩
    have hheader := hc.1
    have hfit : freeAt s a = true ∧ n ≤ sizeAt s a := by
      rw [hheader.freeAt_eq, hheader.sizeAt_eq]
      exact ht
    rw [search, if_neg (by omega), if_neg (not_not.mpr hheader.magicAt_eq), if_pos hfit]
    rfl
  | cons u pre ih =>
    obtain ⟨fuel, rfl⟩ : ∃ f, fuel = f + 1 := ⟨fuel - 1, by simp at hfuel; omega⟩
    have hheader := hc.1
    rw [if_neg (by simp)] at hheader
    have hfit : ¬(freeAt s a = true ∧ n ≤ sizeAt s a) := by
      rw [hheader.freeAt_eq, hheader.sizeAt_eq]
      exact hpre u List.mem_cons_self
    rw [search, if_neg (by omega), if_neg (not_not.mpr hheader.magicAt_eq), if_neg hfit,
      hheader.nextAt_eq]
    apply ih hc.2 (by omega)
    · intro v hv
      exact hpre v (List.mem_cons_of_mem _ hv)
    · simp at hfuel
      omega

theorem lastBlock_eq (hc : Blocks s.mem a (pre ++ [t]) 0) (ha : 0 < a) {fuel : ℕ}
    (hfuel : pre.length < fuel) : lastBlock s fuel a = some (stop sizeofBlock a pre) := by
  induction pre generalizing a fuel with
  | nil =>
    obtain ⟨fuel, rfl⟩ : ∃ f, fuel = f + 1 := ⟨fuel - 1, by simp at hfuel; omega⟩
    have hheader := hc.1
    rw [if_pos rfl] at hheader
    rw [lastBlock, if_pos hheader.nextAt_eq]
    rfl
  | cons u pre ih =>
    obtain ⟨fuel, rfl⟩ : ∃ f, fuel = f + 1 := ⟨fuel - 1, by simp at hfuel; omega⟩
    have hheader := hc.1
    rw [if_neg (by simp)] at hheader
    have hnext := hheader.nextAt_eq
    rw [lastBlock, if_neg (by omega), hnext]
    apply ih hc.2 (by omega)
    simp at hfuel
    omega

/-- The walk for the block before the one behind `pre` ends at the last block of `pre`. -/
theorem prevBlock_eq (hc : Blocks s.mem a (pre ++ t :: post) 0) (ha : 0 < a)
    (hx : x = stop sizeofBlock a pre) {fuel prev : ℕ} (hfuel : pre.length < fuel) :
    prevBlock s x fuel prev a =
      some (if pre = [] then prev else stop sizeofBlock a pre.dropLast) := by
  induction pre generalizing a fuel prev with
  | nil =>
    obtain ⟨fuel, rfl⟩ : ∃ f, fuel = f + 1 := ⟨fuel - 1, by simp at hfuel; omega⟩
    simp [prevBlock, hx]
  | cons u pre ih =>
    obtain ⟨fuel, rfl⟩ : ∃ f, fuel = f + 1 := ⟨fuel - 1, by simp at hfuel; omega⟩
    have hheader := hc.1
    rw [if_neg (by simp)] at hheader
    have hlater := le_stop sizeofBlock (a + sizeofBlock + u.size) pre
    have hblock : sizeofBlock = 24 := rfl
    rw [stop_cons] at hx
    have hne : a ≠ 0 ∧ a ≠ x := by omega
    rw [prevBlock, if_pos hne, hheader.nextAt_eq, ih hc.2 (by omega) hx (by simp at hfuel; omega)]
    cases pre <;> rfl

end QuillOS.Memory
