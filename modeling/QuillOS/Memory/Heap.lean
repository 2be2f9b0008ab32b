import QuillOS.Memory.Bitmap

/-!
# The heap's blocks under its operations

The heap is a list of tiles that fill the committed region, each described by a header in memory.
Every operation of the allocator is given as an operation on that list, with the addresses it may
write to.
-/

namespace QuillOS.Memory

open Lib Lib.Mem Lib.Tiling

/-- The committed region is tiled by the blocks `ts`. -/
structure HeapInv (s : State) (ts : List Tile) : Prop where
  blocks : Blocks s.mem s.heapRegionStart ts 0
  head : s.heapHead = s.heapRegionStart
  tiled : stop sizeofBlock s.heapRegionStart ts = s.heapRegionStart + s.heapCommitted
  nonempty : ts ≠ []
  start_pos : pageSize ≤ s.heapRegionStart
  fits : s.heapRegionStart + s.heapCommitted < 2 ^ 64

variable {s s' : State} {x y n k a : ℕ} {t u : Tile} {ts ts' pre post : List Tile}

/-- The invariant from what an operation changes. -/
theorem HeapInv.update (inv : HeapInv s ts) (hlayout : s'.layout = s.layout)
    (hcommitted : s'.heapCommitted = s.heapCommitted)
    (hblocks : Blocks s'.mem s.heapRegionStart ts' 0) (hne : ts' ≠ [])
    (hstop : stop sizeofBlock s.heapRegionStart ts' = stop sizeofBlock s.heapRegionStart ts) :
    HeapInv s' ts' := by
  have hstart : s'.heapRegionStart = s.heapRegionStart := congrArg Layout.heapRegionStart hlayout
  have hhead : s'.heapHead = s.heapHead := congrArg Layout.heapHead hlayout
  constructor
  · rwa [hstart]
  · rw [hhead, hstart, inv.head]
  · rw [hstart, hstop, inv.tiled, hcommitted]
  · exact hne
  · rw [hstart]
    exact inv.start_pos
  · rw [hstart, hcommitted]
    exact inv.fits

theorem HeapInv.length_lt (inv : HeapInv s ts) : ts.length < walkLimit := by
  have hlength := length_le_stop sizeofBlock s.heapRegionStart ts
  have hfits := inv.fits
  have hblock : sizeofBlock = 24 := rfl
  rw [inv.tiled, hblock] at hlength
  unfold walkLimit
  omega

theorem HeapInv.pos (inv : HeapInv s ts) : 0 < s.heapRegionStart := by
  have hstart := inv.start_pos
  unfold pageSize at hstart
  omega

theorem HeapInv.stop_lt (inv : HeapInv s ts) :
    stop sizeofBlock s.heapRegionStart ts < 2 ^ 64 := by
  rw [inv.tiled]
  exact inv.fits

/-- The address of the block behind `y`, null at the end of the list, is a 64-bit number. -/
theorem next_lt (h : stop sizeofBlock y post < 2 ^ 64) : (if post = [] then 0 else y) < 2 ^ 64 := by
  have hlater := le_stop sizeofBlock y post
  split <;> omega

/-- The header in the middle of the list. -/
theorem Blocks.header {m : Mem} (hc : Blocks m a (pre ++ t :: post) n) :
    Header m (stop sizeofBlock a pre) t
      (if post = [] then n else stop sizeofBlock a pre + sizeofBlock + t.size) := by
  have hright := (chain_append.mp hc).2
  exact hright.1

/-! ## Handing out a block -/

theorem takeBlock_layout : (takeBlock s x n).layout = s.layout := by
  unfold takeBlock
  simp only
  split <;> rfl

theorem takeBlock_committed : (takeBlock s x n).heapCommitted = s.heapCommitted := by
  unfold takeBlock
  simp only
  split <;> rfl

theorem takeBlock_blocks (hx : Header s.mem x t k) (ht : Fits n t) (hstart : pageSize ≤ x)
    (hend : x + sizeofBlock + t.size < 2 ^ 64) (hk : k < 2 ^ 64) :
    Blocks (takeBlock s x n).mem x (carve sizeofBlock minSplit n t) k ∧
      SameOutside s.mem (takeBlock s x n).mem x (x + sizeofBlock + t.size) := by
  have hblock : sizeofBlock = 24 := rfl
  have hleast : minSplit = 32 := rfl
  have hpage : pageSize = 4096 := rfl
  have hneed : n ≤ t.size := ht.2
  have hsum : w64 (n + sizeofBlock + minSplit) = n + sizeofBlock + minSplit := w64_eq (by omega)
  unfold takeBlock carve
  simp only [hsum, hx.sizeAt_eq]
  split
  · obtain ⟨hfirst, hsecond, hout⟩ := splitBlock_headers hx (k := n) (by omega) (by omega) hk
    have hfree := setFree_outside (splitBlock s x n) x false
    constructor
    · apply chain_cons_cons.mpr
      refine ⟨hfirst.setFree false, chain_singleton.mpr ?_⟩
      exact hsecond.outside hfree (Or.inr (by omega))
    · exact hout.trans (hfree.mono le_rfl (by omega))
  · have hfree := setFree_outside s x false
    constructor
    · exact chain_singleton.mpr (hx.setFree false)
    · exact hfree.mono le_rfl (by omega)

/-- Taking a block that fits carves the request out of it and writes nowhere else. -/
theorem takeBlock_inv (inv : HeapInv s (pre ++ t :: post)) (ht : Fits n t)
    (hx : x = stop sizeofBlock s.heapRegionStart pre) :
    HeapInv (takeBlock s x n) (pre ++ (carve sizeofBlock minSplit n t ++ post)) ∧
      SameOutside s.mem (takeBlock s x n).mem x (x + sizeofBlock + t.size) := by
  subst hx
  have hstart := inv.start_pos
  have hle := le_stop sizeofBlock s.heapRegionStart pre
  have hstop := inv.stop_lt
  rw [stop_append, stop_cons] at hstop
  have hpost := le_stop sizeofBlock
    (stop sizeofBlock s.heapRegionStart pre + sizeofBlock + t.size) post
  obtain ⟨hblocks, hout⟩ :=
    takeBlock_blocks inv.blocks.header ht (by omega) (by omega) (next_lt hstop)
  refine ⟨?_, hout⟩
  apply inv.update takeBlock_layout takeBlock_committed
  · have hsingle : pre ++ t :: post = pre ++ ([t] ++ post) := rfl
    have hroom : stop sizeofBlock (stop sizeofBlock s.heapRegionStart pre) [t] =
      stop sizeofBlock s.heapRegionStart pre + sizeofBlock + t.size := rfl
    apply Blocks.replace (hsingle ▸ inv.blocks) (List.cons_ne_nil _ _) _ _ rfl hout hblocks
    · unfold carve
      split <;> simp
    · rw [stop_carve, hroom]
  · unfold carve
    split <;> simp
  · simp only [stop_append, stop_carve, stop_cons]

/-! ## Joining neighbours -/

/-- Two neighbours made into one. -/
theorem absorb_blocks (hc : Blocks s.mem a (pre ++ ([t, u] ++ post)) 0)
    (hx : x = stop sizeofBlock a pre) (hy : y = x + sizeofBlock + t.size)
    (hend : stop sizeofBlock a (pre ++ ([t, u] ++ post)) < 2 ^ 64) :
    Blocks (absorb s x y).mem a (pre ++ ([merge sizeofBlock t u] ++ post)) 0 := by
  have hsplit := (chain_append.mp hc).2
  rw [← hx] at hsplit
  have hpair : Header s.mem x t (x + sizeofBlock + t.size) ∧
      Blocks s.mem (x + sizeofBlock + t.size) (u :: post) 0 := chain_cons_cons.mp hsplit
  rw [← hy] at hpair
  have hstop : stop sizeofBlock (y + sizeofBlock + u.size) post < 2 ^ 64 := by
    rw [stop_append, ← hx] at hend
    rw [hy]
    exact hend
  have hlater := le_stop sizeofBlock (y + sizeofBlock + u.size) post
  have hroom : stop sizeofBlock x [t, u] = y + sizeofBlock + u.size := by rw [hy]; rfl
  have hsum : (merge sizeofBlock t u).size = t.size + sizeofBlock + u.size := rfl
  have hblock : sizeofBlock = 24 := rfl
  apply Blocks.replace hc (List.cons_ne_nil _ _) (List.cons_ne_nil _ _) _ hx
  · exact (absorb_outside s x y).mono le_rfl (by omega)
  · apply chain_singleton.mpr
    rw [hroom]
    exact absorb_header hpair.1 hpair.2.1 hy (by omega) (next_lt hstop)
  · rw [hroom, stop_cons, stop_nil, hsum]
    omega

theorem coalesceNext_layout : (coalesceNext s x).layout = s.layout := by
  unfold coalesceNext
  simp only
  split <;> rfl

theorem coalescePrev_layout : (coalescePrev s y x).layout = s.layout := by
  unfold coalescePrev
  split <;> rfl

theorem coalesceNext_committed : (coalesceNext s x).heapCommitted = s.heapCommitted := by
  unfold coalesceNext
  simp only
  split <;> rfl

theorem coalescePrev_committed : (coalescePrev s y x).heapCommitted = s.heapCommitted := by
  unfold coalescePrev
  split <;> rfl

theorem coalesceNext_blocks (hc : Blocks s.mem a (pre ++ t :: post) 0) (ha : 0 < a)
    (hx : x = stop sizeofBlock a pre) (hend : stop sizeofBlock a (pre ++ t :: post) < 2 ^ 64) :
    Blocks (coalesceNext s x).mem a
      (pre ++ (joinNext sizeofBlock t post).1 :: (joinNext sizeofBlock t post).2) 0 := by
  have hheader := hc.header
  rw [← hx] at hheader
  have hle := le_stop sizeofBlock a pre
  unfold coalesceNext
  rw [hheader.nextAt_eq]
  cases post with
  | nil =>
    rw [if_pos rfl]
    simpa [joinNext] using hc
  | cons u post =>
    rw [if_neg (List.cons_ne_nil _ _)]
    have hc' : Blocks s.mem a (pre ++ ([t, u] ++ post)) 0 := hc
    have hnext : Header s.mem (x + sizeofBlock + t.size) u
        (if post = [] then 0 else x + sizeofBlock + t.size + sizeofBlock + u.size) := by
      have hpair := (chain_append.mp hc).2
      rw [← hx] at hpair
      exact (chain_cons_cons.mp hpair).2.1
    have hcond : (x + sizeofBlock + t.size ≠ 0 ∧
        magicAt s (x + sizeofBlock + t.size) = blockMagic ∧
        freeAt s (x + sizeofBlock + t.size) = true) ↔ u.free = true := by
      rw [hnext.magicAt_eq, hnext.freeAt_eq]
      constructor
      · intro h
        exact h.2.2
      · intro h
        exact ⟨by omega, rfl, h⟩
    simp only [hcond, joinNext]
    split
    · exact absorb_blocks hc' hx rfl hend
    · exact hc

theorem coalescePrev_blocks {q : ℕ} (hc : Blocks s.mem a (pre ++ t :: post) 0) (ha : 0 < a)
    (hx : x = stop sizeofBlock a pre) (hend : stop sizeofBlock a (pre ++ t :: post) < 2 ^ 64)
    (hq : q = if pre = [] then 0 else stop sizeofBlock a pre.dropLast) :
    Blocks (coalescePrev s q x).mem a (joinLast sizeofBlock pre t ++ post) 0 := by
  unfold coalescePrev
  rcases List.eq_nil_or_concat' pre with rfl | ⟨pre, u, rfl⟩
  · rw [if_pos rfl] at hq
    rw [if_neg (fun h => h.1 hq), joinLast_nil]
    exact hc
  · rw [if_neg (by simp), List.dropLast_concat] at hq
    rw [stop_append, ← hq, stop_cons, stop_nil] at hx
    have hc' : Blocks s.mem a (pre ++ ([u, t] ++ post)) 0 := by simpa using hc
    have hend' : stop sizeofBlock a (pre ++ ([u, t] ++ post)) < 2 ^ 64 := by simpa using hend
    have hpair : Blocks s.mem a (pre ++ u :: (t :: post)) 0 := by simpa using hc
    have hheader := hpair.header
    have hle := le_stop sizeofBlock a pre
    rw [← hq] at hheader hle
    have hlt : x < 2 ^ 64 := by
      have hroom : stop sizeofBlock x (t :: post) < 2 ^ 64 := by
        rw [stop_append, ← hq] at hend'
        rw [hx]
        exact hend'
      exact (le_stop _ _ _).trans_lt hroom
    have hcond : (q ≠ 0 ∧ magicAt s q = blockMagic ∧ freeAt s q = true ∧
        w64 (q + sizeofBlock + sizeAt s q) = x) ↔ u.free = true := by
      rw [hheader.magicAt_eq, hheader.freeAt_eq, hheader.sizeAt_eq, ← hx, w64_eq hlt]
      constructor
      · intro h
        exact h.2.2.1
      · intro h
        exact ⟨by omega, rfl, h, rfl⟩
    rw [joinLast_concat]
    simp only [hcond]
    split
    · have hmerged := absorb_blocks hc' hq hx hend'
      simpa using hmerged
    · simpa using hc

/-! ## Giving a block back -/

/-- The list after the block `t` between `pre` and `post` is freed. -/
def released (pre : List Tile) (t : Tile) (post : List Tile) : List Tile :=
  joinLast sizeofBlock pre (joinNext sizeofBlock ⟨t.size, true⟩ post).1 ++
    (joinNext sizeofBlock ⟨t.size, true⟩ post).2

theorem stop_released :
    stop sizeofBlock a (released pre t post) = stop sizeofBlock a (pre ++ t :: post) := by
  unfold released
  rw [stop_append, stop_joinLast, stop_joinNext, stop_append, stop_cons]

theorem coalesceNext_outside : SameOutside s.mem (coalesceNext s x).mem x (x + sizeofBlock) := by
  unfold coalesceNext
  simp only
  split
  · exact absorb_outside s x _
  · exact fun y _ => rfl

theorem coalescePrev_outside :
    SameOutside s.mem (coalescePrev s y x).mem y (y + sizeofBlock) := by
  unfold coalescePrev
  split
  · exact absorb_outside s y x
  · exact fun y _ => rfl

theorem coalescePrev_null : coalescePrev s 0 x = s := if_neg fun h => h.1 rfl

/-- Memory outside every header of the list. -/
def OffHeaders (a : ℕ) (ts : List Tile) (y : ℕ) : Prop :=
  ∀ z ∈ starts sizeofBlock a ts, y < z ∨ z + sizeofBlock ≤ y

/-- Coalescing writes to the header of the block before, if there is one. -/
theorem coalescePrev_off_prev {prev : ℕ}
    (hprev : prev = if pre = [] then 0 else stop sizeofBlock a pre.dropLast)
    (hy : ∀ pre' u, pre = pre' ++ [u] →
      y < stop sizeofBlock a pre' ∨ stop sizeofBlock a pre' + sizeofBlock ≤ y) :
    (coalescePrev s prev x).mem y = s.mem y := by
  rcases List.eq_nil_or_concat' pre with rfl | ⟨pre, u, rfl⟩
  · rw [if_pos rfl] at hprev
    rw [hprev, coalescePrev_null]
  · rw [if_neg (by simp), List.dropLast_concat] at hprev
    apply coalescePrev_outside
    rw [hprev]
    exact hy pre u rfl

theorem coalescePrev_off {prev : ℕ}
    (hprev : prev = if pre = [] then 0 else stop sizeofBlock a pre.dropLast)
    (hy : OffHeaders a (pre ++ t :: post) y) : (coalescePrev s prev x).mem y = s.mem y := by
  apply coalescePrev_off_prev hprev
  rintro pre' u rfl
  apply hy
  rw [List.append_assoc]
  exact stop_mem_starts _ _ _ _ _

/-- The first stage of freeing a block in use: it is marked free and takes over the next block, with
writes to its own header only. -/
theorem kfree_stages (inv : HeapInv s (pre ++ t :: post)) (ht : t.free = false)
    (hx : x = stop sizeofBlock s.heapRegionStart pre) :
    ∃ s₁ prev, kfree s (x + sizeofBlock) = some (coalescePrev s₁ prev x) ∧
      HeapInv s₁ (pre ++ (joinNext sizeofBlock ⟨t.size, true⟩ post).1 ::
        (joinNext sizeofBlock ⟨t.size, true⟩ post).2) ∧
      s₁.layout = s.layout ∧ s₁.heapCommitted = s.heapCommitted ∧
      SameOutside s.mem s₁.mem x (x + sizeofBlock) ∧
      prev = if pre = [] then 0 else stop sizeofBlock s.heapRegionStart pre.dropLast := by
  have hblock : sizeofBlock = 24 := rfl
  have hheader := inv.blocks.header
  rw [← hx] at hheader
  have hstop := inv.stop_lt
  have hmem : x ∈ starts sizeofBlock s.heapRegionStart (pre ++ t :: post) := by
    rw [hx]
    exact stop_mem_starts _ _ _ _ _
  have hroom := starts_bounds hmem
  have hptr : sub64 (x + sizeofBlock) sizeofBlock = x := by
    rw [sub64_eq (by omega) (by omega)]
    omega
  unfold kfree
  rw [if_neg (by omega)]
  simp only [hptr]
  rw [if_neg (not_not.mpr hheader.magicAt_eq), hheader.freeAt_eq, ht, if_neg Bool.false_ne_true]
  have hout₁ : SameOutside s.mem (releaseBlock s x).mem x (x + sizeofBlock) :=
    setFree_outside s x true
  have hblocks₁ : Blocks (releaseBlock s x).mem s.heapRegionStart
      (pre ++ ⟨t.size, true⟩ :: post) 0 := by
    have hc : Blocks s.mem s.heapRegionStart (pre ++ ([t] ++ post)) 0 := inv.blocks
    have hfreed : Header (releaseBlock s x).mem x ⟨t.size, true⟩ _ := hheader.setFree true
    have hnew : Blocks (releaseBlock s x).mem x [⟨t.size, true⟩] _ := chain_singleton.mpr hfreed
    have hsame : stop sizeofBlock x [⟨t.size, true⟩] = stop sizeofBlock x [t] := rfl
    have hreplaced := Blocks.replace hc (List.cons_ne_nil _ _) (List.cons_ne_nil _ _) hsame hx
      (hout₁.mono le_rfl (Nat.le_add_right _ _)) hnew
    exact hreplaced
  have hend₁ : stop sizeofBlock s.heapRegionStart (pre ++ ⟨t.size, true⟩ :: post) < 2 ^ 64 := by
    rw [stop_append] at hstop ⊢
    exact hstop
  have hlayout₁ : (releaseBlock s x).layout = s.layout := rfl
  have hcommitted₁ : (releaseBlock s x).heapCommitted = s.heapCommitted := rfl
  generalize releaseBlock s x = s₁ at *
  have hblocks₂ := coalesceNext_blocks hblocks₁ inv.pos hx hend₁
  have hout₂ : SameOutside s₁.mem (coalesceNext s₁ x).mem x (x + sizeofBlock) :=
    coalesceNext_outside
  have hlayout₂ := (coalesceNext_layout (s := s₁) (x := x)).trans hlayout₁
  have hcommitted₂ := (coalesceNext_committed (s := s₁) (x := x)).trans hcommitted₁
  generalize coalesceNext s₁ x = s₂ at *
  have hhead : s₂.heapHead = s.heapRegionStart :=
    (congrArg Layout.heapHead hlayout₂).trans inv.head
  have hlength := inv.length_lt
  rw [List.length_append] at hlength
  rw [hhead, prevBlock_eq hblocks₂ inv.pos hx (by omega), Option.map_some]
  refine ⟨s₂, _, rfl, ?_, hlayout₂, hcommitted₂, hout₁.trans hout₂, rfl⟩
  apply inv.update hlayout₂ hcommitted₂ hblocks₂ (by simp)
  rw [stop_append, stop_cons, stop_joinNext, stop_append, stop_cons]

/-- Freeing a block in use makes it free, joins it with free neighbours and writes to headers
only. -/
theorem kfree_inv (inv : HeapInv s (pre ++ t :: post)) (ht : t.free = false)
    (hx : x = stop sizeofBlock s.heapRegionStart pre) :
    ∃ s', kfree s (x + sizeofBlock) = some s' ∧ HeapInv s' (released pre t post) ∧
      s'.layout = s.layout ∧ s'.heapCommitted = s.heapCommitted ∧
      ∀ y, OffHeaders s.heapRegionStart (pre ++ t :: post) y → s'.mem y = s.mem y := by
  have hmem : x ∈ starts sizeofBlock s.heapRegionStart (pre ++ t :: post) := by
    rw [hx]
    exact stop_mem_starts _ _ _ _ _
  obtain ⟨s₁, prev, hs', inv₁, hlayout₁, hcommitted₁, hout, hprev⟩ := kfree_stages inv ht hx
  have hstart : s₁.heapRegionStart = s.heapRegionStart := congrArg Layout.heapRegionStart hlayout₁
  have hend := inv₁.stop_lt
  have hblocks₁ := inv₁.blocks
  rw [hstart] at hend hblocks₁
  have hblocks := coalescePrev_blocks hblocks₁ inv.pos hx hend hprev
  have hlayout := (coalescePrev_layout (s := s₁) (y := prev) (x := x)).trans hlayout₁
  have hcommitted := (coalescePrev_committed (s := s₁) (y := prev) (x := x)).trans hcommitted₁
  refine ⟨_, hs', ?_, hlayout, hcommitted, ?_⟩
  · apply inv.update hlayout hcommitted hblocks _ stop_released
    exact List.append_ne_nil_of_left_ne_nil joinLast_ne_nil _
  · intro y hy
    rw [coalescePrev_off hprev hy, hout y (hy x hmem)]

/-! ## Growth -/

/-- Where the heap may grow: below the top of the address space, apart from the bitmap, and over
pages that have a bit there. -/
structure RegionInv (s : State) : Prop where
  virt_fits : s.heapRegionStart + s.heapMaxBytes < 2 ^ 64
  phys_fits : s.heapPhysBase + s.heapMaxBytes < 2 ^ 64
  max_le : s.heapMaxBytes ≤ heapMaxPages * pageSize
  bits : s.heapPhysBase + s.heapMaxBytes ≤ pageSize * (8 * s.pmmBitmapBytes)
  apart : s.pmmBitmap + s.pmmBitmapBytes ≤ s.heapRegionStart ∨
    s.heapRegionStart + s.heapMaxBytes ≤ s.pmmBitmap ∧ s.heapCommitted ≤ s.heapMaxBytes

/-- Memory outside the bitmap. -/
def OffBitmap (s : State) (y : ℕ) : Prop :=
  y < s.pmmBitmap ∨ s.pmmBitmap + s.pmmBitmapBytes ≤ y

/-- A new block named by the last one. -/
theorem setNext_blocks (hc : Blocks s.mem a (pre ++ [t]) 0) (hy : Header s.mem y u 0)
    (hx : x = stop sizeofBlock a pre) (hxy : y = x + sizeofBlock + t.size) (hlt : y < 2 ^ 64) :
    Blocks (setNext s x y).mem a (pre ++ [t] ++ u :: []) 0 := by
  have hout := setNext_outside s x y
  obtain ⟨hpre, hlast⟩ := chain_append.mp hc
  rw [if_neg (List.cons_ne_nil _ _), ← hx] at hpre
  rw [← hx] at hlast
  rw [List.append_assoc]
  apply chain_append.mpr
  rw [if_neg (by simp), ← hx]
  constructor
  · apply Blocks.congr hpre
    intro z hz i hi
    have hbounds := starts_bounds hz
    exact hout _ (Or.inl (by omega))
  · apply chain_cons_cons.mpr
    rw [← hxy]
    refine ⟨(chain_singleton.mp hlast).setNext hlt, chain_singleton.mpr ?_⟩
    exact hy.outside hout (Or.inr (by omega))

/-- The join at the end of a growth is the one `kfree` makes with the previous block. -/
theorem join_grown (hx : Header s.mem x t k) (hpos : 0 < x) :
    (if freeAt s x ∧ w64 (x + sizeofBlock + sizeAt s x) = y then absorb s x y else s) =
      coalescePrev s x y := by
  unfold coalescePrev
  congr 1
  simp only [hx.magicAt_eq, eq_iff_iff, true_and]
  constructor
  · intro h
    exact ⟨by omega, h⟩
  · intro h
    exact h.2

/-- A free block put behind the others, joined to the last one when that is free. -/
theorem appendBlock_blocks (hc : Blocks s.mem a ts 0) (hne : ts ≠ []) (ha : 0 < a)
    (hhead : s.heapHead = a) (hy : stop sizeofBlock a ts = y) (hlength : ts.length < walkLimit)
    (hend : y + sizeofBlock + n < 2 ^ 64) :
    ∃ s', appendBlock s y n = some s' ∧
      Blocks s'.mem a (joinLast sizeofBlock ts ⟨n, true⟩) 0 ∧ s'.layout = s.layout ∧
      s'.heapCommitted = s.heapCommitted ∧
      ∀ z, OffHeaders a ts z → z < y ∨ y + sizeofBlock ≤ z → s'.mem z = s.mem z := by
  rcases List.eq_nil_or_concat' ts with rfl | ⟨pre, t, rfl⟩
  · exact absurd rfl hne
  -- The header of the new block lies behind all others.
  have hout₁ := writeBlock_outside s y n 0
  have hnew₁ := writeBlock_header (x := y) (n := 0) s (show n < 2 ^ 64 by omega) (by decide)
  have hblocks₁ : Blocks (writeBlock s y n 0).mem a (pre ++ [t]) 0 := by
    apply Blocks.congr hc
    intro z hz i hi
    have hbounds := starts_bounds hz
    exact hout₁ _ (Or.inl (by omega))
  have hlayout₁ : (writeBlock s y n 0).layout = s.layout := rfl
  have hcommitted₁ : (writeBlock s y n 0).heapCommitted = s.heapCommitted := rfl
  have hhead₁ : (writeBlock s y n 0).heapHead = a := hhead
  unfold appendBlock
  simp only
  generalize writeBlock s y n 0 = s₁ at *
  -- The last block names it.
  rw [List.length_append] at hlength
  rw [hhead₁, lastBlock_eq hblocks₁ ha (by omega), Option.map_some]
  generalize hx : stop sizeofBlock a pre = x
  have hxy : y = x + sizeofBlock + t.size := by
    rw [← hy, stop_append, hx]
    rfl
  have hxpos : 0 < x := by
    rw [← hx]
    exact ha.trans_le (le_stop _ _ _)
  have hblocks₂ := setNext_blocks hblocks₁ hnew₁ hx.symm hxy (by omega)
  have hout₂ := setNext_outside s₁ x y
  have hlayout₂ : (setNext s₁ x y).layout = s.layout := hlayout₁
  have hcommitted₂ : (setNext s₁ x y).heapCommitted = s.heapCommitted := hcommitted₁
  generalize setNext s₁ x y = s₂ at *
  -- It joins the last block as a freed block joins the one before it.
  have hmiddle : Blocks s₂.mem a (pre ++ t :: [⟨n, true⟩]) 0 := by simpa using hblocks₂
  rw [join_grown (hx ▸ hmiddle.header) hxpos]
  have hblocks₃ := coalescePrev_blocks (q := x) hblocks₂ ha hy.symm
    (by rw [stop_append, hy]; exact hend) (by rw [if_neg (by simp), List.dropLast_concat, hx])
  refine ⟨_, rfl, ?_, coalescePrev_layout.trans hlayout₂,
    coalescePrev_committed.trans hcommitted₂, ?_⟩
  · simpa using hblocks₃
  · intro z hz hzy
    have hzx : z < x ∨ x + sizeofBlock ≤ z := by
      apply hz
      rw [← hx]
      exact stop_mem_starts _ _ _ _ _
    rw [coalescePrev_outside z hzx, hout₂ z hzx, hout₁ z hzy]

theorem RegionInv.update (reg : RegionInv s) (hlayout : s'.layout = s.layout)
    (hcommitted : s'.heapCommitted = s.heapCommitted ∨ s'.heapCommitted ≤ s.heapMaxBytes) :
    RegionInv s' := by
  have hstart : s'.heapRegionStart = s.heapRegionStart := congrArg Layout.heapRegionStart hlayout
  have hmax : s'.heapMaxBytes = s.heapMaxBytes := congrArg Layout.heapMaxBytes hlayout
  have hphys : s'.heapPhysBase = s.heapPhysBase := congrArg Layout.heapPhysBase hlayout
  have hbitmap : s'.pmmBitmap = s.pmmBitmap := congrArg Layout.pmmBitmap hlayout
  have hbytes : s'.pmmBitmapBytes = s.pmmBitmapBytes := congrArg Layout.pmmBitmapBytes hlayout
  have hapart := reg.apart
  constructor
  · rw [hstart, hmax]
    exact reg.virt_fits
  · rw [hphys, hmax]
    exact reg.phys_fits
  · rw [hmax]
    exact reg.max_le
  · rw [hphys, hmax, hbytes]
    exact reg.bits
  · rw [hbitmap, hbytes, hstart, hmax]
    omega

/-- Marking pages leaves the heap. -/
theorem HeapInv.marked {page count : ℕ} (inv : HeapInv s ts) (reg : RegionInv s)
    (hbounded : s.heapCommitted ≤ s.heapMaxBytes)
    (hpages : page + count ≤ 8 * s.pmmBitmapBytes) : HeapInv (markPages s page count) ts := by
  have hapart := reg.apart
  have htiled := inv.tiled
  apply inv.update markPages_layout markPages_committed _ inv.nonempty rfl
  apply Blocks.congr inv.blocks
  intro z hz i hi
  have hbounds := starts_bounds hz
  exact markPages_mem hpages (by omega)

/-- A new block starts where the last one ends, and is joined to that if it is free. -/
theorem HeapInv.appended (inv : HeapInv s ts)
    (hend : s.heapRegionStart + s.heapCommitted + sizeofBlock + n < 2 ^ 64) :
    ∃ s', appendBlock s (s.heapRegionStart + s.heapCommitted) n = some s' ∧
      HeapInv { s' with heapCommitted := s.heapCommitted + (sizeofBlock + n) }
        (joinLast sizeofBlock ts ⟨n, true⟩) ∧
      s'.layout = s.layout ∧ s'.heapCommitted = s.heapCommitted ∧
      ∀ y, OffHeaders s.heapRegionStart ts y → y < s.heapRegionStart + s.heapCommitted ∨
        s.heapRegionStart + s.heapCommitted + sizeofBlock ≤ y → s'.mem y = s.mem y := by
  have htiled := inv.tiled
  obtain ⟨s', hs', hblocks, hlayout, hcommitted, hmem⟩ := appendBlock_blocks inv.blocks inv.nonempty
    inv.pos inv.head htiled inv.length_lt hend
  have hstart : s'.heapRegionStart = s.heapRegionStart := congrArg Layout.heapRegionStart hlayout
  refine ⟨s', hs', ?_, hlayout, hcommitted, hmem⟩
  constructor
  · exact hstart ▸ hblocks
  · exact (congrArg Layout.heapHead hlayout).trans (inv.head.trans hstart.symm)
  · simp only [hstart, stop_joinLast, htiled]
    omega
  · exact joinLast_ne_nil
  · exact hstart ▸ inv.start_pos
  · simp only [hstart]
    omega

/-- A growth inside the region puts a free block behind the others, joined to the last one when
that is free, and writes to headers and to the bits of the new pages only. -/
theorem growBy_inv {grow : ℕ} (inv : HeapInv s ts) (reg : RegionInv s)
    (hleast : sizeofBlock + minSplit ≤ grow)
    (hmax : s.heapCommitted + grow ≤ s.heapMaxBytes) :
    ∃ s', growBy s grow = some s' ∧
      HeapInv s' (joinLast sizeofBlock ts ⟨grow - sizeofBlock, true⟩) ∧ RegionInv s' ∧
      s'.layout = s.layout ∧ s'.heapCommitted = s.heapCommitted + grow ∧
      (∀ y, OffHeaders s.heapRegionStart ts y → OffBitmap s y →
        y < s.heapRegionStart + s.heapCommitted → s'.mem y = s.mem y) ∧
      ∀ p < 8 * s.pmmBitmapBytes, bmpTest s' p =
        (decide ((s.heapPhysBase + s.heapCommitted) / pageSize ≤ p ∧
          p < (s.heapPhysBase + s.heapCommitted) / pageSize + grow / pageSize) || bmpTest s p) := by
  have hblock : sizeofBlock = 24 := rfl
  have hpage : pageSize = 4096 := rfl
  have hsplit : minSplit = 32 := rfl
  have hvirt := reg.virt_fits
  have hphys := reg.phys_fits
  have hbits := reg.bits
  have hapart := reg.apart
  have htiled := inv.tiled
  have hnb : w64 (s.heapRegionStart + s.heapCommitted) = s.heapRegionStart + s.heapCommitted :=
    w64_eq (by omega)
  have hnp : w64 (s.heapPhysBase + s.heapCommitted) = s.heapPhysBase + s.heapCommitted :=
    w64_eq (by omega)
  have hsize : sub64 grow sizeofBlock = grow - sizeofBlock := sub64_eq (by omega) (by omega)
  have hpages : (s.heapPhysBase + s.heapCommitted) / pageSize + grow / pageSize ≤
      8 * s.pmmBitmapBytes := by
    rw [hpage] at *
    omega
  unfold growBy
  simp only [hnp, hsize]
  -- The bits of the new pages.
  have inv₁ := inv.marked reg (by omega) hpages
  generalize hs₁ : markPages s ((s.heapPhysBase + s.heapCommitted) / pageSize) (grow / pageSize) = s₁
    at inv₁
  have hlayout₁ : s₁.layout = s.layout := hs₁ ▸ markPages_layout
  have hcommitted₁ : s₁.heapCommitted = s.heapCommitted := hs₁ ▸ markPages_committed
  have hmem₁ : ∀ y, OffBitmap s y → s₁.mem y = s.mem y := fun y hy => hs₁ ▸ markPages_mem hpages hy
  have htest₁ : ∀ p, bmpTest s₁ p = _ := fun p => hs₁ ▸ bmpTest_markPages p
  have hstart₁ : s₁.heapRegionStart = s.heapRegionStart :=
    congrArg Layout.heapRegionStart hlayout₁
  have hbitmap₁ : s₁.pmmBitmap = s.pmmBitmap := congrArg Layout.pmmBitmap hlayout₁
  -- The new block.
  obtain ⟨s₂, hs₂, inv₂, hlayout₂, hcommitted₂, hmem₂⟩ := inv₁.appended
    (n := grow - sizeofBlock) (by omega)
  have hadded : s₁.heapCommitted + (sizeofBlock + (grow - sizeofBlock)) = s.heapCommitted + grow := by
    omega
  rw [hadded] at inv₂
  rw [hstart₁, hcommitted₁] at hs₂ hmem₂
  have hgrown : w64 (s₂.heapCommitted + grow) = s.heapCommitted + grow := by
    rw [hcommitted₂, hcommitted₁]
    exact w64_eq (by omega)
  rw [hstart₁, hcommitted₁, hnb, hs₂, Option.map_some, hgrown]
  have hlayout : s₂.layout = s.layout := hlayout₂.trans hlayout₁
  refine ⟨_, rfl, inv₂, reg.update hlayout (Or.inr hmax), hlayout, rfl, ?_, ?_⟩
  · intro y hheaders hbitmap hy
    show s₂.mem y = s.mem y
    rw [hmem₂ y hheaders (Or.inl hy), hmem₁ y hbitmap]
  · intro p hp
    rw [← htest₁]
    apply bmpTest_congr hlayout₂
    rw [hbitmap₁]
    apply hmem₂
    · intro z hz
      have hbounds := starts_bounds hz
      omega
    · omega

end QuillOS.Memory
