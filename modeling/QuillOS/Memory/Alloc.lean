import QuillOS.Memory.Heap

/-!
# Allocating and freeing

`kmalloc` serves a request from the first block that fits, if need be after one growth; what that
and `kfree` do to the payloads in use.
-/

namespace QuillOS.Memory

open Lib Lib.Mem Lib.Tiling

variable {s s' : State} {x y n p a size need : ℕ} {t u : Tile} {ts ts' pre post : List Tile}

/-! ## Requests -/

/-- What `kmalloc` makes of a request of `size` bytes. -/
def needOf (size : ℕ) : ℕ := alignDown 16 (w64 (size + 15))

/-- What `heap_grow` asks for, in exact arithmetic, before it is clipped to the region. -/
def wantedGrowth (need : ℕ) : ℕ :=
  max (heapGrowPages * pageSize) (alignDown pageSize (need + sizeofBlock + pageSize - 1))

theorem needOf_lt (size : ℕ) : needOf size + 15 < 2 ^ 64 := by
  have hlt := w64_lt (size + 15)
  unfold needOf alignDown
  omega

/-- Rounding a rounded request changes nothing. -/
theorem needOf_needOf (size : ℕ) : needOf (needOf size) = needOf size := by
  have hlt := needOf_lt size
  have hdvd : 16 ∣ needOf size := Nat.dvd_mul_left 16 _
  rw [needOf, w64_eq hlt]
  unfold alignDown
  omega

theorem le_needOf (h : size ≤ 2 ^ 63) : size ≤ needOf size ∧ needOf size ≤ 2 ^ 63 := by
  unfold needOf
  rw [w64_eq (by omega)]
  unfold alignDown
  omega

/-- Without a wrap the growth is what is wanted, clipped to what the region has left. -/
theorem growSize_eq (hmax : s.heapCommitted ≤ s.heapMaxBytes)
    (hfit : s.heapMaxBytes + wantedGrowth need < 2 ^ 64) :
    growSize s need = min (wantedGrowth need) (s.heapMaxBytes - s.heapCommitted) := by
  have hwanted : (if heapGrowPages * pageSize < w64 (need + sizeofBlock) then
      alignDown pageSize (w64 (need + sizeofBlock + pageSize - 1))
      else heapGrowPages * pageSize) = wantedGrowth need := by
    unfold wantedGrowth alignDown heapGrowPages pageSize sizeofBlock at *
    rw [w64_eq (by omega), w64_eq (by omega)]
    split <;> omega
  unfold growSize
  simp only [hwanted]
  rw [w64_eq (by omega), sub64_eq (by omega) hmax]
  split <;> omega

theorem growSize_le (hmax : s.heapCommitted ≤ s.heapMaxBytes)
    (hfit : s.heapMaxBytes + wantedGrowth need < 2 ^ 64) :
    s.heapCommitted + growSize s need ≤ s.heapMaxBytes := by
  have hsize := growSize_eq hmax hfit
  omega

/-- A growth that is not clipped makes room for the request. -/
theorem need_le_wantedGrowth (need : ℕ) : need + sizeofBlock ≤ wantedGrowth need := by
  unfold wantedGrowth alignDown pageSize
  omega

theorem dvd_wantedGrowth (need : ℕ) : pageSize ∣ wantedGrowth need := by
  unfold wantedGrowth alignDown heapGrowPages pageSize
  omega

/-- The heap grows by whole pages. -/
theorem dvd_growSize (hmax : s.heapCommitted ≤ s.heapMaxBytes)
    (hfit : s.heapMaxBytes + wantedGrowth need < 2 ^ 64) (hcommitted : pageSize ∣ s.heapCommitted)
    (hlimit : pageSize ∣ s.heapMaxBytes) : pageSize ∣ growSize s need := by
  rw [growSize_eq hmax hfit]
  rcases min_choice (wantedGrowth need) (s.heapMaxBytes - s.heapCommitted) with hwanted | hleft
  · rw [hwanted]
    exact dvd_wantedGrowth need
  · rw [hleft]
    exact Nat.dvd_sub hlimit hcommitted

theorem wantedGrowth_le (h : need ≤ 2 ^ 63) : wantedGrowth need ≤ 2 ^ 63 + 2 ^ 16 := by
  unfold wantedGrowth alignDown heapGrowPages pageSize sizeofBlock
  omega

/-! ## How an allocation ends -/

/-- The request is served from the first block that fits. -/
def Served (s : State) (ts : List Tile) (need p : ℕ) (s' : State) : Prop :=
  ∃ pre t post, ts = pre ++ t :: post ∧ Fits need t ∧ (∀ u ∈ pre, ¬Fits need u) ∧
    p = stop sizeofBlock s.heapRegionStart pre + sizeofBlock ∧
    s' = takeBlock s (stop sizeofBlock s.heapRegionStart pre) need

theorem HeapInv.search_cases (inv : HeapInv s ts) (need : ℕ) :
    ((∀ t ∈ ts, ¬Fits need t) ∧ search s need walkLimit s.heapHead = some .exhausted) ∨
      ∃ pre t post, ts = pre ++ t :: post ∧ Fits need t ∧ (∀ u ∈ pre, ¬Fits need u) ∧
        search s need walkLimit s.heapHead =
          some (.found (stop sizeofBlock s.heapRegionStart pre)) := by
  have hlength := inv.length_lt
  rcases fits_cases need ts with hnone | ⟨pre, t, post, rfl, ht, hpre⟩
  · refine Or.inl ⟨hnone, ?_⟩
    have hsearch := search_none inv.blocks inv.pos hnone hlength
    rwa [if_neg inv.nonempty, ← inv.head] at hsearch
  · refine Or.inr ⟨pre, t, post, rfl, ht, hpre, ?_⟩
    rw [List.length_append] at hlength
    have hsearch := search_found inv.blocks inv.pos hpre ht (show pre.length < walkLimit by omega)
    rwa [← inv.head] at hsearch ⊢

/-- One call of `kmalloc`: the request is served, or the heap is asked to grow. -/
theorem kmallocRetry_cases (inv : HeapInv s ts) (hsize : size ≠ 0) (fuel : ℕ) :
    (∃ p s', kmallocRetry (fuel + 1) s size = some (p, s') ∧ Served s ts (needOf size) p s') ∨
      ((∀ t ∈ ts, ¬Fits (needOf size) t) ∧ kmallocRetry (fuel + 1) s size =
        (heapGrow s (needOf size)).bind fun
          | (true, s) => kmallocRetry fuel s (needOf size)
          | (false, s) => some (0, s)) := by
  rcases inv.search_cases (needOf size) with ⟨hnone, hsearch⟩ | ⟨pre, t, post, rfl, ht, hpre, hsearch⟩
  · refine Or.inr ⟨hnone, ?_⟩
    rw [kmallocRetry, if_neg hsize]
    change (search s (needOf size) walkLimit s.heapHead).bind _ = _
    rw [hsearch]
    rfl
  · have hstop := inv.stop_lt
    have hbounds := starts_bounds (stop_mem_starts sizeofBlock s.heapRegionStart pre t post)
    have hp : w64 (stop sizeofBlock s.heapRegionStart pre + sizeofBlock) =
        stop sizeofBlock s.heapRegionStart pre + sizeofBlock := w64_eq (by omega)
    refine Or.inl ⟨_, _, ?_, pre, t, post, rfl, ht, hpre, hp, rfl⟩
    rw [kmallocRetry, if_neg hsize]
    change (search s (needOf size) walkLimit s.heapHead).bind _ = _
    rw [hsearch]
    rfl

/-- A growth of the size the request asks for, put behind the blocks. -/
def Grown (s : State) (ts : List Tile) (need : ℕ) (s₁ : State) (ts₁ : List Tile) : Prop :=
  growBy s (growSize s need) = some s₁ ∧ sizeofBlock + minSplit ≤ growSize s need ∧
    ts₁ = joinLast sizeofBlock ts ⟨growSize s need - sizeofBlock, true⟩

/-- After a growth that was not clipped the last block fits the request. -/
theorem exists_fits_joinLast {g : ℕ} (ts : List Tile) (h : need + sizeofBlock ≤ g) :
    ∃ t ∈ joinLast sizeofBlock ts ⟨g - sizeofBlock, true⟩, Fits need t := by
  rcases List.eq_nil_or_concat' ts with rfl | ⟨pre, t, rfl⟩
  · exact ⟨⟨g - sizeofBlock, true⟩, by simp [joinLast_nil], rfl, by simp only; omega⟩
  · rw [joinLast_concat]
    split
    · next ht =>
      refine ⟨merge sizeofBlock t ⟨g - sizeofBlock, true⟩, by simp, ht, ?_⟩
      simp only [merge]
      omega
    · exact ⟨⟨g - sizeofBlock, true⟩, by simp, rfl, by simp only; omega⟩

theorem Grown.inv {s₁ : State} {ts₁ : List Tile} (h : Grown s ts need s₁ ts₁) (inv : HeapInv s ts)
    (reg : RegionInv s) (hle : s.heapCommitted + growSize s need ≤ s.heapMaxBytes) :
    HeapInv s₁ ts₁ ∧ RegionInv s₁ ∧ s₁.layout = s.layout ∧
      s₁.heapCommitted = s.heapCommitted + growSize s need ∧
      s₁.heapCommitted ≤ s.heapMaxBytes ∧
      (∀ y, OffHeaders s.heapRegionStart ts y → OffBitmap s y →
        y < s.heapRegionStart + s.heapCommitted → s₁.mem y = s.mem y) ∧
      ∀ p < 8 * s.pmmBitmapBytes, bmpTest s₁ p =
        (decide ((s.heapPhysBase + s.heapCommitted) / pageSize ≤ p ∧
          p < (s.heapPhysBase + s.heapCommitted) / pageSize + growSize s need / pageSize) ||
            bmpTest s p) := by
  obtain ⟨hgrow, hleast, rfl⟩ := h
  obtain ⟨s', hs', inv', reg', hlayout, hcommitted, hmem, htest⟩ := growBy_inv inv reg hleast hle
  obtain rfl : s₁ = s' := Option.some.inj (hgrow.symm.trans hs')
  exact ⟨inv', reg', hlayout, hcommitted, by omega, hmem, htest⟩

/-- When no block fits even after a growth, the region is used up, and the next growth is
refused: a growth of the size wanted would have left a block that fits, so this one was clipped. -/
theorem Grown.exhausted {s₁ : State} {ts₁ : List Tile} (h : Grown s ts need s₁ ts₁)
    (inv : HeapInv s ts) (reg : RegionInv s) (hmax : s.heapCommitted ≤ s.heapMaxBytes)
    (hfit : s.heapMaxBytes + wantedGrowth need < 2 ^ 64) (hnone : ∀ t ∈ ts₁, ¬Fits need t) :
    s₁.heapCommitted = s.heapMaxBytes ∧ growSize s₁ need < sizeofBlock + minSplit := by
  obtain ⟨-, -, hlayout, hcommitted, -, -, -⟩ := h.inv inv reg (growSize_le hmax hfit)
  have hgrowSize := growSize_eq hmax hfit
  have hclipped : growSize s need = s.heapMaxBytes - s.heapCommitted := by
    by_contra hne
    have hwide : need + sizeofBlock ≤ growSize s need := by
      have hwanted := need_le_wantedGrowth need
      omega
    obtain ⟨t, ht, hfits⟩ := exists_fits_joinLast ts hwide
    exact hnone t (h.2.2 ▸ ht) hfits
  have hmax₁ : s₁.heapMaxBytes = s.heapMaxBytes := congrArg Layout.heapMaxBytes hlayout
  have hfull : s₁.heapCommitted = s.heapMaxBytes := by omega
  have hleft : growSize s₁ need = min (wantedGrowth need)
      (s₁.heapMaxBytes - s₁.heapCommitted) := growSize_eq (by omega) (by omega)
  refine ⟨hfull, ?_⟩
  rw [hleft, hfull, hmax₁, Nat.sub_self, Nat.min_zero]
  decide

/-- Every allocation ends in one of four ways: served at once, refused at once, served after one
growth, or refused after a growth that used up the region (or rounded the request to nothing). -/
theorem kmalloc_cases (inv : HeapInv s ts) (reg : RegionInv s) (hsize : size ≠ 0)
    (hmax : s.heapCommitted ≤ s.heapMaxBytes)
    (hfit : s.heapMaxBytes + wantedGrowth (needOf size) < 2 ^ 64) :
    ∃ p s', kmalloc s size = some (p, s') ∧
      (Served s ts (needOf size) p s' ∨
        (∀ t ∈ ts, ¬Fits (needOf size) t) ∧
          (growSize s (needOf size) < sizeofBlock + minSplit ∧ p = 0 ∧ s' = s ∨
            ∃ s₁ ts₁, Grown s ts (needOf size) s₁ ts₁ ∧
              (needOf size ≠ 0 ∧ Served s₁ ts₁ (needOf size) p s' ∨
                p = 0 ∧ s' = s₁ ∧ (needOf size = 0 ∨ s₁.heapCommitted = s.heapMaxBytes ∧
                  ∀ t ∈ ts₁, ¬Fits (needOf size) t)))) := by
  obtain ⟨fuel, hfuel⟩ : ∃ fuel, walkLimit = fuel + 2 := ⟨2 ^ 64 - 2, by unfold walkLimit; rfl⟩
  unfold kmalloc
  rw [hfuel]
  rcases kmallocRetry_cases inv hsize (fuel + 1) with ⟨p, s', hp, hserved⟩ | ⟨hnone, heq⟩
  · exact ⟨p, s', hp, Or.inl hserved⟩
  · rw [heq]
    unfold heapGrow
    by_cases hleast : growSize s (needOf size) < sizeofBlock + minSplit
    · refine ⟨0, s, ?_, Or.inr ⟨hnone, Or.inl ⟨hleast, rfl, rfl⟩⟩⟩
      simp only [if_pos hleast]
      rfl
    · obtain ⟨s₁, hs₁, inv₁, reg₁, -, -, -, -⟩ :=
        growBy_inv inv reg (not_lt.mp hleast) (growSize_le hmax hfit)
      have hgrown : Grown s ts (needOf size) s₁ _ := ⟨hs₁, not_lt.mp hleast, rfl⟩
      simp only [if_neg hleast, hs₁, Option.map_some, Option.bind_some]
      by_cases hzero : needOf size = 0
      -- A request that rounds to 0 grows the heap and is then refused.
      · refine ⟨0, s₁, ?_, Or.inr ⟨hnone, Or.inr ⟨s₁, _, hgrown, Or.inr ⟨rfl, rfl, Or.inl hzero⟩⟩⟩⟩
        rw [hzero, kmallocRetry, if_pos rfl]
      · -- The second call rounds to the same request.
        have hretry := kmallocRetry_cases inv₁ hzero fuel
        rw [needOf_needOf] at hretry
        rcases hretry with ⟨p, s', hp, hserved⟩ | ⟨hnone₁, heq₁⟩
        · exact ⟨p, s', hp, Or.inr ⟨hnone, Or.inr ⟨s₁, _, hgrown, Or.inl ⟨hzero, hserved⟩⟩⟩⟩
        -- A third call does not happen.
        · obtain ⟨hfull, hrefused⟩ := hgrown.exhausted inv reg hmax hfit hnone₁
          refine ⟨0, s₁, ?_, Or.inr ⟨hnone, Or.inr ⟨s₁, _, hgrown,
            Or.inr ⟨rfl, rfl, Or.inr ⟨hfull, hnone₁⟩⟩⟩⟩⟩
          rw [heq₁]
          unfold heapGrow
          simp only [if_pos hrefused]
          rfl

/-! ## What happens to the payloads in use -/

/-- A step of the heap: the payloads in use are not written to, and the pages newly committed are
the ones newly marked. -/
structure HeapStep (s : State) (ts : List Tile) (s' : State) (ts' : List Tile) : Prop where
  inv : HeapInv s' ts'
  reg : RegionInv s'
  layout : s'.layout = s.layout
  committed : s.heapCommitted ≤ s'.heapCommitted
  bounded : s.heapCommitted ≤ s.heapMaxBytes → s'.heapCommitted ≤ s.heapMaxBytes
  keeps : ∀ x n, (x, n) ∈ used sizeofBlock s.heapRegionStart ts →
    ∀ y, x ≤ y → y < x + n → s'.mem y = s.mem y
  bits : ∀ p < 8 * s.pmmBitmapBytes, bmpTest s' p =
    (decide ((s.heapPhysBase + s.heapCommitted) / pageSize ≤ p ∧
      p < (s.heapPhysBase + s.heapCommitted) / pageSize +
        (s'.heapCommitted - s.heapCommitted) / pageSize) || bmpTest s p)

/-- The heap and the bitmap lie apart. -/
theorem RegionInv.heap_apart (reg : RegionInv s) :
    s.pmmBitmap + s.pmmBitmapBytes ≤ s.heapRegionStart ∨
      s.heapRegionStart + s.heapCommitted ≤ s.pmmBitmap := by
  have hapart := reg.apart
  omega

/-- A step that commits nothing and writes to the heap's own memory only. -/
theorem HeapStep.of_same (reg : RegionInv s) (inv : HeapInv s' ts')
    (hlayout : s'.layout = s.layout) (hcommitted : s'.heapCommitted = s.heapCommitted)
    (hkeeps : ∀ x n, (x, n) ∈ used sizeofBlock s.heapRegionStart ts →
      ∀ y, x ≤ y → y < x + n → s'.mem y = s.mem y)
    (hout : SameOutside s.mem s'.mem s.heapRegionStart (s.heapRegionStart + s.heapCommitted)) :
    HeapStep s ts s' ts' where
  inv := inv
  reg := reg.update hlayout (Or.inl hcommitted)
  layout := hlayout
  committed := hcommitted.ge
  bounded := fun h => hcommitted ▸ h
  keeps := hkeeps
  bits := by
    intro p hp
    have hapart := reg.heap_apart
    have hempty : ¬((s.heapPhysBase + s.heapCommitted) / pageSize ≤ p ∧
        p < (s.heapPhysBase + s.heapCommitted) / pageSize +
          (s'.heapCommitted - s.heapCommitted) / pageSize) := by
      rw [hcommitted, Nat.sub_self, Nat.zero_div]
      omega
    rw [decide_eq_false hempty, Bool.false_or]
    apply bmpTest_congr hlayout
    apply hout
    omega

/-- A step that commits nothing after one that may have. -/
theorem HeapStep.trans {s₁ : State} {ts₁ : List Tile} (h : HeapStep s ts s₁ ts₁)
    (h' : HeapStep s₁ ts₁ s' ts') (hsame : s'.heapCommitted = s₁.heapCommitted)
    (hused : used sizeofBlock s.heapRegionStart ts₁ = used sizeofBlock s.heapRegionStart ts) :
    HeapStep s ts s' ts' where
  inv := h'.inv
  reg := h'.reg
  layout := h'.layout.trans h.layout
  committed := hsame ▸ h.committed
  bounded := fun hmax => hsame ▸ h.bounded hmax
  keeps := by
    intro x n hx y hy hy'
    have hstart : s₁.heapRegionStart = s.heapRegionStart :=
      congrArg Layout.heapRegionStart h.layout
    rw [← hused, ← hstart] at hx
    rw [h'.keeps x n hx y hy hy']
    rw [hstart, hused] at hx
    exact h.keeps x n hx y hy hy'
  bits := by
    intro p hp
    have hbytes : s₁.pmmBitmapBytes = s.pmmBitmapBytes := congrArg Layout.pmmBitmapBytes h.layout
    have hempty : ¬((s₁.heapPhysBase + s₁.heapCommitted) / pageSize ≤ p ∧
        p < (s₁.heapPhysBase + s₁.heapCommitted) / pageSize +
          (s'.heapCommitted - s₁.heapCommitted) / pageSize) := by
      rw [hsame, Nat.sub_self, Nat.zero_div]
      omega
    rw [h'.bits p (hbytes ▸ hp), decide_eq_false hempty, Bool.false_or, h.bits p hp, hsame]

theorem HeapStep.refl (inv : HeapInv s ts) (reg : RegionInv s) : HeapStep s ts s ts :=
  HeapStep.of_same reg inv rfl rfl (fun _ _ _ _ _ _ => rfl) fun _ _ => rfl

/-- A growth brings no payload into use and takes none out. -/
theorem Grown.step {s₁ : State} {ts₁ : List Tile} (h : Grown s ts need s₁ ts₁)
    (inv : HeapInv s ts) (reg : RegionInv s)
    (hle : s.heapCommitted + growSize s need ≤ s.heapMaxBytes) : HeapStep s ts s₁ ts₁ ∧
      used sizeofBlock s.heapRegionStart ts₁ = used sizeofBlock s.heapRegionStart ts := by
  obtain ⟨inv₁, reg₁, hlayout, hcommitted, hle, hmem, hbits⟩ := h.inv inv reg hle
  constructor
  · constructor
    · exact inv₁
    · exact reg₁
    · exact hlayout
    · omega
    · exact fun _ => hle
    · intro x n hx y hy hy'
      have hbounds := used_bounds hx
      have hapart := reg.heap_apart
      rw [inv.tiled] at hbounds
      apply hmem y
      · intro z hz
        have hheader := used_starts hx hz
        omega
      · unfold OffBitmap
        omega
      · omega
    · intro p hp
      rw [hbits p hp, hcommitted, Nat.add_sub_cancel_left]
  · rw [h.2.2, used_joinLast rfl]

/-- Serving a request brings one payload of at least its size into use. -/
theorem Served.step (h : Served s ts need p s') (inv : HeapInv s ts) (reg : RegionInv s) :
    ∃ ts' n l₁ l₂, HeapStep s ts s' ts' ∧ s'.heapCommitted = s.heapCommitted ∧ need ≤ n ∧
      used sizeofBlock s.heapRegionStart ts = l₁ ++ l₂ ∧
      used sizeofBlock s.heapRegionStart ts' = l₁ ++ (p, n) :: l₂ := by
  obtain ⟨pre, t, post, rfl, ht, -, rfl, rfl⟩ := h
  obtain ⟨inv', hout⟩ := takeBlock_inv inv ht rfl
  obtain ⟨n, hneed, -, hused⟩ := used_carve (h := sizeofBlock) (a := s.heapRegionStart)
    minSplit pre post ht
  rw [List.append_assoc] at hused
  refine ⟨_, n, _, _, ?_, takeBlock_committed, hneed, ?_, hused⟩
  · apply HeapStep.of_same reg inv' takeBlock_layout takeBlock_committed
    · intro x k hx y hy hy'
      have hfree := used_apart_free ht.1 hx
      exact hout y (by omega)
    · have hle := le_stop sizeofBlock s.heapRegionStart pre
      have hlater := le_stop sizeofBlock
        (stop sizeofBlock s.heapRegionStart pre + sizeofBlock + t.size) post
      have htiled := inv.tiled
      rw [stop_append, stop_cons] at htiled
      exact hout.mono hle (by omega)
  · rw [used_append, used_free ht.1]

/-- Freeing takes exactly the payload at the pointer out of use. -/
theorem kfree_step (inv : HeapInv s ts) (reg : RegionInv s)
    (hp : (p, n) ∈ used sizeofBlock s.heapRegionStart ts) :
    ∃ s' ts' l₁ l₂, kfree s p = some s' ∧ HeapStep s ts s' ts' ∧
      s'.heapCommitted = s.heapCommitted ∧
      used sizeofBlock s.heapRegionStart ts = l₁ ++ (p, n) :: l₂ ∧
      used sizeofBlock s.heapRegionStart ts' = l₁ ++ l₂ := by
  obtain ⟨pre, post, rfl, rfl⟩ := mem_used_iff.mp hp
  obtain ⟨s', hs', inv', hlayout, hcommitted, hmem⟩ := kfree_inv inv rfl rfl
  refine ⟨s', released pre ⟨n, false⟩ post, used sizeofBlock s.heapRegionStart pre,
    used sizeofBlock (stop sizeofBlock s.heapRegionStart pre + sizeofBlock + n) post, hs', ?_,
    hcommitted, ?_, ?_⟩
  · apply HeapStep.of_same reg inv' hlayout hcommitted
    · intro x k hx y hy hy'
      apply hmem
      intro z hz
      have hheader := used_starts hx hz
      omega
    · intro y hy
      apply hmem
      intro z hz
      have hbounds := starts_bounds hz
      rw [inv.tiled] at hbounds
      omega
  · rw [used_append, used_taken rfl]
  · rw [released, used_append, used_joinLast joinNext_free, stop_joinLast, used_joinNext]

/-- The request can be served without a growth, or the growth is clipped to the region and its
arithmetic does not wrap. -/
def Room (s : State) (ts : List Tile) (need : ℕ) : Prop :=
  (∃ t ∈ ts, Fits need t) ∨
    s.heapCommitted ≤ s.heapMaxBytes ∧ s.heapMaxBytes + wantedGrowth need < 2 ^ 64

/-- What an allocation commits: nothing, or, when no block fits, what is wanted or left. -/
def Committed (s : State) (ts : List Tile) (need : ℕ) (s' : State) : Prop :=
  s'.heapCommitted = s.heapCommitted ∨ (∀ t ∈ ts, ¬Fits need t) ∧
    s'.heapCommitted = s.heapCommitted +
      min (wantedGrowth need) (s.heapMaxBytes - s.heapCommitted)

/-- What an allocation hands out is the only payload that comes into use. -/
def HandsOut (s : State) (ts : List Tile) (need p : ℕ) (ts' : List Tile) : Prop :=
  p = 0 ∧ used sizeofBlock s.heapRegionStart ts' = used sizeofBlock s.heapRegionStart ts ∨
    p ≠ 0 ∧ ∃ n l₁ l₂, need ≤ n ∧
      used sizeofBlock s.heapRegionStart ts = l₁ ++ l₂ ∧
      used sizeofBlock s.heapRegionStart ts' = l₁ ++ (p, n) :: l₂

theorem Served.pos (h : Served s ts need p s') : p ≠ 0 := by
  obtain ⟨pre, t, post, -, -, -, rfl, -⟩ := h
  have hblock : sizeofBlock = 24 := rfl
  omega

theorem kmalloc_served (inv : HeapInv s ts) (hsize : size ≠ 0)
    (hfits : ∃ t ∈ ts, Fits (needOf size) t) :
    ∃ p s', kmalloc s size = some (p, s') ∧ Served s ts (needOf size) p s' := by
  obtain ⟨fuel, hfuel⟩ : ∃ fuel, walkLimit = fuel + 1 := ⟨2 ^ 64 - 1, by unfold walkLimit; rfl⟩
  unfold kmalloc
  rw [hfuel]
  rcases kmallocRetry_cases inv hsize fuel with hserved | ⟨hnone, -⟩
  · exact hserved
  · obtain ⟨t, ht, hfit⟩ := hfits
    exact absurd hfit (hnone t ht)

/-- The whole of `kmalloc`: it returns. -/
theorem kmalloc_step (inv : HeapInv s ts) (reg : RegionInv s) (hsize : size ≠ 0)
    (hroom : Room s ts (needOf size)) :
    ∃ p s' ts', kmalloc s size = some (p, s') ∧ HeapStep s ts s' ts' ∧
      Committed s ts (needOf size) s' ∧ HandsOut s ts (needOf size) p ts' := by
  have hserve : ∀ p s', Served s ts (needOf size) p s' → ∃ ts', HeapStep s ts s' ts' ∧
      Committed s ts (needOf size) s' ∧ HandsOut s ts (needOf size) p ts' := by
    intro p s' hserved
    obtain ⟨ts', n, l₁, l₂, hstep, hsame, hneed, hbefore, hafter⟩ := hserved.step inv reg
    exact ⟨ts', hstep, Or.inl hsame, Or.inr ⟨hserved.pos, n, l₁, l₂, hneed, hbefore, hafter⟩⟩
  rcases hroom with hfits | ⟨hmax, hfit⟩
  · obtain ⟨p, s', hp, hserved⟩ := kmalloc_served inv hsize hfits
    obtain ⟨ts', hts'⟩ := hserve p s' hserved
    exact ⟨p, s', ts', hp, hts'⟩
  · obtain ⟨p, s', hp, hcases⟩ := kmalloc_cases inv reg hsize hmax hfit
    rcases hcases with hserved | ⟨hnone, ⟨-, rfl, rfl⟩ | ⟨s₁, ts₁, hgrown, hcases⟩⟩
    · obtain ⟨ts', hts'⟩ := hserve p s' hserved
      exact ⟨p, s', ts', hp, hts'⟩
    · exact ⟨0, s', ts, hp, HeapStep.refl inv reg, Or.inl rfl, Or.inl ⟨rfl, rfl⟩⟩
    · have hle := growSize_le hmax hfit
      obtain ⟨hstep₁, hused₁⟩ := hgrown.step inv reg hle
      have hcommitted₁ := (hgrown.inv inv reg hle).2.2.2.1
      rw [growSize_eq hmax hfit] at hcommitted₁
      rcases hcases with ⟨-, hserved⟩ | ⟨rfl, rfl, -⟩
      · obtain ⟨ts', n, l₁, l₂, hstep, hsame, hneed, hbefore, hafter⟩ :=
          hserved.step hstep₁.inv hstep₁.reg
        have hstart : s₁.heapRegionStart = s.heapRegionStart :=
          congrArg Layout.heapRegionStart hstep₁.layout
        rw [hstart, hused₁] at hbefore
        rw [hstart] at hafter
        exact ⟨p, s', ts', hp, hstep₁.trans hstep hsame hused₁,
          Or.inr ⟨hnone, hsame.trans hcommitted₁⟩,
          Or.inr ⟨hserved.pos, n, l₁, l₂, hneed, hbefore, hafter⟩⟩
      · exact ⟨0, s', ts₁, hp, hstep₁, Or.inr ⟨hnone, hcommitted₁⟩, Or.inl ⟨rfl, hused₁⟩⟩

/-! ## Writes to a payload -/

/-- Writing to a payload in use keeps the blocks. -/
theorem HeapInv.of_payload (inv : HeapInv s ts)
    (hp : (p, n) ∈ used sizeofBlock s.heapRegionStart ts) (hlayout : s'.layout = s.layout)
    (hcommitted : s'.heapCommitted = s.heapCommitted)
    (hout : SameOutside s.mem s'.mem p (p + n)) : HeapInv s' ts := by
  apply inv.update hlayout hcommitted _ inv.nonempty rfl
  apply Blocks.congr inv.blocks
  intro z hz i hi
  have hheader := used_starts hp hz
  exact hout _ (by omega)

/-- A payload that has come into use lies apart from all others. -/
theorem used_apart_insert {l₁ l₂ : List (ℕ × ℕ)} {h m : ℕ}
    (hused : used h a ts' = l₁ ++ (p, n) :: l₂) (hx : (x, m) ∈ l₁ ++ l₂) :
    x + m + h ≤ p ∨ p + n + h ≤ x := by
  have hpair := used_pairwise h a ts'
  rw [hused, List.pairwise_append, List.pairwise_cons] at hpair
  rcases List.mem_append.mp hx with hx | hx
  · exact Or.inl (hpair.2.2 (x, m) hx (p, n) List.mem_cons_self)
  · exact Or.inr (hpair.2.1.1 (x, m) hx)

/-- The whole of `kcalloc`: as `kmalloc`, with the bytes asked for zeroed inside the payload. -/
theorem kcalloc_step {count elemSize : ℕ} (inv : HeapInv s ts) (reg : RegionInv s)
    (hsize : size = w64 (count * elemSize)) (hpos : size ≠ 0) (hround : size + 15 < 2 ^ 64)
    (hroom : Room s ts (needOf size)) :
    ∃ p s' ts', kcalloc s count elemSize = some (p, s') ∧ HeapStep s ts s' ts' ∧
      Committed s ts (needOf size) s' ∧ HandsOut s ts (needOf size) p ts' := by
  obtain ⟨p, s₁, ts', hp, hstep, hcommitted, hcases⟩ := kmalloc_step inv reg hpos hroom
  unfold kcalloc
  simp only [← hsize, hp, Option.map_some]
  rcases hcases with ⟨rfl, hused⟩ | ⟨hne, n, l₁, l₂, hneed, hbefore, hafter⟩
  · exact ⟨0, s₁, ts', by rw [if_neg (by omega)], hstep, hcommitted, Or.inl ⟨rfl, hused⟩⟩
  · have hstart : s₁.heapRegionStart = s.heapRegionStart :=
      congrArg Layout.heapRegionStart hstep.layout
    have hle : size ≤ n := by
      refine le_trans ?_ hneed
      unfold needOf alignDown
      rw [w64_eq hround]
      omega
    have hin : (p, n) ∈ used sizeofBlock s₁.heapRegionStart ts' := by
      rw [hstart, hafter]
      simp
    have hout : SameOutside s₁.mem (s₁.mem.fill p size 0) p (p + n) := by
      intro y hy
      exact fill_of_outside (by omega)
    have inv' : HeapInv { s₁ with mem := s₁.mem.fill p size 0 } ts' :=
      hstep.inv.of_payload hin rfl rfl hout
    refine ⟨p, { s₁ with mem := s₁.mem.fill p size 0 }, ts', by rw [if_pos hne], ?_, hcommitted,
      Or.inr ⟨hne, n, l₁, l₂, hneed, hbefore, hafter⟩⟩
    constructor
    · exact inv'
    · exact hstep.reg.update rfl (Or.inl rfl)
    · exact hstep.layout
    · exact hstep.committed
    · exact hstep.bounded
    · intro x m hx y hy hy'
      have hapart := used_apart_insert hafter (hbefore ▸ hx)
      rw [← hstep.keeps x m hx y hy hy']
      exact hout y (by omega)
    · intro i hi
      rw [← hstep.bits i hi]
      have hbounds := used_bounds hin
      have hregion := hstep.reg.heap_apart
      have hbytes : s₁.pmmBitmapBytes = s.pmmBitmapBytes :=
        congrArg Layout.pmmBitmapBytes hstep.layout
      rw [hstep.inv.tiled] at hbounds
      exact testBit_congr (hout (s₁.pmmBitmap + i / 8) (by omega))

/-- Memory that changes outside the committed region keeps the blocks. -/
theorem HeapInv.of_outside (inv : HeapInv s ts) (hlayout : s'.layout = s.layout)
    (hcommitted : s'.heapCommitted = s.heapCommitted)
    (hsame : ∀ y, s.heapRegionStart ≤ y → y < s.heapRegionStart + s.heapCommitted →
      s'.mem y = s.mem y) : HeapInv s' ts := by
  apply inv.update hlayout hcommitted _ inv.nonempty rfl
  apply Blocks.congr inv.blocks
  intro z hz i hi
  have hbounds := starts_bounds hz
  rw [inv.tiled] at hbounds
  exact hsame _ (by omega) (by omega)

end QuillOS.Memory
