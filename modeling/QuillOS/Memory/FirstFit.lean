import QuillOS.Memory.Pages

/-!
# How a request ends

Which block `kmalloc` hands out, how often it grows the heap for that, and what is left when it
refuses. The states are those that any sequence of calls reaches and in which the blocks tile the
heap.
-/

namespace QuillOS.Memory

open Lib Lib.Mem Lib.Tiling

variable {s s' s₁ : State} {k k' : System} {ts ts' ts₁ pre post : List Tile}
  {p b m n size need fuel : ℕ}

/-! ## What no call changes -/

/-- Where bitmap and heap lie. -/
def State.place (s : State) : Layout := { s.layout with pmmSearchHint := 0 }

theorem place_of_layout (h : s'.layout = s.layout) : s'.place = s.place := by
  unfold State.place
  rw [h]

theorem appendBlock_layout (h : appendBlock s b n = some s') : s'.layout = s.layout := by
  obtain ⟨last, -, rfl⟩ := Option.map_eq_some_iff.mp h
  simp only
  split <;> rfl

theorem heapGrow_layout {grown : Bool} (h : heapGrow s n = some (grown, s')) :
    s'.layout = s.layout := by
  unfold heapGrow at h
  simp only at h
  split at h
  · cases h
    rfl
  · obtain ⟨s₁, hs₁, hpair⟩ := Option.map_eq_some_iff.mp h
    obtain ⟨s₂, hs₂, rfl⟩ := Option.map_eq_some_iff.mp hs₁
    cases hpair
    exact (appendBlock_layout hs₂).trans markPages_layout

theorem kmallocRetry_layout (h : kmallocRetry fuel s size = some (p, s')) :
    s'.layout = s.layout := by
  induction fuel generalizing s size with
  | zero => cases h
  | succ fuel ih =>
    unfold kmallocRetry at h
    split at h
    · cases h
      rfl
    · obtain ⟨found, -, h⟩ := Option.bind_eq_some_iff.mp h
      cases found with
      | corrupt =>
        cases h
        rfl
      | found current =>
        cases h
        exact takeBlock_layout
      | exhausted =>
        obtain ⟨⟨grown, s₁⟩, hgrow, h⟩ := Option.bind_eq_some_iff.mp h
        have hlayout := heapGrow_layout hgrow
        cases grown with
        | true => exact (ih h).trans hlayout
        | false =>
          cases h
          exact hlayout

theorem kcalloc_layout {count elemSize : ℕ} (h : kcalloc s count elemSize = some (p, s')) :
    s'.layout = s.layout := by
  obtain ⟨⟨q, s₁⟩, hcall, hpair⟩ := Option.map_eq_some_iff.mp h
  have hlayout := kmallocRetry_layout hcall
  obtain ⟨rfl, rfl⟩ := Prod.mk.inj hpair
  split
  · exact hlayout
  · exact hlayout

theorem releaseBlock_layout : (releaseBlock s b).layout = s.layout := rfl

theorem kfree_layout (h : kfree s p = some s') : s'.layout = s.layout := by
  unfold kfree at h
  by_cases hnull : p = 0
  · rw [if_pos hnull] at h
    cases h
    rfl
  rw [if_neg hnull] at h
  simp only at h
  generalize sub64 p sizeofBlock = b at h
  split at h
  · cases h
    rfl
  split at h
  · cases h
    rfl
  · obtain ⟨prev, -, rfl⟩ := Option.map_eq_some_iff.mp h
    rw [coalescePrev_layout, coalesceNext_layout, releaseBlock_layout]

theorem takePage_place : (takePage s n).2.place = s.place := by
  simp only [takePage, State.place, State.layout, bmpSet]

theorem pmmAllocPage_place : (pmmAllocPage s).2.place = s.place := by
  apply pmmAllocPage_of_takePage (p := fun r => r.2.place = s.place)
  · exact fun _ => takePage_place
  · rfl

theorem pmmFreePage_place : (pmmFreePage s n).place = s.place := by
  unfold pmmFreePage
  simp only
  split
  · rfl
  · split <;> rfl

/-- No call, whatever its arguments, moves the bitmap or the heap. -/
theorem System.step_place {c : Call} (h : k.step c = some k') : k'.st.place = k.st.place := by
  cases c with
  | kmalloc size =>
    obtain ⟨⟨p, s'⟩, hcall, rfl⟩ := Option.map_eq_some_iff.mp h
    rw [System.allocated_st]
    exact place_of_layout (kmallocRetry_layout hcall)
  | kcalloc count elemSize =>
    obtain ⟨⟨p, s'⟩, hcall, rfl⟩ := Option.map_eq_some_iff.mp h
    rw [System.allocated_st]
    exact place_of_layout (kcalloc_layout hcall)
  | kfree ptr =>
    obtain ⟨s', hcall, rfl⟩ := Option.map_eq_some_iff.mp h
    exact place_of_layout (kfree_layout hcall)
  | pmmAllocPage =>
    obtain rfl := Option.some.inj h
    split <;> exact pmmAllocPage_place
  | pmmFreePage phys =>
    obtain rfl := Option.some.inj h
    exact pmmFreePage_place
  | write addr v =>
    obtain rfl := Option.some.inj h
    rfl

theorem place_of_run {cs : List Call} (hrun : Run System.Step k cs k') :
    k'.st.place = k.st.place := by
  apply hrun.invariant fun k' => k'.st.place = k.st.place
  · rfl
  · intro a c b ha hstep
    exact (System.step_place hstep).trans ha

theorem RegionInv.of_place (reg : RegionInv s) (hplace : s'.place = s.place)
    (hmax : s'.heapCommitted ≤ s'.heapMaxBytes) : RegionInv s' := by
  have hstart : s'.heapRegionStart = s.heapRegionStart := congrArg Layout.heapRegionStart hplace
  have hmaxBytes : s'.heapMaxBytes = s.heapMaxBytes := congrArg Layout.heapMaxBytes hplace
  have hphys : s'.heapPhysBase = s.heapPhysBase := congrArg Layout.heapPhysBase hplace
  have hbitmap : s'.pmmBitmap = s.pmmBitmap := congrArg Layout.pmmBitmap hplace
  have hbytes : s'.pmmBitmapBytes = s.pmmBitmapBytes := congrArg Layout.pmmBitmapBytes hplace
  have hapart := reg.apart
  constructor
  · rw [hstart, hmaxBytes]
    exact reg.virt_fits
  · rw [hphys, hmaxBytes]
    exact reg.phys_fits
  · rw [hmaxBytes]
    exact reg.max_le
  · rw [hphys, hmaxBytes, hbytes]
    exact reg.bits
  · rw [hbitmap, hbytes, hstart]
    omega

/-! ## Blocks of the list that fit -/

/-- The header at `b` describes a free block of at least `need` bytes. -/
def FitsAt (s : State) (need b : ℕ) : Prop := freeAt s b = true ∧ need ≤ sizeAt s b

instance (s : State) (need b : ℕ) : Decidable (FitsAt s need b) :=
  inferInstanceAs (Decidable (_ ∧ _))

/-- The first block of the list, in address order, that fits. -/
structure FirstFit (s : State) (need b : ℕ) : Prop where
  listed : OnList s b
  fits : FitsAt s need b
  first : ∀ x, OnList s x → x < b → ¬FitsAt s need x

/-- The blocks tile what is committed, and that is no more than the region. -/
def Tiled (s : State) : Prop := (∃ ts, HeapInv s ts) ∧ s.heapCommitted ≤ s.heapMaxBytes

theorem HeapInv.onList (inv : HeapInv s (pre ++ t :: post)) :
    OnList s (stop sizeofBlock s.heapRegionStart pre) := by
  have hpos := inv.pos
  induction pre using List.reverseRecOn generalizing t post with
  | nil =>
    rw [stop_nil, ← inv.head]
    apply OnList.head
    rw [inv.head]
    omega
  | append_singleton pre u ih =>
    rw [List.append_assoc] at inv
    have hheader := inv.blocks.header
    rw [if_neg (by simp)] at hheader
    have hnext : nextAt s (stop sizeofBlock s.heapRegionStart pre) =
        stop sizeofBlock s.heapRegionStart (pre ++ [u]) := by
      rw [hheader.nextAt_eq, stop_append]
      rfl
    have hle := le_stop sizeofBlock s.heapRegionStart (pre ++ [u])
    rw [← hnext]
    exact OnList.next (ih inv) (by omega)

theorem HeapInv.fitsAt_iff (inv : HeapInv s (pre ++ t :: post)) :
    FitsAt s need (stop sizeofBlock s.heapRegionStart pre) ↔ Fits need t := by
  have hheader := inv.blocks.header
  unfold FitsAt
  rw [hheader.freeAt_eq, hheader.sizeAt_eq]
  rfl

/-- A tile fits just when a block on the list does. -/
theorem HeapInv.fits_iff (inv : HeapInv s ts) :
    (∃ t ∈ ts, Fits need t) ↔ ∃ b, OnList s b ∧ FitsAt s need b := by
  constructor
  · rintro ⟨t, ht, hfits⟩
    obtain ⟨pre, post, rfl⟩ := List.append_of_mem ht
    exact ⟨_, inv.onList, inv.fitsAt_iff.mpr hfits⟩
  · rintro ⟨b, hb, hfree, hsize⟩
    exact inv.fits_of_onList hb hfree hsize

/-- What is served is the first block that fits. -/
theorem Served.firstFit (h : Served s ts need p s') (inv : HeapInv s ts) :
    FirstFit s need (sub64 p sizeofBlock) := by
  obtain ⟨pre, t, post, rfl, ht, hpre, rfl, -⟩ := h
  have hstop := inv.stop_lt
  have hbounds := starts_bounds (stop_mem_starts sizeofBlock s.heapRegionStart pre t post)
  rw [sub64_eq (by omega) (by omega), Nat.add_sub_cancel]
  refine ⟨inv.onList, inv.fitsAt_iff.mpr ht, ?_⟩
  intro x hx hlt hfits
  obtain ⟨pre', u, post', heq, rfl⟩ := exists_of_mem_starts (inv.starts_of_onList hx)
  rw [heq] at inv
  have hu := inv.fitsAt_iff.mp hfits
  -- A block before this one is one of those that were passed over.
  rcases List.append_eq_append_iff.mp heq with ⟨mid, hmid, hrest⟩ | ⟨mid, rfl, hmid⟩
  · rw [hmid, stop_append] at hlt
    have hle := le_stop sizeofBlock (stop sizeofBlock s.heapRegionStart pre) mid
    omega
  · cases mid with
    | nil => simp at hlt
    | cons v mid =>
      obtain ⟨rfl, -⟩ := List.cons.inj hmid
      exact hpre u (by simp) hu

/-! ## Growth of the heap within one request -/

/-- `kmallocRetry`, which also counts its calls of `heap_grow`. -/
def kmallocCounted : ℕ → State → ℕ → Option (ℕ × State × ℕ)
  | 0, _, _ => none
  | fuel + 1, s, size =>
    if size = 0 then some (0, s, 0)
    else
      let size := alignDown 16 (w64 (size + 15))
      (search s size walkLimit s.heapHead).bind fun
        | .corrupt => some (0, consolePrint s "\n[HEAP] CORRUPTION: bad magic in kmalloc!", 0)
        | .found current => some (w64 (current + sizeofBlock), takeBlock s current size, 0)
        | .exhausted => (heapGrow s size).bind fun
          | (true, s) => (kmallocCounted fuel s size).map fun r => (r.1, r.2.1, r.2.2 + 1)
          | (false, s) => some (0, s, 1)

/-- Counting changes nothing. -/
theorem kmallocCounted_result (fuel : ℕ) (s : State) (size : ℕ) :
    (kmallocCounted fuel s size).map (fun r => (r.1, r.2.1)) = kmallocRetry fuel s size := by
  induction fuel generalizing s size with
  | zero => rfl
  | succ fuel ih =>
    unfold kmallocCounted kmallocRetry
    split
    · rfl
    dsimp only
    rw [Option.map_bind]
    congr 1
    funext found
    cases found with
    | corrupt => rfl
    | found current => rfl
    | exhausted =>
      rw [Function.comp_apply, Option.map_bind]
      congr 1
      funext r
      obtain ⟨grown, s₁⟩ := r
      cases grown with
      | true =>
        refine Eq.trans ?_ (ih s₁ _)
        exact Option.map_map ..
      | false => rfl

/-- One call of `kmalloc`: no growth, or one that is refused, or one after which it calls itself. -/
theorem kmallocCounted_cases (inv : HeapInv s ts) {calls : ℕ}
    (h : kmallocCounted (fuel + 1) s size = some (p, s', calls)) :
    calls = 0 ∨ (∀ t ∈ ts, ¬Fits (needOf size) t) ∧
      (calls = 1 ∨ ∃ s₁ rest, heapGrow s (needOf size) = some (true, s₁) ∧
        kmallocCounted fuel s₁ (needOf size) = some (p, s', rest) ∧ calls = rest + 1) := by
  rw [kmallocCounted] at h
  by_cases hsize : size = 0
  · rw [if_pos hsize] at h
    cases h
    exact Or.inl rfl
  rw [if_neg hsize] at h
  change (search s (needOf size) walkLimit s.heapHead).bind _ = _ at h
  rcases inv.search_cases (needOf size) with ⟨hnone, hsearch⟩ | ⟨pre, t, post, -, -, -, hsearch⟩
  · rw [hsearch, Option.bind_some] at h
    obtain ⟨⟨grown, s₁⟩, hgrow, h⟩ := Option.bind_eq_some_iff.mp h
    refine Or.inr ⟨hnone, ?_⟩
    cases grown with
    | true =>
      obtain ⟨⟨q, s₂, rest⟩, hrest, hr⟩ := Option.map_eq_some_iff.mp h
      cases hr
      exact Or.inr ⟨s₁, rest, hgrow, hrest, rfl⟩
    | false =>
      cases h
      exact Or.inl rfl
  · rw [hsearch, Option.bind_some] at h
    cases h
    exact Or.inl rfl

theorem Grown.heapGrow (h : Grown s ts need s₁ ts₁) : heapGrow s need = some (true, s₁) := by
  obtain ⟨hgrow, hleast, -⟩ := h
  unfold Memory.heapGrow
  simp only
  rw [if_neg (by omega), hgrow, Option.map_some]

theorem kmallocCounted_le (inv : HeapInv s ts) (reg : RegionInv s)
    (hmax : s.heapCommitted ≤ s.heapMaxBytes)
    (hfit : s.heapMaxBytes + wantedGrowth (needOf size) < 2 ^ 64) {calls : ℕ}
    (h : kmallocCounted walkLimit s size = some (p, s', calls)) : calls ≤ 2 := by
  obtain ⟨fuel, hfuel⟩ : ∃ fuel, walkLimit = fuel + 1 + 1 :=
    ⟨2 ^ 64 - 2, by unfold walkLimit; rfl⟩
  rw [hfuel] at h
  rcases kmallocCounted_cases inv h with rfl | ⟨-, rfl | ⟨s₁, rest, hgrow, h₁, rfl⟩⟩
  · omega
  · omega
  have hleast : sizeofBlock + minSplit ≤ growSize s (needOf size) := by
    by_contra hlt
    have hrefused : heapGrow s (needOf size) = some (false, s) := if_pos (not_le.mp hlt)
    rw [hrefused] at hgrow
    cases hgrow
  obtain ⟨s₂, hs₂, inv₁, -⟩ := growBy_inv inv reg hleast (growSize_le hmax hfit)
  have hgrown : Grown s ts (needOf size) s₂ _ := ⟨hs₂, hleast, rfl⟩
  obtain rfl : s₂ = s₁ := by
    rw [hgrown.heapGrow] at hgrow
    cases hgrow
    rfl
  rcases kmallocCounted_cases inv₁ h₁ with rfl | ⟨hnone₁, rfl | ⟨s₃, rest, hgrow₁, -, -⟩⟩
  · omega
  · omega
  -- The second growth is refused.
  rw [needOf_needOf] at hnone₁ hgrow₁
  have hrefused : heapGrow s₂ (needOf size) = some (false, s₂) :=
    if_pos (hgrown.exhausted inv reg hmax hfit hnone₁).2
  rw [hrefused] at hgrow₁
  cases hgrow₁

/-! ## How a request ends -/

/-- No block on the list is free and of at least `need` bytes. -/
def NoneFits (s : State) (need : ℕ) : Prop := ∀ b, OnList s b → ¬FitsAt s need b

theorem HeapInv.noneFits (inv : HeapInv s ts) (hnone : ∀ t ∈ ts, ¬Fits need t) :
    NoneFits s need := by
  intro b hb hfits
  obtain ⟨t, ht, hfit⟩ := inv.fits_iff.mpr ⟨b, hb, hfits⟩
  exact hnone t ht hfit

/-- A request that succeeds takes the first block that fits, if need be after one growth. -/
def TakesFirstFit (s : State) (need p : ℕ) : Prop :=
  ∃ s₁, (s₁ = s ∨ NoneFits s need ∧ heapGrow s need = some (true, s₁)) ∧
    FirstFit s₁ need (sub64 p sizeofBlock)

/-- What is left when a request is refused. -/
structure OutOfMemory (s : State) (need : ℕ) : Prop where
  tiled : Tiled s
  used_up : s.heapMaxBytes - s.heapCommitted < sizeofBlock + minSplit
  none_fits : NoneFits s need

theorem kmalloc_ends (inv : HeapInv s ts) (reg : RegionInv s) (hsize : size ≠ 0)
    (hmax : s.heapCommitted ≤ s.heapMaxBytes) (hneed : needOf size ≠ 0)
    (hfit : s.heapMaxBytes + wantedGrowth (needOf size) < 2 ^ 64) :
    ∃ p s', kmalloc s size = some (p, s') ∧ (p ≠ 0 → TakesFirstFit s (needOf size) p) ∧
      (p = 0 → OutOfMemory s' (needOf size)) := by
  obtain ⟨p, s', hcall, hcases⟩ := kmalloc_cases inv reg hsize hmax hfit
  refine ⟨p, s', hcall, ?_⟩
  rcases hcases with hserved | ⟨hnone, ⟨hleast, rfl, rfl⟩ | ⟨s₁, ts₁, hgrown, hcases⟩⟩
  · have hpos := hserved.pos
    exact ⟨fun _ => ⟨s, Or.inl rfl, hserved.firstFit inv⟩, fun h => absurd h hpos⟩
  · refine ⟨fun h => absurd rfl h, fun _ => ⟨⟨⟨ts, inv⟩, hmax⟩, ?_, inv.noneFits hnone⟩⟩
    have hwanted : 65536 ≤ wantedGrowth (needOf size) := le_max_left _ _
    rw [growSize_eq hmax hfit] at hleast
    unfold sizeofBlock minSplit at *
    omega
  · obtain ⟨inv₁, -, hlayout, -, hle, -, -⟩ := hgrown.inv inv reg (growSize_le hmax hfit)
    have hmax₁ : s₁.heapMaxBytes = s.heapMaxBytes := congrArg Layout.heapMaxBytes hlayout
    rcases hcases with ⟨-, hserved⟩ | ⟨rfl, rfl, hzero | ⟨hfull, hnone₁⟩⟩
    · have hpos := hserved.pos
      exact ⟨fun _ => ⟨s₁, Or.inr ⟨inv.noneFits hnone, hgrown.heapGrow⟩, hserved.firstFit inv₁⟩,
        fun h => absurd h hpos⟩
    · exact absurd hzero hneed
    · refine ⟨fun h => absurd rfl h,
        fun _ => ⟨⟨⟨ts₁, inv₁⟩, hmax₁ ▸ hle⟩, ?_, inv₁.noneFits hnone₁⟩⟩
      rw [hfull, hmax₁, Nat.sub_self]
      decide

/-- In every state that any calls reach and in which the blocks tile the heap, an allocation
returns after at most two growths; it takes the first block that fits, or leaves no block that
fits and no room for another. -/
theorem kmalloc_fails_only_when_full {l : Limine} {mem : Mem} {cs : List Call}
    (hinit : init l (boot mem) = some s) (hrun : Run System.Step (start s) cs k)
    (htiled : Tiled k.st) (hpos : 1 ≤ size) (hsize : size ≤ 2 ^ 63) :
    ∃ p s' calls, kmalloc k.st size = some (p, s') ∧
      kmallocCounted walkLimit k.st size = some (p, s', calls) ∧ calls ≤ 2 ∧
      (p ≠ 0 → TakesFirstFit k.st (needOf size) p) ∧
      (p = 0 → OutOfMemory s' (needOf size)) := by
  obtain ⟨⟨ts, inv⟩, hmax⟩ := htiled
  have hready := init_ready hinit
  have reg : RegionInv k.st := hready.reg.of_place (place_of_run hrun) hmax
  have hcap : heapMaxPages * pageSize = 4194304 := rfl
  have hle := reg.max_le
  have hneed := le_needOf hsize
  have hwanted := wantedGrowth_le hneed.2
  have hne : size ≠ 0 := Nat.pos_iff_ne_zero.mp hpos
  obtain ⟨p, s', hcall, hends⟩ := kmalloc_ends inv reg hne hmax (by omega) (by omega)
  have hcounted := kmallocCounted_result walkLimit k.st size
  rw [show kmallocRetry walkLimit k.st size = some (p, s') from hcall] at hcounted
  obtain ⟨⟨q, s₁, calls⟩, hcalls, hq⟩ := Option.map_eq_some_iff.mp hcounted
  obtain ⟨rfl, rfl⟩ : q = p ∧ s₁ = s' := Prod.mk.inj hq
  exact ⟨q, s₁, calls, hcall, hcalls, kmallocCounted_le inv reg hmax (by omega) hcalls, hends⟩

/-- A request that only a growth can serve. -/
theorem kmalloc_fails_only_when_full_small :
    ∃ p s' calls, kmalloc afterSmallCalls.st 65520 = some (p, s') ∧
      kmallocCounted walkLimit afterSmallCalls.st 65520 = some (p, s', calls) ∧ calls ≤ 2 ∧
      (p ≠ 0 → TakesFirstFit afterSmallCalls.st (needOf 65520) p) ∧
      (p = 0 → OutOfMemory s' (needOf 65520)) := by
  have hrun : Run System.Step (start smallBoot) smallCalls afterSmallCalls :=
    run_smallCalls.mono fun _ _ _ h => h.2
  obtain ⟨ts, inv⟩ := safe_of_run (init_ready init_smallBoot) smallBoot_bounded run_smallCalls
  exact kmalloc_fails_only_when_full init_smallBoot hrun ⟨⟨ts, inv.heap⟩, inv.bounded⟩
    (by decide) (by decide)

end QuillOS.Memory
