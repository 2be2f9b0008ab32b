import QuillOS.Memory.FirstFit

/-!
# Requests near the end of the address space

Five sums and a product of a request are formed modulo `2 ^ 64`. Three of them can go wrong: the
rounding to 16 bytes takes the largest sizes to nothing, the product of `kcalloc` loses its upper
half, and a growth close to `2 ^ 64` passes for one that fits the region. All other requests are
served in full or refused, and leave the heap tiled.
-/

namespace QuillOS.Memory

open Lib Lib.Mem Lib.Tiling

variable {s s' s₁ : State} {k k' : System} {ts ts' ts₁ pre post : List Tile} {t : Tile}
  {p b m n g size need fuel phys page : ℕ}

/-! ## Sound requests -/

/-- The block behind `p` is on the list and has room for the bytes. -/
def HasRoom (s : State) (p bytes : ℕ) : Prop :=
  OnList s (sub64 p sizeofBlock) ∧ bytes ≤ payloadSize s p

/-- The request returns, with enough memory or none, and leaves the heap tiled. -/
def KmallocSound (s : State) (size : ℕ) : Prop :=
  ∃ p s', kmalloc s size = some (p, s') ∧ (p ≠ 0 → HasRoom s' p size) ∧ Tiled s'

/-- Here the bytes asked for are a product in exact arithmetic, and all of them are zero. -/
def KcallocSound (s : State) (count elemSize : ℕ) : Prop :=
  ∃ p s', kcalloc s count elemSize = some (p, s') ∧
    (p ≠ 0 → HasRoom s' p (count * elemSize) ∧
      ∀ y, p ≤ y → y < p + count * elemSize → s'.mem y = 0) ∧ Tiled s'

/-! ## Conditions on a request -/

/-- Rounding to 16 bytes does not wrap, or no block is there to be taken for what is left. -/
def RoundFits (s : State) (size : ℕ) : Prop :=
  size + 15 < 2 ^ 64 ∨ ∀ b, OnList s b → freeAt s b = false

/-- The growth for the request is compared with what the region has left without a wrap. Requests
for which an earlier sum wraps grow the heap by little or are refused. -/
def GrowthFits (s : State) (need : ℕ) : Prop :=
  need + sizeofBlock + pageSize ≤ 2 ^ 64 → s.heapMaxBytes + wantedGrowth need < 2 ^ 64

/-- A free block is large enough, or the region has room for one: behind the last block, or
together with that when it is free. -/
def Servable (s : State) (size : ℕ) : Prop :=
  size ≠ 0 ∧ ((∃ b, OnList s b ∧ FitsAt s (needOf size) b) ∨
    needOf size ≠ 0 ∧ sizeofBlock + minSplit ≤ s.heapMaxBytes - s.heapCommitted ∧
      (needOf size + sizeofBlock ≤ s.heapMaxBytes - s.heapCommitted ∨
        ∃ b, OnList s b ∧ nextAt s b = 0 ∧
          FitsAt s (needOf size - (s.heapMaxBytes - s.heapCommitted)) b))

/-- The product does not wrap, or what is left of it is refused. -/
def ProductFits (s : State) (count elemSize : ℕ) : Prop :=
  count * elemSize < 2 ^ 64 ∧ RoundFits s (count * elemSize) ∨
    2 ^ 64 ≤ count * elemSize ∧ ¬Servable s (w64 (count * elemSize))

/-- The heap has not taken the page at `phys`. -/
def OffHeap (s : State) (phys : ℕ) : Prop :=
  phys + pageSize ≤ s.heapPhysBase ∨ s.heapPhysBase + s.heapCommitted ≤ phys

instance (s : State) (phys : ℕ) : Decidable (OffHeap s phys) :=
  inferInstanceAs (Decidable (_ ∨ _))

/-- A caller frees what it holds and writes to what it holds, and has lost the pages that the heap
took; its requests meet the conditions that keep the heap tiled. -/
def RequestCall (k : System) : Call → Prop
  | .kmalloc size => size < 2 ^ 64 ∧ GrowthFits k.st (needOf size)
  | .kcalloc count elemSize => count < 2 ^ 64 ∧ elemSize < 2 ^ 64 ∧
      RoundFits k.st (w64 (count * elemSize)) ∧ GrowthFits k.st (needOf (w64 (count * elemSize)))
  | .kfree ptr => ptr = 0 ∨ ptr ∈ k.live
  | .pmmAllocPage => True
  | .pmmFreePage phys => phys ∈ k.held ∧ OffHeap k.st phys
  | .write addr _ => (∃ p ∈ k.live, addr ∈ payload k.st p) ∨
      ∃ phys ∈ k.held, OffHeap k.st phys ∧
        addr ∈ Set.Ico (k.st.hhdm + phys) (k.st.hhdm + phys + pageSize)

/-! ## The invariant of a run -/

/-- As long as no one frees or writes to a page that the heap took, clear bits stand for pages of
no one. -/
structure RequestInv (k : System) (ts : List Tile) : Prop where
  pages : PageInv { k with held := [] } ts
  bounded : k.st.heapCommitted ≤ k.st.heapMaxBytes
  held : ∀ phys ∈ k.held, ∃ p < k.st.pmmHighestPage, phys = p * pageSize ∧
    k.st.hhdm + phys + pageSize < 2 ^ 64 ∧
    (k.st.hhdm + phys + pageSize ≤ k.st.pmmBitmap ∨
      k.st.pmmBitmap + k.st.pmmBitmapBytes ≤ k.st.hhdm + phys)

theorem RequestInv.heap (inv : RequestInv k ts) : HeapInv k.st ts := inv.pages.heap

theorem RequestInv.region (inv : RequestInv k ts) : RegionInv k.st := inv.pages.region

theorem RequestInv.tiled (inv : RequestInv k ts) : Tiled k.st := ⟨⟨ts, inv.heap⟩, inv.bounded⟩

/-- Pages held by no one in particular. -/
theorem PageInv.forget (inv : PageInv k ts) : PageInv { k with held := [] } ts :=
  ⟨⟨inv.heap, inv.region, inv.live⟩, inv.start, inv.base_aligned, inv.max_aligned,
    inv.committed_aligned, inv.highest, inv.hint, inv.clear, List.nodup_nil, fun _ h => by cases h⟩

theorem RequestInv.of_ready (hready : Ready s) (hmax : s.heapCommitted ≤ s.heapMaxBytes) :
    RequestInv (QuillOS.Memory.start s) [⟨heapInitialPages * pageSize - sizeofBlock, true⟩] :=
  ⟨PageInv.of_ready hready, hmax, fun _ h => by cases h⟩

/-- What is known of the pages handed out is about the layout. -/
theorem RequestInv.held_congr {st : State} {live : List ℕ} {results : List (ℕ × ℕ)}
    (inv : RequestInv k ts) (hplace : st.place = k.st.place)
    (hpages : PageInv ⟨st, live, results, []⟩ ts') (hmax : st.heapCommitted ≤ st.heapMaxBytes) :
    RequestInv ⟨st, live, results, k.held⟩ ts' := by
  have hhighest : st.pmmHighestPage = k.st.pmmHighestPage := congrArg Layout.pmmHighestPage hplace
  have hhhdm : st.hhdm = k.st.hhdm := congrArg Layout.hhdm hplace
  have hbitmap : st.pmmBitmap = k.st.pmmBitmap := congrArg Layout.pmmBitmap hplace
  have hbytes : st.pmmBitmapBytes = k.st.pmmBitmapBytes := congrArg Layout.pmmBitmapBytes hplace
  refine ⟨hpages, hmax, ?_⟩
  intro phys hphys
  simp only [hhighest, hhhdm, hbitmap, hbytes]
  exact inv.held phys hphys

/-- What was asked for plays no part. -/
theorem RequestInv.of_results (inv : RequestInv k ts) (results : List (ℕ × ℕ)) :
    RequestInv { k with results := results } ts :=
  ⟨{ inv.pages with }, inv.bounded, inv.held⟩

/-- A page handed out that the heap has not taken belongs to no one else. -/
theorem RequestInv.freePage (inv : RequestInv k ts) (hphys : phys ∈ k.held)
    (hoff : OffHeap k.st phys) : ∃ p < k.st.pmmHighestPage, phys = p * pageSize ∧
      FreePage k.st p := by
  obtain ⟨p, hp, rfl, hfits, hbitmap⟩ := inv.held phys hphys
  exact ⟨p, hp, rfl, hfits, hbitmap, hoff⟩

/-! ## Steps of the page allocator and of the callers -/

theorem pmmAllocPage_committed : (pmmAllocPage s).2.heapCommitted = s.heapCommitted := by
  apply pmmAllocPage_of_takePage (p := fun r => r.2.heapCommitted = s.heapCommitted)
  · exact fun _ => rfl
  · rfl

theorem pmmFreePage_committed : (pmmFreePage s n).heapCommitted = s.heapCommitted := by
  unfold pmmFreePage
  simp only
  split
  · rfl
  · split <;> rfl

theorem RequestInv.allocPage (inv : RequestInv k ts) :
    ∃ k', k.step .pmmAllocPage = some k' ∧ RequestInv k' ts := by
  refine ⟨_, rfl, ?_⟩
  obtain ⟨k₀, hk₀, inv₀⟩ := inv.pages.allocPage
  have hplace : (pmmAllocPage k.st).2.place = k.st.place := pmmAllocPage_place
  have hcommitted : (pmmAllocPage k.st).2.heapCommitted ≤ (pmmAllocPage k.st).2.heapMaxBytes := by
    have hmax : (pmmAllocPage k.st).2.heapMaxBytes = k.st.heapMaxBytes :=
      congrArg Layout.heapMaxBytes hplace
    rw [pmmAllocPage_committed, hmax]
    exact inv.bounded
  obtain rfl := Option.some.inj hk₀
  have hpages := inv₀.forget
  simp only at hpages inv₀ ⊢
  by_cases hnull : (pmmAllocPage k.st).1 = 0
  · simp only [if_pos hnull] at hpages ⊢
    exact inv.held_congr hplace hpages hcommitted
  · simp only [if_neg hnull] at hpages inv₀ ⊢
    have inv₁ := inv.held_congr hplace hpages hcommitted
    refine ⟨hpages, hcommitted, ?_⟩
    intro phys hphys
    rcases List.mem_cons.mp hphys with rfl | hphys
    · obtain ⟨p, hp, heq, -, hpage⟩ := inv₀.held _ (List.mem_singleton.mpr rfl)
      exact ⟨p, hp, heq, heq ▸ hpage.fits, heq ▸ hpage.off_bitmap⟩
    · exact inv₁.held phys hphys

theorem RequestInv.returnPage (inv : RequestInv k ts) (hphys : phys ∈ k.held)
    (hoff : OffHeap k.st phys) :
    ∃ k', k.step (.pmmFreePage phys) = some k' ∧ RequestInv k' ts := by
  refine ⟨_, rfl, ?_⟩
  obtain ⟨p, hp, rfl, hfree⟩ := inv.freePage hphys hoff
  have hpages : PageInv ⟨pmmFreePage k.st (p * pageSize), k.live, k.results, []⟩ ts := by
    cases hset : bmpTest k.st p with
    | true =>
      have hone : PageInv { k with held := [p * pageSize] } ts :=
        { inv.pages with
          nodup := List.nodup_singleton _
          held := fun phys h => ⟨p, hp, List.mem_singleton.mp h, hset, hfree⟩ }
      obtain ⟨k₁, hk₁, inv₁⟩ := hone.freePage List.mem_cons_self
      obtain rfl := Option.some.inj hk₁
      exact inv₁.forget
    -- The bit is clear already.
    | false =>
      have hsame : pmmFreePage k.st (p * pageSize) = k.st := by
        unfold pmmFreePage
        simp only [Nat.mul_div_cancel p (show 0 < pageSize by decide), hset, Bool.false_eq_true,
          if_false, ite_self]
      rw [hsame]
      exact inv.pages
  have hmax : (pmmFreePage k.st (p * pageSize)).heapMaxBytes = k.st.heapMaxBytes :=
    congrArg Layout.heapMaxBytes pmmFreePage_place
  have hbounded : (pmmFreePage k.st (p * pageSize)).heapCommitted ≤
      (pmmFreePage k.st (p * pageSize)).heapMaxBytes := by
    rw [pmmFreePage_committed, hmax]
    exact inv.bounded
  have inv' := inv.held_congr pmmFreePage_place hpages hbounded
  exact ⟨inv'.pages, inv'.bounded, fun q hq => inv'.held q (List.mem_of_mem_erase hq)⟩

theorem RequestInv.written {addr : ℕ} {v : UInt8} (inv : RequestInv k ts)
    (hc : RequestCall k (.write addr v)) :
    RequestInv { k with st := { k.st with mem := k.st.mem.store addr [v] } } ts := by
  have hpages : PageInv ⟨{ k.st with mem := k.st.mem.store addr [v] }, k.live, k.results, []⟩ ts := by
    rcases hc with ⟨p, hp, haddr⟩ | ⟨phys, hphys, hoff, hlo, hhi⟩
    · exact inv.pages.write_payload hp haddr
    · obtain ⟨p, -, rfl, hfree⟩ := inv.freePage hphys hoff
      apply inv.pages.of_page hfree
      intro y hy
      apply store_of_outside
      rw [List.length_singleton]
      simp only at hy
      omega
  exact inv.held_congr rfl hpages inv.bounded

/-! ## Steps of the heap -/

theorem RequestInv.freed (inv : RequestInv k ts) (hp : p ∈ k.live) :
    ∃ k' ts', k.step (.kfree p) = some k' ∧ RequestInv k' ts' := by
  obtain ⟨k₀, ts', hk₀, inv₀⟩ := inv.pages.freed hp
  obtain ⟨s', hs', rfl⟩ := Option.map_eq_some_iff.mp hk₀
  obtain ⟨n, hn⟩ := inv.pages.used_of_live hp
  obtain ⟨s₁, ts₁, l₁, l₂, hs₁, hstep, hsame, -, -⟩ := kfree_step inv.heap inv.region hn
  obtain rfl : s' = s₁ := Option.some.inj (hs'.symm.trans hs₁)
  have hmax : s'.heapMaxBytes = k.st.heapMaxBytes := congrArg Layout.heapMaxBytes hstep.layout
  refine ⟨_, ts', by rw [System.step, hs₁, Option.map_some], ?_⟩
  exact inv.held_congr (place_of_layout hstep.layout) inv₀ (hmax ▸ hstep.bounded inv.bounded)

theorem RequestInv.allocated (inv : RequestInv k ts) (hstep : HeapStep k.st ts s' ts')
    (hcases : HandsOut k.st ts need p ts') (hcommitted : pageSize ∣ s'.heapCommitted) :
    RequestInv (k.allocated size (p, s')) ts' := by
  have hpages : PageInv (System.allocated _ size (p, s')) ts' :=
    inv.pages.allocated hstep hcases hcommitted fun _ h => by cases h
  have hmax : s'.heapMaxBytes = k.st.heapMaxBytes := congrArg Layout.heapMaxBytes hstep.layout
  have hbounded := hstep.bounded inv.bounded
  have hplace := place_of_layout hstep.layout
  unfold System.allocated at hpages ⊢
  split
  · next hp =>
    simp only [if_pos hp] at hpages
    exact inv.held_congr hplace hpages (hmax ▸ hbounded)
  · next hp =>
    simp only [if_neg hp] at hpages
    exact inv.held_congr hplace hpages (hmax ▸ hbounded)

/-- A growth, as a step of a run. -/
theorem RequestInv.grown (inv : RequestInv k ts) (hgrown : Grown k.st ts need s₁ ts₁)
    (hle : k.st.heapCommitted + growSize k.st need ≤ k.st.heapMaxBytes)
    (hdvd : pageSize ∣ growSize k.st need) : RequestInv { k with st := s₁ } ts₁ := by
  obtain ⟨hstep, hused⟩ := hgrown.step inv.heap inv.region hle
  obtain ⟨-, -, -, hcommitted, -, -, -⟩ := hgrown.inv inv.heap inv.region hle
  have haligned : pageSize ∣ s₁.heapCommitted := by
    rw [hcommitted]
    exact dvd_add inv.pages.committed_aligned hdvd
  have hnothing : HandsOut k.st ts need 0 ts₁ := Or.inl ⟨rfl, hused⟩
  have hnone : RequestInv (k.allocated 0 (0, s₁)) ts₁ := inv.allocated hstep hnothing haligned
  exact hnone

/-! ## Requests whose sum with the header wraps -/

/-- The request leaves no room for a header and a page below `2 ^ 64`. -/
def Oversized (need : ℕ) : Prop := 2 ^ 64 < need + sizeofBlock + pageSize

theorem HeapInv.tile_le (inv : HeapInv s ts) (ht : t ∈ ts) :
    t.size + sizeofBlock ≤ s.heapCommitted := by
  obtain ⟨pre, post, rfl⟩ := List.append_of_mem ht
  have hbefore := le_stop sizeofBlock s.heapRegionStart pre
  have hafter := le_stop sizeofBlock
    (stop sizeofBlock s.heapRegionStart pre + sizeofBlock + t.size) post
  have htiled := inv.tiled
  rw [stop_append, stop_cons] at htiled
  omega

theorem HeapInv.not_fits_oversized (inv : HeapInv s ts) (h : Oversized need) :
    ∀ t ∈ ts, ¬Fits need t := by
  intro t ht hfits
  have hle := inv.tile_le ht
  have hstart := inv.start_pos
  have htop := inv.fits
  have hneed : need ≤ t.size := hfits.2
  unfold Oversized at h
  omega

theorem needOf_dvd (size : ℕ) : 16 ∣ needOf size := Nat.dvd_mul_left 16 _

/-- Such a request grows the heap by nothing, or, when the sum with the header has wrapped, by as
little as any. -/
theorem growSize_oversized (reg : RegionInv s) (hmax : s.heapCommitted ≤ s.heapMaxBytes)
    (h : Oversized (needOf size)) : growSize s (needOf size) = 0 ∨
      growSize s (needOf size) =
        min (heapGrowPages * pageSize) (s.heapMaxBytes - s.heapCommitted) := by
  have hcap : heapMaxPages * pageSize = 4194304 := rfl
  have hle := reg.max_le
  have hlt := needOf_lt size
  have hdvd := needOf_dvd size
  unfold Oversized sizeofBlock pageSize at h
  unfold growSize
  simp only
  split
  · next hsum =>
    -- The sum that is rounded to pages wraps to less than a page.
    have hfew : 65536 < w64 (needOf size + 24) := hsum
    have hnone : alignDown pageSize (w64 (needOf size + sizeofBlock + pageSize - 1)) = 0 := by
      unfold w64 at hfew ⊢
      unfold alignDown sizeofBlock pageSize
      rw [Nat.div_eq_of_lt (by omega)]
    rw [hnone, w64_eq (by omega), if_neg (by omega)]
    exact Or.inl rfl
  · have hfew : heapGrowPages * pageSize = 65536 := rfl
    right
    generalize heapGrowPages * pageSize = few at *
    rw [w64_eq (by omega), sub64_eq (by omega) hmax]
    split <;> omega

/-- The heap grows until nothing is left, and the request is refused. -/
theorem RequestInv.kmalloc_oversized (inv : RequestInv k ts) (hsize : size ≠ 0)
    (hlarge : Oversized (needOf size))
    (hfuel : k.st.heapMaxBytes - k.st.heapCommitted < fuel) :
    ∃ s' ts', kmallocRetry fuel k.st size = some (0, s') ∧ RequestInv { k with st := s' } ts' ∧
      HandsOut k.st ts (needOf size) 0 ts' := by
  induction fuel generalizing k ts size with
  | zero => omega
  | succ fuel ih =>
    have hnone := inv.heap.not_fits_oversized hlarge
    rcases kmallocRetry_cases inv.heap hsize fuel with
      ⟨p, s', -, pre, t, post, rfl, ht, -⟩ | ⟨-, heq⟩
    · exact absurd ht (hnone t (by simp))
    rw [heq]
    unfold heapGrow
    by_cases hleast : growSize k.st (needOf size) < sizeofBlock + minSplit
    · refine ⟨k.st, ts, ?_, inv, Or.inl ⟨rfl, rfl⟩⟩
      simp only [if_pos hleast]
      rfl
    have hgrow := growSize_oversized inv.region inv.bounded hlarge
    have hfew : heapGrowPages * pageSize = 65536 := rfl
    have hblock : sizeofBlock = 24 := rfl
    have hbounded := inv.bounded
    have hle : k.st.heapCommitted + growSize k.st (needOf size) ≤ k.st.heapMaxBytes := by omega
    have hdvd : pageSize ∣ growSize k.st (needOf size) := by
      have hmax := inv.pages.max_aligned
      have hcommitted := inv.pages.committed_aligned
      unfold pageSize at *
      simp only at hmax hcommitted
      omega
    obtain ⟨s₁, hs₁, -⟩ := growBy_inv inv.heap inv.region (not_lt.mp hleast) hle
    have hgrown : Grown k.st ts (needOf size) s₁ _ := ⟨hs₁, not_lt.mp hleast, rfl⟩
    have inv₁ := inv.grown hgrown hle hdvd
    obtain ⟨-, -, hlayout, hcommitted, -, -, -⟩ := hgrown.inv inv.heap inv.region hle
    have hmax : s₁.heapMaxBytes = k.st.heapMaxBytes := congrArg Layout.heapMaxBytes hlayout
    have hneed : needOf size ≠ 0 := by
      unfold Oversized pageSize at hlarge
      omega
    obtain ⟨s', ts', hretry, inv', hused⟩ := ih inv₁ hneed (by rwa [needOf_needOf])
      (by simp only [hmax, hcommitted]; omega)
    refine ⟨s', ts', ?_, inv', ?_⟩
    · simp only [if_neg hleast, hs₁, Option.map_some, Option.bind_some]
      exact hretry
    · have hstart : s₁.heapRegionStart = k.st.heapRegionStart :=
        congrArg Layout.heapRegionStart hlayout
      rcases hused with ⟨-, hused⟩ | ⟨hne, -⟩
      · refine Or.inl ⟨rfl, ?_⟩
        simp only [hstart] at hused
        rw [hused, used_joinLast rfl]
      · exact absurd rfl hne

/-! ## The whole of a request -/

theorem RequestInv.request (inv : RequestInv k ts) (hfits : GrowthFits k.st (needOf size)) :
    ∃ p s' ts', kmalloc k.st size = some (p, s') ∧ RequestInv (k.allocated size (p, s')) ts' ∧
      HandsOut k.st ts (needOf size) p ts' := by
  by_cases hsize : size = 0
  · exact ⟨0, k.st, ts, hsize ▸ kmalloc_zero k.st, inv, Or.inl ⟨rfl, rfl⟩⟩
  by_cases hlarge : Oversized (needOf size)
  · have hcap : heapMaxPages * pageSize = 4194304 := rfl
    have hle := inv.region.max_le
    have hfuel : k.st.heapMaxBytes - k.st.heapCommitted < walkLimit := by
      unfold walkLimit
      omega
    obtain ⟨s', ts', hcall, inv', hused⟩ := inv.kmalloc_oversized hsize hlarge hfuel
    exact ⟨0, s', ts', hcall, inv', hused⟩
  · have hfit := hfits (not_lt.mp hlarge)
    obtain ⟨p, s', ts', hcall, hstep, hcommitted, hcases⟩ :=
      kmalloc_step inv.heap inv.region hsize (Or.inr ⟨inv.bounded, hfit⟩)
    refine ⟨p, s', ts', hcall, inv.allocated hstep hcases ?_, hcases⟩
    have hmax := inv.pages.max_aligned
    have hdvd := inv.pages.committed_aligned
    have hwanted := dvd_wantedGrowth (needOf size)
    unfold Committed at hcommitted
    unfold pageSize at *
    simp only at hmax hdvd
    omega

/-- What a request hands out is the payload of a block in use. -/
theorem HandsOut.exists_used (h : HandsOut s ts need p ts') (hne : p ≠ 0)
    (hstart : s'.heapRegionStart = s.heapRegionStart) :
    ∃ n, need ≤ n ∧ (p, n) ∈ used sizeofBlock s'.heapRegionStart ts' := by
  rcases h with ⟨rfl, -⟩ | ⟨-, n, l₁, l₂, hneed, -, hused⟩
  · exact absurd rfl hne
  · refine ⟨n, hneed, ?_⟩
    rw [hstart, hused]
    simp

theorem HeapInv.onList_used (inv : HeapInv s ts)
    (hp : (p, n) ∈ used sizeofBlock s.heapRegionStart ts) : OnList s (sub64 p sizeofBlock) := by
  have hbounds := used_bounds hp
  have hstop := inv.stop_lt
  obtain ⟨pre, post, rfl, rfl⟩ := mem_used_iff.mp hp
  rw [sub64_eq (by omega) (by omega), Nat.add_sub_cancel]
  exact inv.onList

/-! ## When a request is served -/

/-- The last block of the list is the last tile. -/
theorem HeapInv.last_iff (inv : HeapInv s ts) :
    (∃ b, OnList s b ∧ nextAt s b = 0 ∧ FitsAt s need b) ↔
      ∃ pre t, ts = pre ++ [t] ∧ Fits need t := by
  constructor
  · rintro ⟨b, hb, hnext, hfits⟩
    obtain ⟨pre, t, post, rfl, rfl⟩ := exists_of_mem_starts (inv.starts_of_onList hb)
    have hheader := inv.blocks.header
    rw [hheader.nextAt_eq] at hnext
    split at hnext
    · next hpost =>
      subst hpost
      exact ⟨pre, t, rfl, inv.fitsAt_iff.mp hfits⟩
    · have hblock : sizeofBlock = 24 := rfl
      omega
  · rintro ⟨pre, t, rfl, hfits⟩
    have hheader := inv.blocks.header
    exact ⟨_, inv.onList, hheader.nextAt_eq, inv.fitsAt_iff.mpr hfits⟩

/-- After a growth over `left` bytes or what is wanted, the last block fits if it does so by itself
or together with the block before it. -/
theorem fits_joinLast_iff {left : ℕ} (hne : ts ≠ []) (hnone : ∀ t ∈ ts, ¬Fits need t)
    (hg : g = min (wantedGrowth need) left) (hleast : sizeofBlock ≤ g) :
    (∃ t ∈ joinLast sizeofBlock ts ⟨g - sizeofBlock, true⟩, Fits need t) ↔
      need + sizeofBlock ≤ left ∨ ∃ pre t, ts = pre ++ [t] ∧ Fits (need - left) t := by
  have hwanted := need_le_wantedGrowth need
  obtain ⟨pre, t, rfl⟩ := (List.eq_nil_or_concat' ts).resolve_left hne
  have hlast : (∃ pre' t', pre ++ [t] = pre' ++ [t'] ∧ Fits (need - left) t') ↔
      t.free = true ∧ need - left ≤ t.size := by
    constructor
    · rintro ⟨pre', t', heq, hfits⟩
      obtain ⟨-, heq⟩ := List.append_inj' heq rfl
      rw [List.cons.inj heq |>.1]
      exact hfits
    · exact fun hfits => ⟨pre, t, rfl, hfits⟩
  rw [hlast, joinLast_concat]
  split
  · next ht =>
    have hmem : (∃ u ∈ pre ++ [merge sizeofBlock t ⟨g - sizeofBlock, true⟩], Fits need u) ↔
        Fits need (merge sizeofBlock t ⟨g - sizeofBlock, true⟩) := by
      constructor
      · rintro ⟨u, hu, hfits⟩
        rcases List.mem_append.mp hu with hu | hu
        · exact absurd hfits (hnone u (List.mem_append_left _ hu))
        · exact List.mem_singleton.mp hu ▸ hfits
      · exact fun hfits => ⟨_, by simp, hfits⟩
    have hmerged : Fits need (merge sizeofBlock t ⟨g - sizeofBlock, true⟩) ↔
        need ≤ t.size + sizeofBlock + (g - sizeofBlock) := and_iff_right ht
    rw [hmem, hmerged, ht, eq_self, true_and]
    omega
  · next ht =>
    have hmem : (∃ u ∈ pre ++ [t] ++ [⟨g - sizeofBlock, true⟩], Fits need u) ↔
        Fits need ⟨g - sizeofBlock, true⟩ := by
      constructor
      · rintro ⟨u, hu, hfits⟩
        rcases List.mem_append.mp hu with hu | hu
        · exact absurd hfits (hnone u hu)
        · exact List.mem_singleton.mp hu ▸ hfits
      · exact fun hfits => ⟨_, by simp, hfits⟩
    have hnew : Fits need ⟨g - sizeofBlock, true⟩ ↔ need ≤ g - sizeofBlock := and_iff_right rfl
    rw [hmem, hnew]
    constructor
    · intro h
      left
      omega
    · rintro (h | ⟨hfree, -⟩)
      · omega
      · exact absurd hfree ht

/-- A request that no free block can serve, in terms of the tiles. -/
theorem HeapInv.servable_iff (inv : HeapInv s ts) (hsize : size ≠ 0)
    (hnone : ∀ t ∈ ts, ¬Fits (needOf size) t) : Servable s size ↔
      needOf size ≠ 0 ∧ sizeofBlock + minSplit ≤ s.heapMaxBytes - s.heapCommitted ∧
        (needOf size + sizeofBlock ≤ s.heapMaxBytes - s.heapCommitted ∨
          ∃ pre t, ts = pre ++ [t] ∧
            Fits (needOf size - (s.heapMaxBytes - s.heapCommitted)) t) := by
  have hlisted : ¬∃ b, OnList s b ∧ FitsAt s (needOf size) b := by
    rw [← inv.fits_iff]
    rintro ⟨t, ht, hfits⟩
    exact hnone t ht hfits
  unfold Servable
  rw [inv.last_iff]
  constructor
  · rintro ⟨-, hfits | hgrows⟩
    · exact absurd hfits hlisted
    · exact hgrows
  · exact fun hgrows => ⟨hsize, Or.inr hgrows⟩

/-- The two outcomes of a request, read off the state it meets. -/
theorem RequestInv.servable_iff (inv : RequestInv k ts) (hfits : GrowthFits k.st (needOf size))
    (hcall : kmalloc k.st size = some (p, s')) : p ≠ 0 ↔ Servable k.st size := by
  by_cases hsize : size = 0
  · rw [hsize, kmalloc_zero] at hcall
    obtain ⟨rfl, -⟩ := Prod.mk.inj (Option.some.inj hcall)
    exact iff_of_false (fun h => h rfl) fun h => h.1 hsize
  by_cases hexists : ∃ t ∈ ts, Fits (needOf size) t
  · obtain ⟨q, s₁, hcall₁, hserved⟩ := kmalloc_served inv.heap hsize hexists
    obtain ⟨rfl, -⟩ := Prod.mk.inj (Option.some.inj (hcall.symm.trans hcall₁))
    exact iff_of_true hserved.pos ⟨hsize, Or.inl (inv.heap.fits_iff.mp hexists)⟩
  have hnone : ∀ t ∈ ts, ¬Fits (needOf size) t := fun t ht h => hexists ⟨t, ht, h⟩
  rw [inv.heap.servable_iff hsize hnone]
  have hcap : heapMaxPages * pageSize = 4194304 := rfl
  have hmax := inv.region.max_le
  have hbounded := inv.bounded
  have hblock : sizeofBlock = 24 := rfl
  by_cases hlarge : Oversized (needOf size)
  · have hfuel : k.st.heapMaxBytes - k.st.heapCommitted < walkLimit := by
      unfold walkLimit
      omega
    obtain ⟨s₁, ts₁, hcall₁, -⟩ := inv.kmalloc_oversized hsize hlarge hfuel
    obtain ⟨rfl, -⟩ := Prod.mk.inj (Option.some.inj (hcall.symm.trans hcall₁))
    unfold Oversized pageSize at hlarge
    refine iff_of_false (fun h => h rfl) ?_
    -- The whole region is too small.
    rintro ⟨-, -, hroom | ⟨pre, t, rfl, -, hroom⟩⟩
    · omega
    · have hle := inv.heap.tile_le (t := t) (by simp)
      omega
  · have hfit := hfits (not_lt.mp hlarge)
    have hsizes : growSize k.st (needOf size) =
        min (wantedGrowth (needOf size)) (k.st.heapMaxBytes - k.st.heapCommitted) :=
      growSize_eq hbounded hfit
    have hwanted : 65536 ≤ wantedGrowth (needOf size) := le_max_left _ _
    have hsplit : minSplit = 32 := rfl
    obtain ⟨q, s₁, hcall₁, hcases⟩ := kmalloc_cases inv.heap inv.region hsize hbounded hfit
    obtain ⟨rfl, rfl⟩ := Prod.mk.inj (Option.some.inj (hcall.symm.trans hcall₁))
    rcases hcases with ⟨pre, t, post, rfl, ht, -⟩ | ⟨-, ⟨hleast, rfl, -⟩ | ⟨s₂, ts₂, hgrown, hcases⟩⟩
    · exact absurd ht (hnone t (by simp))
    · exact iff_of_false (fun h => h rfl) fun h => by omega
    · have hleast := hgrown.2.1
      have hjoin := fits_joinLast_iff inv.heap.nonempty hnone hsizes (by omega)
      rw [← hgrown.2.2] at hjoin
      rcases hcases with ⟨hneed, hserved⟩ | ⟨rfl, -, hzero | ⟨-, hnone₂⟩⟩
      · have hpos := hserved.pos
        obtain ⟨pre, t, post, rfl, ht, -⟩ := hserved
        exact iff_of_true hpos ⟨hneed, by omega, hjoin.mp ⟨t, by simp, ht⟩⟩
      · exact iff_of_false (fun h => h rfl) fun h => h.1 hzero
      · refine iff_of_false (fun h => h rfl) fun h => ?_
        obtain ⟨t, ht, hfit⟩ := hjoin.mpr h.2.2
        exact hnone₂ t ht hfit

/-! ## Sound requests, exactly -/

/-- The largest sizes round to nothing. -/
theorem needOf_wrapped (hsize : size < 2 ^ 64) (h : ¬size + 15 < 2 ^ 64) : needOf size = 0 := by
  unfold needOf alignDown w64
  omega

theorem le_needOf_of_lt (h : size + 15 < 2 ^ 64) : size ≤ needOf size := by
  unfold needOf alignDown
  rw [w64_eq h]
  omega

/-- A size that rounds to nothing is served just when a free block is there. -/
theorem servable_wrapped (hsize : size < 2 ^ 64) (h : ¬size + 15 < 2 ^ 64) :
    Servable s size ↔ ∃ b, OnList s b ∧ freeAt s b = true := by
  have hzero := needOf_wrapped hsize h
  unfold Servable FitsAt
  rw [hzero]
  constructor
  · rintro ⟨-, ⟨b, hb, hfree, -⟩ | ⟨hne, -⟩⟩
    · exact ⟨b, hb, hfree⟩
    · exact absurd rfl hne
  · rintro ⟨b, hb, hfree⟩
    exact ⟨by omega, Or.inl ⟨b, hb, hfree, Nat.zero_le _⟩⟩

/-- What the condition on rounding rules out is a request that is served although it wraps. -/
theorem roundFits_iff (hsize : size < 2 ^ 64) :
    RoundFits s size ↔ (Servable s size → size + 15 < 2 ^ 64) := by
  by_cases h : size + 15 < 2 ^ 64
  · exact iff_of_true (Or.inl h) fun _ => h
  · unfold RoundFits
    rw [servable_wrapped hsize h]
    constructor
    · rintro (hlt | hnone) ⟨b, hb, hfree⟩
      · exact hlt
      · rw [hnone b hb] at hfree
        exact Bool.noConfusion hfree
    · intro hserved
      right
      intro b hb
      by_contra hfree
      exact h (hserved ⟨b, hb, Bool.eq_true_of_not_eq_false hfree⟩)

theorem RequestInv.payloadSize_lt (inv : RequestInv k ts)
    (hp : (p, n) ∈ used sizeofBlock k.st.heapRegionStart ts) : n + 15 < 2 ^ 64 := by
  have hbounds := used_bounds hp
  have hstop := inv.heap.stop_lt
  have hblock : sizeofBlock = 24 := rfl
  omega

theorem RequestInv.kmallocSound_iff (inv : RequestInv k ts) (hsize : size < 2 ^ 64)
    (hfits : GrowthFits k.st (needOf size)) : KmallocSound k.st size ↔ RoundFits k.st size := by
  obtain ⟨p, s', ts', hcall, inv', hcases⟩ := inv.request hfits
  have hserved := inv.servable_iff hfits hcall
  have hstart : s'.heapRegionStart = k.st.heapRegionStart :=
    congrArg Layout.heapRegionStart (kmallocRetry_layout hcall)
  have hst : (k.allocated size (p, s')).st = s' := System.allocated_st _
  have hheap : HeapInv s' ts' := hst ▸ inv'.heap
  rw [roundFits_iff hsize, ← hserved]
  constructor
  · rintro ⟨q, s₁, hcall₁, hroom, -⟩ hne
    obtain ⟨rfl, rfl⟩ := Prod.mk.inj (Option.some.inj (hcall.symm.trans hcall₁))
    obtain ⟨n, -, hused⟩ := hcases.exists_used hne hstart
    have hle := (hroom hne).2
    rw [hheap.sizeAt_used hused] at hle
    have hlt := inv'.payloadSize_lt (hst ▸ hused)
    omega
  · intro hround
    refine ⟨p, s', hcall, ?_, hst ▸ inv'.tiled⟩
    intro hne
    obtain ⟨n, hneed, hused⟩ := hcases.exists_used hne hstart
    refine ⟨hheap.onList_used hused, ?_⟩
    rw [hheap.sizeAt_used hused]
    exact (le_needOf_of_lt (hround hne)).trans hneed

/-- The bytes of a payload in use are zeroed. -/
theorem RequestInv.zeroed (inv : RequestInv k ts)
    (hp : (p, n) ∈ used sizeofBlock k.st.heapRegionStart ts) (hle : m ≤ n) :
    RequestInv { k with st := { k.st with mem := k.st.mem.fill p m 0 } } ts := by
  have hlive : p ∈ k.live := inv.pages.live.mem_iff.mpr (List.mem_map_of_mem hp)
  have hsize := inv.heap.sizeAt_used hp
  have hpages : PageInv ⟨{ k.st with mem := k.st.mem.fill p m 0 }, k.live, k.results, []⟩ ts := by
    apply inv.pages.of_payload hlive
    intro y hy
    simp only [hsize] at hy
    exact fill_of_outside (by omega)
  exact inv.held_congr rfl hpages inv.bounded

/-- The whole of `kcalloc`, when what it zeroes is no more than it was given. -/
theorem RequestInv.calloc {count elemSize : ℕ} (inv : RequestInv k ts)
    (hround : RoundFits k.st (w64 (count * elemSize)))
    (hfits : GrowthFits k.st (needOf (w64 (count * elemSize)))) :
    ∃ p s' ts', kcalloc k.st count elemSize = some (p, s') ∧
      RequestInv (k.allocated (count * elemSize) (p, s')) ts' ∧
      (p ≠ 0 → HasRoom s' p (w64 (count * elemSize)) ∧
        ∀ y, p ≤ y → y < p + w64 (count * elemSize) → s'.mem y = 0) := by
  obtain ⟨p, s₁, ts', hcall, inv₁, hcases⟩ := inv.request hfits
  have hst : (k.allocated (w64 (count * elemSize)) (p, s₁)).st = s₁ := System.allocated_st _
  have hstart : s₁.heapRegionStart = k.st.heapRegionStart :=
    congrArg Layout.heapRegionStart (kmallocRetry_layout hcall)
  rw [roundFits_iff (w64_lt _), ← inv.servable_iff hfits hcall] at hround
  unfold kcalloc
  simp only [hcall, Option.map_some]
  by_cases hne : p = 0
  · refine ⟨0, s₁, ts', by rw [if_neg (by omega), hne], ?_, fun h => absurd rfl h⟩
    unfold System.allocated at inv₁ ⊢
    simp only [hne, if_true] at inv₁ ⊢
    exact inv₁
  · obtain ⟨n, hneed, hused⟩ := hcases.exists_used hne hstart
    have hle : w64 (count * elemSize) ≤ n := (le_needOf_of_lt (hround hne)).trans hneed
    have inv₂ := inv₁.zeroed (hst ▸ hused) hle
    refine ⟨p, _, ts', by rw [if_pos hne], ?_, ?_⟩
    · unfold System.allocated at inv₂ ⊢
      simp only [if_neg hne] at inv₂ ⊢
      exact inv₂.of_results _
    · have hheap := inv₂.heap
      simp only [hst] at hheap
      refine fun _ => ⟨⟨hheap.onList_used hused, ?_⟩, fun y hy hy' => fill_of_inside hy hy'⟩
      rw [hheap.sizeAt_used hused]
      exact hle

/-- Zeroing from a pointer on leaves the header in front of it. -/
theorem payloadSize_fill {v : UInt8} (h : sizeofBlock ≤ p) (hp : p < 2 ^ 64) :
    payloadSize { s with mem := s.mem.fill p m v } p = payloadSize s p := by
  have hblock : sizeofBlock = 24 := rfl
  unfold payloadSize sizeAt
  rw [sub64_eq hp h]
  apply loadNat_congr
  intro i hi
  exact fill_of_outside (by omega)

theorem RequestInv.kcallocSound_iff {count elemSize : ℕ} (inv : RequestInv k ts)
    (hfits : GrowthFits k.st (needOf (w64 (count * elemSize)))) :
    KcallocSound k.st count elemSize ↔ ProductFits k.st count elemSize := by
  obtain ⟨p, s₁, ts', hcall, inv₁, hcases⟩ := inv.request hfits
  have hserved := inv.servable_iff hfits hcall
  have hst : (k.allocated (w64 (count * elemSize)) (p, s₁)).st = s₁ := System.allocated_st _
  have hstart : s₁.heapRegionStart = k.st.heapRegionStart :=
    congrArg Layout.heapRegionStart (kmallocRetry_layout hcall)
  have hheap : HeapInv s₁ ts' := hst ▸ inv₁.heap
  constructor
  · rintro ⟨q, s', hcalloc, hroom, -⟩
    unfold kcalloc at hcalloc
    simp only [hcall, Option.map_some] at hcalloc
    obtain ⟨rfl, rfl⟩ := Prod.mk.inj (Option.some.inj hcalloc)
    -- What is handed out is a payload, and those are far below the wrap.
    have hproduct : p ≠ 0 → count * elemSize + 15 < 2 ^ 64 := by
      intro hne
      obtain ⟨n, -, hused⟩ := hcases.exists_used hne hstart
      have hbounds := used_bounds hused
      have hstop := hheap.stop_lt
      have hle := (hroom hne).1.2
      rw [if_pos hne, payloadSize_fill (by omega) (by omega), hheap.sizeAt_used hused] at hle
      have hlt := inv₁.payloadSize_lt (hst ▸ hused)
      omega
    by_cases hlt : count * elemSize < 2 ^ 64
    · left
      rw [w64_eq hlt] at hserved
      exact ⟨hlt, (roundFits_iff hlt).mpr fun h => hproduct (hserved.mpr h)⟩
    · right
      refine ⟨not_lt.mp hlt, fun h => ?_⟩
      have hproduct := hproduct (hserved.mpr h)
      omega
  · rintro (⟨hlt, hround⟩ | ⟨-, hrefused⟩)
    · rw [← w64_eq hlt] at hround
      obtain ⟨q, s', ts₂, hcalloc, inv₂, hroom⟩ := inv.calloc hround hfits
      rw [w64_eq hlt] at hroom
      have hst₂ : (k.allocated (count * elemSize) (q, s')).st = s' := System.allocated_st _
      exact ⟨q, s', hcalloc, hroom, hst₂ ▸ inv₂.tiled⟩
    · have hnull : p = 0 := by
        by_contra hne
        exact hrefused (hserved.mp hne)
      refine ⟨0, s₁, ?_, fun h => absurd rfl h, hst ▸ inv₁.tiled⟩
      unfold kcalloc
      simp only [hcall, Option.map_some, hnull, ne_eq, not_true_eq_false, if_false]

/-! ## Runs -/

theorem RequestInv.step {c : Call} (inv : RequestInv k ts) (hc : RequestCall k c) :
    ∃ k' ts', k.step c = some k' ∧ RequestInv k' ts' := by
  cases c with
  | kmalloc size =>
    obtain ⟨p, s', ts', hcall, inv', -⟩ := inv.request hc.2
    exact ⟨_, ts', by rw [System.step, hcall, Option.map_some], inv'⟩
  | kcalloc count elemSize =>
    obtain ⟨-, -, hround, hfits⟩ := hc
    obtain ⟨p, s', ts', hcall, inv', -⟩ := inv.calloc hround hfits
    exact ⟨_, ts', by rw [System.step, hcall, Option.map_some], inv'⟩
  | kfree ptr =>
    rcases hc with rfl | hlive
    · have hsystem : SystemInv k ts := ⟨inv.heap, inv.region, inv.pages.live⟩
      exact ⟨k, ts, hsystem.step_kfree_null, inv⟩
    · exact inv.freed hlive
  | pmmAllocPage =>
    obtain ⟨k', hk', inv'⟩ := inv.allocPage
    exact ⟨k', ts, hk', inv'⟩
  | pmmFreePage phys =>
    obtain ⟨k', hk', inv'⟩ := inv.returnPage hc.1 hc.2
    exact ⟨k', ts, hk', inv'⟩
  | write addr v => exact ⟨_, ts, rfl, inv.written hc⟩

theorem request_of_run {cs : List Call} (hready : Ready s)
    (hmax : s.heapCommitted ≤ s.heapMaxBytes)
    (hrun : Run (Where RequestCall System.Step) (QuillOS.Memory.start s) cs k) :
    ∃ ts, RequestInv k ts := by
  apply hrun.invariant fun k => ∃ ts, RequestInv k ts
  · exact ⟨_, RequestInv.of_ready hready hmax⟩
  · rintro a c b ⟨ts, inv⟩ ⟨hc, hstep⟩
    obtain ⟨k', ts', hk', inv'⟩ := inv.step hc
    obtain rfl : b = k' := Option.some.inj (hstep.symm.trans hk')
    exact ⟨ts', inv'⟩

/-- In every state a run reaches the heap is tiled, and a request whose growth does not wrap is
sound just when its rounding does not wrap, and its product is not served although it does. -/
theorem requests_sound_iff {l : Limine} {mem : Mem} {cs : List Call}
    (hinit : init l (boot mem) = some s) (hmax : s.heapCommitted ≤ s.heapMaxBytes)
    (hrun : Run (Where RequestCall System.Step) (QuillOS.Memory.start s) cs k) :
    Tiled k.st ∧
    (∀ size < 2 ^ 64, GrowthFits k.st (needOf size) →
      (KmallocSound k.st size ↔ RoundFits k.st size)) ∧
    ∀ count < 2 ^ 64, ∀ elemSize < 2 ^ 64, GrowthFits k.st (needOf (w64 (count * elemSize))) →
      (KcallocSound k.st count elemSize ↔ ProductFits k.st count elemSize) := by
  obtain ⟨ts, inv⟩ := request_of_run (init_ready hinit) hmax hrun
  refine ⟨inv.tiled, ?_, ?_⟩
  · intro size hsize hfits
    exact inv.kmallocSound_iff hsize hfits
  · intro count _ elemSize _ hfits
    exact inv.kcallocSound_iff hfits

/-- A size whose sum with the header wraps, and a product that wraps to nothing, after a growth. -/
theorem requests_sound_grownFirst : Tiled grownFirst.st ∧
    KmallocSound grownFirst.st (2 ^ 64 - 20) ∧ KcallocSound grownFirst.st (2 ^ 32) (2 ^ 32) := by
  have hrun : Run (Where RequestCall System.Step) (QuillOS.Memory.start smallBoot)
      [.kmalloc 65520, .pmmAllocPage] grownFirst := by
    have hfits : GrowthFits smallBoot (needOf 65520) := fun _ => by decide +kernel
    apply Run.cons ⟨⟨by decide, hfits⟩, step_grownOnce⟩
    exact Run.single ⟨trivial, step_grownFirst⟩
  obtain ⟨htiled, hmalloc, hcalloc⟩ := requests_sound_iff init_smallBoot smallBoot_bounded hrun
  refine ⟨htiled, ?_, ?_⟩
  · apply (hmalloc _ (by decide) fun h => absurd h (by decide +kernel)).mpr
    exact Or.inl (by decide)
  · have hzero : w64 (2 ^ 32 * 2 ^ 32) = 0 := by decide +kernel
    apply (hcalloc _ (by decide) _ (by decide) fun _ => by decide +kernel).mpr
    exact Or.inr ⟨by decide, fun h => h.1 hzero⟩

theorem smallBoot_requestInv : RequestInv (QuillOS.Memory.start smallBoot)
    [⟨heapInitialPages * pageSize - sizeofBlock, true⟩] :=
  RequestInv.of_ready (init_ready init_smallBoot) smallBoot_bounded

theorem smallBoot_head : OnList smallBoot smallBoot.heapHead :=
  OnList.head (by decide +kernel)

/-- Right after `init`, with all of the heap free, the largest size is served with no bytes, and a
product of `2 ^ 64 + 2` with two. -/
theorem requests_not_sound : init smallLimine (boot fun _ => 0) = some smallBoot ∧
    smallBoot.heapCommitted ≤ smallBoot.heapMaxBytes ∧
    ¬KmallocSound smallBoot (2 ^ 64 - 1) ∧ ¬KcallocSound smallBoot (2 ^ 63 + 1) 2 := by
  have hfree : freeAt smallBoot smallBoot.heapHead = true := by decide +kernel
  refine ⟨init_smallBoot, smallBoot_bounded, ?_, ?_⟩
  · intro hsound
    have hround := (smallBoot_requestInv.kmallocSound_iff (by decide)
      fun _ => by decide +kernel).mp hsound
    rcases hround with hlt | hnone
    · exact absurd hlt (by decide)
    · have htaken := (hnone _ smallBoot_head).symm.trans hfree
      exact Bool.noConfusion htaken
  · intro hsound
    have hproduct := (smallBoot_requestInv.kcallocSound_iff fun _ => by decide +kernel).mp hsound
    have htwo : w64 ((2 ^ 63 + 1) * 2) = 2 := by decide +kernel
    have hserved : Servable smallBoot 2 :=
      ⟨by decide, Or.inl ⟨_, smallBoot_head, hfree, by decide +kernel⟩⟩
    rcases hproduct with ⟨hlt, -⟩ | ⟨-, hrefused⟩
    · exact absurd hlt (by decide)
    · rw [htwo] at hrefused
      exact hrefused hserved

end QuillOS.Memory
