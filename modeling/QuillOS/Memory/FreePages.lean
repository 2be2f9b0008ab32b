import QuillOS.Memory.Failure
import QuillOS.Memory.Strung

/-!
# Reported free memory

`pmm_free_pages` takes the used pages, which `pmm_init` counts from every page below the highest
address, from a total that counts usable pages only. What it reports is therefore too small by the
pages that no usable entry covers, whatever is handed out, given back or taken by the heap.
-/

namespace QuillOS.Memory

open Lib Lib.Mem Lib.Tiling

variable {mm : MemoryMap} {s s' s₁ : State} {k k' : System} {e eb : MemmapEntry}
  {p n b size need fuel phys offset grow : ℕ}

/-! ## The heap beside the page allocator -/

/-- What is left of the heap's invariant when its pages may be handed out again. -/
structure Loose (s : State) : Prop where
  region : RegionInv s
  start : s.heapRegionStart = s.hhdm + s.heapPhysBase
  base_aligned : pageSize ∣ s.heapPhysBase
  max_aligned : pageSize ∣ s.heapMaxBytes
  committed_aligned : pageSize ∣ s.heapCommitted
  bounded : s.heapCommitted ≤ s.heapMaxBytes
  inside : s.heapPhysBase + s.heapMaxBytes ≤ pageSize * s.pmmHighestPage
  head : s.heapHead = s.heapRegionStart
  start_pos : pageSize ≤ s.heapRegionStart
  strung : Strung s (s.heapRegionStart + s.heapCommitted) s.heapRegionStart s.heapHead

/-- What the passes over the memory map found. -/
structure MapRead (mm : MemoryMap) (s : State) : Prop where
  total : s.pmmTotal = totalPages mm.entries
  highest : s.pmmHighestPage = highestAddr mm.entries / pageSize

structure GrowthInv (mm : MemoryMap) (k : System) : Prop where
  frames : FrameInv mm k
  read : MapRead mm k.st
  heap : Loose k.st

theorem MapRead.congr (h : MapRead mm s) (htotal : s'.pmmTotal = s.pmmTotal)
    (hhighest : s'.pmmHighestPage = s.pmmHighestPage) : MapRead mm s' :=
  ⟨htotal.trans h.total, hhighest.trans h.highest⟩

theorem Loose.update (h : Loose s) (hplace : s'.place = s.place)
    (hbounded : s'.heapCommitted ≤ s.heapMaxBytes) (haligned : pageSize ∣ s'.heapCommitted)
    (hstrung : Strung s' (s.heapRegionStart + s'.heapCommitted) s.heapRegionStart s.heapHead) :
    Loose s' := by
  have hhhdm : s'.hhdm = s.hhdm := congrArg Layout.hhdm hplace
  have hhighest : s'.pmmHighestPage = s.pmmHighestPage := congrArg Layout.pmmHighestPage hplace
  have hhead : s'.heapHead = s.heapHead := congrArg Layout.heapHead hplace
  have hstart : s'.heapRegionStart = s.heapRegionStart := congrArg Layout.heapRegionStart hplace
  have hmax : s'.heapMaxBytes = s.heapMaxBytes := congrArg Layout.heapMaxBytes hplace
  have hphys : s'.heapPhysBase = s.heapPhysBase := congrArg Layout.heapPhysBase hplace
  have hbounded' : s'.heapCommitted ≤ s'.heapMaxBytes := by rwa [hmax]
  constructor
  · exact h.region.of_place hplace hbounded'
  · rw [hstart, hhhdm, hphys]
    exact h.start
  · rw [hphys]
    exact h.base_aligned
  · rw [hmax]
    exact h.max_aligned
  · exact haligned
  · exact hbounded'
  · rw [hphys, hmax, hhighest]
    exact h.inside
  · rw [hhead, hstart]
    exact h.head
  · rw [hstart]
    exact h.start_pos
  · rwa [hstart, hhead]

/-- Writes outside the committed memory leave the heap. -/
theorem Loose.of_outside (h : Loose s) (hplace : s'.place = s.place)
    (hcommitted : s'.heapCommitted = s.heapCommitted)
    (hmem : ∀ y, s.heapRegionStart ≤ y → y < s.heapRegionStart + s.heapCommitted →
      s'.mem y = s.mem y) : Loose s' := by
  apply h.update hplace
  · rw [hcommitted]
    exact h.bounded
  · rw [hcommitted]
    exact h.committed_aligned
  · rw [hcommitted]
    exact h.strung.congr (congrArg Layout.hhdm hplace) le_rfl hmem

/-- The bitmap and the region lie apart. -/
theorem Loose.off_bitmap (h : Loose s) {y : ℕ} (hlo : s.heapRegionStart ≤ y)
    (hhi : y < s.heapRegionStart + s.heapMaxBytes) :
    y < s.pmmBitmap ∨ s.pmmBitmap + s.pmmBitmapBytes ≤ y := by
  have hapart := h.region.apart
  omega

/-! ## Steps of the page allocator -/

/-- Setting or clearing the bit of a page below the highest writes to the bitmap only. -/
theorem FrameInv.bit_in_bitmap (inv : FrameInv mm k) (hp : p < k.st.pmmHighestPage) :
    p / 8 < k.st.pmmBitmapBytes := by
  have hbits := inv.map.bits
  omega

theorem GrowthInv.takePage (inv : GrowthInv mm k) (hp : p < k.st.pmmHighestPage)
    (hclear : bmpTest k.st p = false) : Loose (Memory.takePage k.st p).2 := by
  have hframe := inv.frames.holdings.clear p hp hclear
  have hfits := inv.frames.map.fits p hframe
  have hbit := inv.frames.bit_in_bitmap hp
  have hphys : w64 (p * pageSize) = p * pageSize := w64_eq (by omega)
  have hvirt : w64 (k.st.hhdm + p * pageSize) = k.st.hhdm + p * pageSize := w64_eq (by omega)
  have hset : Loose { bmpSet k.st p with
      pmmUsed := w64 (k.st.pmmUsed + 1), pmmSearchHint := p + 1 } := by
    refine inv.heap.of_outside ?_ ?_ ?_
    · rfl
    · rfl
    intro y hy hy'
    have hbounded := inv.heap.bounded
    have hoff := inv.heap.off_bitmap hy (by omega)
    exact setBit_of_ne (by omega)
  unfold Memory.takePage physToVirt
  simp only [bmpSet, hvirt]
  refine hset.update ?_ hset.bounded hset.committed_aligned (hset.strung.zeroed ?_ ?_)
  · rfl
  · rfl
  intro x hx
  change x % 8 = k.st.hhdm % 8 at hx
  have hpage : pageSize = 4096 := rfl
  rw [hpage]
  by_cases hin : k.st.hhdm + p * 4096 ≤ x ∧ x < k.st.hhdm + p * 4096 + 4096
  · right
    have hzero : ((k.st.mem.setBit k.st.pmmBitmap p).fill (k.st.hhdm + p * 4096) 4096 0).load x 8 =
        List.replicate 8 0 := by
      apply List.eq_replicate_iff.mpr
      refine ⟨length_load _ _ _, ?_⟩
      intro v hv
      obtain ⟨i, hi, rfl⟩ := List.mem_map.mp hv
      have hi' := List.mem_range.mp hi
      exact fill_of_inside (by omega) (by omega)
    show leValue (load _ x 8) = 0
    rw [hzero]
    rfl
  · left
    exact loadNat_congr fun i hi => fill_of_outside (by omega)

theorem GrowthInv.freePage (inv : GrowthInv mm k) : Loose (pmmFreePage k.st phys) := by
  have hbounded := inv.heap.bounded
  unfold pmmFreePage
  simp only
  split
  · exact inv.heap
  next hp =>
  split
  · have hbit := inv.frames.bit_in_bitmap (not_le.mp hp)
    generalize phys / pageSize = page at hbit ⊢
    refine inv.heap.of_outside ?_ ?_ ?_
    · rfl
    · rfl
    intro y hy hy'
    have hoff := inv.heap.off_bitmap hy (by omega)
    exact clearBit_of_ne (by omega)
  · exact inv.heap

theorem pmmAllocPage_total : (pmmAllocPage s).2.pmmTotal = s.pmmTotal := by
  apply pmmAllocPage_of_takePage (p := fun r => r.2.pmmTotal = s.pmmTotal)
  · exact fun _ => rfl
  · rfl

theorem pmmFreePage_total : (pmmFreePage s n).pmmTotal = s.pmmTotal := by
  unfold pmmFreePage
  simp only
  split
  · rfl
  · split <;> rfl

/-! ## Steps of the heap -/

/-- Where bits are only set and the count follows, the frames are as before. -/
theorem FrameInv.of_marks (inv : FrameInv mm k) (hhhdm : s'.hhdm = k.st.hhdm)
    (hbitmap : s'.pmmBitmap = k.st.pmmBitmap) (hbytes : s'.pmmBitmapBytes = k.st.pmmBitmapBytes)
    (hhighest : s'.pmmHighestPage = k.st.pmmHighestPage)
    (hhint : s'.pmmSearchHint = k.st.pmmSearchHint) (hcounted : Counted s')
    (hset : ∀ p < k.st.pmmHighestPage, bmpTest k.st p = true → bmpTest s' p = true) :
    FrameInv mm { k with st := s' } := by
  have hframe : ∀ p, Frame mm k.st p → Frame mm s' p := by
    intro p hp
    have hpages : bitmapPages s' = bitmapPages k.st := by
      unfold bitmapPages virtToPhys
      rw [hhhdm, hbitmap, hbytes]
    rwa [Frame, hpages]
  refine ⟨inv.map.congr hhhdm hbitmap hbytes hhighest, hcounted, ⟨?_, inv.holdings.nodup, ?_⟩,
    ?_, ?_⟩
  · simp only [hhighest]
    intro p hp hclear
    apply hframe
    apply inv.holdings.clear p hp
    by_contra hbit
    rw [hset p hp (Bool.eq_true_of_not_eq_false hbit)] at hclear
    cases hclear
  · simp only [hhighest]
    intro phys hphys
    obtain ⟨p, hp, heq, hbit, hpage⟩ := inv.holdings.held phys hphys
    exact ⟨p, hp, heq, hset p hp hbit, hframe p hpage⟩
  · simp only [hhint, hhighest]
    exact inv.hint
  · simp only [hhint]
    intro p hp
    exact hset p (hp.trans_le inv.hint) (inv.below p hp)

/-- A step inside the committed memory. -/
theorem GrowthInv.of_inside (inv : GrowthInv mm k) (hlayout : s'.layout = k.st.layout)
    (hcommitted : s'.heapCommitted = k.st.heapCommitted) (htotal : s'.pmmTotal = k.st.pmmTotal)
    (hused : s'.pmmUsed = k.st.pmmUsed)
    (hout : SameOutside k.st.mem s'.mem k.st.heapRegionStart
      (k.st.heapRegionStart + k.st.heapCommitted))
    (hstrung : Strung s' (k.st.heapRegionStart + k.st.heapCommitted) k.st.heapRegionStart
      k.st.heapHead) : GrowthInv mm { k with st := s' } := by
  have hbounded := inv.heap.bounded
  have hhighest : s'.pmmHighestPage = k.st.pmmHighestPage := congrArg Layout.pmmHighestPage hlayout
  have htest : ∀ p < k.st.pmmHighestPage, bmpTest s' p = bmpTest k.st p := by
    intro p hp
    have hbit := inv.frames.bit_in_bitmap hp
    have hapart := inv.heap.region.apart
    apply bmpTest_congr hlayout
    apply hout
    omega
  refine ⟨?_, inv.read.congr htotal hhighest, ?_⟩
  · apply inv.frames.of_marks (congrArg Layout.hhdm hlayout) (congrArg Layout.pmmBitmap hlayout)
      (congrArg Layout.pmmBitmapBytes hlayout) hhighest (congrArg Layout.pmmSearchHint hlayout)
    · exact inv.frames.counted.congr (congrArg Layout.pmmBitmap hlayout) hhighest hused htest
    · intro p hp hset
      rwa [htest p hp]
  · apply inv.heap.update (place_of_layout hlayout)
    · rwa [hcommitted]
    · rw [hcommitted]
      exact inv.heap.committed_aligned
    · rwa [hcommitted]

theorem takeBlock_counts : (takeBlock s b n).pmmTotal = s.pmmTotal ∧
    (takeBlock s b n).pmmUsed = s.pmmUsed := by
  unfold takeBlock
  simp only
  split <;> exact ⟨rfl, rfl⟩

theorem markPages_total (start count : ℕ) : (markPages s start count).pmmTotal = s.pmmTotal := by
  induction count with
  | zero => rfl
  | succ count ih =>
    rw [markPages, markPage]
    split
    · exact ih
    · exact ih

theorem appendBlock_fields (h : appendBlock s b n = some s') :
    s'.pmmTotal = s.pmmTotal ∧ s'.heapCommitted = s.heapCommitted := by
  unfold appendBlock at h
  simp only at h
  obtain ⟨last, -, rfl⟩ := Option.map_eq_some_iff.mp h
  split <;> exact ⟨rfl, rfl⟩

/-- Marking pages, whoever holds them. -/
theorem GrowthInv.marked {page count : ℕ} (inv : GrowthInv mm k)
    (hle : page + count ≤ k.st.pmmHighestPage) :
    GrowthInv mm { k with st := markPages k.st page count } := by
  have hlayout : (markPages k.st page count).layout = k.st.layout := markPages_layout
  have hhighest := congrArg Layout.pmmHighestPage hlayout
  have hbits := inv.frames.map.bits
  have hbounded := inv.heap.bounded
  refine ⟨?_, inv.read.congr (markPages_total page count) hhighest, ?_⟩
  · apply inv.frames.of_marks (congrArg Layout.hhdm hlayout) (congrArg Layout.pmmBitmap hlayout)
      (congrArg Layout.pmmBitmapBytes hlayout) hhighest (congrArg Layout.pmmSearchHint hlayout)
    · exact inv.frames.counted.markPages hle
    · intro p _ hset
      rw [bmpTest_markPages, hset, Bool.or_true]
  · apply inv.heap.of_outside (place_of_layout hlayout) markPages_committed
    intro y hlo hhi
    exact markPages_mem (by omega) (inv.heap.off_bitmap hlo (by omega))

/-- A new block where the chain may end at most. -/
theorem GrowthInv.appended (inv : GrowthInv mm k) (hleast : sizeofBlock ≤ grow)
    (hle : k.st.heapCommitted + grow ≤ k.st.heapMaxBytes) (hdvd : pageSize ∣ grow)
    (happend : appendBlock k.st (k.st.heapRegionStart + k.st.heapCommitted) (grow - sizeofBlock) =
      some s') :
    GrowthInv mm { k with st := { s' with heapCommitted := k.st.heapCommitted + grow } } := by
  have hpage : pageSize = 4096 := rfl
  have hvirt := inv.heap.region.virt_fits
  have hapart := inv.heap.region.apart
  have hpos := inv.heap.start_pos
  have hhead := inv.heap.head
  have hstart := inv.heap.start
  have hbase := inv.heap.base_aligned
  have hcommitted := inv.heap.committed_aligned
  have hlayout := appendBlock_layout happend
  have hhighest := congrArg Layout.pmmHighestPage hlayout
  obtain ⟨htotal, -⟩ := appendBlock_fields happend
  obtain ⟨hstrung, hmem⟩ := inv.heap.strung.appended (by omega) (by omega) rfl
    (by rw [hpage] at *; omega) (by omega) happend
  have htest : ∀ p < k.st.pmmHighestPage, bmpTest s' p = bmpTest k.st p := by
    intro p hp
    have hbit := inv.frames.bit_in_bitmap hp
    apply bmpTest_congr hlayout
    apply hmem
    omega
  refine ⟨?_, inv.read.congr htotal hhighest, ?_⟩
  · have hcounted : Counted s' := inv.frames.counted.congr (congrArg Layout.pmmBitmap hlayout)
      hhighest (appendBlock_used happend) htest
    refine inv.frames.of_marks (congrArg Layout.hhdm hlayout :)
      (congrArg Layout.pmmBitmap hlayout :) (congrArg Layout.pmmBitmapBytes hlayout :) hhighest
      (congrArg Layout.pmmSearchHint hlayout :) ?_ ?_
    · exact hcounted.congr rfl rfl rfl fun _ _ => rfl
    · intro p hp hset
      exact (htest p hp).trans hset
  · have hend : k.st.heapRegionStart + k.st.heapCommitted + sizeofBlock + (grow - sizeofBlock) =
        k.st.heapRegionStart + (k.st.heapCommitted + grow) := by omega
    rw [hend] at hstrung
    refine inv.heap.update (place_of_layout hlayout) hle (dvd_add hcommitted hdvd) ?_
    exact hstrung.congr rfl le_rfl fun _ _ _ => rfl

/-- A growth inside the region, whoever holds its pages. -/
theorem GrowthInv.grown (inv : GrowthInv mm k) (hleast : sizeofBlock ≤ grow)
    (hle : k.st.heapCommitted + grow ≤ k.st.heapMaxBytes) (hdvd : pageSize ∣ grow)
    (h : growBy k.st grow = some s') : GrowthInv mm { k with st := s' } := by
  have hpage : pageSize = 4096 := rfl
  have hvirt := inv.heap.region.virt_fits
  have hphys := inv.heap.region.phys_fits
  have hinside := inv.heap.inside
  have hnew : w64 (k.st.heapPhysBase + k.st.heapCommitted) =
      k.st.heapPhysBase + k.st.heapCommitted := w64_eq (by omega)
  have hend : w64 (k.st.heapRegionStart + k.st.heapCommitted) =
      k.st.heapRegionStart + k.st.heapCommitted := w64_eq (by omega)
  have hgrown : w64 (k.st.heapCommitted + grow) = k.st.heapCommitted + grow := w64_eq (by omega)
  have hsize : sub64 grow sizeofBlock = grow - sizeofBlock := sub64_eq (by omega) hleast
  have hpages : (k.st.heapPhysBase + k.st.heapCommitted) / pageSize + grow / pageSize ≤
      k.st.pmmHighestPage := by
    rw [hpage] at *
    omega
  unfold growBy at h
  simp only [hnew, hsize] at h
  have inv₁ := inv.marked hpages
  have hlayout₁ : (markPages k.st ((k.st.heapPhysBase + k.st.heapCommitted) / pageSize)
      (grow / pageSize)).layout = k.st.layout := markPages_layout
  have hcommitted₁ : (markPages k.st ((k.st.heapPhysBase + k.st.heapCommitted) / pageSize)
      (grow / pageSize)).heapCommitted = k.st.heapCommitted := markPages_committed
  generalize markPages k.st ((k.st.heapPhysBase + k.st.heapCommitted) / pageSize)
    (grow / pageSize) = s₁ at h inv₁ hlayout₁ hcommitted₁
  have hstart₁ : s₁.heapRegionStart = k.st.heapRegionStart :=
    congrArg Layout.heapRegionStart hlayout₁
  have hmax₁ : s₁.heapMaxBytes = k.st.heapMaxBytes := congrArg Layout.heapMaxBytes hlayout₁
  rw [← hstart₁, ← hcommitted₁] at hend
  rw [← hcommitted₁] at hgrown
  rw [← hcommitted₁, ← hmax₁] at hle
  rw [hend] at h
  obtain ⟨s₂, happend, rfl⟩ := Option.map_eq_some_iff.mp h
  rw [(appendBlock_fields happend).2, hgrown]
  exact inv₁.appended hleast hle hdvd happend

/-- What `kmalloc` has handed out, if anything: the payload of a block of the list. -/
def Given (s : State) (need p : ℕ) : Prop :=
  p ≠ 0 → ∃ b, p = b + sizeofBlock ∧ Leads s s.heapHead b ∧ need ≤ sizeAt s b

theorem GrowthInv.taken (inv : GrowthInv mm k) (hneed : 8 ∣ need)
    (hfound : search k.st need fuel k.st.heapHead = some (.found b)) :
    GrowthInv mm { k with st := takeBlock k.st b need } ∧
      Given (takeBlock k.st b need) need (w64 (b + sizeofBlock)) := by
  have hvirt := inv.heap.region.virt_fits
  have hbounded := inv.heap.bounded
  have hpos := inv.heap.start_pos
  have hhead := inv.heap.head
  have hpage : pageSize = 4096 := rfl
  obtain ⟨hstrung, hleads, hlo, hsize, hend, hout⟩ := inv.heap.strung.taken hpos (by omega)
    (by omega) hneed hfound
  obtain ⟨htotal, hused⟩ := takeBlock_counts (s := k.st) (b := b) (n := need)
  refine ⟨?_, ?_⟩
  · apply inv.of_inside takeBlock_layout takeBlock_committed htotal hused _ hstrung
    exact hout.mono hlo hend
  · intro _
    have hhead' : (takeBlock k.st b need).heapHead = k.st.heapHead :=
      congrArg Layout.heapHead takeBlock_layout
    exact ⟨b, w64_eq (by omega), hhead' ▸ hleads, hsize⟩

theorem GrowthInv.printed (inv : GrowthInv mm k) (text : String) :
    GrowthInv mm { k with st := consolePrint k.st text } :=
  inv.of_inside rfl rfl rfl rfl (fun _ _ => rfl)
    (inv.heap.strung.congr rfl le_rfl fun _ _ _ => rfl)

/-- What a growth adds is inside the region, and whole pages. -/
theorem Loose.growSize_spec (h : Loose s) (hfits : GrowthFits s (needOf size)) :
    s.heapCommitted + growSize s (needOf size) ≤ s.heapMaxBytes ∧
      pageSize ∣ growSize s (needOf size) := by
  have hbounded := h.bounded
  have hleft : pageSize ∣ s.heapMaxBytes - s.heapCommitted :=
    Nat.dvd_sub h.max_aligned h.committed_aligned
  by_cases hlarge : Oversized (needOf size)
  · have hfew : pageSize ∣ heapGrowPages * pageSize := Nat.dvd_mul_left _ _
    rcases growSize_oversized h.region hbounded hlarge with hnone | hsome
    · rw [hnone]
      exact ⟨hbounded, dvd_zero _⟩
    · rw [hsome]
      refine ⟨by omega, ?_⟩
      rcases min_choice (heapGrowPages * pageSize) (s.heapMaxBytes - s.heapCommitted) with hm | hm
      · rwa [hm]
      · rwa [hm]
  · have hfit := hfits (not_lt.mp hlarge)
    exact ⟨growSize_le hbounded hfit,
      dvd_growSize hbounded hfit h.committed_aligned h.max_aligned⟩

/-- The whole of `kmalloc`, over pages in any hands. -/
theorem GrowthInv.kmallocRetry (inv : GrowthInv mm k) (hfits : GrowthFits k.st (needOf size))
    (h : kmallocRetry fuel k.st size = some (p, s')) :
    GrowthInv mm { k with st := s' } ∧ Given s' (needOf size) p := by
  induction fuel generalizing k size with
  | zero => cases h
  | succ fuel ih =>
    unfold Memory.kmallocRetry at h
    split at h
    · obtain ⟨rfl, rfl⟩ := Prod.mk.inj (Option.some.inj h)
      exact ⟨inv, fun hne => absurd rfl hne⟩
    change (search k.st (needOf size) walkLimit k.st.heapHead).bind _ = _ at h
    obtain ⟨found, hsearch, h⟩ := Option.bind_eq_some_iff.mp h
    cases found with
    | corrupt =>
      obtain ⟨rfl, rfl⟩ := Prod.mk.inj (Option.some.inj h)
      exact ⟨inv.printed _, fun hne => absurd rfl hne⟩
    | found b =>
      obtain ⟨rfl, rfl⟩ := Prod.mk.inj (Option.some.inj h)
      exact inv.taken (dvd_trans ⟨2, rfl⟩ (needOf_dvd size)) hsearch
    | exhausted =>
      obtain ⟨⟨grown, s₁⟩, hgrow, h⟩ := Option.bind_eq_some_iff.mp h
      change heapGrow k.st (needOf size) = _ at hgrow
      unfold heapGrow at hgrow
      simp only at hgrow
      split at hgrow
      · obtain ⟨rfl, rfl⟩ := Prod.mk.inj (Option.some.inj hgrow)
        obtain ⟨rfl, rfl⟩ := Prod.mk.inj (Option.some.inj h)
        exact ⟨inv, fun hne => absurd rfl hne⟩
      next hleast =>
      obtain ⟨s₂, hs₂, heq⟩ := Option.map_eq_some_iff.mp hgrow
      obtain ⟨rfl, rfl⟩ := Prod.mk.inj heq
      obtain ⟨hle, hdvd⟩ := inv.heap.growSize_spec hfits
      have hblock : sizeofBlock + minSplit = 56 := rfl
      have hsizeof : sizeofBlock = 24 := rfl
      have inv₁ := inv.grown (by omega) hle hdvd hs₂
      have hgrown : heapGrow k.st (needOf size) = some (true, s₂) := by
        unfold heapGrow
        simp only [if_neg hleast, hs₂, Option.map_some]
      have hmax : s₂.heapMaxBytes = k.st.heapMaxBytes :=
        congrArg Layout.heapMaxBytes (heapGrow_layout hgrown)
      have hfits₁ : GrowthFits s₂ (needOf (needOf size)) := by
        rw [needOf_needOf]
        unfold GrowthFits
        rw [hmax]
        exact hfits
      obtain ⟨inv', hgiven⟩ := ih inv₁ hfits₁ h
      rw [needOf_needOf] at hgiven
      exact ⟨inv', hgiven⟩

/-- Zeroing inside a payload. -/
theorem GrowthInv.zeroed (inv : GrowthInv mm k) (hgiven : Given k.st need p) (hne : p ≠ 0)
    (hle : n ≤ need) :
    GrowthInv mm { k with st := { k.st with mem := k.st.mem.fill p n 0 } } := by
  have hpos := inv.heap.start_pos
  have hhead := inv.heap.head
  have hpage : pageSize = 4096 := rfl
  obtain ⟨b, rfl, hleads, hsize⟩ := hgiven hne
  obtain ⟨hlo, haligned, hend, hnext, hreplace⟩ := inv.heap.strung.at (by omega) (by omega) hleads
  have hout : SameOutside k.st.mem (k.st.mem.fill (b + sizeofBlock) n 0) (b + sizeofBlock)
      (b + sizeofBlock + sizeAt k.st b) := fun y hy => fill_of_outside (by omega)
  obtain ⟨hsize', hnext'⟩ := fields_congr k.st
    { k.st with mem := k.st.mem.fill (b + sizeofBlock) n 0 } b
    fun y _ hy => hout y (Or.inl hy)
  apply inv.of_inside
  · rfl
  · rfl
  · rfl
  · rfl
  · exact hout.mono (by omega) hend
  · refine (hreplace { k.st with mem := k.st.mem.fill (b + sizeofBlock) n 0 } _ rfl le_rfl
      (fun y _ hy => hout y (Or.inl (by omega))) ?_).1
    refine Strung.cons le_rfl ?_ ?_ ?_
    · exact haligned
    · rwa [hsize']
    · rw [hsize', hnext']
      exact hnext.congr rfl le_rfl fun y hy _ => hout y (Or.inr hy)

theorem GrowthInv.kcalloc {count elemSize : ℕ} (inv : GrowthInv mm k)
    (hround : w64 (count * elemSize) + 15 < 2 ^ 64)
    (hfits : GrowthFits k.st (needOf (w64 (count * elemSize))))
    (h : kcalloc k.st count elemSize = some (p, s')) : GrowthInv mm { k with st := s' } := by
  unfold Memory.kcalloc at h
  obtain ⟨⟨q, s₁⟩, hcall, heq⟩ := Option.map_eq_some_iff.mp h
  obtain ⟨rfl, rfl⟩ := Prod.mk.inj heq
  obtain ⟨inv₁, hgiven⟩ := inv.kmallocRetry hfits hcall
  split
  · next hne => exact inv₁.zeroed hgiven hne (le_needOf_of_lt hround)
  · exact inv₁

/-! ## Runs -/

/-- Pages are taken and given back by their holders, and the heap grows; the condition on a request
is that the growth is compared with what the region has left without a wrap. -/
def GrowthCall (k : System) : Call → Prop
  | .kmalloc size => GrowthFits k.st (needOf size)
  | .kcalloc count elemSize => w64 (count * elemSize) + 15 < 2 ^ 64 ∧
      GrowthFits k.st (needOf (w64 (count * elemSize)))
  | .pmmAllocPage => True
  | .pmmFreePage phys => phys ∈ k.held
  | _ => False

/-- Who asked for what plays no part. -/
theorem GrowthInv.congr (inv : GrowthInv mm k) (hst : k'.st = k.st) (hheld : k'.held = k.held) :
    GrowthInv mm k' := by
  obtain ⟨⟨map, counted, holdings, hint, below⟩, read, heap⟩ := inv
  rw [← hst] at map counted holdings hint below read heap
  rw [← hheld] at holdings
  exact ⟨⟨map, counted, holdings, hint, below⟩, read, heap⟩

theorem System.allocated_held (r : ℕ × State) : (k.allocated size r).held = k.held := by
  unfold System.allocated
  split <;> rfl

theorem GrowthInv.step {c : Call} (inv : GrowthInv mm k) (hc : GrowthCall k c)
    (hstep : k.step c = some k') : GrowthInv mm k' := by
  cases c with
  | kmalloc size =>
    obtain ⟨⟨p, s'⟩, hcall, rfl⟩ := Option.map_eq_some_iff.mp hstep
    obtain ⟨inv', -⟩ := inv.kmallocRetry hc hcall
    exact inv'.congr (System.allocated_st _) (System.allocated_held _)
  | kcalloc count elemSize =>
    obtain ⟨⟨p, s'⟩, hcall, rfl⟩ := Option.map_eq_some_iff.mp hstep
    exact (inv.kcalloc hc.1 hc.2 hcall).congr (System.allocated_st _) (System.allocated_held _)
  | kfree ptr => exact hc.elim
  | pmmAllocPage =>
    have hread : MapRead mm (pmmAllocPage k.st).2 :=
      inv.read.congr pmmAllocPage_total (congrArg Layout.pmmHighestPage pmmAllocPage_place)
    rcases inv.frames.alloc with ⟨p, hp, hclear, hfirst, htake, htaken⟩ | ⟨-, -, hnone⟩
    · obtain rfl := Option.some.inj (htaken.symm.trans hstep)
      exact ⟨(inv.frames.takePage hp hclear hfirst).2.2.1, htake ▸ hread, inv.takePage hp hclear⟩
    · obtain rfl := Option.some.inj (hnone.symm.trans hstep)
      exact inv
  | pmmFreePage phys =>
    obtain rfl := Option.some.inj hstep
    obtain ⟨p, -, -, -, frames⟩ := inv.frames.free hc
    exact ⟨frames, inv.read.congr pmmFreePage_total
      (congrArg Layout.pmmHighestPage pmmFreePage_place), inv.freePage⟩
  | write addr v => exact hc.elim

theorem clearPages_total (base count : ℕ) : (clearPages s base count).pmmTotal = s.pmmTotal := by
  induction count with
  | zero => rfl
  | succ count ih => exact ih

theorem foldl_clearEntry_total (entries : List MemmapEntry) :
    (entries.foldl clearEntry s).pmmTotal = s.pmmTotal := by
  induction entries generalizing s with
  | nil => rfl
  | cons e entries ih =>
    rw [List.foldl_cons, ih, clearEntry]
    split
    · exact clearPages_total _ _
    · rfl

theorem MapRead.of_pmmInit {l : Limine} (hmm : l.memmap = some mm) (hoff : l.hhdm = some offset)
    (h : pmmInit l s = some s') : MapRead mm s' := by
  obtain ⟨e, -, -, -, -, -, rfl⟩ := pmmInit_some hmm hoff h
  constructor
  · have hmarked := markPages_total (s := mm.entries.foldl clearEntry
      (pmmBlank (pmmExtent s offset mm.entries) e.base)) (e.base / pageSize)
      (((mm.entries.foldl clearEntry
        (pmmBlank (pmmExtent s offset mm.entries) e.base)).pmmBitmapBytes + pageSize - 1) / pageSize)
    exact hmarked.trans (foldl_clearEntry_total mm.entries)
  · exact congrArg Layout.pmmHighestPage (pmmPlaced_layout s offset mm.entries e.base)

theorem heapInit_some (h : heapInit mm s = some s') :
    ∃ heapPhys remaining, s' = heapFirstBlock (heapRegion s heapPhys remaining) := by
  unfold heapInit at h
  simp only at h
  split at h
  · cases h
  · exact ⟨_, _, (Option.some.inj h).symm⟩

/-- The initial heap marks its pages and counts them, when they are pages of its region. -/
theorem heapFirstBlock_counted (counted : Counted s)
    (hpages : s.heapPhysBase / pageSize + heapInitialPages ≤ s.pmmHighestPage)
    (hout : ∀ p < s.pmmHighestPage, s.pmmBitmap + p / 8 < s.heapRegionStart ∨
      s.heapRegionStart + sizeofBlock ≤ s.pmmBitmap + p / 8) : Counted (heapFirstBlock s) := by
  have hlayout : (markPages s (s.heapPhysBase / pageSize) heapInitialPages).layout = s.layout :=
    markPages_layout
  have hhighest : (markPages s (s.heapPhysBase / pageSize) heapInitialPages).pmmHighestPage =
      s.pmmHighestPage := congrArg Layout.pmmHighestPage hlayout
  have hbitmap : (markPages s (s.heapPhysBase / pageSize) heapInitialPages).pmmBitmap =
      s.pmmBitmap := congrArg Layout.pmmBitmap hlayout
  have hbitmap' : (heapFirstBlock s).pmmBitmap = s.pmmBitmap :=
    congrArg Layout.pmmBitmap heapFirstBlock_layout
  have hhighest' : (heapFirstBlock s).pmmHighestPage = s.pmmHighestPage :=
    congrArg Layout.pmmHighestPage heapFirstBlock_layout
  refine (counted.markPages hpages).congr (hbitmap'.trans hbitmap.symm)
    (hhighest'.trans hhighest.symm) rfl ?_
  rw [hhighest]
  intro p hp
  rw [bmpTest_heapFirstBlock (hout p hp), bmpTest_markPages]

/-- The initial heap lies inside its region, so its pages are counted and the bitmap is not hit. -/
theorem heapInit_counted (counted : Counted s) (h : heapInit mm s = some s')
    (hbits : s.pmmHighestPage ≤ 8 * s.pmmBitmapBytes) (reg : RegionInv s')
    (hcommitted : s'.heapCommitted = heapInitialPages * pageSize)
    (hmax : s'.heapCommitted ≤ s'.heapMaxBytes)
    (hinside : s'.heapPhysBase + s'.heapMaxBytes ≤ pageSize * s'.pmmHighestPage) : Counted s' := by
  obtain ⟨P, R, rfl⟩ := heapInit_some h
  have hlayout := heapFirstBlock_layout (s := heapRegion s P R)
  have hphys : (heapFirstBlock (heapRegion s P R)).heapPhysBase = P :=
    congrArg Layout.heapPhysBase hlayout
  have hhighest : (heapFirstBlock (heapRegion s P R)).pmmHighestPage = s.pmmHighestPage :=
    congrArg Layout.pmmHighestPage hlayout
  have hstart : (heapFirstBlock (heapRegion s P R)).heapRegionStart =
      (heapRegion s P R).heapRegionStart := congrArg Layout.heapRegionStart hlayout
  have hbitmap : (heapFirstBlock (heapRegion s P R)).pmmBitmap = s.pmmBitmap :=
    congrArg Layout.pmmBitmap hlayout
  have hbytes : (heapFirstBlock (heapRegion s P R)).pmmBitmapBytes = s.pmmBitmapBytes :=
    congrArg Layout.pmmBitmapBytes hlayout
  have hpage : pageSize = 4096 := rfl
  have hpages : heapInitialPages = 16 := rfl
  have hinitial : heapInitialPages * pageSize = 65536 := rfl
  have hblock : sizeofBlock = 24 := rfl
  have hapart := reg.apart
  have hregion : Counted (heapRegion s P R) := counted.congr rfl rfl rfl fun _ _ => rfl
  apply heapFirstBlock_counted hregion
  · show P / pageSize + heapInitialPages ≤ s.pmmHighestPage
    rw [hphys, hhighest, hpage] at hinside
    rw [hpage] at hcommitted
    rw [hpage, hpages]
    omega
  · intro p hp
    change p < s.pmmHighestPage at hp
    change s.pmmBitmap + p / 8 < _ ∨ _ ≤ s.pmmBitmap + p / 8
    rw [← hstart]
    omega

/-- The fresh heap is one block. -/
theorem Ready.loose (ready : Ready s) (hmax : s.heapCommitted ≤ s.heapMaxBytes)
    (hinside : s.heapPhysBase + s.heapMaxBytes ≤ pageSize * s.pmmHighestPage) : Loose s := by
  have hstart := ready.start
  have hbase := ready.base_aligned
  have hpage : pageSize = 4096 := rfl
  refine ⟨ready.reg, hstart, hbase, ready.max_aligned, ?_, hmax, hinside, ready.inv.head,
    ready.inv.start_pos, ?_⟩
  · rw [ready.committed]
    exact Nat.dvd_mul_left _ _
  · rw [ready.inv.head]
    apply Strung.of_blocks ready.inv.blocks ready.inv.nonempty
    · intro x hx
      obtain rfl : x = s.heapRegionStart := by simpa [starts] using hx
      rw [hpage] at hbase
      omega
    · exact ready.inv.tiled.le
    · exact Strung.nil _

theorem GrowthInv.of_init {l : Limine} {mem : Mem} (hmm : l.memmap = some mm)
    (hinit : init l (boot mem) = some s) (hmax : s.heapCommitted ≤ s.heapMaxBytes) :
    GrowthInv mm (start s) := by
  have hready := init_ready hinit
  obtain ⟨mm', offset, s₁, hmm', hoff, hpmm, hheap⟩ := init_some hinit
  obtain rfl : mm' = mm := Option.some.inj (hmm'.symm.trans hmm)
  have hmapped := l.mapped mm' hmm offset hoff
  have frames := FrameInv.of_pmmInit hmm hpmm
  have read := MapRead.of_pmmInit hmm hoff hpmm
  obtain ⟨eb, ready⟩ := pmmInit_ready hmm hoff hpmm
  obtain ⟨e, placed⟩ := heapInit_placed ready hmapped hheap
  have htop := ready.le_highest placed.mem_entries placed.usable
  have hplace := (heapPlace_spec ready placed.mem_entries placed.usable
    (lt_of_lt_of_le (by decide) placed.large) (hmapped eb ready.mem_entries ready.usable)).2.2.1
  have hmaxEq := placed.max
  have hphys := placed.phys
  have hhighest := placed.highest
  have hinside : s.heapPhysBase + s.heapMaxBytes ≤ pageSize * s.pmmHighestPage := by
    rw [hhighest]
    omega
  have hcounted : Counted s := heapInit_counted frames.counted hheap frames.map.bits hready.reg
    hready.committed hmax hinside
  refine ⟨?_, ?_, hready.loose hmax hinside⟩
  · have htest : ∀ p < s₁.pmmHighestPage, bmpTest s₁ p = true → bmpTest s p = true := by
      intro p hp hset
      rw [placed.test p hp, hset, Bool.or_true]
    exact frames.of_marks placed.hhdm placed.bitmap placed.bytes placed.highest placed.hint
      hcounted htest
  · have htotal : s.pmmTotal = s₁.pmmTotal := by
      obtain ⟨P, R, rfl⟩ := heapInit_some hheap
      exact markPages_total (s := heapRegion s₁ P R) _ _
    exact read.congr htotal placed.highest

/-! ## Counting pages -/

instance (mm : MemoryMap) (p : ℕ) : Decidable (mm.HasPage p) :=
  inferInstanceAs (Decidable (∃ e ∈ mm.entries, _))

instance (entries : List MemmapEntry) (p : ℕ) : Decidable (UsablePage entries p) :=
  inferInstanceAs (Decidable (∃ e ∈ entries, _))

/-- The number of clear bits below the highest page. -/
def clearBits (s : State) : ℕ := s.pmmHighestPage.count fun p => bmpTest s p = false

/-- The number of pages below the highest address that no usable entry covers. -/
def MemoryMap.holes (mm : MemoryMap) : ℕ :=
  (highestAddr mm.entries / pageSize).count fun p => ¬mm.HasPage p

theorem count_add_count_not (f : ℕ → Prop) [DecidablePred f] :
    n.count f + n.count (fun p => ¬f p) = n := by
  induction n with
  | zero => rfl
  | succ n ih =>
    rw [Nat.count_succ, Nat.count_succ]
    by_cases hn : f n
    · simp only [hn, if_true, not_true_eq_false, if_false]
      omega
    · simp only [hn, if_false, not_false_eq_true, if_true]
      omega

theorem count_or_of_disjoint {f g : ℕ → Prop} [DecidablePred f] [DecidablePred g]
    (h : ∀ p < n, f p → ¬g p) : n.count (fun p => f p ∨ g p) = n.count f + n.count g := by
  induction n with
  | zero => rfl
  | succ n ih =>
    have hn := h n (Nat.lt_succ_self n)
    rw [Nat.count_succ, Nat.count_succ, Nat.count_succ, ih fun p hp => h p (by omega)]
    by_cases hf : f n
    · simp only [hf, hn hf, true_or, if_true, if_false]
      omega
    · simp only [hf, false_or, if_false]
      omega

theorem count_congr {f g : ℕ → Prop} [DecidablePred f] [DecidablePred g] (h : ∀ p, f p ↔ g p) :
    n.count f = n.count g :=
  le_antisymm (Nat.count_mono_left fun p _ => (h p).mp) (Nat.count_mono_left fun p _ => (h p).mpr)

theorem count_interval (h : base + size ≤ n) :
    n.count (fun p => base ≤ p ∧ p < base + size) = size := by
  have hcard := Nat.count_eq_card_filter_range (fun p => base ≤ p ∧ p < base + size) n
  rw [hcard, show (Finset.range n).filter (fun p => base ≤ p ∧ p < base + size) =
    Finset.Ico base (base + size) from ?_, Nat.card_Ico, Nat.add_sub_cancel_left]
  ext p
  simp only [Finset.mem_filter, Finset.mem_range, Finset.mem_Ico]
  omega

/-- The total counts each usable page once, since the usable entries are disjoint. -/
theorem totalPages_from {entries : List MemmapEntry} {total : ℕ}
    (hle : ∀ e ∈ entries, e.Usable → e.base / pageSize + e.length / pageSize ≤ n)
    (hapart : entries.Pairwise fun e f => e.Usable → f.Usable → ∀ p,
      e.base / pageSize ≤ p ∧ p < e.base / pageSize + e.length / pageSize →
        ¬(f.base / pageSize ≤ p ∧ p < f.base / pageSize + f.length / pageSize))
    (hsmall : total + n.count (UsablePage entries) < 2 ^ 64) :
    entries.foldl (fun total e => if e.Usable then w64 (total + e.length / pageSize) else total)
      total = total + n.count (UsablePage entries) := by
  induction entries generalizing total with
  | nil =>
    have hnone : n.count (UsablePage []) = 0 :=
      Nat.count_iff_forall_not.mpr fun p _ ⟨e, he, _⟩ => by cases he
    rw [hnone]
    rfl
  | cons e entries ih =>
    obtain ⟨he, hentries⟩ := List.pairwise_cons.mp hapart
    have hle' : ∀ f ∈ entries, f.Usable → f.base / pageSize + f.length / pageSize ≤ n :=
      fun f hf => hle f (List.mem_cons_of_mem _ hf)
    rw [List.foldl_cons]
    by_cases hue : e.Usable
    · have hsplit : n.count (UsablePage (e :: entries)) =
          e.length / pageSize + n.count (UsablePage entries) := by
        have hpages : ∀ p, UsablePage (e :: entries) p ↔
            (e.base / pageSize ≤ p ∧ p < e.base / pageSize + e.length / pageSize) ∨
              UsablePage entries p := by
          intro p
          unfold UsablePage
          simp only [List.mem_cons, exists_eq_or_imp, hue, true_and]
        rw [count_congr hpages, count_or_of_disjoint, count_interval (hle e List.mem_cons_self hue)]
        rintro p - hp ⟨f, hf, huf, hp'⟩
        exact he f hf hue huf p hp hp'
      rw [hsplit] at hsmall ⊢
      rw [if_pos hue, w64_eq (by omega), ih hle' hentries (by omega)]
      omega
    · have hsame : ∀ p, UsablePage (e :: entries) p ↔ UsablePage entries p := by
        intro p
        unfold UsablePage
        simp only [List.mem_cons, exists_eq_or_imp, hue, false_and, false_or]
      rw [count_congr hsame] at hsmall ⊢
      rw [if_neg hue]
      exact ih hle' hentries hsmall

/-- Usable pages and holes make up the address space. -/
theorem totalPages_add_holes (mm : MemoryMap) :
    totalPages mm.entries + mm.holes = highestAddr mm.entries / pageSize := by
  have hpage : pageSize = 4096 := rfl
  have hcount := count_add_count_not (n := highestAddr mm.entries / pageSize) mm.HasPage
  have hlt := highestAddr_lt mm.entries
  have hsame : (highestAddr mm.entries / pageSize).count mm.HasPage =
      (highestAddr mm.entries / pageSize).count (UsablePage mm.entries) :=
    count_congr fun _ => mm.hasPage_iff
  unfold totalPages MemoryMap.holes
  rw [totalPages_from (n := highestAddr mm.entries / pageSize), ← hsame]
  · omega
  · intro e he hue
    have hle := le_highestAddr he (mm.top_lt e he)
    obtain ⟨hbase, hlength⟩ := mm.aligned e he hue
    rw [hpage] at *
    omega
  · apply mm.apart.imp_of_mem
    intro e f he hf hapart hue huf p hp hp'
    have hdisjoint := hapart hue huf
    obtain ⟨hbase, hlength⟩ := mm.aligned e he hue
    obtain ⟨hbase', hlength'⟩ := mm.aligned f hf huf
    unfold MemmapEntry.Apart at hdisjoint
    rw [hpage] at *
    omega
  · have hle := Nat.div_le_self (highestAddr mm.entries) pageSize
    omega

/-- Page 0 is a hole of every map. -/
theorem holes_pos (h : 0 < highestAddr mm.entries / pageSize) : 0 < mm.holes := by
  apply Nat.pos_of_ne_zero
  rw [MemoryMap.holes, Nat.count_ne_iff_exists]
  exact ⟨0, h, fun hpage => MemoryMap.page_ne_zero hpage rfl⟩

/-! ## What is reported and what there is -/

theorem setBits_add_clearBits (s : State) : setBits s + clearBits s = s.pmmHighestPage := by
  have hcount := count_add_count_not (n := s.pmmHighestPage) fun p => bmpTest s p = true
  simp only [Bool.not_eq_true] at hcount
  exact hcount

/-- The report is short by the holes. -/
theorem FrameInv.reported (inv : FrameInv mm k) (hread : MapRead mm k.st) :
    pmmFreePages k.st = clearBits k.st - mm.holes := by
  have hused := inv.counted.used
  have hbits := setBits_add_clearBits k.st
  have htotal := totalPages_add_holes mm
  rw [← hread.total, ← hread.highest] at htotal
  unfold pmmFreePages
  split
  · omega
  · omega

/-- The pages that `n` calls of `pmm_alloc_page` in a row return. -/
def pmmAllocPages (s : State) : ℕ → List ℕ
  | 0 => []
  | n + 1 => (pmmAllocPage s).1 :: pmmAllocPages (pmmAllocPage s).2 n

theorem FrameInv.clearBits_takePage (inv : FrameInv mm k) (hp : p < k.st.pmmHighestPage)
    (hclear : bmpTest k.st p = false) (hfirst : ∀ q < p, bmpTest k.st q = true) :
    clearBits (Memory.takePage k.st p).2 + 1 = clearBits k.st := by
  obtain ⟨-, -, inv', -⟩ := inv.takePage hp hclear hfirst
  have hused : w64 (k.st.pmmUsed + 1) = setBits (Memory.takePage k.st p).2 := inv'.counted.used
  have hused₀ := inv.counted.used
  have hsmall := inv.counted.small
  have hlt : setBits k.st < k.st.pmmHighestPage := countBits_lt hp hclear
  have hbits := setBits_add_clearBits k.st
  have hbits' := setBits_add_clearBits (Memory.takePage k.st p).2
  have hhighest : (Memory.takePage k.st p).2.pmmHighestPage = k.st.pmmHighestPage := rfl
  rw [w64_eq (by omega)] at hused
  omega

/-- As many further calls succeed as there are clear bits. -/
theorem FrameInv.allocations (inv : FrameInv mm k) (n : ℕ) :
    (pmmAllocPages k.st n).countP (· ≠ 0) = min n (clearBits k.st) := by
  induction n generalizing k with
  | zero => exact (Nat.zero_min _).symm
  | succ n ih =>
    rw [pmmAllocPages, List.countP_cons]
    rcases inv.alloc with ⟨p, hp, hclear, hfirst, htake, -⟩ | ⟨hall, hnone, -⟩
    · obtain ⟨hresult, -, inv', -⟩ := inv.takePage hp hclear hfirst
      have hpos := MemoryMap.page_ne_zero (inv.holdings.clear p hp hclear).1
      have hne : p * pageSize ≠ 0 := Nat.mul_ne_zero hpos (by decide)
      have hless := inv.clearBits_takePage hp hclear hfirst
      have hrest : (pmmAllocPages (Memory.takePage k.st p).2 n).countP (· ≠ 0) =
          min n (clearBits (Memory.takePage k.st p).2) := ih inv'
      rw [htake, hresult, hrest]
      simp only [hne, ne_eq, not_false_eq_true, decide_true, if_true]
      omega
    · have hzero : clearBits k.st = 0 :=
        Nat.count_iff_forall_not.mpr fun p hp => by simp [hall p hp]
      have hrest := ih inv
      rw [hnone, hrest, hzero]
      simp

/-- The states that the page allocator and the growing heap reach from `pmm_init`, with the heap set
up or not. -/
inductive Counts (l : Limine) : System → Prop
  | pages {s : State} {k : System} {mem : Mem} {cs : List Call} :
    pmmInit l (boot mem) = some s → Run (Where FrameCall System.Step) (start s) cs k → Counts l k
  | heap {s : State} {k : System} {mem : Mem} {cs : List Call} :
    init l (boot mem) = some s → s.heapCommitted ≤ s.heapMaxBytes →
      Run (Where GrowthCall System.Step) (start s) cs k → Counts l k

theorem FrameCall.keeps_read {c : Call} (hc : FrameCall k c) (hstep : k.step c = some k')
    (hread : MapRead mm k.st) : MapRead mm k'.st := by
  cases c with
  | kmalloc size => exact hc.elim
  | kcalloc count elemSize => exact hc.elim
  | kfree ptr => exact hc.elim
  | pmmAllocPage =>
    obtain rfl := Option.some.inj hstep
    have hread' : MapRead mm (pmmAllocPage k.st).2 :=
      hread.congr pmmAllocPage_total (congrArg Layout.pmmHighestPage pmmAllocPage_place)
    split
    · exact hread'
    · exact hread'
  | pmmFreePage phys =>
    obtain rfl := Option.some.inj hstep
    exact hread.congr pmmFreePage_total (congrArg Layout.pmmHighestPage pmmFreePage_place)
  | write addr v =>
    obtain rfl := Option.some.inj hstep
    exact ⟨hread.total, hread.highest⟩

theorem Counts.inv {l : Limine} (hmm : l.memmap = some mm) (h : Counts l k) :
    FrameInv mm k ∧ MapRead mm k.st := by
  cases h with
  | pages hinit hrun =>
    obtain ⟨offset, hoff⟩ : ∃ offset, l.hhdm = some offset := by
      cases hoff : l.hhdm with
      | none =>
        unfold pmmInit at hinit
        rw [hmm, hoff] at hinit
        cases hinit
      | some offset => exact ⟨offset, rfl⟩
    apply hrun.invariant fun k => FrameInv mm k ∧ MapRead mm k.st
    · exact ⟨FrameInv.of_pmmInit hmm hinit, MapRead.of_pmmInit hmm hoff hinit⟩
    · rintro k c k' ⟨frames, read⟩ ⟨hc, hstep⟩
      exact ⟨frames.step hc hstep, hc.keeps_read hstep read⟩
  | heap hinit hmax hrun =>
    have inv : GrowthInv mm k := by
      apply hrun.invariant (GrowthInv mm) (GrowthInv.of_init hmm hinit hmax)
      rintro k c k' inv ⟨hc, hstep⟩
      exact inv.step hc hstep
    exact ⟨inv.frames, inv.read⟩

/-- The clear bits are the pages that can still be had; what is reported is short by the holes, so
it is right only when nothing is free. -/
theorem free_pages_reported {l : Limine} (hmm : l.memmap = some mm) (h : Counts l k) :
    (∀ n, (pmmAllocPages k.st n).countP (· ≠ 0) = min n (clearBits k.st)) ∧
      pmmFreePages k.st = clearBits k.st - mm.holes ∧
      (pmmFreePages k.st = clearBits k.st ↔
        ∀ p < k.st.pmmHighestPage, bmpTest k.st p = true) := by
  obtain ⟨frames, read⟩ := h.inv hmm
  have hreported := frames.reported read
  have hnone : clearBits k.st = 0 ↔ ∀ p < k.st.pmmHighestPage, bmpTest k.st p = true := by
    simp only [clearBits, Nat.count_iff_forall_not, Bool.not_eq_false]
  refine ⟨frames.allocations, hreported, ?_⟩
  rw [hreported, ← hnone]
  constructor
  · intro heq
    by_contra hsome
    have hbits := setBits_add_clearBits k.st
    have hhighest : 0 < k.st.pmmHighestPage := by omega
    have hholes : 0 < mm.holes := holes_pos (read.highest ▸ hhighest)
    omega
  · intro hzero
    rw [hzero, Nat.zero_sub]

instance (s : State) (need : ℕ) : Decidable (GrowthFits s need) :=
  inferInstanceAs (Decidable (_ → _))

instance (k : System) : ∀ c, Decidable (GrowthCall k c)
  | .kmalloc size => inferInstanceAs (Decidable (GrowthFits k.st (needOf size)))
  | .kcalloc _ _ => inferInstanceAs (Decidable (_ ∧ GrowthFits _ _))
  | .pmmAllocPage => inferInstanceAs (Decidable True)
  | .pmmFreePage phys => inferInstanceAs (Decidable (phys ∈ k.held))
  | .kfree _ | .write _ _ => inferInstanceAs (Decidable False)

/-- Two pages are taken, the heap grows, and the first page is given back. -/
def growthCalls : List Call := [.pmmAllocPage, .pmmAllocPage, .kmalloc 65520, .pmmFreePage 73728]

@[irreducible] def afterGrowth : System :=
  (exec (guarded GrowthCall System.step) (start smallBoot) growthCalls).get (by decide +kernel)

theorem counts_afterGrowth : Counts smallLimine afterGrowth := by
  have hrun : Run (Where GrowthCall System.Step) (start smallBoot) growthCalls afterGrowth := by
    unfold afterGrowth
    exact run_where_get _
  exact Counts.heap init_smallBoot smallBoot_bounded hrun

theorem free_pages_reported_afterGrowth :
    (pmmFreePages afterGrowth.st, clearBits afterGrowth.st, smallMap.holes) = (6, 7, 1) ∧
      (pmmAllocPages afterGrowth.st 10).countP (· ≠ 0) = min 10 (clearBits afterGrowth.st) :=
  ⟨by decide +kernel, (free_pages_reported rfl counts_afterGrowth).1 10⟩

/-- Before any call, page 0 is counted as used but is in no usable entry. -/
theorem free_pages_too_few : ¬∀ {l : Limine} {mm : MemoryMap} {k : System},
    l.memmap = some mm → Counts l k → pmmFreePages k.st = clearBits k.st := by
  intro h
  have hreported := h rfl (Counts.pages pmmInit_smallPages (Run.nil _))
  revert hreported
  decide +kernel

end QuillOS.Memory
