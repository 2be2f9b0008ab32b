import QuillOS.Memory.Safety

/-!
# Who owns a page

Pages are handed out by `pmm_alloc_page` and taken by the heap as it grows. The growth does not
look at the bitmap, so the two agree only as long as the pages it takes are free.
-/

namespace QuillOS.Memory

open Lib Lib.Mem Lib.Tiling

variable {s s' : State} {k k' : System} {ts ts' : List Tile} {p q n b size y page phys : ℕ}

/-! ## Calls -/

/-- The calls a program may make: it frees what it holds and writes to what it holds. -/
def OwnCall (k : System) : Call → Prop
  | .kmalloc size => size < 2 ^ 64
  | .kcalloc count elemSize => count < 2 ^ 64 ∧ elemSize < 2 ^ 64
  | .kfree ptr => ptr = 0 ∨ ptr ∈ k.live
  | .pmmAllocPage => True
  | .pmmFreePage phys => phys ∈ k.held
  | .write addr _ => (∃ p ∈ k.live, addr ∈ payload k.st p) ∨
      ∃ phys ∈ k.held, addr ∈ Set.Ico (k.st.hhdm + phys) (k.st.hhdm + phys + pageSize)

/-- A request the heap serves without a growth, or with one whose arithmetic does not wrap and
whose pages are all free in the bitmap. -/
def GrowsOverFree (s : State) (size : ℕ) : Prop :=
  size = 0 ∨
    (∃ b, OnList s b ∧ freeAt s b = true ∧ needOf size ≤ sizeAt s b) ∨
    s.heapCommitted ≤ s.heapMaxBytes ∧ s.heapMaxBytes + wantedGrowth (needOf size) < 2 ^ 64 ∧
      ∀ page < (s.heapPhysBase + s.heapCommitted +
          min (wantedGrowth (needOf size)) (s.heapMaxBytes - s.heapCommitted)) / pageSize,
        (s.heapPhysBase + s.heapCommitted) / pageSize ≤ page → bmpTest s page = false

/-- The condition on a call under which the heap takes no page that is not free. -/
def TakesFreePages (k : System) : Call → Prop
  | .kmalloc size => GrowsOverFree k.st size
  | .kcalloc count elemSize =>
    w64 (count * elemSize) + 15 < 2 ^ 64 ∧ GrowsOverFree k.st (w64 (count * elemSize))
  | _ => True

/-! ## The invariant -/

/-- Pages whose bit is clear belong to no one, pages handed out have their bit set, and neither
kind meets the bitmap or the heap. -/
structure PageInv (k : System) (ts : List Tile) : Prop extends SystemInv k ts where
  start : k.st.heapRegionStart = k.st.hhdm + k.st.heapPhysBase
  base_aligned : pageSize ∣ k.st.heapPhysBase
  max_aligned : pageSize ∣ k.st.heapMaxBytes
  committed_aligned : pageSize ∣ k.st.heapCommitted
  highest : k.st.pmmHighestPage ≤ 8 * k.st.pmmBitmapBytes
  hint : k.st.pmmSearchHint ≤ k.st.pmmHighestPage
  clear : ∀ p < k.st.pmmHighestPage, bmpTest k.st p = false → FreePage k.st p
  nodup : k.held.Nodup
  held : ∀ phys ∈ k.held, ∃ p < k.st.pmmHighestPage, phys = p * pageSize ∧
    bmpTest k.st p = true ∧ FreePage k.st p

theorem PageInv.holdings (inv : PageInv k ts) :
    Holdings (FreePage k.st) (bmpTest k.st) k.st.pmmHighestPage k.held :=
  ⟨inv.clear, inv.nodup, inv.held⟩

theorem PageInv.of_ready (hready : Ready s) :
    PageInv (QuillOS.Memory.start s) [⟨heapInitialPages * pageSize - sizeofBlock, true⟩] where
  heap := hready.inv
  region := hready.reg
  live := by
    rw [used_free rfl]
    exact List.Perm.nil
  start := hready.start
  base_aligned := hready.base_aligned
  max_aligned := hready.max_aligned
  committed_aligned := by
    show pageSize ∣ s.heapCommitted
    rw [hready.committed]
    exact Nat.dvd_mul_left _ _
  highest := hready.highest
  hint := hready.hint.trans_le (Nat.zero_le _)
  clear := hready.clear
  nodup := List.nodup_nil
  held := fun phys h => by cases h

/-! ## Steps of the heap -/

/-- The pages between two amounts of committed bytes. -/
def Window (s : State) (committed' page : ℕ) : Prop :=
  (s.heapPhysBase + s.heapCommitted) / pageSize ≤ page ∧
    page < (s.heapPhysBase + s.heapCommitted) / pageSize +
      (committed' - s.heapCommitted) / pageSize

instance (s : State) (committed' page : ℕ) : Decidable (Window s committed' page) :=
  inferInstanceAs (Decidable (_ ∧ _))

/-- A page outside the window stays clear of the heap when that grows over the window. -/
theorem FreePage.grown (hfree : FreePage s p) (hlayout : s'.layout = s.layout)
    (hgrown : s.heapCommitted ≤ s'.heapCommitted) (hbase : pageSize ∣ s.heapPhysBase)
    (hcommitted : pageSize ∣ s.heapCommitted) (hcommitted' : pageSize ∣ s'.heapCommitted)
    (hout : ¬Window s s'.heapCommitted p) : FreePage s' p := by
  have hhhdm : s'.hhdm = s.hhdm := congrArg Layout.hhdm hlayout
  have hbitmap : s'.pmmBitmap = s.pmmBitmap := congrArg Layout.pmmBitmap hlayout
  have hbytes : s'.pmmBitmapBytes = s.pmmBitmapBytes := congrArg Layout.pmmBitmapBytes hlayout
  have hphys : s'.heapPhysBase = s.heapPhysBase := congrArg Layout.heapPhysBase hlayout
  have hoff := hfree.off_heap
  constructor
  · rw [hhhdm]
    exact hfree.fits
  · rw [hhhdm, hbitmap, hbytes]
    exact hfree.off_bitmap
  · rw [hphys]
    unfold Window at hout
    unfold pageSize at *
    omega

/-- A step of the heap that takes no page a caller holds keeps the two allocators apart. -/
theorem PageInv.heapStep {live : List ℕ} {results : List (ℕ × ℕ)} (inv : PageInv k ts)
    (hstep : HeapStep k.st ts s' ts') (hcommitted : pageSize ∣ s'.heapCommitted)
    (hlive : live.Perm ((used sizeofBlock s'.heapRegionStart ts').map Prod.fst))
    (hheld : ∀ p, p * pageSize ∈ k.held → ¬Window k.st s'.heapCommitted p) :
    PageInv ⟨s', live, results, k.held⟩ ts' := by
  have hlayout := hstep.layout
  have hhighest : s'.pmmHighestPage = k.st.pmmHighestPage :=
    congrArg Layout.pmmHighestPage hlayout
  have hbytes : s'.pmmBitmapBytes = k.st.pmmBitmapBytes := congrArg Layout.pmmBitmapBytes hlayout
  have hstart : s'.heapRegionStart = k.st.heapRegionStart :=
    congrArg Layout.heapRegionStart hlayout
  have hhhdm : s'.hhdm = k.st.hhdm := congrArg Layout.hhdm hlayout
  have hphys : s'.heapPhysBase = k.st.heapPhysBase := congrArg Layout.heapPhysBase hlayout
  have hmax : s'.heapMaxBytes = k.st.heapMaxBytes := congrArg Layout.heapMaxBytes hlayout
  have hhint : s'.pmmSearchHint = k.st.pmmSearchHint := congrArg Layout.pmmSearchHint hlayout
  have hbits : ∀ p < k.st.pmmHighestPage, bmpTest s' p =
      (decide (Window k.st s'.heapCommitted p) || bmpTest k.st p) := by
    intro p hp
    have hle := inv.highest
    exact hstep.bits p (by omega)
  have hkeep : ∀ p, FreePage k.st p → ¬Window k.st s'.heapCommitted p → FreePage s' p :=
    fun p hfree hout => hfree.grown hlayout hstep.committed inv.base_aligned
      inv.committed_aligned hcommitted hout
  constructor
  · exact ⟨hstep.inv, hstep.reg, hlive⟩
  · simp only [hstart, hhhdm, hphys]
    exact inv.start
  · simp only [hphys]
    exact inv.base_aligned
  · simp only [hmax]
    exact inv.max_aligned
  · exact hcommitted
  · simp only [hhighest, hbytes]
    exact inv.highest
  · simp only [hhint, hhighest]
    exact inv.hint
  · intro p hp hclear
    simp only [hhighest] at hp
    rw [hbits p hp, Bool.or_eq_false_iff, decide_eq_false_iff_not] at hclear
    exact hkeep p (inv.clear p hp hclear.2) hclear.1
  · exact inv.nodup
  · intro phys hphys
    obtain ⟨p, hp, heq, hset, hfree⟩ := inv.held phys hphys
    refine ⟨p, ?_, heq, ?_, hkeep p hfree (hheld p (heq ▸ hphys))⟩
    · simp only [hhighest]
      exact hp
    · rw [hbits p hp, hset, Bool.or_true]

/-- A page held by a caller has its bit set, so it is none of those that were free. -/
theorem PageInv.not_window {c : ℕ} (inv : PageInv k ts)
    (hwindow : ∀ page, Window k.st c page → bmpTest k.st page = false) :
    ∀ p, p * pageSize ∈ k.held → ¬Window k.st c p := by
  intro p hp hin
  obtain ⟨q, -, heq, hset, -⟩ := inv.held _ hp
  obtain rfl : p = q := Nat.eq_of_mul_eq_mul_right (by decide) heq
  rw [hwindow p hin] at hset
  exact Bool.noConfusion hset

theorem not_window_self : ¬Window s s.heapCommitted page := by
  unfold Window
  rw [Nat.sub_self, Nat.zero_div]
  omega

/-- A free block on the list is a tile that fits. -/
theorem HeapInv.fits_of_onList (inv : HeapInv s ts) (hb : OnList s b)
    (hfree : freeAt s b = true) (hsize : n ≤ sizeAt s b) : ∃ t ∈ ts, Fits n t := by
  obtain ⟨pre, t, post, rfl, rfl⟩ := exists_of_mem_starts (inv.starts_of_onList hb)
  have hheader := inv.blocks.header
  rw [hheader.freeAt_eq] at hfree
  rw [hheader.sizeAt_eq] at hsize
  exact ⟨t, by simp, hfree, hsize⟩

theorem GrowsOverFree.room (h : GrowsOverFree s size) (inv : HeapInv s ts) (hsize : size ≠ 0) :
    Room s ts (needOf size) := by
  rcases h with hzero | ⟨b, hb, hfree, hfit⟩ | ⟨hmax, hwrap, -⟩
  · exact absurd hzero hsize
  · exact Or.inl (inv.fits_of_onList hb hfree hfit)
  · exact Or.inr ⟨hmax, hwrap⟩

/-- What such a request commits is whole pages, all of them free. -/
theorem GrowsOverFree.window (h : GrowsOverFree k.st size) (inv : PageInv k ts)
    (hsize : size ≠ 0) (hcommitted : Committed k.st ts (needOf size) s') :
    pageSize ∣ s'.heapCommitted ∧
      ∀ page, Window k.st s'.heapCommitted page → bmpTest k.st page = false := by
  rcases hcommitted with hsame | ⟨hnone, hgrown⟩
  · rw [hsame]
    exact ⟨inv.committed_aligned, fun page hpage => absurd hpage not_window_self⟩
  rcases h with hzero | ⟨b, hb, hfree, hfit⟩ | ⟨hmax, -, hclear⟩
  · exact absurd hzero hsize
  · obtain ⟨t, ht, hfits⟩ := inv.heap.fits_of_onList hb hfree hfit
    exact absurd hfits (hnone t ht)
  · have hbase := inv.base_aligned
    have hmaxdvd := inv.max_aligned
    have hdvd := inv.committed_aligned
    have hwanted := dvd_wantedGrowth (needOf size)
    rw [hgrown]
    constructor
    · unfold pageSize at *
      omega
    · rintro page ⟨hlo, hhi⟩
      apply hclear page _ hlo
      unfold pageSize at *
      omega

theorem PageInv.allocated {need : ℕ} (inv : PageInv k ts) (hstep : HeapStep k.st ts s' ts')
    (hcases : HandsOut k.st ts need p ts') (hcommitted : pageSize ∣ s'.heapCommitted)
    (hheld : ∀ p, p * pageSize ∈ k.held → ¬Window k.st s'.heapCommitted p) :
    PageInv (k.allocated size (p, s')) ts' := by
  have hperm := inv.perm_allocated (congrArg Layout.heapRegionStart hstep.layout) hcases
  unfold System.allocated
  split
  · next hp =>
    rw [if_pos hp] at hperm
    exact inv.heapStep hstep hcommitted hperm hheld
  · next hp =>
    rw [if_neg hp] at hperm
    exact inv.heapStep hstep hcommitted hperm hheld

theorem PageInv.freed (inv : PageInv k ts) (hp : p ∈ k.live) :
    ∃ k' ts', k.step (.kfree p) = some k' ∧ PageInv k' ts' := by
  obtain ⟨n, hn⟩ := inv.used_of_live hp
  obtain ⟨s', ts', l₁, l₂, hs', hstep, hsame, hbefore, hafter⟩ :=
    kfree_step inv.heap inv.region hn
  have hstart : s'.heapRegionStart = k.st.heapRegionStart :=
    congrArg Layout.heapRegionStart hstep.layout
  refine ⟨_, ts', by rw [System.step, hs', Option.map_some], ?_⟩
  apply inv.heapStep hstep
  · rw [hsame]
    exact inv.committed_aligned
  · rw [hstart, hafter]
    exact inv.perm_freed hbefore
  · rw [hsame]
    exact fun page _ => not_window_self

/-! ## Steps of the page allocator -/

theorem FreePage.virt (hfree : FreePage s p) :
    physToVirt s (p * pageSize) = s.hhdm + p * pageSize := by
  have hfits := hfree.fits
  exact w64_eq (by omega)

/-- Memory that changes outside the bitmap keeps what the bits say. -/
theorem PageInv.of_mem {m : Mem} (inv : PageInv k ts) (hheap : HeapInv { k.st with mem := m } ts)
    (hbitmap : ∀ y, k.st.pmmBitmap ≤ y → y < k.st.pmmBitmap + k.st.pmmBitmapBytes →
      m y = k.st.mem y) : PageInv { k with st := { k.st with mem := m } } ts := by
  have hhighest := inv.highest
  have hbits : ∀ p < k.st.pmmHighestPage, bmpTest { k.st with mem := m } p = bmpTest k.st p :=
    fun p hp => testBit_congr (hbitmap (k.st.pmmBitmap + p / 8) (by omega) (by omega))
  have hsame : Holdings (FreePage { k.st with mem := m }) (bmpTest { k.st with mem := m })
      k.st.pmmHighestPage k.held :=
    inv.holdings.congr (fun p h => ⟨h.fits, h.off_bitmap, h.off_heap⟩) hbits
  exact ⟨⟨hheap, inv.region.update rfl (Or.inl rfl), inv.live⟩, inv.start, inv.base_aligned,
    inv.max_aligned, inv.committed_aligned, inv.highest, inv.hint, hsame.clear, hsame.nodup,
    hsame.held⟩

/-- Memory that changes inside one page of no one keeps everything. -/
theorem PageInv.of_page {m : Mem} (inv : PageInv k ts) (hfree : FreePage k.st p)
    (hout : SameOutside k.st.mem m (k.st.hhdm + p * pageSize)
      (k.st.hhdm + p * pageSize + pageSize)) :
    PageInv { k with st := { k.st with mem := m } } ts := by
  have hstart := inv.start
  have hbitmap := hfree.off_bitmap
  have hregion := hfree.off_heap
  have hsame : ∀ y, k.st.heapRegionStart ≤ y → y < k.st.heapRegionStart + k.st.heapCommitted →
      m y = k.st.mem y := fun y hy hy' => hout y (by omega)
  have hheap : HeapInv { k.st with mem := m } ts := inv.heap.of_outside rfl rfl hsame
  exact inv.of_mem hheap fun y hy hy' => hout y (by omega)

/-- A change of one bit of the bitmap leaves the heap alone. -/
theorem PageInv.bit_written {m : Mem} {u h : ℕ} {held : List ℕ} (inv : PageInv k ts)
    (hp : p < k.st.pmmHighestPage) (hm : ∀ y ≠ k.st.pmmBitmap + p / 8, m y = k.st.mem y) :
    SystemInv { k with
      st := { k.st with mem := m, pmmUsed := u, pmmSearchHint := h }, held := held } ts := by
  have hhighest := inv.highest
  have hapart := inv.region.heap_apart
  have hcounted : HeapInv { k.st with pmmUsed := u, pmmSearchHint := h } ts :=
    ⟨inv.heap.blocks, inv.heap.head, inv.heap.tiled, inv.heap.nonempty, inv.heap.start_pos,
      inv.heap.fits⟩
  have hsame : ∀ y, k.st.heapRegionStart ≤ y → y < k.st.heapRegionStart + k.st.heapCommitted →
      m y = k.st.mem y := fun y hy hy' => hm y (by omega)
  exact ⟨hcounted.of_outside rfl rfl hsame, ⟨inv.region.virt_fits, inv.region.phys_fits,
    inv.region.max_le, inv.region.bits, inv.region.apart⟩, inv.live⟩

/-- A free page is marked used, and perhaps handed out. -/
theorem PageInv.marked {u : ℕ} {held : List ℕ} (inv : PageInv k ts)
    (hp : p < k.st.pmmHighestPage) (hclear : bmpTest k.st p = false)
    (hnodup : held.Nodup) (hheld : ∀ phys ∈ held, phys ∈ k.held ∨ phys = p * pageSize) :
    PageInv { k with
      st := { bmpSet k.st p with pmmUsed := u, pmmSearchHint := p + 1 }, held := held } ts := by
  have htaken : Holdings (FreePage { bmpSet k.st p with pmmUsed := u, pmmSearchHint := p + 1 })
      (bmpTest { bmpSet k.st p with pmmUsed := u, pmmSearchHint := p + 1 })
      k.st.pmmHighestPage held :=
    inv.holdings.take (fun q h => ⟨h.fits, h.off_bitmap, h.off_heap⟩) hp hclear
      (fun q => testBit_setBit) hnodup hheld
  exact ⟨inv.bit_written hp fun y hy => setBit_of_ne hy, inv.start, inv.base_aligned,
    inv.max_aligned, inv.committed_aligned, inv.highest, hp, htaken.clear, htaken.nodup, htaken.held⟩

theorem PageInv.allocPage (inv : PageInv k ts) :
    ∃ k', k.step .pmmAllocPage = some k' ∧ PageInv k' ts := by
  refine ⟨_, rfl, ?_⟩
  rcases pmmAllocPage_cases inv.hint with ⟨p, hp, hclear, htake⟩ | ⟨-, hnone⟩
  · have hpage := inv.clear p hp hclear
    have hfits := hpage.fits
    have hphys : w64 (p * pageSize) = p * pageSize := w64_eq (by omega)
    have hzeroed : ∀ held : List ℕ, held.Nodup →
        (∀ phys ∈ held, phys ∈ k.held ∨ phys = p * pageSize) →
        PageInv { k with st := (takePage k.st p).2, held := held } ts := by
      intro held hnodup hheld
      have hmarked := inv.marked (u := w64 (k.st.pmmUsed + 1)) hp hclear hnodup hheld
      have hpage' : FreePage { bmpSet k.st p with
          pmmUsed := w64 (k.st.pmmUsed + 1), pmmSearchHint := p + 1 } p :=
        ⟨hpage.fits, hpage.off_bitmap, hpage.off_heap⟩
      apply hmarked.of_page hpage'
      intro y hy
      apply fill_of_outside
      have hvirt := hpage'.virt
      simp only at hy hvirt ⊢
      rw [hvirt]
      exact hy
    rw [htake]
    simp only [takePage, hphys]
    split
    · exact hzeroed k.held inv.nodup fun phys h => Or.inl h
    · apply hzeroed (p * pageSize :: k.held)
      · exact List.nodup_cons.mpr ⟨inv.holdings.not_held hclear, inv.nodup⟩
      · intro phys h
        exact (List.mem_cons.mp h).symm
  · rw [hnone]
    exact inv

theorem PageInv.freePage (inv : PageInv k ts) (hphys : phys ∈ k.held) :
    ∃ k', k.step (.pmmFreePage phys) = some k' ∧ PageInv k' ts := by
  refine ⟨_, rfl, ?_⟩
  obtain ⟨p, hp, rfl, hset, hpage⟩ := inv.held phys hphys
  have hdiv : p * pageSize / pageSize = p := Nat.mul_div_cancel p (by decide)
  unfold pmmFreePage
  simp only [hdiv, hset, if_true]
  rw [if_neg (by omega)]
  generalize hh : (if p < k.st.pmmSearchHint then p else k.st.pmmSearchHint) = h
  generalize sub64 k.st.pmmUsed 1 = u
  have hle : h ≤ k.st.pmmHighestPage := by
    have hhint := inv.hint
    rw [← hh]
    split <;> omega
  have hgiven : Holdings (FreePage { bmpClear k.st p with pmmUsed := u, pmmSearchHint := h })
      (bmpTest { bmpClear k.st p with pmmUsed := u, pmmSearchHint := h })
      k.st.pmmHighestPage (k.held.erase (p * pageSize)) :=
    inv.holdings.give (fun q h => ⟨h.fits, h.off_bitmap, h.off_heap⟩) hpage
      (fun q => testBit_clearBit)
  exact ⟨inv.bit_written hp fun y hy => clearBit_of_ne hy, inv.start, inv.base_aligned,
    inv.max_aligned, inv.committed_aligned, inv.highest, hle, hgiven.clear, hgiven.nodup,
    hgiven.held⟩

/-! ## Writes of the callers -/

/-- A change inside a payload in use keeps everything. -/
theorem PageInv.of_payload {m : Mem} (inv : PageInv k ts) (hp : p ∈ k.live)
    (hout : SameOutside k.st.mem m p (p + payloadSize k.st p)) :
    PageInv { k with st := { k.st with mem := m } } ts := by
  have hused := inv.mem_used hp
  have hbounds := used_bounds hused
  have hapart := inv.region.heap_apart
  rw [inv.heap.tiled] at hbounds
  have hheap : HeapInv { k.st with mem := m } ts := inv.heap.of_payload hused rfl rfl hout
  exact inv.of_mem hheap fun y hy hy' => hout y (by omega)

theorem PageInv.write_payload {addr : ℕ} {v : UInt8} (inv : PageInv k ts) (hp : p ∈ k.live)
    (haddr : addr ∈ payload k.st p) :
    PageInv { k with st := { k.st with mem := k.st.mem.store addr [v] } } ts := by
  obtain ⟨hlo, hhi⟩ := haddr
  apply inv.of_payload hp
  intro y hy
  apply store_of_outside
  rw [List.length_singleton]
  omega

theorem PageInv.write_page {addr : ℕ} {v : UInt8} (inv : PageInv k ts) (hphys : phys ∈ k.held)
    (haddr : addr ∈ Set.Ico (k.st.hhdm + phys) (k.st.hhdm + phys + pageSize)) :
    PageInv { k with st := { k.st with mem := k.st.mem.store addr [v] } } ts := by
  obtain ⟨p, -, rfl, -, hpage⟩ := inv.held phys hphys
  obtain ⟨hlo, hhi⟩ := haddr
  apply inv.of_page hpage
  intro y hy
  apply store_of_outside
  rw [List.length_singleton]
  omega

/-! ## Runs -/

theorem kmalloc_zero (s : State) : kmalloc s 0 = some (0, s) := by
  obtain ⟨fuel, hfuel⟩ : ∃ fuel, walkLimit = fuel + 1 := ⟨2 ^ 64 - 1, by unfold walkLimit; rfl⟩
  unfold kmalloc
  rw [hfuel, kmallocRetry, if_pos rfl]

/-- Every call returns, and keeps the owners apart when the heap takes free pages only. -/
theorem PageInv.step {c : Call} (inv : PageInv k ts) (hc : OwnCall k c)
    (htakes : TakesFreePages k c) : ∃ k' ts', k.step c = some k' ∧ PageInv k' ts' := by
  cases c with
  | kmalloc size =>
    by_cases hsize : size = 0
    · refine ⟨k, ts, ?_, inv⟩
      rw [System.step, hsize, kmalloc_zero]
      rfl
    · obtain ⟨p, s', ts', hp, hstep, hcommitted, hcases⟩ :=
        kmalloc_step inv.heap inv.region hsize (htakes.room inv.heap hsize)
      obtain ⟨hdvd, hwindow⟩ := htakes.window inv hsize hcommitted
      exact ⟨_, ts', by rw [System.step, hp, Option.map_some],
        inv.allocated hstep hcases hdvd (inv.not_window hwindow)⟩
  | kcalloc count elemSize =>
    obtain ⟨hround, htakes⟩ := htakes
    by_cases hsize : w64 (count * elemSize) = 0
    · refine ⟨k, ts, ?_, inv⟩
      rw [System.step, kcalloc, hsize, kmalloc_zero]
      rfl
    · obtain ⟨p, s', ts', hp, hstep, hcommitted, hcases⟩ :=
        kcalloc_step inv.heap inv.region rfl hsize hround (htakes.room inv.heap hsize)
      obtain ⟨hdvd, hwindow⟩ := htakes.window inv hsize hcommitted
      exact ⟨_, ts', by rw [System.step, hp, Option.map_some],
        inv.allocated hstep hcases hdvd (inv.not_window hwindow)⟩
  | kfree ptr =>
    rcases hc with rfl | hlive
    · exact ⟨k, ts, inv.step_kfree_null, inv⟩
    · exact inv.freed hlive
  | pmmAllocPage =>
    obtain ⟨k', hk', inv'⟩ := inv.allocPage
    exact ⟨k', ts, hk', inv'⟩
  | pmmFreePage phys =>
    obtain ⟨k', hk', inv'⟩ := inv.freePage hc
    exact ⟨k', ts, hk', inv'⟩
  | write addr v =>
    rcases hc with ⟨p, hp, haddr⟩ | ⟨phys, hphys, haddr⟩
    · exact ⟨_, ts, rfl, inv.write_payload hp haddr⟩
    · exact ⟨_, ts, rfl, inv.write_page hphys haddr⟩

/-- No page has two owners. -/
def OwnersApart (k : System) : Prop :=
  ∀ phys ∈ k.held, Disjoint (Set.Ico phys (phys + pageSize))
    (Set.Ico k.st.heapPhysBase (k.st.heapPhysBase + k.st.heapCommitted))

/-- In every run in which the heap grows over free pages only, no page handed out belongs to the
heap. -/
theorem owners_apart {l : Limine} {m : Mem} {cs : List Call} (hinit : init l (boot m) = some s)
    (hrun : Run (Where (fun k c => OwnCall k c ∧ TakesFreePages k c) System.Step)
      (QuillOS.Memory.start s) cs k) : OwnersApart k := by
  have hinv : ∃ ts, PageInv k ts := by
    apply hrun.invariant fun k => ∃ ts, PageInv k ts
    · exact ⟨_, PageInv.of_ready (init_ready hinit)⟩
    · rintro a c b ⟨ts, inv⟩ ⟨⟨hc, htakes⟩, hstep⟩
      obtain ⟨k', ts', hk', inv'⟩ := inv.step hc htakes
      obtain rfl : b = k' := Option.some.inj (hstep.symm.trans hk')
      exact ⟨ts', inv'⟩
  obtain ⟨ts, inv⟩ := hinv
  intro phys hphys
  obtain ⟨p, -, rfl, -, hpage⟩ := inv.held phys hphys
  exact disjoint_Ico hpage.off_heap

instance (k : System) : ∀ c, Decidable (OwnCall k c)
  | .kmalloc size => inferInstanceAs (Decidable (size < 2 ^ 64))
  | .kcalloc _ _ => inferInstanceAs (Decidable (_ ∧ _))
  | .kfree ptr => inferInstanceAs (Decidable (ptr = 0 ∨ ptr ∈ k.live))
  | .pmmAllocPage => inferInstanceAs (Decidable True)
  | .pmmFreePage phys => inferInstanceAs (Decidable (phys ∈ k.held))
  | .write addr _ => inferInstanceAs (Decidable
      ((∃ p ∈ k.live, addr ∈ Set.Ico p (p + payloadSize k.st p)) ∨
        ∃ phys ∈ k.held, addr ∈ Set.Ico (k.st.hhdm + phys) (k.st.hhdm + phys + pageSize)))

/-- After a growth over free pages. -/
@[irreducible] def grownOnce : System :=
  ((QuillOS.Memory.start smallBoot).step (.kmalloc 65520)).get (by decide +kernel)

/-- And a page handed out afterwards. -/
@[irreducible] def grownFirst : System := (grownOnce.step .pmmAllocPage).get (by decide +kernel)

theorem step_grownOnce : (QuillOS.Memory.start smallBoot).Step (.kmalloc 65520) grownOnce := by
  unfold grownOnce
  exact (Option.some_get _).symm

theorem step_grownFirst : grownOnce.Step .pmmAllocPage grownFirst := by
  unfold grownFirst
  exact (Option.some_get _).symm

theorem smallBoot_grows : GrowsOverFree smallBoot 65520 := by
  have hgrows : smallBoot.heapCommitted ≤ smallBoot.heapMaxBytes ∧
      smallBoot.heapMaxBytes + wantedGrowth (needOf 65520) < 2 ^ 64 ∧
      ∀ page < (smallBoot.heapPhysBase + smallBoot.heapCommitted + min (wantedGrowth (needOf 65520))
          (smallBoot.heapMaxBytes - smallBoot.heapCommitted)) / pageSize,
        (smallBoot.heapPhysBase + smallBoot.heapCommitted) / pageSize ≤ page →
          bmpTest smallBoot page = false := by
    decide +kernel
  exact Or.inr (Or.inr hgrows)

theorem owners_apart_grownFirst : grownFirst.held ≠ [] ∧
    heapInitialPages * pageSize < grownFirst.st.heapCommitted ∧ OwnersApart grownFirst := by
  have hrun : Run (Where (fun k c => OwnCall k c ∧ TakesFreePages k c) System.Step)
      (QuillOS.Memory.start smallBoot) [.kmalloc 65520, .pmmAllocPage] grownFirst := by
    have hgrows : TakesFreePages (QuillOS.Memory.start smallBoot) (.kmalloc 65520) :=
      smallBoot_grows
    apply Run.cons ⟨⟨by decide, hgrows⟩, step_grownOnce⟩
    exact Run.single ⟨⟨trivial, trivial⟩, step_grownFirst⟩
  exact ⟨by decide +kernel, by decide +kernel, owners_apart init_smallBoot hrun⟩

/-- The page handed out first, then a growth over it. -/
@[irreducible] def grownLast : System :=
  (exec (guarded OwnCall System.step) (QuillOS.Memory.start smallBoot)
    [.pmmAllocPage, .kmalloc 65520]).get (by decide +kernel)

theorem run_grownLast : Run (Where OwnCall System.Step) (QuillOS.Memory.start smallBoot)
    [.pmmAllocPage, .kmalloc 65520] grownLast := by
  unfold grownLast
  exact run_where_get _

/-- The growth takes page 18, which a caller holds. -/
theorem heap_takes_held_page : ¬∀ {l : Limine} {m : Mem} {s : State} {cs : List Call} {k : System},
    init l (boot m) = some s → Run (Where OwnCall System.Step) (QuillOS.Memory.start s) cs k →
      OwnersApart k := by
  intro h
  have hheld : 73728 ∈ grownLast.held := by decide +kernel
  have hheap : grownLast.st.heapPhysBase ≤ 73728 ∧
      73728 < grownLast.st.heapPhysBase + grownLast.st.heapCommitted := by decide +kernel
  have hapart := h init_smallBoot run_grownLast 73728 hheld
  have hpage : 73728 ∈ Set.Ico 73728 (73728 + pageSize) := ⟨le_rfl, by decide⟩
  exact Set.disjoint_left.mp hapart hpage hheap

end QuillOS.Memory
