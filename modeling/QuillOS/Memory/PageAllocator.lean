import QuillOS.Memory.Safety
import QuillOS.Memory.Placement

/-!
# The page allocator

From the state that `pmm_init` sets up, pages are handed out and given back in any order. The scan
starts at a hint below which every bit is set, so it always takes the first free page, and a page
that has been given back is taken again sooner or later.
-/

namespace QuillOS.Memory

open Lib Lib.Mem

variable {mm : MemoryMap} {s s' : State} {k k' : System} {e : MemmapEntry}
  {p q n base count phys offset bitmapPhys : ℕ}

/-! ## The count of used pages -/

/-- The number of set bits below the highest page. -/
def setBits (s : State) : ℕ := s.mem.countBits s.pmmBitmap s.pmmHighestPage

/-- The counter agrees with the bitmap, and is far from wrapping. -/
structure Counted (s : State) : Prop where
  used : s.pmmUsed = setBits s
  small : s.pmmHighestPage < 2 ^ 64

theorem Counted.set (h : Counted s) (hp : p < s.pmmHighestPage) (hclear : bmpTest s p = false) :
    Counted { bmpSet s p with pmmUsed := w64 (s.pmmUsed + 1) } := by
  have hlt : setBits s < s.pmmHighestPage := countBits_lt hp hclear
  have hsmall := h.small
  refine ⟨?_, h.small⟩
  show w64 (s.pmmUsed + 1) = (s.mem.setBit s.pmmBitmap p).countBits s.pmmBitmap s.pmmHighestPage
  rw [countBits_setBit hp hclear, h.used]
  exact w64_eq (by omega)

theorem Counted.clear (h : Counted s) (hp : p < s.pmmHighestPage) (hset : bmpTest s p = true) :
    Counted { bmpClear s p with pmmUsed := sub64 s.pmmUsed 1 } := by
  have hle : setBits s ≤ s.pmmHighestPage := countBits_le
  have hcount := countBits_clearBit hp hset
  have hsmall := h.small
  refine ⟨?_, h.small⟩
  show sub64 s.pmmUsed 1 =
    (s.mem.clearBit s.pmmBitmap p).countBits s.pmmBitmap s.pmmHighestPage
  change _ = setBits s at hcount
  rw [h.used, sub64_eq (by omega) (by omega)]
  omega

/-- Memory that changes outside the bitmap's bits keeps the count. -/
theorem Counted.congr (h : Counted s) (hbitmap : s'.pmmBitmap = s.pmmBitmap)
    (hhighest : s'.pmmHighestPage = s.pmmHighestPage) (hused : s'.pmmUsed = s.pmmUsed)
    (htest : ∀ p < s.pmmHighestPage, bmpTest s' p = bmpTest s p) : Counted s' := by
  refine ⟨?_, hhighest ▸ h.small⟩
  unfold setBits
  rw [hused, hbitmap, hhighest, h.used]
  apply (countBits_congr _).symm
  intro p hp
  have hsame := htest p hp
  unfold bmpTest at hsame
  rwa [hbitmap] at hsame

theorem Counted.markPage (h : Counted s) (hp : p < s.pmmHighestPage) :
    Counted (markPage s p) := by
  unfold Memory.markPage
  split
  · exact h
  · next hclear => exact h.set hp (by simpa using hclear)

theorem Counted.markPages (h : Counted s) (hle : base + count ≤ s.pmmHighestPage) :
    Counted (markPages s base count) := by
  induction count with
  | zero => exact h
  | succ count ih =>
    have hhighest : (Memory.markPages s base count).pmmHighestPage = s.pmmHighestPage :=
      congrArg Layout.pmmHighestPage markPages_layout
    exact (ih (by omega)).markPage (by omega)

theorem Counted.clearPages (h : Counted s) (hle : base + count ≤ s.pmmHighestPage)
    (hset : ∀ p, base ≤ p → p < base + count → bmpTest s p = true) :
    Counted (clearPages s base count) := by
  induction count with
  | zero => exact h
  | succ count ih =>
    have hhighest : (Memory.clearPages s base count).pmmHighestPage = s.pmmHighestPage :=
      congrArg Layout.pmmHighestPage clearPages_layout
    have hcounted := ih (by omega) fun p hp hp' => hset p hp (by omega)
    apply hcounted.clear (by omega)
    rw [bmpTest_clearPages, hset _ (by omega) (by omega), decide_eq_false (by omega)]
    rfl

/-- Pass 3 counts every page it frees, since the usable entries are disjoint. -/
theorem Counted.foldl_clearEntry {entries : List MemmapEntry} (h : Counted s)
    (haligned : ∀ e ∈ entries, e.Usable → pageSize ∣ e.base ∧ pageSize ∣ e.length)
    (hle : ∀ e ∈ entries, e.Usable → e.base + e.length ≤ pageSize * s.pmmHighestPage)
    (hapart : entries.Pairwise fun e f => e.Usable → f.Usable → e.Apart f)
    (hset : ∀ p, UsablePage entries p → bmpTest s p = true) :
    Counted (entries.foldl clearEntry s) := by
  induction entries generalizing s with
  | nil => exact h
  | cons e entries ih =>
    obtain ⟨he, hentries⟩ := List.pairwise_cons.mp hapart
    have hhighest : (clearEntry s e).pmmHighestPage = s.pmmHighestPage :=
      congrArg Layout.pmmHighestPage clearEntry_layout
    apply ih
    · unfold clearEntry
      split
      · next hue =>
        have htop := hle e List.mem_cons_self hue
        obtain ⟨hbase, hlength⟩ := haligned e List.mem_cons_self hue
        apply h.clearPages
        · unfold pageSize at *
          omega
        · exact fun p hp hp' => hset p ⟨e, List.mem_cons_self, hue, hp, hp'⟩
      · exact h
    · exact fun f hf => haligned f (List.mem_cons_of_mem _ hf)
    · rw [hhighest]
      exact fun f hf => hle f (List.mem_cons_of_mem _ hf)
    · exact hentries
    · rintro p ⟨f, hf, huf, hlo, hhi⟩
      have hused := hset p ⟨f, List.mem_cons_of_mem _ hf, huf, hlo, hhi⟩
      unfold clearEntry
      split
      · next hue =>
        -- The entries are disjoint, so the pages of a later one are still marked.
        have hout : ¬(e.base / pageSize ≤ p ∧ p < e.base / pageSize + e.length / pageSize) := by
          have hdisjoint := he f hf hue huf
          obtain ⟨hbase, hlength⟩ := haligned e List.mem_cons_self hue
          obtain ⟨hbase', hlength'⟩ := haligned f (List.mem_cons_of_mem _ hf) huf
          unfold MemmapEntry.Apart at hdisjoint
          unfold pageSize at *
          omega
        rw [bmpTest_clearPages, decide_eq_false hout, hused]
        rfl
      · exact hused

/-- `pmm_init` leaves an exact count. -/
theorem pmmPlaced_counted (he : e ∈ mm.entries) (hue : e.Usable)
    (hlen : bitmapBytes mm.entries ≤ e.length) :
    Counted (pmmPlaced s offset mm.entries e.base) := by
  have htop : ∀ f ∈ mm.entries, f.Usable →
      f.base + f.length ≤ pageSize * (highestAddr mm.entries / pageSize) := by
    intro f hf huf
    have hle := le_highestAddr hf (mm.top_lt f hf)
    obtain ⟨hbase, hlength⟩ := mm.aligned f hf huf
    unfold pageSize at *
    omega
  have hblank : Counted (pmmBlank (pmmExtent s offset mm.entries) e.base) := by
    constructor
    · exact (countBits_of_all fun p hp => bmpTest_pmmBlank hp).symm
    · exact (Nat.div_le_self _ _).trans_lt (highestAddr_lt mm.entries)
  have hreleased := hblank.foldl_clearEntry mm.aligned htop mm.apart
    fun p ⟨f, hf, huf, _, hhi⟩ => bmpTest_pmmBlank (by
      have hle := htop f hf huf
      obtain ⟨hbase, hlength⟩ := mm.aligned f hf huf
      unfold pageSize at *
      omega)
  have hlayout := foldl_clearEntry_layout (s := pmmBlank (pmmExtent s offset mm.entries) e.base)
    mm.entries
  have hmarked : Counted (pmmRelease (pmmBlank (pmmExtent s offset mm.entries) e.base) mm.entries
      e.base) := by
    apply hreleased.markPages
    have hle := htop e he hue
    obtain ⟨hbase, hlength⟩ := mm.aligned e he hue
    rw [show State.pmmBitmapBytes _ = bitmapBytes mm.entries from
        congrArg Layout.pmmBitmapBytes hlayout,
      show State.pmmHighestPage _ = highestAddr mm.entries / pageSize from
        congrArg Layout.pmmHighestPage hlayout]
    unfold pageSize at *
    omega
  exact hmarked.congr rfl rfl rfl fun _ _ => rfl

/-! ## The first free page -/

/-- When no free page lies below the hint, the allocator takes the first free page there is. -/
theorem pmmAllocPage_first (hhint : s.pmmSearchHint ≤ s.pmmHighestPage)
    (hbelow : ∀ p < s.pmmSearchHint, bmpTest s p = true) :
    (∃ p < s.pmmHighestPage, bmpTest s p = false ∧ (∀ q < p, bmpTest s q = true) ∧
      pmmAllocPage s = takePage s p) ∨
    (∀ p < s.pmmHighestPage, bmpTest s p = true) ∧ pmmAllocPage s = (0, s) := by
  unfold pmmAllocPage
  cases hfirst : findClear s s.pmmSearchHint (s.pmmHighestPage - s.pmmSearchHint) with
  | some p =>
    obtain ⟨-, hhi, hclear, hbefore⟩ := findClear_some hfirst
    refine Or.inl ⟨p, by omega, hclear, ?_, rfl⟩
    intro q hq
    rcases lt_or_ge q s.pmmSearchHint with hq' | hq'
    · exact hbelow q hq'
    · exact hbefore q hq' hq
  | none =>
    have hall : ∀ p < s.pmmHighestPage, bmpTest s p = true := by
      intro p hp
      rcases lt_or_ge p s.pmmSearchHint with hp' | hp'
      · exact hbelow p hp'
      · exact findClear_none hfirst p hp' (by omega)
    cases hsecond : findClear s 0 s.pmmSearchHint with
    | some p =>
      obtain ⟨-, hhi, hclear, -⟩ := findClear_some hsecond
      rw [hbelow p (by omega)] at hclear
      cases hclear
    | none => exact Or.inr ⟨hall, rfl⟩

/-! ## The invariant -/

/-- The calls of the page allocator, and writes to the pages it has handed out. -/
def FrameCall (k : System) : Call → Prop
  | .pmmAllocPage => True
  | .pmmFreePage phys => phys ∈ k.held
  | .write addr _ =>
    ∃ phys ∈ k.held, addr ∈ Set.Ico (k.st.hhdm + phys) (k.st.hhdm + phys + pageSize)
  | _ => False

/-- A page that may be handed out. -/
def Frame (mm : MemoryMap) (s : State) (p : ℕ) : Prop := mm.HasPage p ∧ p ∉ bitmapPages s

/-- Where the pages that may be handed out lie. -/
structure FrameMap (mm : MemoryMap) (s : State) : Prop where
  bits : s.pmmHighestPage ≤ 8 * s.pmmBitmapBytes
  fits : ∀ p, Frame mm s p → s.hhdm + p * pageSize + pageSize < 2 ^ 64
  off_bitmap : ∀ p, Frame mm s p → s.hhdm + p * pageSize + pageSize ≤ s.pmmBitmap ∨
    s.pmmBitmap + s.pmmBitmapBytes ≤ s.hhdm + p * pageSize

theorem FrameMap.congr (map : FrameMap mm s) (hhhdm : s'.hhdm = s.hhdm)
    (hbitmap : s'.pmmBitmap = s.pmmBitmap) (hbytes : s'.pmmBitmapBytes = s.pmmBitmapBytes)
    (hhighest : s'.pmmHighestPage = s.pmmHighestPage) : FrameMap mm s' := by
  have hpages : bitmapPages s' = bitmapPages s := by
    unfold bitmapPages virtToPhys
    rw [hhhdm, hbitmap, hbytes]
  constructor
  · rw [hhighest, hbytes]
    exact map.bits
  · intro p hp
    rw [Frame, hpages] at hp
    rw [hhhdm]
    exact map.fits p hp
  · intro p hp
    rw [Frame, hpages] at hp
    rw [hhhdm, hbitmap, hbytes]
    exact map.off_bitmap p hp

/-- Clear bits and pages handed out are pages that may be handed out, no clear bit lies below the
hint, and the count is exact. -/
structure FrameInv (mm : MemoryMap) (k : System) : Prop where
  map : FrameMap mm k.st
  counted : Counted k.st
  holdings : Holdings (Frame mm k.st) (bmpTest k.st) k.st.pmmHighestPage k.held
  hint : k.st.pmmSearchHint ≤ k.st.pmmHighestPage
  below : ∀ p < k.st.pmmSearchHint, bmpTest k.st p = true

/-- What the bits say does not depend on memory outside the bitmap. -/
theorem FrameMap.bmpTest_congr {m : Mem} (map : FrameMap mm s)
    (hm : ∀ y, s.pmmBitmap ≤ y → y < s.pmmBitmap + s.pmmBitmapBytes → m y = s.mem y)
    (hp : p < s.pmmHighestPage) : bmpTest { s with mem := m } p = bmpTest s p := by
  have hbits := map.bits
  exact testBit_congr (hm (s.pmmBitmap + p / 8) (by omega) (by omega))

/-- Memory that changes outside the bitmap keeps the invariant. -/
theorem FrameInv.of_mem {m : Mem} (inv : FrameInv mm k)
    (hm : ∀ y, k.st.pmmBitmap ≤ y → y < k.st.pmmBitmap + k.st.pmmBitmapBytes → m y = k.st.mem y) :
    FrameInv mm { k with st := { k.st with mem := m } } := by
  have htest : ∀ p < k.st.pmmHighestPage, bmpTest { k.st with mem := m } p = bmpTest k.st p :=
    fun p hp => inv.map.bmpTest_congr hm hp
  exact ⟨inv.map.congr rfl rfl rfl rfl, inv.counted.congr rfl rfl rfl htest,
    inv.holdings.congr (fun _ => id) htest, inv.hint,
    fun p hp => (htest p (hp.trans_le inv.hint)).trans (inv.below p hp)⟩

/-- Memory that changes inside a page that may be handed out keeps the invariant. -/
theorem FrameInv.of_frame {m : Mem} (inv : FrameInv mm k) (hframe : Frame mm k.st p)
    (hout : SameOutside k.st.mem m (k.st.hhdm + p * pageSize)
      (k.st.hhdm + p * pageSize + pageSize)) :
    FrameInv mm { k with st := { k.st with mem := m } } := by
  have hoff := inv.map.off_bitmap p hframe
  exact inv.of_mem fun y hy hy' => hout y (by omega)

/-! ## Steps -/

/-- The first free page is marked used and handed out. -/
theorem FrameInv.marked (inv : FrameInv mm k) (hp : p < k.st.pmmHighestPage)
    (hclear : bmpTest k.st p = false) (hfirst : ∀ q < p, bmpTest k.st q = true) :
    FrameInv mm { k with
      st := { bmpSet k.st p with pmmUsed := w64 (k.st.pmmUsed + 1), pmmSearchHint := p + 1 }
      held := p * pageSize :: k.held } := by
  have htest : ∀ q, bmpTest { bmpSet k.st p with
      pmmUsed := w64 (k.st.pmmUsed + 1), pmmSearchHint := p + 1 } q =
      (decide (p = q) || bmpTest k.st q) := fun q => testBit_setBit
  have hnodup := List.nodup_cons.mpr ⟨inv.holdings.not_held hclear, inv.holdings.nodup⟩
  refine ⟨inv.map.congr rfl rfl rfl rfl, (inv.counted.set hp hclear).congr rfl rfl rfl fun _ _ => rfl,
    inv.holdings.take (fun _ => id) hp hclear htest hnodup fun phys h => (List.mem_cons.mp h).symm,
    hp, ?_⟩
  intro q hq
  rw [htest q]
  rcases Nat.lt_succ_iff_lt_or_eq.mp hq with hq | rfl
  · rw [hfirst q hq, Bool.or_true]
  · rw [decide_eq_true rfl, Bool.true_or]

/-- What the allocator returns for a page it takes. -/
theorem FrameInv.takePage (inv : FrameInv mm k) (hp : p < k.st.pmmHighestPage)
    (hclear : bmpTest k.st p = false) (hfirst : ∀ q < p, bmpTest k.st q = true) :
    (takePage k.st p).1 = p * pageSize ∧
      (∀ y ∈ Set.Ico (k.st.hhdm + p * pageSize) (k.st.hhdm + p * pageSize + pageSize),
        (takePage k.st p).2.mem y = 0) ∧
      FrameInv mm { k with st := (takePage k.st p).2, held := p * pageSize :: k.held } ∧
      ∀ q < k.st.pmmHighestPage,
        bmpTest (takePage k.st p).2 q = (decide (p = q) || bmpTest k.st q) := by
  have hframe := inv.holdings.clear p hp hclear
  have hfits := inv.map.fits p hframe
  have hoff := inv.map.off_bitmap p hframe
  have hphys : w64 (p * pageSize) = p * pageSize := w64_eq (by omega)
  have hvirt : w64 (k.st.hhdm + p * pageSize) = k.st.hhdm + p * pageSize := w64_eq (by omega)
  have hmarked := inv.marked hp hclear hfirst
  unfold Memory.takePage physToVirt
  simp only [hphys, bmpSet, hvirt]
  refine ⟨trivial, ?_, ?_, ?_⟩
  · intro y hy
    exact fill_of_inside hy.1 hy.2
  · apply hmarked.of_frame hframe
    intro y hy
    exact fill_of_outside hy
  · intro q hq
    have hbits := inv.map.bits
    have hzeroed : ∀ m : Mem, (m.fill (k.st.hhdm + p * pageSize) pageSize 0).testBit
        k.st.pmmBitmap q = m.testBit k.st.pmmBitmap q :=
      fun m => testBit_congr (fill_of_outside (by omega))
    exact (hzeroed _).trans testBit_setBit

theorem MemoryMap.page_ne_zero (h : mm.HasPage p) : p ≠ 0 := by
  rintro rfl
  obtain ⟨e, he, hue, hlo, hhi⟩ := h
  have hzero := mm.no_page_zero e he hue (by omega)
  unfold pageSize at hhi
  omega

/-- Either the first free page is handed out, or there is none and nothing changes. -/
theorem FrameInv.alloc (inv : FrameInv mm k) :
    (∃ p < k.st.pmmHighestPage, bmpTest k.st p = false ∧ (∀ q < p, bmpTest k.st q = true) ∧
      pmmAllocPage k.st = Memory.takePage k.st p ∧ k.step .pmmAllocPage =
        some { k with st := (Memory.takePage k.st p).2, held := p * pageSize :: k.held }) ∨
    (∀ p < k.st.pmmHighestPage, bmpTest k.st p = true) ∧ pmmAllocPage k.st = (0, k.st) ∧
      k.step .pmmAllocPage = some k := by
  rcases pmmAllocPage_first inv.hint inv.below with ⟨p, hp, hclear, hfirst, htake⟩ | ⟨hall, hnone⟩
  · refine Or.inl ⟨p, hp, hclear, hfirst, htake, ?_⟩
    obtain ⟨hresult, -⟩ := inv.takePage hp hclear hfirst
    have hpos := MemoryMap.page_ne_zero (inv.holdings.clear p hp hclear).1
    have hne : p * pageSize ≠ 0 := Nat.mul_ne_zero hpos (by decide)
    rw [System.step, htake]
    simp only [hresult, if_neg hne]
  · refine Or.inr ⟨hall, hnone, ?_⟩
    rw [System.step, hnone]
    rfl

/-- A page given back is free again. -/
theorem FrameInv.free (inv : FrameInv mm k) (hphys : phys ∈ k.held) :
    ∃ p < (pmmFreePage k.st phys).pmmHighestPage, phys = p * pageSize ∧
      bmpTest (pmmFreePage k.st phys) p = false ∧
      FrameInv mm { k with st := pmmFreePage k.st phys, held := k.held.erase phys } := by
  obtain ⟨p, hp, rfl, hset, hframe⟩ := inv.holdings.held phys hphys
  have hdiv : p * pageSize / pageSize = p := Nat.mul_div_cancel p (by decide)
  unfold pmmFreePage
  simp only [hdiv, hset, if_true, if_neg (not_le.mpr hp)]
  have hcounted := inv.counted.clear hp hset
  -- The hint moves back to the page if it was past it, so nothing below it is clear.
  generalize hh : (if p < k.st.pmmSearchHint then p else k.st.pmmSearchHint) = h
  have hle : h ≤ k.st.pmmSearchHint ∧ h ≤ p := by
    rw [← hh]
    split <;> omega
  have hhint := inv.hint
  have htest : ∀ q, bmpTest { bmpClear k.st p with
      pmmUsed := sub64 k.st.pmmUsed 1, pmmSearchHint := h } q =
      (!decide (p = q) && bmpTest k.st q) := fun q => testBit_clearBit
  refine ⟨p, hp, rfl, ?_, inv.map.congr rfl rfl rfl rfl, hcounted.congr rfl rfl rfl fun _ _ => rfl,
    inv.holdings.give (fun _ => id) hframe htest, hle.1.trans hhint, ?_⟩
  · rw [htest p, decide_eq_true rfl]
    rfl
  · intro q hq
    change q < h at hq
    rw [htest q, decide_eq_false (by omega), inv.below q (by omega)]
    rfl

theorem FrameInv.step {c : Call} (inv : FrameInv mm k) (hc : FrameCall k c)
    (hstep : k.step c = some k') : FrameInv mm k' := by
  cases c with
  | kmalloc size => exact hc.elim
  | kcalloc count elemSize => exact hc.elim
  | kfree ptr => exact hc.elim
  | pmmAllocPage =>
    rcases inv.alloc with ⟨p, hp, hclear, hfirst, -, htaken⟩ | ⟨-, -, hnone⟩
    · obtain rfl := Option.some.inj (htaken.symm.trans hstep)
      exact (inv.takePage hp hclear hfirst).2.2.1
    · obtain rfl := Option.some.inj (hnone.symm.trans hstep)
      exact inv
  | pmmFreePage phys =>
    obtain rfl := Option.some.inj hstep
    obtain ⟨p, -, -, -, inv'⟩ := inv.free hc
    exact inv'
  | write addr v =>
    obtain rfl := Option.some.inj hstep
    obtain ⟨phys, hphys, hlo, hhi⟩ := hc
    obtain ⟨p, -, rfl, -, hframe⟩ := inv.holdings.held phys hphys
    apply inv.of_frame hframe
    intro y hy
    apply store_of_outside
    rw [List.length_singleton]
    omega

/-- A free page is handed out after as many allocations as there are free pages before it, and one
more. -/
theorem FrameInv.obtained (inv : FrameInv mm k) (hp : p < k.st.pmmHighestPage)
    (hclear : bmpTest k.st p = false) : ∃ n k',
      Run System.Step k (List.replicate n .pmmAllocPage) k' ∧ p * pageSize ∈ k'.held := by
  induction hd : p - k.st.mem.countBits k.st.pmmBitmap p using Nat.strong_induction_on
    generalizing k with
  | _ d ih =>
    rcases inv.alloc with ⟨q, hq, hqclear, hfirst, -, htaken⟩ | ⟨hall, -⟩
    · rcases Nat.lt_trichotomy q p with hqp | rfl | hqp
      · -- A page before it is taken; one fewer is left.
        obtain ⟨-, -, inv', htest⟩ := inv.takePage hq hqclear hfirst
        have hbitmap : (Memory.takePage k.st q).2.pmmBitmap = k.st.pmmBitmap := rfl
        have hcount : (Memory.takePage k.st q).2.mem.countBits k.st.pmmBitmap p =
            k.st.mem.countBits k.st.pmmBitmap p + 1 := by
          rw [← countBits_setBit hqp hqclear]
          apply countBits_congr
          intro j hj
          have hbit := htest j (by omega)
          unfold bmpTest at hbit
          rw [hbitmap] at hbit
          rw [hbit, testBit_setBit]
        have hlt := countBits_lt hqp hqclear
        have hclear' : bmpTest (Memory.takePage k.st q).2 p = false := by
          rw [htest p hp, hclear, decide_eq_false (by omega)]
          rfl
        obtain ⟨n, k', hrun, hheld⟩ := ih _ (by simp only [hbitmap, hcount]; omega) inv' hp hclear' rfl
        exact ⟨n + 1, k', Run.cons htaken hrun, hheld⟩
      · exact ⟨1, _, Run.single htaken, List.mem_cons_self⟩
      · rw [hfirst p hqp] at hclear
        cases hclear
    · rw [hall p hp] at hclear
      cases hclear

/-! ## Runs -/

theorem BitmapReady.frameMap {eb : MemmapEntry} (ready : BitmapReady mm offset eb s)
    (hmapped : ∀ e ∈ mm.entries, e.Usable →
      offset + e.base + e.length + heapInitialPages * pageSize < 2 ^ 64) : FrameMap mm s := by
  have hbytes := ready.bytes
  have hplaced := ready.bitmap
  have hhhdm := ready.hhdm
  have hmeb := hmapped eb ready.mem_entries ready.usable
  have hpage : pageSize = 4096 := rfl
  constructor
  · omega
  · rintro p ⟨⟨e, he, hue, hlo, hhi⟩, -⟩
    have hme := hmapped e he hue
    have hinitial : heapInitialPages * pageSize = 65536 := rfl
    omega
  · rintro p ⟨-, hout⟩
    obtain ⟨hbase, hlength⟩ := mm.aligned eb ready.mem_entries ready.usable
    rw [bitmapPages, ready.virtToPhys_bitmap (by omega), Set.mem_Ico] at hout
    rw [hpage] at *
    omega

theorem FrameInv.of_pmmInit {l : Limine} (hmm : l.memmap = some mm) (h : pmmInit l s' = some s) :
    FrameInv mm (start s) := by
  cases hoff : l.hhdm with
  | none =>
    unfold pmmInit at h
    rw [hmm, hoff] at h
    cases h
  | some offset =>
    obtain ⟨eb, heb, hueb, hlen, hpos, -, hs⟩ := pmmInit_some hmm hoff h
    have hmapped := l.mapped mm hmm offset hoff
    have hmeb := hmapped eb heb hueb
    have ready : BitmapReady mm offset eb s :=
      hs ▸ pmmPlaced_ready heb hueb hlen hpos (by omega)
    refine ⟨ready.frameMap hmapped, hs ▸ pmmPlaced_counted heb hueb hlen,
      ⟨?_, List.nodup_nil, fun phys hphys => by cases hphys⟩, ?_, ?_⟩
    · subst hs
      intro p hp hclear
      exact (pmmPlaced_clear_iff ready (by omega) hp).mp hclear
    · exact ready.hint.trans_le (Nat.zero_le _)
    · intro p hp
      have hhint := ready.hint
      change p < s.pmmSearchHint at hp
      omega

/-- The allocator is exclusive and complete: a page it hands out is usable, zeroed, not held by
anyone and no part of the bitmap; it fails only when nothing is free, and then changes nothing; the
hint hides no free page; the count of used pages is exact; and a page given back can be obtained
again. -/
structure PagesSound (mm : MemoryMap) (k : System) : Prop where
  fresh : (pmmAllocPage k.st).1 ≠ 0 → ∃ p, (pmmAllocPage k.st).1 = p * pageSize ∧
    mm.HasPage p ∧ p ∉ bitmapPages k.st ∧ p * pageSize ∉ k.held ∧
    ∀ y ∈ Set.Ico (k.st.hhdm + p * pageSize) (k.st.hhdm + p * pageSize + pageSize),
      (pmmAllocPage k.st).2.mem y = 0
  exhausted : (pmmAllocPage k.st).1 = 0 →
    (∀ p < k.st.pmmHighestPage, bmpTest k.st p = true) ∧ (pmmAllocPage k.st).2 = k.st
  hint : ∀ p < k.st.pmmHighestPage, bmpTest k.st p = false → k.st.pmmSearchHint ≤ p
  used : k.st.pmmUsed = setBits k.st
  again : ∀ phys ∈ k.held, ∃ k₁, k.step (.pmmFreePage phys) = some k₁ ∧ phys ∉ k₁.held ∧
    ∃ n k₂, Run System.Step k₁ (List.replicate n .pmmAllocPage) k₂ ∧ phys ∈ k₂.held

theorem FrameInv.sound (inv : FrameInv mm k) : PagesSound mm k := by
  constructor
  · intro hne
    rcases inv.alloc with ⟨p, hp, hclear, hfirst, htake, -⟩ | ⟨-, hnone, -⟩
    · obtain ⟨hresult, hzero, inv', -⟩ := inv.takePage hp hclear hfirst
      obtain ⟨hpage, hoff⟩ := inv.holdings.clear p hp hclear
      rw [htake]
      exact ⟨p, hresult, hpage, hoff, (List.nodup_cons.mp inv'.holdings.nodup).1, hzero⟩
    · rw [hnone] at hne
      exact absurd rfl hne
  · intro hzero
    rcases inv.alloc with ⟨p, hp, hclear, hfirst, htake, -⟩ | ⟨hall, hnone, -⟩
    · obtain ⟨hresult, -⟩ := inv.takePage hp hclear hfirst
      have hpos := MemoryMap.page_ne_zero (inv.holdings.clear p hp hclear).1
      rw [htake, hresult] at hzero
      exact absurd hzero (Nat.mul_ne_zero hpos (by decide))
    · rw [hnone]
      exact ⟨hall, rfl⟩
  · intro p hp hclear
    by_contra hlt
    rw [inv.below p (by omega)] at hclear
    cases hclear
  · exact inv.counted.used
  · intro phys hphys
    obtain ⟨p, hp, rfl, hclear, inv'⟩ := inv.free hphys
    refine ⟨_, rfl, ?_, inv'.obtained hp hclear⟩
    exact fun hin => (inv.holdings.nodup.mem_erase_iff.mp hin).1 rfl

/-- In every state that allocations and releases of held pages reach from `pmm_init`, the allocator
is exclusive and complete. -/
theorem pages_sound {l : Limine} {mem : Mem} {cs : List Call} (hmm : l.memmap = some mm)
    (hinit : pmmInit l (boot mem) = some s)
    (hrun : Run (Where FrameCall System.Step) (start s) cs k) : PagesSound mm k := by
  have inv : FrameInv mm k := by
    apply hrun.invariant (FrameInv mm) (FrameInv.of_pmmInit hmm hinit)
    rintro k c k' inv ⟨hc, hstep⟩
    exact inv.step hc hstep
  exact inv.sound

instance (k : System) : ∀ c, Decidable (FrameCall k c)
  | .kmalloc _ | .kcalloc _ _ | .kfree _ => inferInstanceAs (Decidable False)
  | .pmmAllocPage => inferInstanceAs (Decidable True)
  | .pmmFreePage phys => inferInstanceAs (Decidable (phys ∈ k.held))
  | .write addr _ => inferInstanceAs (Decidable
      (∃ phys ∈ k.held, addr ∈ Set.Ico (k.st.hhdm + phys) (k.st.hhdm + phys + pageSize)))

@[irreducible] def smallPages : State :=
  (pmmInit smallLimine (boot fun _ => 0)).get (by decide +kernel)

theorem pmmInit_smallPages : pmmInit smallLimine (boot fun _ => 0) = some smallPages := by
  unfold smallPages
  exact (Option.some_get _).symm

/-- Two pages are taken, the first one is written to and given back. -/
def pageCalls : List Call :=
  [.pmmAllocPage, .pmmAllocPage, .write 0xFFFF800000002010 7, .pmmFreePage 8192]

@[irreducible] def afterPageCalls : System :=
  (exec (guarded FrameCall System.step) (start smallPages) pageCalls).get (by decide +kernel)

theorem run_pageCalls :
    Run (Where FrameCall System.Step) (start smallPages) pageCalls afterPageCalls := by
  unfold afterPageCalls
  exact run_where_get _

theorem pages_sound_small : afterPageCalls.held = [12288] ∧ PagesSound smallMap afterPageCalls :=
  ⟨by decide +kernel, pages_sound rfl pmmInit_smallPages run_pageCalls⟩

end QuillOS.Memory
