import QuillOS.Memory.Alloc

/-!
# What initialisation leaves behind

`init` puts the bitmap at the start of a usable entry, marks everything free but the bitmap and
the first pages of the heap, and makes one free block of these.
-/

namespace QuillOS.Memory

open Lib Lib.Mem Lib.Tiling

variable {l : Limine} {mm : MemoryMap} {s s' : State} {e f : MemmapEntry} {p n : ℕ}

/-! ## Entries of the memory map -/

theorem MemmapEntry.Apart.symm (h : e.Apart f) : f.Apart e := by
  unfold MemmapEntry.Apart at *
  omega

/-- Two usable entries are the same or lie apart. -/
theorem MemoryMap.eq_or_apart (mm : MemoryMap) (he : e ∈ mm.entries) (hf : f ∈ mm.entries)
    (hue : e.Usable) (huf : f.Usable) : e = f ∨ e.Apart f := by
  by_cases hef : e = f
  · exact Or.inl hef
  · have hsymm : Std.Symm fun e f : MemmapEntry => e.Usable → f.Usable → e.Apart f :=
      ⟨fun _ _ h hf he => (h he hf).symm⟩
    exact Or.inr (mm.apart.forall he hf hef hue huf)

theorem le_highestAddr {entries : List MemmapEntry} (he : e ∈ entries)
    (htop : e.base + e.length < 2 ^ 64) : e.base + e.length ≤ highestAddr entries := by
  have hfold : ∀ (entries : List MemmapEntry) (top : ℕ), top ≤ entries.foldl
      (fun highest e => max highest (w64 (e.base + e.length))) top ∧
      ∀ e ∈ entries, w64 (e.base + e.length) ≤ entries.foldl
        (fun highest e => max highest (w64 (e.base + e.length))) top := by
    intro entries
    induction entries with
    | nil => exact fun top => ⟨le_rfl, fun e he => by cases he⟩
    | cons f entries ih =>
      intro top
      obtain ⟨htop, hrest⟩ := ih (max top (w64 (f.base + f.length)))
      refine ⟨(le_max_left _ _).trans htop, ?_⟩
      intro e he
      rcases List.mem_cons.mp he with rfl | he
      · exact (le_max_right _ _).trans htop
      · exact hrest e he
  have hle := (hfold entries 0).2 e he
  rwa [w64_eq htop] at hle

theorem highestAddr_lt (entries : List MemmapEntry) : highestAddr entries < 2 ^ 64 := by
  have hfold : ∀ (entries : List MemmapEntry) (top : ℕ), top < 2 ^ 64 → entries.foldl
      (fun highest e => max highest (w64 (e.base + e.length))) top < 2 ^ 64 := by
    intro entries
    induction entries with
    | nil => exact fun top h => h
    | cons e entries ih => exact fun top h => ih _ (max_lt h (w64_lt _))
  exact hfold entries 0 (by decide)

/-- The largest usable entry is one of the usable entries, unless there is none of any size. -/
theorem largestUsable_mem {entries : List MemmapEntry} (h : 0 < (largestUsable entries).2) :
    ∃ e ∈ entries, e.Usable ∧ largestUsable entries = (e.base, e.length) := by
  have hfold : ∀ (entries : List MemmapEntry) (best : ℕ × ℕ),
      entries.foldl (fun best e => if e.Usable ∧ best.2 < e.length then (e.base, e.length)
        else best) best = best ∨
      ∃ e ∈ entries, e.Usable ∧ entries.foldl (fun best e => if e.Usable ∧ best.2 < e.length then
        (e.base, e.length) else best) best = (e.base, e.length) := by
    intro entries
    induction entries with
    | nil => exact fun best => Or.inl rfl
    | cons f entries ih =>
      intro best
      rw [List.foldl_cons]
      rcases ih (if f.Usable ∧ best.2 < f.length then (f.base, f.length) else best) with
        heq | ⟨e, he, hue, heq⟩
      · rw [heq]
        split
        · next hf => exact Or.inr ⟨f, List.mem_cons_self, hf.1, rfl⟩
        · exact Or.inl rfl
      · exact Or.inr ⟨e, List.mem_cons_of_mem _ he, hue, heq⟩
  rcases hfold entries (0, 0) with heq | hmem
  · rw [largestUsable, heq] at h
    exact absurd h (lt_irrefl 0)
  · exact hmem

theorem bitmapPlace_mem {entries : List MemmapEntry} {bytes : ℕ}
    (h : bitmapPlace entries bytes ≠ 0) :
    ∃ e ∈ entries, e.Usable ∧ bytes ≤ e.length ∧ bitmapPlace entries bytes = e.base := by
  unfold bitmapPlace at *
  split at h
  · next e he =>
    have hprop := List.find?_some he
    obtain ⟨hue, hlen⟩ := of_decide_eq_true hprop
    exact ⟨e, List.mem_of_find?_eq_some he, hue, hlen, rfl⟩
  · exact absurd rfl h

/-! ## The page bitmap -/

theorem clearEntry_layout : (clearEntry s e).layout = s.layout := by
  unfold clearEntry
  split
  · exact clearPages_layout
  · rfl

theorem foldl_clearEntry_layout (entries : List MemmapEntry) :
    (entries.foldl clearEntry s).layout = s.layout := by
  induction entries generalizing s with
  | nil => rfl
  | cons e entries ih => rw [List.foldl_cons, ih, clearEntry_layout]

/-- The page `p` belongs to a usable entry. -/
def UsablePage (entries : List MemmapEntry) (p : ℕ) : Prop :=
  ∃ e ∈ entries, e.Usable ∧ e.base / pageSize ≤ p ∧ p < e.base / pageSize + e.length / pageSize

/-- Exactly the pages of usable entries are marked free. -/
theorem clear_iff_usable (entries : List MemmapEntry) :
    bmpTest (entries.foldl clearEntry s) p = false ↔
      bmpTest s p = false ∨ UsablePage entries p := by
  induction entries generalizing s with
  | nil => exact ⟨Or.inl, fun h => h.elim id fun ⟨e, he, _⟩ => by cases he⟩
  | cons e entries ih =>
    have hentry : bmpTest (clearEntry s e) p = false ↔ bmpTest s p = false ∨
        e.Usable ∧ e.base / pageSize ≤ p ∧ p < e.base / pageSize + e.length / pageSize := by
      unfold clearEntry
      split
      · next hue =>
        rw [bmpTest_clearPages, Bool.and_eq_false_iff, Bool.not_eq_false', decide_eq_true_iff]
        exact ⟨fun h => h.symm.imp_right fun hin => ⟨hue, hin⟩, fun h => (h.imp_right And.right).symm⟩
      · next hue => exact ⟨Or.inl, fun h => h.elim id fun hin => absurd hin.1 hue⟩
    rw [List.foldl_cons, ih, hentry]
    unfold UsablePage
    simp only [List.mem_cons, exists_eq_or_imp, or_assoc]

variable {entries : List MemmapEntry} {bitmapPhys : ℕ}

theorem pmmRelease_layout : (pmmRelease s entries bitmapPhys).layout = s.layout :=
  markPages_layout.trans (foldl_clearEntry_layout _)

/-- After the passes over the map, the free pages are those that were free or are usable, except
for the bitmap's own. -/
theorem pmmRelease_clear : bmpTest (pmmRelease s entries bitmapPhys) p = false ↔
    ¬(bitmapPhys / pageSize ≤ p ∧
      p < bitmapPhys / pageSize + (s.pmmBitmapBytes + pageSize - 1) / pageSize) ∧
    (bmpTest s p = false ∨ UsablePage entries p) := by
  have hbytes : (entries.foldl clearEntry s).pmmBitmapBytes = s.pmmBitmapBytes :=
    congrArg Layout.pmmBitmapBytes (foldl_clearEntry_layout entries)
  unfold pmmRelease
  simp only [hbytes]
  rw [bmpTest_markPages, Bool.or_eq_false_iff, decide_eq_false_iff_not, clear_iff_usable]

/-- The size of the bitmap for a memory map. -/
def bitmapBytes (entries : List MemmapEntry) : ℕ := (highestAddr entries / pageSize + 7) / 8

/-- The state that `pmm_init` leaves when it puts the bitmap at `bitmapPhys`. -/
def pmmPlaced (s : State) (offset : ℕ) (entries : List MemmapEntry) (bitmapPhys : ℕ) : State :=
  { pmmRelease (pmmBlank (pmmExtent s offset entries) bitmapPhys) entries bitmapPhys with
    pmmSearchHint := 0 }

theorem pmmInit_some {offset : ℕ} (hmm : l.memmap = some mm) (hoff : l.hhdm = some offset)
    (h : pmmInit l s = some s') : ∃ e ∈ mm.entries, e.Usable ∧
      bitmapBytes mm.entries ≤ e.length ∧ e.base ≠ 0 ∧
      bitmapPlace mm.entries (bitmapBytes mm.entries) = e.base ∧
      s' = pmmPlaced s offset mm.entries e.base := by
  unfold pmmInit at h
  rw [hmm, hoff] at h
  simp only at h
  split at h
  · cases h
  next hplace =>
  obtain ⟨e, he, hue, hlen, hbase⟩ := bitmapPlace_mem hplace
  rw [hbase] at h hplace
  exact ⟨e, he, hue, hlen, hplace, hbase, (Option.some.inj h).symm⟩

/-- Everything is marked used before the regions are released. -/
theorem bmpTest_pmmBlank {offset : ℕ} (hp : p < highestAddr entries / pageSize) :
    bmpTest (pmmBlank (pmmExtent s offset entries) bitmapPhys) p = true := by
  apply testBit_fill_ones
  show p / 8 < (highestAddr entries / pageSize + 7) / 8
  omega

theorem pmmPlaced_layout (s : State) (offset : ℕ) (entries : List MemmapEntry) (bitmapPhys : ℕ) :
    (pmmRelease (pmmBlank (pmmExtent s offset entries) bitmapPhys) entries bitmapPhys).layout =
      (pmmBlank (pmmExtent s offset entries) bitmapPhys).layout :=
  pmmRelease_layout

theorem pmmPlaced_clear {offset : ℕ} (hp : p < highestAddr entries / pageSize) :
    bmpTest (pmmPlaced s offset entries bitmapPhys) p = false ↔
      ¬(bitmapPhys / pageSize ≤ p ∧
        p < bitmapPhys / pageSize + (bitmapBytes entries + pageSize - 1) / pageSize) ∧
      UsablePage entries p := by
  have hclear : bmpTest (pmmPlaced s offset entries bitmapPhys) p = false ↔ _ := pmmRelease_clear
  rw [bmpTest_pmmBlank hp] at hclear
  exact hclear.trans (and_congr_right' (or_iff_right Bool.true_eq_false.mp))

/-- What `pmm_init` achieves: the bitmap lies in a usable entry that starts with it, and a page
with a clear bit is usable and holds no part of the bitmap. -/
structure BitmapReady (mm : MemoryMap) (offset : ℕ) (e : MemmapEntry) (s : State) : Prop where
  mem_entries : e ∈ mm.entries
  usable : e.Usable
  hhdm : s.hhdm = offset
  bitmap : s.pmmBitmap = offset + e.base
  base_pos : e.base ≠ 0
  highest : s.pmmHighestPage = highestAddr mm.entries / pageSize
  bytes : s.pmmBitmapBytes = (s.pmmHighestPage + 7) / 8
  hint : s.pmmSearchHint = 0
  fits : s.pmmBitmapBytes ≤ e.length
  clear : ∀ p < s.pmmHighestPage, bmpTest s p = false → UsablePage mm.entries p ∧
    (p * pageSize + pageSize ≤ e.base ∨ e.base + s.pmmBitmapBytes ≤ p * pageSize)

theorem pmmPlaced_ready {offset : ℕ} (he : e ∈ mm.entries) (hue : e.Usable)
    (hlen : bitmapBytes mm.entries ≤ e.length) (hpos : e.base ≠ 0)
    (hmapped : offset + e.base < 2 ^ 64) :
    BitmapReady mm offset e (pmmPlaced s offset mm.entries e.base) := by
  have hbitmap : physToVirt (pmmExtent s offset mm.entries) e.base = offset + e.base :=
    w64_eq hmapped
  have hlayout := pmmPlaced_layout s offset mm.entries e.base
  have hhighest := congrArg Layout.pmmHighestPage hlayout
  have hbytes := congrArg Layout.pmmBitmapBytes hlayout
  refine ⟨he, hue, congrArg Layout.hhdm hlayout, ?_, hpos, hhighest, ?_, rfl, ?_, ?_⟩
  · exact (congrArg Layout.pmmBitmap hlayout).trans hbitmap
  · exact hbytes.trans (congrArg (fun n => (n + 7) / 8) hhighest.symm)
  · exact hbytes.trans_le hlen
  · intro p hp hclear
    obtain ⟨hout, husable⟩ := (pmmPlaced_clear (hp.trans_eq hhighest)).mp hclear
    have haligned := (mm.aligned e he hue).1
    refine ⟨husable, ?_⟩
    change _ ∨ e.base + (State.layout _).pmmBitmapBytes ≤ _
    rw [hbytes]
    change _ ∨ e.base + bitmapBytes mm.entries ≤ _
    unfold pageSize at *
    omega

theorem pmmInit_ready {offset : ℕ} (hmm : l.memmap = some mm) (hoff : l.hhdm = some offset)
    (h : pmmInit l s = some s') : ∃ e, BitmapReady mm offset e s' := by
  obtain ⟨e, he, hue, hlen, hpos, -, rfl⟩ := pmmInit_some hmm hoff h
  have hmapped := l.mapped mm hmm offset hoff e he hue
  exact ⟨e, pmmPlaced_ready he hue hlen hpos (by omega)⟩

/-! ## The heap -/

/-- The end of a usable entry is a page boundary below the highest page. -/
theorem BitmapReady.le_highest {offset : ℕ} {eb : MemmapEntry} (ready : BitmapReady mm offset eb s)
    (he : e ∈ mm.entries) (hue : e.Usable) : e.base + e.length ≤ pageSize * s.pmmHighestPage := by
  have hle := le_highestAddr he (mm.top_lt e he)
  obtain ⟨hbase, hlength⟩ := mm.aligned e he hue
  have hhighest := ready.highest
  unfold pageSize at *
  omega

theorem BitmapReady.virtToPhys_bitmap {offset : ℕ} {eb : MemmapEntry}
    (ready : BitmapReady mm offset eb s) (hmapped : offset + eb.base < 2 ^ 64) :
    virtToPhys s s.pmmBitmap = eb.base := by
  unfold virtToPhys
  rw [ready.bitmap, ready.hhdm, sub64_eq hmapped (Nat.le_add_right _ _), Nat.add_sub_cancel_left]

/-- The heap starts with its entry, or behind the bitmap when that starts with the same entry. -/
theorem BitmapReady.heapPlace_eq {offset : ℕ} {eb : MemmapEntry} (ready : BitmapReady mm offset eb s)
    (he : e ∈ mm.entries) (hue : e.Usable) (hpos : 0 < e.length)
    (hmapped : offset + eb.base + eb.length + heapInitialPages * pageSize < 2 ^ 64) :
    heapPlace s e.base = if e = eb then
      eb.base + (s.pmmBitmapBytes + pageSize - 1) / pageSize * pageSize else e.base := by
  obtain ⟨hbase, hlength⟩ := mm.aligned e he hue
  have hle := ready.le_highest he hue
  have hfits := ready.fits
  have hbytes := ready.bytes
  have hsum : heapInitialPages * pageSize = 65536 := rfl
  have hphys := ready.virtToPhys_bitmap (by omega)
  have hend : w64 (eb.base + s.pmmBitmapBytes) = eb.base + s.pmmBitmapBytes := w64_eq (by omega)
  have hround : w64 (eb.base + s.pmmBitmapBytes + pageSize - 1) =
      eb.base + s.pmmBitmapBytes + pageSize - 1 := by
    have hpage : pageSize = 4096 := rfl
    exact w64_eq (by omega)
  unfold heapPlace
  simp only [hphys, hend, hround]
  by_cases hsame : e = eb
  · subst hsame
    unfold pageSize at hbase hle
    rw [if_pos rfl, if_pos (by omega)]
    unfold alignDown pageSize
    omega
  · have hapart := (mm.eq_or_apart he ready.mem_entries hue ready.usable).resolve_left hsame
    have hout : ¬(eb.base ≤ e.base ∧ e.base < eb.base + s.pmmBitmapBytes) := by
      unfold MemmapEntry.Apart at hapart
      omega
    rw [if_neg hsame, if_neg hout]

/-- The heap is put on a page boundary of its entry, behind the bitmap or in another entry than
the bitmap. -/
theorem heapPlace_spec {offset : ℕ} {eb : MemmapEntry} (ready : BitmapReady mm offset eb s)
    (he : e ∈ mm.entries) (hue : e.Usable) (hpos : 0 < e.length)
    (hmapped : offset + eb.base + eb.length + heapInitialPages * pageSize < 2 ^ 64) :
    pageSize ∣ heapPlace s e.base ∧ e.base ≤ heapPlace s e.base ∧
      heapPlace s e.base ≤ e.base + e.length ∧
      (eb.base + s.pmmBitmapBytes ≤ heapPlace s e.base ∨
        heapPlace s e.base = e.base ∧ e.base + e.length ≤ eb.base) := by
  obtain ⟨hbase, hlength⟩ := mm.aligned e he hue
  have hle := ready.le_highest he hue
  have hbytes := ready.bytes
  have hfits := ready.fits
  rw [ready.heapPlace_eq he hue hpos hmapped]
  split
  · next hsame =>
    subst hsame
    unfold pageSize at *
    refine ⟨?_, ?_, ?_, ?_⟩ <;> omega
  · next hsame =>
    have hapart := (mm.eq_or_apart he ready.mem_entries hue ready.usable).resolve_left hsame
    unfold MemmapEntry.Apart at hapart
    refine ⟨hbase, le_rfl, by omega, ?_⟩
    unfold pageSize at *
    omega

theorem heapFirstBlock_layout :
    (heapFirstBlock s).layout = { s.layout with heapHead := s.heapRegionStart } := by
  have hlayout : (markPages s (s.heapPhysBase / pageSize) heapInitialPages).layout = s.layout :=
    markPages_layout
  have hstart := congrArg Layout.heapRegionStart hlayout
  calc (heapFirstBlock s).layout
      = { (markPages s (s.heapPhysBase / pageSize) heapInitialPages).layout with
          heapHead := (markPages s (s.heapPhysBase / pageSize) heapInitialPages).heapRegionStart } :=
        rfl
    _ = { s.layout with heapHead := s.heapRegionStart } := by
        rw [hlayout]
        exact congrArg (fun n => { s.layout with heapHead := n }) hstart

theorem heapFirstBlock_inv (hstart : pageSize ≤ s.heapRegionStart)
    (hfits : s.heapRegionStart + heapInitialPages * pageSize < 2 ^ 64) :
    HeapInv (heapFirstBlock s) [⟨heapInitialPages * pageSize - sizeofBlock, true⟩] := by
  have hlayout := heapFirstBlock_layout (s := s)
  have hregion : (heapFirstBlock s).heapRegionStart = s.heapRegionStart :=
    congrArg Layout.heapRegionStart hlayout
  have hhead : (heapFirstBlock s).heapHead = s.heapRegionStart :=
    congrArg Layout.heapHead hlayout
  have hcommitted : (heapFirstBlock s).heapCommitted = heapInitialPages * pageSize := rfl
  constructor
  · rw [hregion]
    apply chain_singleton.mpr
    rw [← hhead]
    exact writeBlock_header _
      (show heapInitialPages * pageSize - sizeofBlock < 2 ^ 64 by decide) (by decide)
  · rw [hhead, hregion]
  · rw [hregion, hcommitted, stop_cons, stop_nil, Nat.add_assoc]
    rfl
  · exact List.cons_ne_nil _ _
  · rwa [hregion]
  · rwa [hregion, hcommitted]

/-- The pages of the first block are marked; other bits stay. -/
theorem bmpTest_heapFirstBlock (hout : s.pmmBitmap + p / 8 < s.heapRegionStart ∨
      s.heapRegionStart + sizeofBlock ≤ s.pmmBitmap + p / 8) :
    bmpTest (heapFirstBlock s) p = (decide (s.heapPhysBase / pageSize ≤ p ∧
      p < s.heapPhysBase / pageSize + heapInitialPages) || bmpTest s p) := by
  have hlayout : (markPages s (s.heapPhysBase / pageSize) heapInitialPages).layout = s.layout :=
    markPages_layout
  have hbitmap := congrArg Layout.pmmBitmap hlayout
  have hstart := congrArg Layout.heapRegionStart hlayout
  rw [← bmpTest_markPages]
  have hbitmap' : (heapFirstBlock s).pmmBitmap = s.pmmBitmap :=
    congrArg Layout.pmmBitmap heapFirstBlock_layout
  unfold bmpTest
  rw [hbitmap', show (markPages s (s.heapPhysBase / pageSize) heapInitialPages).pmmBitmap =
    s.pmmBitmap from hbitmap]
  apply testBit_congr
  apply writeBlock_outside
  change _ < (markPages s (s.heapPhysBase / pageSize) heapInitialPages).heapRegionStart ∨
    (markPages s (s.heapPhysBase / pageSize) heapInitialPages).heapRegionStart + sizeofBlock ≤ _
  rw [show (markPages s (s.heapPhysBase / pageSize) heapInitialPages).heapRegionStart =
    s.heapRegionStart from hstart]
  exact hout

/-- A page that no one owns: it can be addressed and holds neither bitmap nor heap. -/
structure FreePage (s : State) (p : ℕ) : Prop where
  fits : s.hhdm + p * pageSize + pageSize < 2 ^ 64
  off_bitmap : s.hhdm + p * pageSize + pageSize ≤ s.pmmBitmap ∨
    s.pmmBitmap + s.pmmBitmapBytes ≤ s.hhdm + p * pageSize
  off_heap : p * pageSize + pageSize ≤ s.heapPhysBase ∨
    s.heapPhysBase + s.heapCommitted ≤ p * pageSize

/-- What `init` establishes. -/
structure Ready (s : State) : Prop where
  inv : HeapInv s [⟨heapInitialPages * pageSize - sizeofBlock, true⟩]
  reg : RegionInv s
  committed : s.heapCommitted = heapInitialPages * pageSize
  base_aligned : pageSize ∣ s.heapPhysBase
  max_aligned : pageSize ∣ s.heapMaxBytes
  start : s.heapRegionStart = s.hhdm + s.heapPhysBase
  highest : s.pmmHighestPage ≤ 8 * s.pmmBitmapBytes
  hint : s.pmmSearchHint = 0
  clear : ∀ p < s.pmmHighestPage, bmpTest s p = false → FreePage s p

/-- What `heap_init` makes of the state that `pmm_init` left: the heap lies in `e`, the largest
usable entry. -/
structure HeapPlaced (mm : MemoryMap) (e : MemmapEntry) (s s' : State) : Prop where
  mem_entries : e ∈ mm.entries
  usable : e.Usable
  largest : largestUsable mm.entries = (e.base, e.length)
  large : heapInitialPages * pageSize ≤ e.length
  phys : s'.heapPhysBase = heapPlace s e.base
  max : s'.heapMaxBytes = min (e.base + e.length - heapPlace s e.base) (heapMaxPages * pageSize)
  start : s'.heapRegionStart = s.hhdm + heapPlace s e.base
  committed : s'.heapCommitted = heapInitialPages * pageSize
  hhdm : s'.hhdm = s.hhdm
  bitmap : s'.pmmBitmap = s.pmmBitmap
  bytes : s'.pmmBitmapBytes = s.pmmBitmapBytes
  highest : s'.pmmHighestPage = s.pmmHighestPage
  hint : s'.pmmSearchHint = s.pmmSearchHint
  inv : HeapInv s' [⟨heapInitialPages * pageSize - sizeofBlock, true⟩]
  test : ∀ p < s.pmmHighestPage, bmpTest s' p = (decide (heapPlace s e.base / pageSize ≤ p ∧
    p < heapPlace s e.base / pageSize + heapInitialPages) || bmpTest s p)

theorem heapInit_placed {offset : ℕ} {eb : MemmapEntry} (ready : BitmapReady mm offset eb s)
    (hmapped : ∀ e ∈ mm.entries, e.Usable →
      offset + e.base + e.length + heapInitialPages * pageSize < 2 ^ 64)
    (h : heapInit mm s = some s') : ∃ e, HeapPlaced mm e s s' := by
  have hsum : heapInitialPages * pageSize = 65536 := rfl
  have hpage : pageSize = 4096 := rfl
  unfold heapInit at h
  simp only at h
  split at h
  · cases h
  next hlarge =>
  have hsome : 0 < (largestUsable mm.entries).2 := by omega
  obtain ⟨e, he, hue, hbest⟩ := largestUsable_mem hsome
  rw [hbest] at h hlarge
  simp only at h hlarge
  have hme := hmapped e he hue
  have hbytes := ready.bytes
  have hbitmap := ready.bitmap
  have hebfits := ready.fits
  obtain ⟨-, hlo, hhi, hapart⟩ := heapPlace_spec ready he hue (by omega)
    (hmapped eb ready.mem_entries ready.usable)
  have hremaining : sub64 (w64 (e.base + e.length)) (heapPlace s e.base) =
      e.base + e.length - heapPlace s e.base := by
    rw [w64_eq (by omega), sub64_eq (by omega) hhi]
  rw [hremaining] at h
  obtain rfl := Option.some.inj h
  have hbase := (mm.aligned e he hue).1
  have hpagezero := mm.no_page_zero e he hue
  rw [hpage] at hbase
  -- The region in exact numbers.
  have hlayout := heapFirstBlock_layout
    (s := heapRegion s (heapPlace s e.base) (e.base + e.length - heapPlace s e.base))
  have hstart : (heapRegion s (heapPlace s e.base)
      (e.base + e.length - heapPlace s e.base)).heapRegionStart = s.hhdm + heapPlace s e.base := by
    have hhhdm := ready.hhdm
    exact w64_eq (by omega)
  refine ⟨e, he, hue, hbest, not_lt.mp hlarge, congrArg Layout.heapPhysBase hlayout,
    congrArg Layout.heapMaxBytes hlayout, ?_, rfl, congrArg Layout.hhdm hlayout,
    congrArg Layout.pmmBitmap hlayout, congrArg Layout.pmmBitmapBytes hlayout,
    congrArg Layout.pmmHighestPage hlayout, congrArg Layout.pmmSearchHint hlayout, ?_, ?_⟩
  · exact (congrArg Layout.heapRegionStart hlayout).trans hstart
  · have hhhdm := ready.hhdm
    exact heapFirstBlock_inv (by omega) (by omega)
  · intro p hp
    have hhhdm := ready.hhdm
    have hblock : sizeofBlock = 24 := rfl
    have hregionBitmap : (heapRegion s (heapPlace s e.base)
      (e.base + e.length - heapPlace s e.base)).pmmBitmap = s.pmmBitmap := rfl
    exact bmpTest_heapFirstBlock (by omega)

theorem HeapPlaced.ready {offset : ℕ} {eb : MemmapEntry} (placed : HeapPlaced mm e s s')
    (ready : BitmapReady mm offset eb s)
    (hmapped : ∀ e ∈ mm.entries, e.Usable →
      offset + e.base + e.length + heapInitialPages * pageSize < 2 ^ 64) : Ready s' := by
  have hsum : heapInitialPages * pageSize = 65536 := rfl
  have hcap : heapMaxPages * pageSize = 4194304 := rfl
  have hpage : pageSize = 4096 := rfl
  obtain ⟨he, hue, -, hlarge, hphys, hmax, hstart, hcommitted, hhhdm, hbitmap, hbytes, hhighest,
    hhint, inv, htest⟩ := placed
  obtain ⟨hdvd, hlo, hhi, hapart⟩ := heapPlace_spec ready he hue (by omega)
    (hmapped eb ready.mem_entries ready.usable)
  have hme := hmapped e he hue
  obtain ⟨hbase, hlength⟩ := mm.aligned e he hue
  have htop := ready.le_highest he hue
  have hsize := ready.bytes
  have hebfits := ready.fits
  have hoffset := ready.hhdm
  have hplace := ready.bitmap
  -- Only the bounds on the heap's place matter from here on.
  generalize heapPlace s e.base = heapPhys at *
  rw [hpage] at htop hbase hlength hdvd
  constructor
  · exact inv
  · constructor
    · omega
    · omega
    · omega
    · rw [hpage]
      omega
    · omega
  · exact hcommitted
  · rwa [hphys]
  · rw [hmax, hpage]
    omega
  · omega
  · omega
  · rw [hhint, ready.hint]
  · intro p hp hclear
    rw [htest p (by omega), Bool.or_eq_false_iff, decide_eq_false_iff_not, hpage] at hclear
    obtain ⟨hwindow, hclear⟩ := hclear
    -- A page still clear is usable and off the bitmap, and no page of the initial heap.
    obtain ⟨⟨f, hf, huf, hflo, hfhi⟩, hoff⟩ := ready.clear p (by omega) hclear
    have hmf := hmapped f hf huf
    have hinitial : heapInitialPages = 16 := rfl
    rw [hpage] at hflo hfhi hoff
    constructor
    · rw [hpage]
      omega
    · rw [hpage]
      omega
    · rw [hpage, hcommitted]
      omega

theorem init_some (h : init l s = some s') : ∃ mm offset s₁, l.memmap = some mm ∧
    l.hhdm = some offset ∧ pmmInit l s = some s₁ ∧ heapInit mm s₁ = some s' := by
  unfold init at h
  cases hmm : l.memmap with
  | none =>
    rw [hmm] at h
    cases h
  | some mm =>
    rw [hmm] at h
    obtain ⟨s₁, hpmm, hheap⟩ := Option.bind_eq_some_iff.mp h
    cases hoff : l.hhdm with
    | none =>
      unfold pmmInit at hpmm
      rw [hmm, hoff] at hpmm
      cases hpmm
    | some offset => exact ⟨mm, offset, s₁, rfl, rfl, hpmm, hheap⟩

theorem init_ready (h : init l s = some s') : Ready s' := by
  obtain ⟨mm, offset, s₁, hmm, hoff, hpmm, hheap⟩ := init_some h
  have hmapped := l.mapped mm hmm offset hoff
  obtain ⟨eb, ready⟩ := pmmInit_ready hmm hoff hpmm
  obtain ⟨e, placed⟩ := heapInit_placed ready hmapped hheap
  exact placed.ready ready hmapped

end QuillOS.Memory
