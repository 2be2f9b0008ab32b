import QuillOS.Memory.Init
import Mathlib.Order.CompletePartialOrder

/-!
# Where initialisation puts things

The bitmap goes to the first usable entry that can hold it, the heap to the largest one. The size of
the latter is checked before the bitmap is taken off it, so when both share an entry the initial
pages of the heap may reach beyond its end. In all other cases the layout is sound.
-/

namespace QuillOS.Memory

open Lib Lib.Mem Lib.Tiling

variable {l : Limine} {mm : MemoryMap} {s s' : State} {e eb : MemmapEntry} {p n offset : ℕ}

/-! ## Pages -/

/-- The page lies wholly inside a usable entry. -/
def MemoryMap.HasPage (mm : MemoryMap) (p : ℕ) : Prop :=
  ∃ e ∈ mm.entries, e.Usable ∧ e.base ≤ p * pageSize ∧ p * pageSize + pageSize ≤ e.base + e.length

/-- The pages that hold the bitmap. -/
def bitmapPages (s : State) : Set ℕ :=
  Set.Ico (virtToPhys s s.pmmBitmap / pageSize)
    (virtToPhys s s.pmmBitmap / pageSize + (s.pmmBitmapBytes + pageSize - 1) / pageSize)

/-- The pages of the initial heap. -/
def heapInitPages (s : State) : Set ℕ :=
  Set.Ico (s.heapPhysBase / pageSize) (s.heapPhysBase / pageSize + heapInitialPages)

theorem MemoryMap.hasPage_iff (mm : MemoryMap) : mm.HasPage p ↔ UsablePage mm.entries p := by
  constructor
  · rintro ⟨e, he, hue, hlo, hhi⟩
    obtain ⟨hbase, hlength⟩ := mm.aligned e he hue
    refine ⟨e, he, hue, ?_, ?_⟩ <;> unfold pageSize at * <;> omega
  · rintro ⟨e, he, hue, hlo, hhi⟩
    obtain ⟨hbase, hlength⟩ := mm.aligned e he hue
    refine ⟨e, he, hue, ?_, ?_⟩ <;> unfold pageSize at * <;> omega

/-- After `pmm_init` exactly the usable pages without bitmap are free. -/
theorem pmmPlaced_clear_iff (ready : BitmapReady mm offset eb (pmmPlaced s offset mm.entries eb.base))
    (hmapped : offset + eb.base < 2 ^ 64)
    (hp : p < (pmmPlaced s offset mm.entries eb.base).pmmHighestPage) :
    bmpTest (pmmPlaced s offset mm.entries eb.base) p = false ↔
      mm.HasPage p ∧ p ∉ bitmapPages (pmmPlaced s offset mm.entries eb.base) := by
  have hbytes := ready.bytes
  rw [ready.highest] at hbytes hp
  rw [pmmPlaced_clear hp, mm.hasPage_iff, bitmapPages, ready.virtToPhys_bitmap hmapped, hbytes,
    Set.mem_Ico, and_comm]
  rfl

/-! ## The layout -/

/-- Bitmap and initial heap lie apart in usable memory and are marked used, the region of the heap
stays inside one entry and covers what is committed, and the free pages are the other usable
ones. -/
structure SoundLayout (mm : MemoryMap) (s : State) : Prop where
  bitmap_usable : ∀ p ∈ bitmapPages s, mm.HasPage p
  heap_usable : ∀ p ∈ heapInitPages s, mm.HasPage p
  disjoint : Disjoint (bitmapPages s) (heapInitPages s)
  bitmap_marked : ∀ p ∈ bitmapPages s, bmpTest s p = true
  heap_marked : ∀ p ∈ heapInitPages s, bmpTest s p = true
  committed_le : s.heapCommitted ≤ s.heapMaxBytes
  region : ∃ e ∈ mm.entries, e.Usable ∧ e.base ≤ s.heapPhysBase ∧
    s.heapPhysBase + s.heapMaxBytes ≤ e.base + e.length
  clear : ∀ p < s.pmmHighestPage, bmpTest s p = false ↔
    mm.HasPage p ∧ p ∉ bitmapPages s ∧ p ∉ heapInitPages s

/-- When the largest usable entry is also the one that takes the bitmap, it has room for the
initial heap besides. -/
def RoomForHeap (mm : MemoryMap) : Prop :=
  bitmapPlace mm.entries (bitmapBytes mm.entries) = (largestUsable mm.entries).1 →
    (bitmapBytes mm.entries + pageSize - 1) / pageSize + heapInitialPages ≤
      (largestUsable mm.entries).2 / pageSize

instance (mm : MemoryMap) : Decidable (RoomForHeap mm) := inferInstanceAs (Decidable (_ → _))

/-- There is room exactly when the initial heap ends inside its entry. -/
theorem HeapPlaced.room_iff (placed : HeapPlaced mm e s s') (ready : BitmapReady mm offset eb s)
    (hplace : bitmapPlace mm.entries (bitmapBytes mm.entries) = eb.base)
    (hmapped : offset + eb.base + eb.length + heapInitialPages * pageSize < 2 ^ 64) :
    RoomForHeap mm ↔
      heapPlace s e.base + heapInitialPages * pageSize ≤ e.base + e.length := by
  have hlarge := placed.large
  have hsum : heapInitialPages * pageSize = 65536 := rfl
  have hbytes : s.pmmBitmapBytes = bitmapBytes mm.entries := by
    rw [ready.bytes, ready.highest]
    rfl
  have hfits := ready.fits
  have htop := ready.le_highest placed.mem_entries placed.usable
  have hsize := ready.bytes
  obtain ⟨hbase, hlength⟩ := mm.aligned e placed.mem_entries placed.usable
  unfold RoomForHeap
  rw [hplace, placed.largest, ready.heapPlace_eq placed.mem_entries placed.usable (by omega)
    hmapped, ← hbytes]
  by_cases hsame : e = eb
  · subst hsame
    rw [if_pos rfl]
    simp only [true_implies]
    unfold heapInitialPages pageSize at *
    omega
  · have hapart := (mm.eq_or_apart placed.mem_entries ready.mem_entries placed.usable
      ready.usable).resolve_left hsame
    -- The bitmap is elsewhere: the heap starts at the base of its own entry and fits by its size.
    have hne : eb.base ≠ e.base := by
      unfold MemmapEntry.Apart at hapart
      unfold pageSize at htop
      omega
    rw [if_neg hsame]
    simp only [hne, false_implies, true_iff]
    omega

/-- With room for the heap the layout is sound. -/
theorem HeapPlaced.sound (placed : HeapPlaced mm e s s') (ready : BitmapReady mm offset eb s)
    (hmapped : offset + eb.base + eb.length + heapInitialPages * pageSize < 2 ^ 64)
    (hclear : ∀ p < s.pmmHighestPage,
      bmpTest s p = false ↔ mm.HasPage p ∧ p ∉ bitmapPages s)
    (hroom : heapPlace s e.base + heapInitialPages * pageSize ≤ e.base + e.length) :
    SoundLayout mm s' := by
  have hinitial : heapInitialPages = 16 := rfl
  have hcap : heapMaxPages * pageSize = 4194304 := rfl
  have hsum : heapInitialPages * pageSize = 65536 := rfl
  have hpage : pageSize = 4096 := rfl
  have hlarge := placed.large
  obtain ⟨hdvd, hlo, -, hapart⟩ := heapPlace_spec ready placed.mem_entries placed.usable (by omega)
    hmapped
  have hphys := placed.phys
  have hmax := placed.max
  have hcommitted := placed.committed
  have htest := placed.test
  have hfits := ready.fits
  have htop := ready.le_highest placed.mem_entries placed.usable
  have hebtop := ready.le_highest ready.mem_entries ready.usable
  obtain ⟨hebbase, heblength⟩ := mm.aligned eb ready.mem_entries ready.usable
  have hbitmap' : bitmapPages s' = bitmapPages s := by
    unfold bitmapPages virtToPhys
    rw [placed.hhdm, placed.bitmap, placed.bytes]
  have hbitmap : ∀ p, p ∈ bitmapPages s ↔ eb.base / pageSize ≤ p ∧
      p < eb.base / pageSize + (s.pmmBitmapBytes + pageSize - 1) / pageSize := by
    intro p
    rw [bitmapPages, ready.virtToPhys_bitmap (by omega), Set.mem_Ico]
  have hheap : ∀ p, p ∈ heapInitPages s' ↔ heapPlace s e.base / pageSize ≤ p ∧
      p < heapPlace s e.base / pageSize + heapInitialPages := by
    intro p
    rw [heapInitPages, hphys, Set.mem_Ico]
  -- Each field is now arithmetic on the two intervals of pages.
  generalize heapPlace s e.base = heapPhys at *
  rw [hpage] at htop hebtop hebbase heblength hdvd
  simp only [hpage] at hbitmap hheap htest
  constructor
  · intro p hp
    rw [hbitmap', hbitmap] at hp
    exact ⟨eb, ready.mem_entries, ready.usable, by rw [hpage]; omega, by rw [hpage]; omega⟩
  · intro p hp
    rw [hheap] at hp
    exact ⟨e, placed.mem_entries, placed.usable, by rw [hpage]; omega, by rw [hpage]; omega⟩
  · rw [Set.disjoint_left]
    intro p hp hp'
    rw [hbitmap', hbitmap] at hp
    rw [hheap] at hp'
    omega
  · intro p hp
    rw [hbitmap'] at hp
    have hin := (hbitmap p).mp hp
    have hlt : p < s.pmmHighestPage := by omega
    have hset : bmpTest s p = true := by
      by_contra hne
      exact ((hclear p hlt).mp (by simpa using hne)).2 hp
    rw [htest p hlt, hset, Bool.or_true]
  · intro p hp
    rw [hheap] at hp
    rw [htest p (by omega), decide_eq_true hp, Bool.true_or]
  · omega
  · exact ⟨e, placed.mem_entries, placed.usable, by omega, by omega⟩
  · intro p hp
    rw [placed.highest] at hp
    rw [htest p hp, Bool.or_eq_false_iff, decide_eq_false_iff_not, hclear p hp, ← hheap, hbitmap',
      and_comm, and_assoc]

/-- Initialisation establishes a sound layout exactly when there is room for the heap. -/
theorem init_sound_iff {mem : Mem} (hmm : l.memmap = some mm)
    (hinit : init l (boot mem) = some s) : SoundLayout mm s ↔ RoomForHeap mm := by
  obtain ⟨mm', offset, s₁, hmm', hoff, hpmm, hheap⟩ := init_some hinit
  obtain rfl : mm = mm' := Option.some.inj (hmm.symm.trans hmm')
  have hmapped := l.mapped mm hmm offset hoff
  obtain ⟨eb, heb, hueb, hlen, hpos, hplace, rfl⟩ := pmmInit_some hmm hoff hpmm
  have hmeb := hmapped eb heb hueb
  have ready := pmmPlaced_ready (s := boot mem) heb hueb hlen hpos
    (show offset + eb.base < 2 ^ 64 by omega)
  obtain ⟨e, placed⟩ := heapInit_placed ready hmapped hheap
  rw [placed.room_iff ready hplace hmeb]
  constructor
  · intro sound
    have hcommitted := sound.committed_le
    have hlarge := placed.large
    have hpage : heapInitialPages * pageSize = 65536 := rfl
    obtain ⟨-, -, hhi, -⟩ := heapPlace_spec ready placed.mem_entries placed.usable (by omega) hmeb
    rw [placed.committed, placed.max] at hcommitted
    omega
  · exact placed.sound ready hmeb fun p hp => pmmPlaced_clear_iff ready (by omega) hp

instance (e f : MemmapEntry) : Decidable (e.Apart f) := inferInstanceAs (Decidable (_ ∨ _))

/-- The first region takes the bitmap, the second one, of just 16 pages, the heap. -/
def splitMap : MemoryMap where
  entries := [⟨4096, 8192, limineMemmapUsable⟩, ⟨16384, 4096, 1⟩, ⟨20480, 65536, limineMemmapUsable⟩]
  top_lt := by decide
  aligned := by decide
  apart := by decide
  no_page_zero := by decide

def splitLimine : Limine where
  memmap := some splitMap
  hhdm := some 0xFFFF800000000000
  mapped := by
    rintro mm ⟨⟩ offset ⟨⟩
    decide

@[irreducible] def splitBoot : State :=
  (init splitLimine (boot fun _ => 0)).get (by decide +kernel)

theorem init_splitBoot : init splitLimine (boot fun _ => 0) = some splitBoot := by
  unfold splitBoot
  exact (Option.some_get _).symm

theorem init_sound_splitBoot : SoundLayout splitMap splitBoot :=
  (init_sound_iff rfl init_splitBoot).mpr (by decide +kernel)

/-- 16 pages, all of them usable: enough for the heap, but not for the bitmap besides. -/
def tightMap : MemoryMap where
  entries := [⟨4096, 65536, limineMemmapUsable⟩]
  top_lt := by decide
  aligned := by decide
  apart := List.pairwise_singleton _ _
  no_page_zero := by decide

def tightLimine : Limine where
  memmap := some tightMap
  hhdm := some 0xFFFF800000000000
  mapped := by
    rintro mm ⟨⟩ offset ⟨⟩
    decide

@[irreducible] def tightBoot : State :=
  (init tightLimine (boot fun _ => 0)).get (by decide +kernel)

theorem init_tightBoot : init tightLimine (boot fun _ => 0) = some tightBoot := by
  unfold tightBoot
  exact (Option.some_get _).symm

/-- The heap commits a page more than its region has, behind the end of memory. -/
theorem init_not_sound : ¬∀ {l : Limine} {mm : MemoryMap} {mem : Mem} {s : State},
    l.memmap = some mm → init l (boot mem) = some s → SoundLayout mm s := by
  intro h
  have hcommitted := (h rfl init_tightBoot : SoundLayout tightMap tightBoot).committed_le
  exact absurd hcommitted (by decide +kernel)

end QuillOS.Memory
