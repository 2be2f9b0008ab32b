import QuillOS.Memory.Tidy
import QuillOS.Memory.Requests

/-!
# Double frees

`kfree` trusts the bytes in front of the pointer. While nothing but the allocator writes to the
heap, those in front of a pointer that was freed are a header marked free, a zeroed word, or a field
of a later header 8 or 16 bytes off, and none of these passes for a block in use: a size is too
small and an address too well aligned to be read as the magic number.
-/

namespace QuillOS.Memory

open Lib Lib.Mem Lib.Tiling

variable {s s' s₁ : State} {k k' : System} {ts ts' ts₁ pre post : List Tile} {t : Tile}
  {a x y z b p n size need : ℕ}

/-! ## What `kfree` refuses -/

/-- The bytes at `b` are not the header of a block in use. -/
def Refused (s : State) (b : ℕ) : Prop := magicAt s b = blockMagic → freeAt s b = true

theorem Refused.congr (h : Refused s b) (hmem : ∀ y, b ≤ y → y < b + 8 → s'.mem y = s.mem y) :
    Refused s' b := by
  have hmagic : magicAt s' b = magicAt s b :=
    loadNat_congr fun i hi => hmem (b + i) (by omega) (by omega)
  have hfree : freeAt s' b = freeAt s b := by
    unfold freeAt
    rw [hmem (b + 4) (by omega) (by omega)]
  intro h'
  rw [hfree]
  exact h (hmagic ▸ h')

theorem kfree_refused (hp : sizeofBlock ≤ p) (hlt : p < 2 ^ 64) (h : Refused s (p - sizeofBlock)) :
    ∃ text, kfree s p = some (consolePrint s text) := by
  have hblock : sizeofBlock = 24 := rfl
  unfold kfree
  rw [if_neg (by omega)]
  simp only [sub64_eq hlt hp]
  by_cases hmagic : magicAt s (p - sizeofBlock) = blockMagic
  · rw [if_neg (not_not.mpr hmagic), if_pos (h hmagic)]
    exact ⟨_, rfl⟩
  · rw [if_pos hmagic]
    exact ⟨_, rfl⟩

/-- Inside a header, only the start of a block in use is taken for one. -/
theorem Header.refused (hz : Header s.mem z t n) (hb : 8 ∣ b) (hz8 : 8 ∣ z) (hlo : z < b + 8)
    (hhi : b < z + sizeofBlock) (hsize : t.size < blockMagic) (hn : 8 ∣ n)
    (hfree : b = z → t.free = true) : Refused s b := by
  have hmagic : blockMagic = 0xCAFEB00C := rfl
  have hcases : b = z ∨ b = z + 8 ∨ b = z + 16 := by
    unfold sizeofBlock at hhi
    omega
  intro hread
  rcases hcases with rfl | rfl | rfl
  · rw [hz.freeAt_eq]
    exact hfree rfl
  · -- The low half of a size.
    have hlow := loadNat_mod (m := s.mem) (a := z + 8) (show 4 ≤ 8 by decide)
    rw [hz.size] at hlow
    unfold magicAt at hread
    omega
  · -- The low half of an address.
    have hlow := loadNat_mod (m := s.mem) (a := z + 16) (show 4 ≤ 8 by decide)
    rw [hz.next] at hlow
    unfold magicAt at hread
    omega

/-! ## Sites of headers -/

/-- A tiled heap of at most 4 MiB whose headers are aligned. -/
structure AlignedHeap (s : State) (ts : List Tile) : Prop extends HeapInv s ts where
  start_aligned : 8 ∣ s.heapRegionStart
  sized : Sized 8 ts
  small : s.heapCommitted ≤ heapMaxPages * pageSize

/-- A place where a header may have been. -/
structure Site (s : State) (b : ℕ) : Prop where
  aligned : 8 ∣ b
  above : s.heapRegionStart ≤ b
  below : b + sizeofBlock ≤ s.heapRegionStart + s.heapCommitted

/-- No block in use begins at `b`. -/
def Vacant (s : State) (ts : List Tile) (b : ℕ) : Prop :=
  ∀ n, (b + sizeofBlock, n) ∉ used sizeofBlock s.heapRegionStart ts

/-- Places that would be refused where no block in use begins still are. -/
def Retains (s : State) (ts : List Tile) (s' : State) (ts' : List Tile) : Prop :=
  ∀ b, Site s b → (Vacant s ts b → Refused s b) → Vacant s' ts' b → Refused s' b

theorem AlignedHeap.refused (heap : AlignedHeap s ts)
    (hz : z ∈ starts sizeofBlock s.heapRegionStart ts) (hb : 8 ∣ b) (hlo : z < b + 8)
    (hhi : b < z + sizeofBlock) (hvacant : Vacant s ts b) : Refused s b := by
  have hblock : 8 ∣ sizeofBlock := ⟨3, rfl⟩
  have hz8 := heap.sized.dvd_starts hblock heap.start_aligned hz
  obtain ⟨pre, t, post, rfl, rfl⟩ := exists_of_mem_starts hz
  have hheader := heap.blocks.header
  have ht := (sized_cons.mp (sized_append.mp heap.sized).2).1
  have hle := heap.tile_le (show t ∈ pre ++ t :: post by simp)
  have hsmall := heap.small
  have hcap : heapMaxPages * pageSize = 4194304 := rfl
  have hmagic : blockMagic = 0xCAFEB00C := rfl
  refine hheader.refused hb hz8 hlo hhi (by omega) ?_ ?_
  · split
    · exact dvd_zero 8
    · exact dvd_add (dvd_add hz8 hblock) ht
  · rintro rfl
    by_contra hfree
    apply hvacant t.size
    have htile : t = ⟨t.size, false⟩ := by
      rw [← Bool.eq_false_of_not_eq_true hfree]
    exact mem_used_iff.mpr ⟨pre, post, by rw [← htile], rfl⟩

/-- A step that writes to headers of the new list only: what it overwrote is refused, the rest reads
as before. -/
theorem AlignedHeap.refused_of_off (heap : AlignedHeap s' ts') (hb : 8 ∣ b)
    (hsame : ∀ y, b ≤ y → y < b + 8 → OffHeaders s'.heapRegionStart ts' y → s'.mem y = s.mem y)
    (hvacant : Vacant s' ts' b)
    (hold : (∀ z ∈ starts sizeofBlock s'.heapRegionStart ts', b + 8 ≤ z ∨ z + sizeofBlock ≤ b) →
      Refused s b) : Refused s' b := by
  by_cases hoff : ∀ z ∈ starts sizeofBlock s'.heapRegionStart ts', b + 8 ≤ z ∨ z + sizeofBlock ≤ b
  · apply (hold hoff).congr
    intro y hy hy'
    apply hsame y hy hy'
    intro z hz
    have hz' := hoff z hz
    omega
  · push Not at hoff
    obtain ⟨z, hz, hlo, hhi⟩ := hoff
    exact heap.refused hz hb hlo hhi hvacant

theorem Retains.trans (h : Retains s ts s₁ ts₁) (h' : Retains s₁ ts₁ s' ts')
    (hstart : s₁.heapRegionStart = s.heapRegionStart)
    (hcommitted : s.heapCommitted ≤ s₁.heapCommitted) : Retains s ts s' ts' := by
  intro b hsite hold
  have hsite₁ : Site s₁ b := by
    have hbelow := hsite.below
    exact ⟨hsite.aligned, hstart ▸ hsite.above, by omega⟩
  exact h' b hsite₁ (h b hsite hold)

/-! ## Allocations -/

theorem splitBlock_off (hy : y < x ∨ x + sizeofBlock ≤ y)
    (hr : y < w64 (x + sizeofBlock + n) ∨ w64 (x + sizeofBlock + n) + sizeofBlock ≤ y) :
    (splitBlock s x n).mem y = s.mem y := by
  unfold splitBlock
  simp only
  rw [setNext_outside _ _ _ y hy, setSize_outside _ _ _ y hy, setNext_outside _ _ _ y hr,
    setSize_outside _ _ _ y hr, setFree_outside _ _ _ y hr, setMagic_outside _ _ y hr]

/-- Taking a block writes to its header, and to that of what is split off. -/
theorem takeBlock_off (hx : sizeAt s x = t.size) (hneed : need ≤ t.size) (hstart : pageSize ≤ x)
    (hend : x + sizeofBlock + t.size < 2 ^ 64)
    (hy : OffHeaders x (carve sizeofBlock minSplit need t) y) :
    (takeBlock s x need).mem y = s.mem y := by
  have hblock : sizeofBlock = 24 := rfl
  have hsplit : minSplit = 32 := rfl
  have hpage : pageSize = 4096 := rfl
  have hsum : w64 (need + sizeofBlock + minSplit) = need + sizeofBlock + minSplit :=
    w64_eq (by omega)
  unfold takeBlock
  simp only [hx, hsum]
  unfold carve at hy
  split at hy
  · next hlarge =>
    have hy₁ := hy x (by simp [starts])
    have hy₂ := hy (x + sizeofBlock + need) (by simp [starts])
    have hr : w64 (x + sizeofBlock + need) = x + sizeofBlock + need := w64_eq (by omega)
    rw [if_pos hlarge, setFree_outside _ _ _ y hy₁]
    exact splitBlock_off hy₁ (hr.symm ▸ hy₂)
  · next hsmall =>
    rw [if_neg hsmall]
    exact setFree_outside _ _ _ y (hy x (by simp [starts]))

/-- Serving a request: the places of the blocks that were in use stay, one is added. -/
theorem Served.retains (h : Served s ts need p s') (heap : AlignedHeap s ts) (hneed : 8 ∣ need) :
    ∃ ts', AlignedHeap s' ts' ∧ s'.heapRegionStart = s.heapRegionStart ∧
      s'.heapCommitted = s.heapCommitted ∧ Retains s ts s' ts' := by
  have hblock : 8 ∣ sizeofBlock := ⟨3, rfl⟩
  obtain ⟨pre, t, post, rfl, ht, -, -, rfl⟩ := h
  obtain ⟨inv', -⟩ := takeBlock_inv heap.toHeapInv ht rfl
  have hstart : (takeBlock s (stop sizeofBlock s.heapRegionStart pre) need).heapRegionStart =
      s.heapRegionStart := congrArg Layout.heapRegionStart takeBlock_layout
  obtain ⟨hpre, hrest⟩ := sized_append.mp heap.sized
  obtain ⟨hsize, hpost⟩ := sized_cons.mp hrest
  have heap' : AlignedHeap (takeBlock s (stop sizeofBlock s.heapRegionStart pre) need)
      (pre ++ (carve sizeofBlock minSplit need t ++ post)) := by
    constructor
    · exact inv'
    · rw [hstart]
      exact heap.start_aligned
    · exact sized_append.mpr ⟨hpre, sized_append.mpr ⟨Sized.carve hsize hblock hneed, hpost⟩⟩
    · rw [takeBlock_committed]
      exact heap.small
  refine ⟨_, heap', hstart, takeBlock_committed, ?_⟩
  intro b hsite hold hvacant
  have hroom := heap.stop_lt
  rw [stop_append, stop_cons] at hroom
  have hafter := le_stop sizeofBlock
    (stop sizeofBlock s.heapRegionStart pre + sizeofBlock + t.size) post
  have hbefore := le_stop sizeofBlock s.heapRegionStart pre
  have hlow := heap.start_pos
  apply heap'.refused_of_off hsite.aligned _ hvacant
  · intro _
    apply hold
    intro n hn
    apply hvacant n
    obtain ⟨m, -, -, hused⟩ := used_carve (h := sizeofBlock) (a := s.heapRegionStart) minSplit
      pre post ht
    rw [List.append_assoc] at hused
    rw [hstart, hused]
    rw [used_append, used_free ht.1] at hn
    simp only [List.mem_append, List.mem_cons] at hn ⊢
    tauto
  · intro y _ _ hy
    apply takeBlock_off heap.blocks.header.sizeAt_eq ht.2 (by omega) (by omega)
    intro z hz
    apply hy z
    rw [hstart, starts_append, starts_append]
    exact List.mem_append_right _ (List.mem_append_left _ hz)

/-- A growth writes to the header of the last block, and behind every place there was. -/
theorem Grown.retains (h : Grown s ts need s₁ ts₁) (heap : AlignedHeap s ts) (reg : RegionInv s)
    (hle : s.heapCommitted + growSize s need ≤ s.heapMaxBytes) (hdvd : 8 ∣ growSize s need) :
    AlignedHeap s₁ ts₁ ∧ Retains s ts s₁ ts₁ := by
  have hblock : 8 ∣ sizeofBlock := ⟨3, rfl⟩
  obtain ⟨inv₁, -, hlayout, hcommitted, hbounded, hmem, -⟩ := h.inv heap.toHeapInv reg hle
  have hstart : s₁.heapRegionStart = s.heapRegionStart := congrArg Layout.heapRegionStart hlayout
  obtain ⟨-, -, rfl⟩ := h
  have hmax := reg.max_le
  have hsized : Sized 8 (joinLast sizeofBlock ts ⟨growSize s need - sizeofBlock, true⟩) :=
    Sized.joinLast heap.sized hblock (Nat.dvd_sub hdvd hblock)
  have heap₁ : AlignedHeap s₁ (joinLast sizeofBlock ts ⟨growSize s need - sizeofBlock, true⟩) :=
    ⟨inv₁, hstart ▸ heap.start_aligned, hsized, by omega⟩
  refine ⟨heap₁, ?_⟩
  intro b hsite hold hvacant
  apply heap₁.refused_of_off hsite.aligned _ hvacant
  · intro _
    apply hold
    intro n hn
    apply hvacant n
    rwa [hstart, used_joinLast rfl]
  · intro y hlo hhi hy
    have habove := hsite.above
    have hbelow := hsite.below
    have hapart := reg.heap_apart
    have hsize : sizeofBlock = 24 := rfl
    refine hmem y ?_ ?_ (by omega)
    · intro z hz
      apply hy z
      rw [hstart]
      exact starts_joinLast hz
    · unfold OffBitmap
      omega

theorem kmalloc_retains (heap : AlignedHeap s ts) (reg : RegionInv s)
    (hmax : s.heapCommitted ≤ s.heapMaxBytes) (hdvd : pageSize ∣ s.heapCommitted)
    (hmaxdvd : pageSize ∣ s.heapMaxBytes) (hpos : 1 ≤ size) (hsize : size ≤ 2 ^ 63)
    (hcall : kmalloc s size = some (p, s')) :
    ∃ ts', AlignedHeap s' ts' ∧ s'.heapRegionStart = s.heapRegionStart ∧
      s.heapCommitted ≤ s'.heapCommitted ∧ Retains s ts s' ts' := by
  have hcap : heapMaxPages * pageSize = 4194304 := rfl
  have hregion := reg.max_le
  have hneed := le_needOf hsize
  have hwanted := wantedGrowth_le hneed.2
  have hfit : s.heapMaxBytes + wantedGrowth (needOf size) < 2 ^ 64 := by omega
  have hneed8 : 8 ∣ needOf size := dvd_trans ⟨2, rfl⟩ (needOf_dvd size)
  have hpage : 8 ∣ pageSize := ⟨512, rfl⟩
  have hgrow8 : 8 ∣ growSize s (needOf size) := hpage.trans (dvd_growSize hmax hfit hdvd hmaxdvd)
  obtain ⟨q, s₂, hcall₂, hcases⟩ := kmalloc_cases heap.toHeapInv reg (by omega) hmax hfit
  obtain ⟨rfl, rfl⟩ := Prod.mk.inj (Option.some.inj (hcall.symm.trans hcall₂))
  rcases hcases with hserved | ⟨-, ⟨-, -, rfl⟩ | ⟨s₁, ts₁, hgrown, hcases⟩⟩
  · obtain ⟨ts', heap', hstart, hcommitted, hretains⟩ := hserved.retains heap hneed8
    exact ⟨ts', heap', hstart, hcommitted.ge, hretains⟩
  · exact ⟨ts, heap, rfl, le_rfl, fun b _ hold hvacant => hold hvacant⟩
  · have hle := growSize_le hmax hfit
    obtain ⟨-, -, hlayout, hcommitted₁, -, -, -⟩ := hgrown.inv heap.toHeapInv reg hle
    have hstart₁ : s₁.heapRegionStart = s.heapRegionStart :=
      congrArg Layout.heapRegionStart hlayout
    obtain ⟨heap₁, hretains₁⟩ := hgrown.retains heap reg hle hgrow8
    rcases hcases with ⟨-, hserved⟩ | ⟨-, rfl, -⟩
    · obtain ⟨ts', heap', hstart, hcommitted, hretains⟩ := hserved.retains heap₁ hneed8
      exact ⟨ts', heap', hstart.trans hstart₁, by omega,
        hretains₁.trans hretains hstart₁ (by omega)⟩
    · exact ⟨ts₁, heap₁, hstart₁, by omega, hretains₁⟩

/-- Zeroing a payload from its start on: the first byte of the magic number goes with any other. -/
theorem AlignedHeap.zeroed_retains (heap : AlignedHeap s ts)
    (hp : (p, n) ∈ used sizeofBlock s.heapRegionStart ts) :
    Retains s ts { s with mem := s.mem.fill p size 0 } ts := by
  have hblock : 8 ∣ sizeofBlock := ⟨3, rfl⟩
  have hp8 : 8 ∣ p := by
    obtain ⟨pre, post, rfl, rfl⟩ := mem_used_iff.mp hp
    exact dvd_add ((sized_append.mp heap.sized).1.dvd_stop hblock heap.start_aligned) hblock
  intro b hsite hold hvacant
  have haligned := hsite.aligned
  by_cases hin : p ≤ b ∧ b < p + size
  · intro hread
    -- The magic number begins with another byte than 0.
    have hlow := loadNat_mod (m := s.mem.fill p size 0) (a := b) (show 1 ≤ 4 by decide)
    have hbyte : (s.mem.fill p size 0).loadNat b 1 = 0 := by
      unfold loadNat
      rw [load_succ, fill_of_inside hin.1 hin.2]
      rfl
    change (s.mem.fill p size 0).loadNat b 4 = blockMagic at hread
    rw [hread, hbyte] at hlow
    exact absurd hlow (by decide)
  · apply (hold hvacant).congr
    intro y hy hy'
    exact fill_of_outside (by omega)

/-! ## Giving a block back -/

/-- The payloads in use once the block behind `pre` is free and joined to what follows. -/
theorem used_freed : used sizeofBlock a (pre ++ (joinNext sizeofBlock ⟨n, true⟩ post).1 ::
    (joinNext sizeofBlock ⟨n, true⟩ post).2) = used sizeofBlock a pre ++
      used sizeofBlock (stop sizeofBlock a pre + sizeofBlock + n) post := by
  rw [used_append, used_free joinNext_free, used_joinNext]

/-- Freeing a block and joining it to the next writes to its own header only. -/
theorem AlignedHeap.freed_retains (heap₁ : AlignedHeap s₁ (pre ++
      (joinNext sizeofBlock ⟨n, true⟩ post).1 :: (joinNext sizeofBlock ⟨n, true⟩ post).2))
    (hstart₁ : s₁.heapRegionStart = s.heapRegionStart)
    (hout : SameOutside s.mem s₁.mem (stop sizeofBlock s.heapRegionStart pre)
      (stop sizeofBlock s.heapRegionStart pre + sizeofBlock)) :
    Retains s (pre ++ ⟨n, false⟩ :: post) s₁ (pre ++
      (joinNext sizeofBlock ⟨n, true⟩ post).1 :: (joinNext sizeofBlock ⟨n, true⟩ post).2) := by
  intro b hsite hold hvacant
  have hmem : stop sizeofBlock s.heapRegionStart pre ∈ starts sizeofBlock s₁.heapRegionStart
      (pre ++ (joinNext sizeofBlock ⟨n, true⟩ post).1 ::
        (joinNext sizeofBlock ⟨n, true⟩ post).2) := by
    rw [hstart₁]
    exact stop_mem_starts _ _ _ _ _
  apply heap₁.refused_of_off hsite.aligned _ hvacant
  · intro hoff
    apply hold
    intro m hm
    have hapart := hoff _ hmem
    have hpos : 0 < sizeofBlock := by decide
    rw [used_append, used_taken rfl, List.mem_append, List.mem_cons] at hm
    rcases hm with hm | hm | hm
    · apply hvacant m
      rw [hstart₁, used_freed]
      exact List.mem_append_left _ hm
    · have hbm := (Prod.mk.inj hm).1
      omega
    · apply hvacant m
      rw [hstart₁, used_freed]
      exact List.mem_append_right _ hm
  · intro y _ _ hy
    exact hout y (hy _ hmem)

/-- Joining a free block to the one before writes to the header of that one only. -/
theorem AlignedHeap.coalesced_retains {prev : ℕ}
    (heap₂ : AlignedHeap (coalescePrev s₁ prev x) (released pre ⟨n, false⟩ post))
    (hstart₁ : s₁.heapRegionStart = a)
    (hstart₂ : (coalescePrev s₁ prev x).heapRegionStart = a)
    (hprev : prev = if pre = [] then 0 else stop sizeofBlock a pre.dropLast) :
    Retains s₁ (pre ++ (joinNext sizeofBlock ⟨n, true⟩ post).1 ::
      (joinNext sizeofBlock ⟨n, true⟩ post).2) (coalescePrev s₁ prev x)
      (released pre ⟨n, false⟩ post) := by
  intro b hsite hold hvacant
  apply heap₂.refused_of_off hsite.aligned _ hvacant
  · intro _
    apply hold
    intro m hm
    apply hvacant m
    rw [hstart₁, used_freed] at hm
    rwa [hstart₂, released, used_append, used_joinLast joinNext_free, stop_joinLast, used_joinNext]
  · intro y _ _ hy
    rw [hstart₂] at hy
    apply coalescePrev_off_prev hprev
    rintro pre' u rfl
    apply hy
    rw [released, starts_append]
    apply List.mem_append_left
    apply starts_joinLast
    exact stop_mem_starts _ _ _ _ _

/-- What `kfree` does to the block at `p`: its own header, when that becomes part of another block,
stays behind marked free. -/
theorem kfree_retains (heap : AlignedHeap s ts)
    (hp : (p, n) ∈ used sizeofBlock s.heapRegionStart ts) :
    ∃ s' ts', kfree s p = some s' ∧ AlignedHeap s' ts' ∧
      s'.heapRegionStart = s.heapRegionStart ∧ s'.heapCommitted = s.heapCommitted ∧
      Retains s ts s' ts' := by
  have hblock : 8 ∣ sizeofBlock := ⟨3, rfl⟩
  obtain ⟨pre, post, rfl, rfl⟩ := mem_used_iff.mp hp
  obtain ⟨hpre, hrest⟩ := sized_append.mp heap.sized
  obtain ⟨hsize, hpost⟩ := sized_cons.mp hrest
  obtain ⟨s₁, prev, hs', inv₁, hlayout₁, hcommitted₁, hout, hprev⟩ :=
    kfree_stages heap.toHeapInv rfl rfl
  obtain ⟨s₂, hs₂, inv₂, hlayout₂, hcommitted₂, -⟩ := kfree_inv heap.toHeapInv rfl rfl
  obtain rfl : coalescePrev s₁ prev (stop sizeofBlock s.heapRegionStart pre) = s₂ :=
    Option.some.inj (hs'.symm.trans hs₂)
  have hstart₁ : s₁.heapRegionStart = s.heapRegionStart := congrArg Layout.heapRegionStart hlayout₁
  have hstart₂ := congrArg Layout.heapRegionStart hlayout₂
  change State.heapRegionStart _ = s.heapRegionStart at hstart₂
  have hjoined : Sized 8 ((joinNext sizeofBlock ⟨n, true⟩ post).1 ::
      (joinNext sizeofBlock ⟨n, true⟩ post).2) := Sized.joinNext hpost hsize hblock
  have heap₁ : AlignedHeap s₁ (pre ++ (joinNext sizeofBlock ⟨n, true⟩ post).1 ::
      (joinNext sizeofBlock ⟨n, true⟩ post).2) := by
    constructor
    · exact inv₁
    · rw [hstart₁]
      exact heap.start_aligned
    · exact sized_append.mpr ⟨hpre, hjoined⟩
    · rw [hcommitted₁]
      exact heap.small
  have heap₂ : AlignedHeap (coalescePrev s₁ prev (stop sizeofBlock s.heapRegionStart pre))
      (released pre ⟨n, false⟩ post) := by
    constructor
    · exact inv₂
    · rw [hstart₂]
      exact heap.start_aligned
    · obtain ⟨hfirst, hlater⟩ := sized_cons.mp hjoined
      exact sized_append.mpr ⟨Sized.joinLast hpre hblock hfirst, hlater⟩
    · rw [hcommitted₂]
      exact heap.small
  refine ⟨_, _, hs', heap₂, hstart₂, hcommitted₂, ?_⟩
  have hfreed := heap₁.freed_retains hstart₁ hout
  have hcoalesced := heap₂.coalesced_retains hstart₁ hstart₂ hprev
  exact hfreed.trans hcoalesced hstart₁ hcommitted₁.ge

/-! ## Runs -/

/-- Calls of the allocator, with pointers to free that it has returned before; no other writes. -/
def AllocatorCall (k : System) : Call → Prop
  | .kmalloc size => 1 ≤ size ∧ size ≤ 2 ^ 63
  | .kcalloc count elemSize => 1 ≤ count * elemSize ∧ count * elemSize ≤ 2 ^ 63
  | .kfree ptr => ptr = 0 ∨ ptr ∈ k.results.map Prod.fst
  | _ => False

instance (k : System) : ∀ c, Decidable (AllocatorCall k c)
  | .kmalloc _ | .kcalloc _ _ => inferInstanceAs (Decidable (_ ∧ _))
  | .kfree ptr => inferInstanceAs (Decidable (ptr = 0 ∨ ptr ∈ k.results.map Prod.fst))
  | .pmmAllocPage | .pmmFreePage _ | .write _ _ => inferInstanceAs (Decidable False)

/-- Where a pointer was returned, `kfree` finds a block in use or refuses. -/
structure FreedInv (k : System) (ts : List Tile) : Prop where
  request : RequestInv k ts
  heap : AlignedHeap k.st ts
  given : ∀ q ∈ k.results.map Prod.fst, sizeofBlock ≤ q ∧ Site k.st (q - sizeofBlock) ∧
    (Vacant k.st ts (q - sizeofBlock) → Refused k.st (q - sizeofBlock))

theorem growthFits_of_le (inv : RequestInv k ts) (hsize : size ≤ 2 ^ 63) :
    GrowthFits k.st (needOf size) := by
  intro _
  have hcap : heapMaxPages * pageSize = 4194304 := rfl
  have hregion := inv.region.max_le
  have hwanted := wantedGrowth_le (le_needOf hsize).2
  omega

theorem AlignedHeap.site_of_used (heap : AlignedHeap s ts)
    (hp : (p, n) ∈ used sizeofBlock s.heapRegionStart ts) :
    sizeofBlock ≤ p ∧ Site s (p - sizeofBlock) ∧ ¬Vacant s ts (p - sizeofBlock) := by
  have hblock : 8 ∣ sizeofBlock := ⟨3, rfl⟩
  have hbounds := used_bounds hp
  rw [heap.tiled] at hbounds
  refine ⟨by omega, ⟨?_, by omega, by omega⟩, ?_⟩
  · obtain ⟨pre, post, rfl, rfl⟩ := mem_used_iff.mp hp
    rw [Nat.add_sub_cancel]
    exact (sized_append.mp heap.sized).1.dvd_stop hblock heap.start_aligned
  · intro hvacant
    apply hvacant n
    rwa [Nat.sub_add_cancel (by omega)]

/-- What a step retains, for the pointers returned before it. -/
theorem FreedInv.given_of_retains (inv : FreedInv k ts) (hretains : Retains k.st ts s' ts')
    (hstart : s'.heapRegionStart = k.st.heapRegionStart)
    (hcommitted : k.st.heapCommitted ≤ s'.heapCommitted) :
    ∀ q ∈ k.results.map Prod.fst, sizeofBlock ≤ q ∧ Site s' (q - sizeofBlock) ∧
      (Vacant s' ts' (q - sizeofBlock) → Refused s' (q - sizeofBlock)) := by
  intro q hq
  obtain ⟨hle, hsite, hold⟩ := inv.given q hq
  have hbelow := hsite.below
  exact ⟨hle, ⟨hsite.aligned, hstart ▸ hsite.above, by omega⟩, hretains _ hsite hold⟩

theorem FreedInv.allocate (inv : FreedInv k ts) (hpos : 1 ≤ size) (hsize : size ≤ 2 ^ 63) :
    ∃ p s' ts', kmalloc k.st size = some (p, s') ∧ FreedInv (k.allocated size (p, s')) ts' ∧
      (p ≠ 0 → ∃ n, size ≤ n ∧ (p, n) ∈ used sizeofBlock s'.heapRegionStart ts') := by
  obtain ⟨p, s', ts', hcall, request', hcases⟩ :=
    inv.request.request (growthFits_of_le inv.request hsize)
  obtain ⟨ts₁, heap₁, hstart, hcommitted, hretains⟩ := kmalloc_retains inv.heap
    inv.request.region inv.request.bounded inv.request.pages.committed_aligned
    inv.request.pages.max_aligned hpos hsize hcall
  have hheap := request'.heap
  rw [System.allocated_st] at hheap
  obtain rfl : ts' = ts₁ := hheap.unique heap₁.toHeapInv
  have hgiven := inv.given_of_retains hretains hstart hcommitted
  have hused : p ≠ 0 → ∃ n, size ≤ n ∧ (p, n) ∈ used sizeofBlock s'.heapRegionStart ts' := by
    intro hne
    obtain ⟨n, hn, hmem⟩ := hcases.exists_used hne hstart
    exact ⟨n, (le_needOf hsize).1.trans hn, hmem⟩
  refine ⟨p, s', ts', hcall, ⟨request', (System.allocated_st (p, s')).symm ▸ heap₁, ?_⟩, hused⟩
  rw [System.allocated_st]
  unfold System.allocated
  split
  · exact hgiven
  · next hne =>
    obtain ⟨n, -, hmem⟩ := hused hne
    obtain ⟨hle, hsite, htaken⟩ := heap₁.site_of_used hmem
    intro q hq
    rcases List.mem_cons.mp hq with rfl | hq
    · exact ⟨hle, hsite, fun hvacant => absurd hvacant htaken⟩
    · exact hgiven q hq

/-- The bytes of a payload in use are zeroed. -/
theorem FreedInv.zeroed (inv : FreedInv k ts)
    (hp : (p, n) ∈ used sizeofBlock k.st.heapRegionStart ts) (hsize : size ≤ n) :
    FreedInv { k with st := { k.st with mem := k.st.mem.fill p size 0 } } ts := by
  have request' := inv.request.zeroed hp hsize
  refine ⟨request', ⟨request'.heap, inv.heap.start_aligned, inv.heap.sized, inv.heap.small⟩, ?_⟩
  exact inv.given_of_retains (inv.heap.zeroed_retains hp) rfl le_rfl

theorem FreedInv.callocate {count elemSize : ℕ} (inv : FreedInv k ts)
    (hpos : 1 ≤ count * elemSize) (hsize : count * elemSize ≤ 2 ^ 63) :
    ∃ k' ts', k.step (.kcalloc count elemSize) = some k' ∧ FreedInv k' ts' := by
  obtain ⟨p, s', ts', hcall, inv', hused⟩ := inv.allocate hpos hsize
  have htotal : w64 (count * elemSize) = count * elemSize := w64_eq (by omega)
  rw [System.step, kcalloc]
  simp only [htotal, hcall, Option.map_some]
  by_cases hne : p = 0
  · exact ⟨_, ts', by rw [if_neg (not_not.mpr hne)], inv'⟩
  · obtain ⟨n, hle, hmem⟩ := hused hne
    rw [if_pos hne]
    refine ⟨_, ts', rfl, ?_⟩
    have hst : (k.allocated (count * elemSize) (p, s')).st = s' := System.allocated_st _
    have hzeroed := inv'.zeroed (hst.symm ▸ hmem) hle
    unfold System.allocated at hzeroed ⊢
    simp only [if_neg hne] at hzeroed ⊢
    exact hzeroed

theorem FreedInv.free_live (inv : FreedInv k ts) (hp : p ∈ k.live) :
    ∃ k' ts', k.step (.kfree p) = some k' ∧ FreedInv k' ts' := by
  have system : SystemInv k ts := ⟨inv.request.heap, inv.request.region, inv.request.pages.live⟩
  obtain ⟨n, hn⟩ := system.used_of_live hp
  obtain ⟨k', ts', hk', request'⟩ := inv.request.freed hp
  obtain ⟨s', ts₁, hs', heap₁, hstart, hcommitted, hretains⟩ := kfree_retains inv.heap hn
  rw [System.step, hs', Option.map_some] at hk'
  obtain rfl := Option.some.inj hk'
  obtain rfl : ts' = ts₁ := request'.heap.unique heap₁.toHeapInv
  refine ⟨_, ts', by rw [System.step, hs', Option.map_some], request', heap₁, ?_⟩
  exact inv.given_of_retains hretains hstart hcommitted.ge

/-- A pointer returned before and not live: `kfree` refuses it. -/
theorem FreedInv.refuses (inv : FreedInv k ts) (hp : p ∈ k.results.map Prod.fst)
    (hfreed : p ∉ k.live) : ∃ text, kfree k.st p = some (consolePrint k.st text) := by
  obtain ⟨hle, hsite, hrefused⟩ := inv.given p hp
  have hbelow := hsite.below
  have hfits := inv.heap.fits
  apply kfree_refused hle (by omega)
  apply hrefused
  intro n hn
  rw [Nat.sub_add_cancel hle] at hn
  apply hfreed
  exact inv.request.pages.live.mem_iff.mpr (List.mem_map_of_mem hn)

theorem FreedInv.printed (inv : FreedInv k ts) (text : String) :
    FreedInv { k with st := consolePrint k.st text } ts := by
  have heap' : HeapInv (consolePrint k.st text) ts :=
    inv.request.heap.update rfl rfl inv.request.heap.blocks inv.request.heap.nonempty rfl
  have hstep : HeapStep k.st ts (consolePrint k.st text) ts :=
    HeapStep.of_same inv.request.region heap' rfl rfl (fun _ _ _ _ _ _ => rfl) fun _ _ => rfl
  have hpages : PageInv ⟨consolePrint k.st text, k.live, k.results, []⟩ ts :=
    inv.request.pages.heapStep hstep inv.request.pages.committed_aligned
    inv.request.pages.live fun _ h => by cases h
  refine ⟨inv.request.held_congr rfl hpages inv.request.bounded,
    ⟨heap', inv.heap.start_aligned, inv.heap.sized, inv.heap.small⟩, ?_⟩
  exact inv.given_of_retains (fun b _ hold hvacant => hold hvacant) rfl le_rfl

theorem FreedInv.step {c : Call} (inv : FreedInv k ts) (hc : AllocatorCall k c) :
    ∃ k' ts', k.step c = some k' ∧ FreedInv k' ts' := by
  cases c with
  | kmalloc size =>
    obtain ⟨p, s', ts', hcall, inv', -⟩ := inv.allocate hc.1 hc.2
    exact ⟨_, ts', by rw [System.step, hcall, Option.map_some], inv'⟩
  | kcalloc count elemSize => exact inv.callocate hc.1 hc.2
  | kfree ptr =>
    by_cases hlive : ptr ∈ k.live
    · exact inv.free_live hlive
    · rcases hc with rfl | hgiven
      · refine ⟨k, ts, ?_, inv⟩
        rw [System.step, List.erase_of_not_mem hlive]
        rfl
      · obtain ⟨text, hrefused⟩ := inv.refuses hgiven hlive
        refine ⟨_, ts, ?_, inv.printed text⟩
        rw [System.step, hrefused, Option.map_some, List.erase_of_not_mem hlive]
  | pmmAllocPage => exact hc.elim
  | pmmFreePage phys => exact hc.elim
  | write addr v => exact hc.elim

theorem FreedInv.of_ready (hready : Ready s) (hmax : s.heapCommitted ≤ s.heapMaxBytes)
    (hhhdm : pageSize ∣ s.hhdm) :
    FreedInv (start s) [⟨heapInitialPages * pageSize - sizeofBlock, true⟩] := by
  have hpage : 8 ∣ pageSize := ⟨512, rfl⟩
  refine ⟨RequestInv.of_ready hready hmax, ⟨hready.inv, ?_, ?_, ?_⟩, fun q hq => by cases hq⟩
  · show 8 ∣ s.heapRegionStart
    rw [hready.start]
    exact hpage.trans (dvd_add hhhdm hready.base_aligned)
  · exact sized_cons.mpr ⟨⟨8189, rfl⟩, fun t ht => by cases ht⟩
  · exact hmax.trans hready.reg.max_le

theorem freed_of_run {cs : List Call} (hready : Ready s) (hmax : s.heapCommitted ≤ s.heapMaxBytes)
    (hhhdm : pageSize ∣ s.hhdm) (hrun : Run (Where AllocatorCall System.Step) (start s) cs k) :
    ∃ ts, FreedInv k ts := by
  apply hrun.invariant fun k => ∃ ts, FreedInv k ts
  · exact ⟨_, FreedInv.of_ready hready hmax hhhdm⟩
  · rintro a c b ⟨ts, inv⟩ ⟨hc, hstep⟩
    obtain ⟨k', ts', hk', inv'⟩ := inv.step hc
    obtain rfl : b = k' := Option.some.inj (hstep.symm.trans hk')
    exact ⟨ts', inv'⟩

theorem init_hhdm {l : Limine} (h : init l s = some s') : l.hhdm = some s'.hhdm := by
  obtain ⟨mm, offset, s₁, hmm, hoff, hpmm, hheap⟩ := init_some h
  have hmapped := l.mapped mm hmm offset hoff
  obtain ⟨eb, ready⟩ := pmmInit_ready hmm hoff hpmm
  obtain ⟨e, placed⟩ := heapInit_placed ready hmapped hheap
  rw [hoff, placed.hhdm, ready.hhdm]

/-- After any calls of the allocator, freeing a pointer that it returned and that has been given
back prints a message and changes nothing else. The direct map is made of whole pages, so its
offset is a multiple of the page size. -/
theorem double_free_caught {l : Limine} {mem : Mem} {cs : List Call}
    (hinit : init l (boot mem) = some s) (hmax : s.heapCommitted ≤ s.heapMaxBytes)
    (hhhdm : ∀ offset ∈ l.hhdm, pageSize ∣ offset)
    (hrun : Run (Where AllocatorCall System.Step) (start s) cs k)
    (hp : p ∈ k.results.map Prod.fst) (hfreed : p ∉ k.live) :
    ∃ text, kfree k.st p = some { k.st with console := k.st.console ++ [text] } := by
  obtain ⟨ts, inv⟩ := freed_of_run (init_ready hinit) hmax (hhhdm _ (init_hhdm hinit)) hrun
  exact inv.refuses hp hfreed

/-- Two blocks are merged by giving them back, and taken again as part of a larger one whose
zeroing stops inside the old header of the second. -/
def mergedCalls : List Call :=
  [.kmalloc 16, .kmalloc 16, .kfree 0xFFFF800000002018, .kfree 0xFFFF800000002040,
    .kfree 0xFFFF800000002040, .kcalloc 1 18]

@[irreducible] def afterMerge : System :=
  (exec (guarded AllocatorCall System.step) (start smallBoot) mergedCalls).get (by decide +kernel)

theorem run_mergedCalls :
    Run (Where AllocatorCall System.Step) (start smallBoot) mergedCalls afterMerge := by
  unfold afterMerge
  exact run_where_get _

theorem double_free_caught_merged : ∃ text, kfree afterMerge.st 0xFFFF800000002040 =
    some { afterMerge.st with console := afterMerge.st.console ++ [text] } := by
  have hpage : ∀ offset ∈ smallLimine.hhdm, pageSize ∣ offset := by
    rintro offset ⟨⟩
    decide
  exact double_free_caught init_smallBoot smallBoot_bounded hpage run_mergedCalls
    (by decide +kernel) (by decide +kernel)

end QuillOS.Memory
