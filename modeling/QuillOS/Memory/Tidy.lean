import QuillOS.Memory.Safety

/-!
# The heap stays tidy

No two neighbouring blocks are ever both free, and the counters follow the blocks in use. Each of
the four edits of the list (a split, the two joins of `kfree`, the join of a growth) keeps this, so
a heap from which everything has been given back is one free block again.
-/

namespace QuillOS.Memory

open Lib Lib.Mem Lib.Tiling

variable {s s' s₁ : State} {k k' : System} {ts ts' ts₁ : List Tile} {p q n m b size need y a : ℕ}

/-! ## Walks of the diagnostics -/

theorem walkBlocks_eq {α : Type} {f : α → ℕ → α} (hc : Blocks s.mem a ts 0) (ha : 0 < a) (acc : α)
    {fuel : ℕ} (hfuel : ts.length < fuel) :
    walkBlocks s f fuel acc (if ts = [] then 0 else a) =
      some ((starts sizeofBlock a ts).foldl f acc) := by
  induction ts generalizing a acc fuel with
  | nil =>
    obtain ⟨fuel, rfl⟩ : ∃ f, fuel = f + 1 := ⟨fuel - 1, by simp at hfuel; omega⟩
    simp [walkBlocks, starts]
  | cons t ts ih =>
    obtain ⟨fuel, rfl⟩ : ∃ f, fuel = f + 1 := ⟨fuel - 1, by simp at hfuel; omega⟩
    have hheader := hc.1
    rw [if_neg (List.cons_ne_nil t ts), walkBlocks, if_neg (by omega), hheader.nextAt_eq]
    apply ih hc.2 (by omega)
    simp at hfuel
    omega

/-- The walk from `heap_head` goes over the headers of the tiling. -/
theorem HeapInv.walkBlocks_eq {α : Type} (inv : HeapInv s ts) (f : α → ℕ → α) (acc : α) :
    walkBlocks s f walkLimit acc s.heapHead =
      some ((starts sizeofBlock s.heapRegionStart ts).foldl f acc) := by
  have hwalk := Memory.walkBlocks_eq (f := f) inv.blocks inv.pos acc inv.length_lt
  rw [if_neg inv.nonempty] at hwalk
  rw [inv.head, hwalk]

/-- The blocks that a walk along `next` visits, in its order. -/
def heapBlocks (s : State) : Option (List ℕ) :=
  walkBlocks s (fun visited b => visited ++ [b]) walkLimit [] s.heapHead

theorem HeapInv.heapBlocks_eq (inv : HeapInv s ts) :
    heapBlocks s = some (starts sizeofBlock s.heapRegionStart ts) := by
  have hfold : ∀ (bs visited : List ℕ),
      bs.foldl (fun visited b => visited ++ [b]) visited = visited ++ bs := by
    intro bs
    induction bs with
    | nil => exact fun visited => (List.append_nil _).symm
    | cons b bs ih =>
      intro visited
      rw [List.foldl_cons, ih, List.append_assoc]
      rfl
  rw [heapBlocks, inv.walkBlocks_eq, hfold, List.nil_append]

theorem HeapInv.heapBlockCount_eq (inv : HeapInv s ts) : heapBlockCount s = some ts.length := by
  have hfold : ∀ (a : ℕ) (ts : List Tile) (count : ℕ), count + ts.length < 2 ^ 64 →
      (starts sizeofBlock a ts).foldl (fun count _ => w64 (count + 1)) count =
        count + ts.length := by
    intro a ts
    induction ts generalizing a with
    | nil => exact fun count _ => rfl
    | cons t ts ih =>
      intro count hcount
      rw [List.length_cons] at hcount ⊢
      rw [starts, List.foldl_cons, w64_eq (by omega), ih _ _ (by omega)]
      omega
  have hlength := inv.length_lt
  unfold walkLimit at hlength
  rw [heapBlockCount, inv.walkBlocks_eq, hfold _ _ _ (by omega), Nat.zero_add]

theorem HeapInv.heapFreeBytes_eq (inv : HeapInv s ts) : heapFreeBytes s = some (freeBytes ts) := by
  have hfold : ∀ (a : ℕ) (ts : List Tile) (free : ℕ), Blocks s.mem a ts 0 →
      free + freeBytes ts < 2 ^ 64 → (starts sizeofBlock a ts).foldl
        (fun free b => if freeAt s b then w64 (free + sizeAt s b) else free) free =
          free + freeBytes ts := by
    intro a ts
    induction ts generalizing a with
    | nil => exact fun free _ _ => rfl
    | cons t ts ih =>
      intro free hc hfree
      have hheader := hc.1
      rw [starts, List.foldl_cons, hheader.freeAt_eq, hheader.sizeAt_eq]
      unfold freeBytes at *
      cases ht : t.free with
      | true =>
        simp only [List.filter_cons, ht, if_true, List.map_cons, List.sum_cons] at hfree ⊢
        rw [w64_eq (by omega), ih _ _ hc.2 (by omega)]
        omega
      | false =>
        simp only [List.filter_cons, ht, Bool.false_eq_true, if_false] at hfree ⊢
        exact ih _ _ hc.2 hfree
  have hstop := inv.stop_lt
  rw [stop_eq] at hstop
  rw [heapFreeBytes, inv.walkBlocks_eq, hfold _ _ _ inv.blocks (by omega), Nat.zero_add]

/-! ## What the headers say about the tiles -/

theorem HeapInv.unique (inv : HeapInv s ts) (inv' : HeapInv s ts') : ts = ts' := by
  refine Chain.unique inv.blocks inv'.blocks ?_ inv.pos inv.nonempty inv'.nonempty
  rintro x ⟨size, free⟩ n ⟨size', free'⟩ n' hx hx'
  refine ⟨?_, hx.next.symm.trans hx'.next⟩
  rw [Tile.mk.injEq]
  exact ⟨hx.size.symm.trans hx'.size, hx.free.symm.trans hx'.free⟩

theorem Blocks.map_freeAt (hc : Blocks s.mem a ts 0) :
    (starts sizeofBlock a ts).map (freeAt s) = ts.map Tile.free := by
  induction ts generalizing a with
  | nil => rfl
  | cons t ts ih => rw [starts, List.map_cons, List.map_cons, hc.1.freeAt_eq, ih hc.2]

/-- The sizes a walk reads in the blocks in use. -/
theorem Blocks.map_used (hc : Blocks s.mem a ts 0) :
    ((starts sizeofBlock a ts).filter fun b => !freeAt s b).map (sizeAt s) =
      (used sizeofBlock a ts).map Prod.snd := by
  induction ts generalizing a with
  | nil => rfl
  | cons t ts ih =>
    have hheader := hc.1
    rw [starts, used]
    cases ht : t.free <;> simp [hheader.freeAt_eq, hheader.sizeAt_eq, ht, ih hc.2]

/-- Each block starts where the one before it ends. -/
theorem Blocks.adjacent (hc : Blocks s.mem a ts 0) :
    (starts sizeofBlock a ts).IsChain fun b c => c = b + sizeofBlock + sizeAt s b := by
  induction ts generalizing a with
  | nil => exact List.isChain_nil
  | cons t ts ih =>
    have hheader := hc.1
    rw [starts, List.isChain_cons]
    refine ⟨?_, ih hc.2⟩
    intro c hhead
    rw [hheader.sizeAt_eq]
    cases ts with
    | nil => cases hhead
    | cons u ts => exact (Option.some.inj hhead).symm

theorem Blocks.last (hc : Blocks s.mem a ts 0) :
    ∀ b ∈ (starts sizeofBlock a ts).getLast?,
      b + sizeofBlock + sizeAt s b = stop sizeofBlock a ts := by
  intro b hb
  rcases List.eq_nil_or_concat' ts with rfl | ⟨pre, t, rfl⟩
  · cases hb
  · have hheader := hc.header
    have hlast : stop sizeofBlock a pre = b := by simpa [starts_append, starts] using hb
    rw [hlast] at hheader
    rw [hheader.sizeAt_eq, stop_append, hlast]
    rfl

/-! ## The counters -/

/-- What the allocator says about the payloads in use. -/
def State.counters (s : State) : ℕ × ℕ := (s.statAllocCount, s.statAllocBytes)

theorem markPage_counters : (markPage s p).counters = s.counters := by
  unfold markPage
  split <;> rfl

theorem markPages_counters : (markPages s p n).counters = s.counters := by
  induction n with
  | zero => rfl
  | succ n ih => rw [markPages, markPage_counters, ih]

theorem coalesceNext_counters : (coalesceNext s b).counters = s.counters := by
  unfold coalesceNext
  simp only
  split <;> rfl

theorem coalescePrev_counters : (coalescePrev s p b).counters = s.counters := by
  unfold coalescePrev
  split <;> rfl

theorem appendBlock_counters (h : appendBlock s b size = some s') : s'.counters = s.counters := by
  unfold appendBlock at h
  simp only at h
  obtain ⟨last, -, rfl⟩ := Option.map_eq_some_iff.mp h
  split <;> rfl

theorem growBy_counters (h : growBy s n = some s') : s'.counters = s.counters := by
  unfold growBy at h
  simp only at h
  obtain ⟨s₁, hs₁, rfl⟩ := Option.map_eq_some_iff.mp h
  exact (appendBlock_counters hs₁).trans markPages_counters

theorem takeBlock_counters : (takeBlock s b n).counters =
    (w64 (s.statAllocCount + 1), w64 (s.statAllocBytes + sizeAt (takeBlock s b n) b)) := by
  unfold takeBlock
  simp only
  split <;> rfl

theorem kfree_counters {x : ℕ} {t : Tile} (hx : Header s.mem x t n) (ht : t.free = false)
    (hptr : sub64 p sizeofBlock = x) (hp : p ≠ 0) (h : kfree s p = some s') :
    s'.counters = (sub64 s.statAllocCount 1, sub64 s.statAllocBytes t.size) := by
  unfold kfree at h
  simp only [hptr] at h
  rw [if_neg hp, if_neg (not_not.mpr hx.magicAt_eq), hx.freeAt_eq, ht,
    if_neg Bool.false_ne_true] at h
  obtain ⟨prev, -, rfl⟩ := Option.map_eq_some_iff.mp h
  have hsize : sizeAt (setFree s x true) x = t.size := (hx.setFree true).sizeAt_eq
  rw [coalescePrev_counters, coalesceNext_counters, ← hsize]
  rfl

/-- Number and bytes of a list of payloads. -/
def tally (l : List (ℕ × ℕ)) : ℕ × ℕ := (l.length, (l.map Prod.snd).sum)

theorem tally_insert (l₁ l₂ : List (ℕ × ℕ)) :
    tally (l₁ ++ (p, n) :: l₂) = ((tally (l₁ ++ l₂)).1 + 1, (tally (l₁ ++ l₂)).2 + n) := by
  simp only [tally, List.length_append, List.length_cons, List.map_append, List.map_cons,
    List.sum_append, List.sum_cons, Prod.mk.injEq]
  omega

/-! ## The invariant -/

/-- No two free neighbours, and the counters are those of the payloads in use. -/
structure Tidy (s : State) (ts : List Tile) : Prop where
  separated : Separated ts
  counted : s.counters = tally (used sizeofBlock s.heapRegionStart ts)

/-- What the counters count fits into them. -/
theorem HeapInv.tally_lt (inv : HeapInv s ts) :
    (tally (used sizeofBlock s.heapRegionStart ts)).1 < 2 ^ 64 ∧
      (tally (used sizeofBlock s.heapRegionStart ts)).2 < 2 ^ 64 := by
  have hstop := inv.stop_lt
  have hlength := inv.length_lt
  have hle := List.length_filter_le (fun t : Tile => !t.free) ts
  unfold walkLimit at hlength
  rw [stop_eq] at hstop
  simp only [tally, length_used, sum_used]
  omega

/-- The pointer to a block's payload leads back to its header. -/
theorem payloadSize_header {x : ℕ} (h : x + sizeofBlock < 2 ^ 64) :
    payloadSize s (x + sizeofBlock) = sizeAt s x := by
  rw [payloadSize, sub64_eq h (Nat.le_add_left _ _), Nat.add_sub_cancel]

/-- Handing out a block splits a free tile at most. -/
theorem Served.tidy (h : Served s ts need p s') (inv : HeapInv s ts) (tidy : Tidy s ts)
    (inv' : HeapInv s' ts') : Tidy s' ts' := by
  obtain ⟨pre, t, post, rfl, ht, -, rfl, rfl⟩ := h
  obtain rfl := inv'.unique (takeBlock_inv inv ht rfl).1
  obtain ⟨n, -, -, hused⟩ := used_carve (h := sizeofBlock) (a := s.heapRegionStart)
    minSplit pre post ht
  have hcounted := tidy.counted
  rw [used_append, used_free ht.1] at hcounted
  have hcounters := takeBlock_counters (s := s) (b := stop sizeofBlock s.heapRegionStart pre)
    (n := need)
  have hstart : (takeBlock s (stop sizeofBlock s.heapRegionStart pre) need).heapRegionStart =
      s.heapRegionStart := congrArg Layout.heapRegionStart takeBlock_layout
  generalize hs' : takeBlock s (stop sizeofBlock s.heapRegionStart pre) need = s' at *
  generalize stop sizeofBlock s.heapRegionStart pre = x at *
  rw [List.append_assoc, ← hstart] at hused
  have hlt := inv'.tally_lt
  have hstop := inv'.stop_lt
  -- The size added to the statistics is the one in the header written.
  have hsize : sizeAt s' x = n := by
    have hin : (x + sizeofBlock, n) ∈ used sizeofBlock s'.heapRegionStart
        (pre ++ (carve sizeofBlock minSplit need t ++ post)) := by
      rw [hused]
      simp
    have hbounds := used_bounds hin
    rw [← payloadSize_header (by omega)]
    exact inv'.sizeAt_used hin
  refine ⟨tidy.separated.carve ht.1, ?_⟩
  rw [hused, tally_insert] at hlt ⊢
  rw [hstart, ← hcounted] at hlt ⊢
  rw [hcounters, hsize]
  exact Prod.ext (w64_eq hlt.1) (w64_eq hlt.2)

/-- A growth adds a free tile, joined to the last one when that is free. -/
theorem Grown.tidy (h : Grown s ts need s₁ ts₁) (tidy : Tidy s ts)
    (hlayout : s₁.layout = s.layout) : Tidy s₁ ts₁ := by
  obtain ⟨hgrow, -, rfl⟩ := h
  have hstart : s₁.heapRegionStart = s.heapRegionStart :=
    congrArg Layout.heapRegionStart hlayout
  have hlast : Separated [⟨growSize s need - sizeofBlock, true⟩] := List.isChain_singleton _
  constructor
  · have hjoined := tidy.separated.joinLast (h := sizeofBlock) hlast rfl
    rwa [List.append_nil] at hjoined
  · rw [growBy_counters hgrow, hstart, used_joinLast rfl, tidy.counted]

theorem kmalloc_tidy (inv : HeapInv s ts) (reg : RegionInv s) (tidy : Tidy s ts) (hsize : size ≠ 0)
    (hmax : s.heapCommitted ≤ s.heapMaxBytes)
    (hfit : s.heapMaxBytes + wantedGrowth (needOf size) < 2 ^ 64)
    (hcall : kmalloc s size = some (p, s')) (inv' : HeapInv s' ts') : Tidy s' ts' := by
  obtain ⟨q, s₂, hcall', hcases⟩ := kmalloc_cases inv reg hsize hmax hfit
  obtain ⟨rfl, rfl⟩ := Prod.mk.inj (Option.some.inj (hcall.symm.trans hcall'))
  rcases hcases with hserved | ⟨-, ⟨-, -, rfl⟩ | ⟨s₁, ts₁, hgrown, hcases⟩⟩
  · exact hserved.tidy inv tidy inv'
  · exact inv.unique inv' ▸ tidy
  · obtain ⟨inv₁, -, hlayout₁, -⟩ := hgrown.inv inv reg (growSize_le hmax hfit)
    have tidy₁ := hgrown.tidy tidy hlayout₁
    rcases hcases with ⟨-, hserved⟩ | ⟨-, rfl, -⟩
    · exact hserved.tidy inv₁ tidy₁ inv'
    · exact inv₁.unique inv' ▸ tidy₁

/-- Freeing joins the block to free neighbours on both sides. -/
theorem kfree_tidy (inv : HeapInv s ts) (tidy : Tidy s ts)
    (hp : (p, n) ∈ used sizeofBlock s.heapRegionStart ts) (hcall : kfree s p = some s')
    (inv' : HeapInv s' ts') : Tidy s' ts' := by
  have hbounds := used_bounds hp
  have hstop := inv.stop_lt
  obtain ⟨pre, post, rfl, rfl⟩ := mem_used_iff.mp hp
  obtain ⟨s₂, hs₂, inv₂, hlayout, -⟩ := kfree_inv inv rfl rfl
  obtain rfl : s' = s₂ := Option.some.inj (hcall.symm.trans hs₂)
  obtain rfl := inv'.unique inv₂
  have hstart : s'.heapRegionStart = s.heapRegionStart := congrArg Layout.heapRegionStart hlayout
  have hblock : sizeofBlock = 24 := rfl
  have hcounters := kfree_counters inv.blocks.header rfl
    (by rw [sub64_eq (by omega) (by omega), Nat.add_sub_cancel]) (by omega) hcall
  have hlt := inv.tally_lt
  have hcounted := tidy.counted
  rw [used_append, used_taken rfl, tally_insert] at hlt hcounted
  obtain ⟨hcount, hbytes⟩ := Prod.mk.inj hcounted
  constructor
  · obtain ⟨hpre, hrest⟩ := List.isChain_append.mp tidy.separated
    exact Separated.joinLast hpre (Separated.joinNext hrest.1.tail) joinNext_free
  · rw [hcounters, hcount, hbytes, hstart, released, used_append, used_joinLast joinNext_free,
      stop_joinLast, used_joinNext, sub64_eq hlt.1 (Nat.le_add_left _ _),
      sub64_eq hlt.2 (Nat.le_add_left _ _), Nat.add_sub_cancel, Nat.add_sub_cancel]

/-- Zeroing a payload that has come into use keeps the blocks. -/
theorem kcalloc_tidy {count elemSize : ℕ} (inv : HeapInv s ts) (reg : RegionInv s)
    (tidy : Tidy s ts) (hsize : size = w64 (count * elemSize)) (hpos : 0 < size)
    (hle : size ≤ 2 ^ 63) (hmax : s.heapCommitted ≤ s.heapMaxBytes)
    (hfit : s.heapMaxBytes + wantedGrowth (needOf size) < 2 ^ 64)
    (hcall : kcalloc s count elemSize = some (p, s')) (inv' : HeapInv s' ts') : Tidy s' ts' := by
  obtain ⟨q, s₁, ts₁, hcall₁, hstep, -, hcases⟩ :=
    kmalloc_step inv reg (Nat.ne_of_gt hpos) (Or.inr ⟨hmax, hfit⟩)
  have tidy₁ := kmalloc_tidy inv reg tidy (Nat.ne_of_gt hpos) hmax hfit hcall₁ hstep.inv
  unfold kcalloc at hcall
  simp only [← hsize, hcall₁, Option.map_some] at hcall
  obtain ⟨rfl, rfl⟩ := Prod.mk.inj (Option.some.inj hcall)
  rcases hcases with ⟨rfl, -⟩ | ⟨hne, n, l₁, l₂, hneed, -, hafter⟩
  · rw [if_neg (by simp)] at inv' ⊢
    exact hstep.inv.unique inv' ▸ tidy₁
  · rw [if_pos hne] at inv' ⊢
    have hin : (q, n) ∈ used sizeofBlock s₁.heapRegionStart ts₁ := by
      rw [show s₁.heapRegionStart = s.heapRegionStart from
        congrArg Layout.heapRegionStart hstep.layout, hafter]
      simp
    have hlen := (le_needOf hle).1
    have inv₁ : HeapInv { s₁ with mem := s₁.mem.fill q size 0 } ts₁ :=
      hstep.inv.of_payload hin rfl rfl fun y hy => fill_of_outside (by omega)
    obtain rfl := inv₁.unique inv'
    exact ⟨tidy₁.separated, tidy₁.counted⟩

theorem Tidy.of_written {addr : ℕ} {v : UInt8} (tidy : Tidy s ts) :
    Tidy { s with mem := s.mem.store addr [v] } ts := ⟨tidy.separated, tidy.counted⟩

/-- Every call of a well-behaved caller keeps the heap tidy. -/
theorem Tidy.step {c : Call} (tidy : Tidy k.st ts) (inv : SafeInv k ts) (hc : HeapCall k c)
    (hstep : k.step c = some k') (inv' : SafeInv k' ts') : Tidy k'.st ts' := by
  have hcap : heapMaxPages * pageSize = 4194304 := rfl
  have hmax := inv.region.max_le
  cases c with
  | kmalloc size =>
    obtain ⟨hpos, hsize⟩ := hc
    have hwanted := wantedGrowth_le (le_needOf hsize).2
    obtain ⟨⟨p, s'⟩, hcall, rfl⟩ := Option.map_eq_some_iff.mp hstep
    have hheap := inv'.heap
    rw [System.allocated_st] at hheap ⊢
    exact kmalloc_tidy inv.heap inv.region tidy (Nat.ne_of_gt hpos) inv.bounded (by omega) hcall
      hheap
  | kcalloc count elemSize =>
    obtain ⟨hpos, hsize⟩ := hc
    have hwanted := wantedGrowth_le (le_needOf hsize).2
    have htotal : count * elemSize = w64 (count * elemSize) := (w64_eq (by omega)).symm
    obtain ⟨⟨p, s'⟩, hcall, rfl⟩ := Option.map_eq_some_iff.mp hstep
    have hheap := inv'.heap
    rw [System.allocated_st] at hheap ⊢
    exact kcalloc_tidy inv.heap inv.region tidy htotal hpos hsize inv.bounded (by omega) hcall hheap
  | kfree ptr =>
    obtain ⟨s', hcall, rfl⟩ := Option.map_eq_some_iff.mp hstep
    rcases hc with rfl | hlive
    · obtain rfl : k.st = s' := Option.some.inj hcall
      exact inv.heap.unique inv'.heap ▸ tidy
    · exact kfree_tidy inv.heap tidy (inv.mem_used hlive) hcall inv'.heap
  | pmmAllocPage => exact hc.elim
  | pmmFreePage phys => exact hc.elim
  | write addr v =>
    obtain ⟨p, hp, haddr⟩ := hc
    obtain rfl := Option.some.inj hstep
    exact (inv.written hp haddr).heap.unique inv'.heap ▸ tidy.of_written

/-! ## Runs -/

theorem init_counters {l : Limine} (h : init l s = some s') : s'.counters = (0, 0) := by
  unfold init at h
  split at h
  · obtain ⟨s₁, -, hheap⟩ := Option.bind_eq_some_iff.mp h
    unfold heapInit at hheap
    simp only at hheap
    split at hheap
    · cases hheap
    · obtain rfl := Option.some.inj hheap
      rfl
  · cases h

theorem init_tidy {l : Limine} (h : init l s = some s') :
    Tidy s' [⟨heapInitialPages * pageSize - sizeofBlock, true⟩] := by
  refine ⟨List.isChain_singleton _, ?_⟩
  rw [init_counters h, used_free rfl]
  rfl

/-- The invariant holds in every state a run reaches. -/
theorem tidy_of_run {l : Limine} {mem : Mem} {cs : List Call} (hinit : init l (boot mem) = some s)
    (hmax : s.heapCommitted ≤ s.heapMaxBytes)
    (hrun : Run (Where HeapCall System.Step) (start s) cs k) :
    ∃ ts, SafeInv k ts ∧ Tidy k.st ts := by
  apply hrun.invariant fun k => ∃ ts, SafeInv k ts ∧ Tidy k.st ts
  · exact ⟨_, SafeInv.of_ready (init_ready hinit) hmax, init_tidy hinit⟩
  · rintro k c k' ⟨ts, inv, tidy⟩ ⟨hc, hstep⟩
    obtain ⟨k'', ts', hk', inv', -⟩ := inv.step hc
    obtain rfl : k' = k'' := Option.some.inj (hstep.symm.trans hk')
    exact ⟨ts', inv', tidy.step inv hc hstep inv'⟩

/-- The heap as a walk from `heap_head` and the diagnostics show it: the blocks visited lie one
behind the other, ascend, fill the committed bytes and have no two free neighbours, and the
statistics are those of the blocks in use. -/
structure TidyHeap (s : State) (blocks : List ℕ) : Prop where
  walk : heapBlocks s = some blocks
  head : blocks.head? = some s.heapRegionStart
  increasing : blocks.Pairwise (· < ·)
  adjacent : blocks.IsChain fun b c => c = b + sizeofBlock + sizeAt s b
  last : ∀ b ∈ blocks.getLast?,
    b + sizeofBlock + sizeAt s b = s.heapRegionStart + s.heapCommitted
  coalesced : blocks.IsChain fun b c => ¬(freeAt s b = true ∧ freeAt s c = true)
  bytes : heapAllocatedBytes s = ((blocks.filter fun b => !freeAt s b).map (sizeAt s)).sum
  count : heapAllocCount s = (blocks.filter fun b => !freeAt s b).length
  total : ∃ free count, heapFreeBytes s = some free ∧ heapBlockCount s = some count ∧
    heapAllocatedBytes s + free + sizeofBlock * count = heapTotalSize s

theorem Tidy.heap (tidy : Tidy s ts) (inv : HeapInv s ts) :
    TidyHeap s (starts sizeofBlock s.heapRegionStart ts) := by
  obtain ⟨hcount, hbytes⟩ := Prod.mk.inj tidy.counted
  have hused := Blocks.map_used inv.blocks
  have hfree := Blocks.map_freeAt inv.blocks
  constructor
  · exact inv.heapBlocks_eq
  · cases hts : ts with
    | nil => exact absurd hts inv.nonempty
    | cons t ts => rfl
  · refine (starts_pairwise sizeofBlock s.heapRegionStart ts).imp ?_
    intro x y hxy
    have hblock : sizeofBlock = 24 := rfl
    omega
  · exact Blocks.adjacent inv.blocks
  · rw [← inv.tiled]
    exact Blocks.last inv.blocks
  · have hflags : (ts.map Tile.free).IsChain fun f g => f = true → g = false :=
      (List.isChain_map Tile.free).mpr tidy.separated
    rw [← hfree] at hflags
    refine ((List.isChain_map (freeAt s)).mp hflags).imp ?_
    rintro b c hbc ⟨hb, hc⟩
    rw [hbc hb] at hc
    cases hc
  · rw [hused]
    exact hbytes
  · rw [← List.length_map (sizeAt s), hused, List.length_map]
    exact hcount
  · refine ⟨_, _, inv.heapFreeBytes_eq, inv.heapBlockCount_eq, ?_⟩
    have htiled := inv.tiled
    rw [stop_eq, ← sum_used sizeofBlock s.heapRegionStart ts] at htiled
    change s.statAllocBytes + _ + _ = s.heapCommitted
    omega

/-- In every state a run reaches the heap is tidy, and it is a single free block when nothing is
live; and the next call returns. -/
theorem heap_tidy {l : Limine} {mem : Mem} {cs : List Call} (hinit : init l (boot mem) = some s)
    (hmax : s.heapCommitted ≤ s.heapMaxBytes)
    (hrun : Run (Where HeapCall System.Step) (start s) cs k) :
    ∃ blocks, TidyHeap k.st blocks ∧
      (k.live = [] → ∃ b, blocks = [b] ∧ freeAt k.st b = true) ∧
      ∀ c, HeapCall k c → ∃ k', k.step c = some k' := by
  obtain ⟨ts, inv, tidy⟩ := tidy_of_run hinit hmax hrun
  refine ⟨_, tidy.heap inv.heap, ?_, ?_⟩
  · intro hlive
    -- No block is in use, and two free ones would be neighbours.
    have hnone : used sizeofBlock k.st.heapRegionStart ts = [] := by
      have hperm := inv.live
      rw [hlive] at hperm
      exact List.map_eq_nil_iff.mp hperm.nil_eq.symm
    obtain ⟨n, rfl⟩ := tidy.separated.single inv.heap.nonempty hnone
    exact ⟨_, rfl, inv.heap.blocks.1.freeAt_eq⟩
  · intro c hc
    obtain ⟨k', -, hk', -⟩ := inv.step hc
    exact ⟨k', hk'⟩

/-- Everything allocated is given back, the first payload first. -/
def allFreedCalls : List Call :=
  smallCalls ++ [.kmalloc 40000, .kfree 0xFFFF8000000020A0, .kfree 0xFFFF800000002108]

@[irreducible] def afterAllFreed : System :=
  (exec (guarded HeapCall System.step) (start smallBoot) allFreedCalls).get (by decide +kernel)

theorem run_allFreedCalls :
    Run (Where HeapCall System.Step) (start smallBoot) allFreedCalls afterAllFreed := by
  unfold afterAllFreed
  exact run_where_get _

theorem heap_tidy_allFreed : afterAllFreed.live = [] ∧ afterAllFreed.results.length = 3 ∧
    ∃ blocks, TidyHeap afterAllFreed.st blocks ∧
      ∃ b, blocks = [b] ∧ freeAt afterAllFreed.st b = true := by
  have hlive : afterAllFreed.live = [] := by decide +kernel
  obtain ⟨blocks, htidy, hsingle, -⟩ := heap_tidy init_smallBoot smallBoot_bounded run_allFreedCalls
  exact ⟨hlive, by decide +kernel, blocks, htidy, hsingle hlive⟩

end QuillOS.Memory
