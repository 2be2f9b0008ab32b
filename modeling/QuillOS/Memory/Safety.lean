import QuillOS.Lib.Run
import QuillOS.Memory.Init
import Mathlib.Order.CompletePartialOrder

/-!
# Heap safety over whole runs

Callers of the allocator take and return memory in any order and write to what they hold. Nothing
they were handed overlaps anything else on the heap, and the allocator never touches it.
-/

namespace QuillOS.Memory

open Lib Lib.Mem Lib.Tiling

/-! ## The allocator and its callers -/

inductive Call
  | kmalloc (size : ℕ)
  | kcalloc (count elemSize : ℕ)
  | kfree (ptr : ℕ)
  | pmmAllocPage
  | pmmFreePage (phys : ℕ)
  /-- A caller stores a byte. -/
  | write (addr : ℕ) (v : UInt8)

/-- The allocator together with what its callers hold. -/
structure System where
  st : State
  /-- Pointers handed out and not yet freed. -/
  live : List ℕ
  /-- Every pointer handed out so far, with the bytes asked for. -/
  results : List (ℕ × ℕ)
  /-- Physical pages handed out and not yet freed. -/
  held : List ℕ

def start (s : State) : System := ⟨s, [], [], []⟩

/-- An allocation of `size` bytes has returned. -/
def System.allocated (k : System) (size : ℕ) (r : ℕ × State) : System :=
  if r.1 = 0 then { k with st := r.2 }
  else { k with st := r.2, live := r.1 :: k.live, results := (r.1, size) :: k.results }

/-- `none` stands for a call that does not return. -/
def System.step (k : System) : Call → Option System
  | .kmalloc size => (kmalloc k.st size).map (k.allocated size)
  | .kcalloc count elemSize => (kcalloc k.st count elemSize).map (k.allocated (count * elemSize))
  | .kfree ptr => (kfree k.st ptr).map fun s => { k with st := s, live := k.live.erase ptr }
  | .pmmAllocPage =>
    let r := pmmAllocPage k.st
    some (if r.1 = 0 then { k with st := r.2 } else { k with st := r.2, held := r.1 :: k.held })
  | .pmmFreePage phys =>
    some { k with st := pmmFreePage k.st phys, held := k.held.erase phys }
  | .write addr v => some { k with st := { k.st with mem := k.st.mem.store addr [v] } }

abbrev System.Step (k : System) (c : Call) (k' : System) : Prop := k.step c = some k'

/-- `block->size` of the block behind a pointer. -/
def payloadSize (s : State) (p : ℕ) : ℕ := sizeAt s (sub64 p sizeofBlock)

/-- The addresses of the payload at `p`. -/
def payload (s : State) (p : ℕ) : Set ℕ := Set.Ico p (p + payloadSize s p)

/-- The addresses of the header at `b`. -/
def header (b : ℕ) : Set ℕ := Set.Ico b (b + sizeofBlock)

/-- The block at the address is reached from `heap_head` along `next`. -/
inductive OnList (s : State) : ℕ → Prop
  | head (h : s.heapHead ≠ 0) : OnList s s.heapHead
  | next {b : ℕ} (h : OnList s b) (h' : nextAt s b ≠ 0) : OnList s (nextAt s b)

/-- The calls of a well-behaved caller of the heap. -/
def HeapCall (k : System) : Call → Prop
  | .kmalloc size => 1 ≤ size ∧ size ≤ 2 ^ 63
  | .kcalloc count elemSize => 1 ≤ count * elemSize ∧ count * elemSize ≤ 2 ^ 63
  | .kfree ptr => ptr = 0 ∨ ptr ∈ k.live
  | .pmmAllocPage => False
  | .pmmFreePage _ => False
  | .write addr _ => ∃ p ∈ k.live, addr ∈ payload k.st p

/-! ## The invariant of a run -/

variable {s s' : State} {k k' : System} {ts ts' : List Tile} {p q n m b size y : ℕ}

/-- The live pointers are the payloads in use. -/
structure SystemInv (k : System) (ts : List Tile) : Prop where
  heap : HeapInv k.st ts
  region : RegionInv k.st
  live : k.live.Perm ((used sizeofBlock k.st.heapRegionStart ts).map Prod.fst)

theorem HeapInv.sizeAt_used (inv : HeapInv s ts)
    (hp : (p, n) ∈ used sizeofBlock s.heapRegionStart ts) : payloadSize s p = n := by
  obtain ⟨pre, post, rfl, rfl⟩ := mem_used_iff.mp hp
  have hbounds := used_bounds hp
  have hstop := inv.stop_lt
  unfold payloadSize
  rw [sub64_eq (by omega) (by omega), Nat.add_sub_cancel]
  exact inv.blocks.header.sizeAt_eq

theorem SystemInv.used_of_live (inv : SystemInv k ts) (hp : p ∈ k.live) :
    ∃ n, (p, n) ∈ used sizeofBlock k.st.heapRegionStart ts := by
  obtain ⟨⟨x, n⟩, hx, rfl⟩ := List.mem_map.mp (inv.live.mem_iff.mp hp)
  exact ⟨n, hx⟩

theorem SystemInv.mem_used (inv : SystemInv k ts) (hp : p ∈ k.live) :
    (p, payloadSize k.st p) ∈ used sizeofBlock k.st.heapRegionStart ts := by
  obtain ⟨n, hn⟩ := inv.used_of_live hp
  rwa [inv.heap.sizeAt_used hn]

theorem System.allocated_st (r : ℕ × State) : (k.allocated size r).st = r.2 := by
  unfold System.allocated
  split <;> rfl

/-- Freeing the null pointer does nothing. -/
theorem SystemInv.step_kfree_null (inv : SystemInv k ts) : k.step (.kfree 0) = some k := by
  have hzero : 0 ∉ k.live := by
    intro h
    obtain ⟨n, hn⟩ := inv.used_of_live h
    have hbounds := used_bounds hn
    have hpos := inv.heap.pos
    omega
  rw [System.step, List.erase_of_not_mem hzero]
  rfl

/-- The list walked from `heap_head` visits the headers of the tiling. -/
theorem HeapInv.starts_of_onList (inv : HeapInv s ts) (h : OnList s b) :
    b ∈ starts sizeofBlock s.heapRegionStart ts := by
  induction h with
  | head h =>
    rw [inv.head]
    cases hts : ts with
    | nil => exact absurd hts inv.nonempty
    | cons t ts => exact List.mem_cons_self
  | next h h' ih => exact next_mem_starts inv.blocks ih h'

/-- The pointer handed out, if any, joins the live ones. -/
theorem SystemInv.perm_allocated {need : ℕ} (inv : SystemInv k ts)
    (hstart : s'.heapRegionStart = k.st.heapRegionStart) (hcases : HandsOut k.st ts need p ts') :
    (if p = 0 then k.live else p :: k.live).Perm
      ((used sizeofBlock s'.heapRegionStart ts').map Prod.fst) := by
  have hlive := inv.live
  rw [hstart]
  rcases hcases with ⟨rfl, hused⟩ | ⟨hne, n, l₁, l₂, -, hbefore, hafter⟩
  · rwa [if_pos rfl, hused]
  · rw [hbefore, List.map_append] at hlive
    rw [if_neg hne, hafter, List.map_append, List.map_cons]
    exact (hlive.cons p).trans List.perm_middle.symm

/-- The pointer given back leaves the live ones. -/
theorem SystemInv.perm_freed {l₁ l₂ : List (ℕ × ℕ)} (inv : SystemInv k ts)
    (hbefore : used sizeofBlock k.st.heapRegionStart ts = l₁ ++ (p, n) :: l₂) :
    (k.live.erase p).Perm ((l₁ ++ l₂).map Prod.fst) := by
  have hlive := inv.live
  rw [hbefore, List.map_append, List.map_cons] at hlive
  have herase := (hlive.trans List.perm_middle).erase p
  rwa [List.erase_cons_head, ← List.map_append] at herase

/-- Besides: the heap has not outgrown its region, and all that was ever handed out lies in what is
committed. -/
structure SafeInv (k : System) (ts : List Tile) : Prop extends SystemInv k ts where
  bounded : k.st.heapCommitted ≤ k.st.heapMaxBytes
  results : ∀ r ∈ k.results, k.st.heapRegionStart ≤ r.1 ∧
    r.1 + r.2 ≤ k.st.heapRegionStart + k.st.heapCommitted

/-- What a step leaves alone: the payloads in use stay in use, with their bytes. -/
def Untouched (k : System) (ts : List Tile) (k' : System) (ts' : List Tile)
    (except : ℕ → Prop) : Prop :=
  ∀ x n, (x, n) ∈ used sizeofBlock k.st.heapRegionStart ts → ¬except x →
    (x, n) ∈ used sizeofBlock k'.st.heapRegionStart ts' ∧
      ∀ y, x ≤ y → y < x + n → k'.st.mem y = k.st.mem y

/-- An allocation that ended as `kmalloc` and `kcalloc` end. -/
theorem SafeInv.allocated (inv : SafeInv k ts) (hstep : HeapStep k.st ts s' ts')
    (hsize : size ≤ m)
    (hcases : HandsOut k.st ts m p ts') :
    SafeInv (k.allocated size (p, s')) ts' ∧
      Untouched k ts (k.allocated size (p, s')) ts' fun _ => False := by
  have hstart : s'.heapRegionStart = k.st.heapRegionStart :=
    congrArg Layout.heapRegionStart hstep.layout
  have hmax : s'.heapMaxBytes = k.st.heapMaxBytes := congrArg Layout.heapMaxBytes hstep.layout
  have hbounded := hstep.bounded inv.bounded
  have hgrown := hstep.committed
  have hresults : ∀ r ∈ k.results, s'.heapRegionStart ≤ r.1 ∧
      r.1 + r.2 ≤ s'.heapRegionStart + s'.heapCommitted := by
    intro r hr
    have hold := inv.results r hr
    omega
  have hperm := inv.perm_allocated hstart hcases
  unfold System.allocated
  rcases hcases with ⟨rfl, hused⟩ | ⟨hne, n, l₁, l₂, hneed, hbefore, hafter⟩
  · rw [if_pos rfl] at hperm ⊢
    refine ⟨⟨⟨hstep.inv, hstep.reg, hperm⟩, hmax ▸ hbounded, hresults⟩, ?_⟩
    · intro x m hx _
      refine ⟨?_, hstep.keeps x m hx⟩
      show (x, m) ∈ used sizeofBlock s'.heapRegionStart ts'
      rwa [hstart, hused]
  · rw [if_neg hne] at hperm ⊢
    have hin : (p, n) ∈ used sizeofBlock s'.heapRegionStart ts' := by
      rw [hstart, hafter]
      simp
    have hbounds := used_bounds hin
    rw [hstep.inv.tiled] at hbounds
    refine ⟨⟨⟨hstep.inv, hstep.reg, hperm⟩, hmax ▸ hbounded, ?_⟩, ?_⟩
    · intro r hr
      rcases List.mem_cons.mp hr with rfl | hr
      · exact ⟨by simp only; omega, by simp only; omega⟩
      · exact hresults r hr
    · intro x m hx _
      refine ⟨?_, hstep.keeps x m hx⟩
      show (x, m) ∈ used sizeofBlock s'.heapRegionStart ts'
      rw [hstart, hafter]
      rw [hbefore] at hx
      exact List.mem_append.mpr ((List.mem_append.mp hx).imp_right (List.mem_cons_of_mem _))

theorem SafeInv.freed (inv : SafeInv k ts) (hp : p ∈ k.live) :
    ∃ k' ts', k.step (.kfree p) = some k' ∧ SafeInv k' ts' ∧ Untouched k ts k' ts' (· = p) := by
  obtain ⟨n, hn⟩ := inv.used_of_live hp
  obtain ⟨s', ts', l₁, l₂, hs', hstep, hsame, hbefore, hafter⟩ :=
    kfree_step inv.heap inv.region hn
  have hstart : s'.heapRegionStart = k.st.heapRegionStart :=
    congrArg Layout.heapRegionStart hstep.layout
  have hmax : s'.heapMaxBytes = k.st.heapMaxBytes := congrArg Layout.heapMaxBytes hstep.layout
  refine ⟨_, ts', by rw [System.step, hs', Option.map_some], ⟨⟨hstep.inv, hstep.reg, ?_⟩, ?_, ?_⟩, ?_⟩
  · show (k.live.erase p).Perm ((used sizeofBlock s'.heapRegionStart ts').map Prod.fst)
    rw [hstart, hafter]
    exact inv.perm_freed hbefore
  · exact hmax ▸ hstep.bounded inv.bounded
  · intro r hr
    have hold := inv.results r hr
    show s'.heapRegionStart ≤ r.1 ∧ r.1 + r.2 ≤ s'.heapRegionStart + s'.heapCommitted
    omega
  · intro x m hx hne
    refine ⟨?_, hstep.keeps x m hx⟩
    show (x, m) ∈ used sizeofBlock s'.heapRegionStart ts'
    rw [hstart, hafter]
    -- Every payload but the one freed is still in use.
    rw [hbefore, List.mem_append, List.mem_cons] at hx
    rcases hx with hx | hx | hx
    · exact List.mem_append.mpr (Or.inl hx)
    · exact absurd (congrArg Prod.fst hx) hne
    · exact List.mem_append.mpr (Or.inr hx)

theorem SafeInv.written {addr : ℕ} {v : UInt8} (inv : SafeInv k ts) (hp : p ∈ k.live)
    (haddr : addr ∈ payload k.st p) :
    SafeInv { k with st := { k.st with mem := k.st.mem.store addr [v] } } ts := by
  have hused := inv.mem_used hp
  obtain ⟨hlo, hhi⟩ := haddr
  have hout : SameOutside k.st.mem (k.st.mem.store addr [v]) p (p + payloadSize k.st p) := by
    intro y hy
    apply store_of_outside
    rw [List.length_singleton]
    omega
  have hheap : HeapInv { k.st with mem := k.st.mem.store addr [v] } ts :=
    inv.heap.of_payload hused rfl rfl hout
  exact ⟨⟨hheap, inv.region.update rfl (Or.inl rfl), inv.live⟩, inv.bounded, inv.results⟩

/-- The calls that may change the payload at an address: a caller's own writes, and giving it
back. -/
def MayChange : Call → ℕ → Prop
  | .write _ _, _ => True
  | .kfree ptr, p => p = ptr
  | _, _ => False

/-- Every call of a well-behaved caller returns and keeps the heap safe. -/
theorem SafeInv.step {c : Call} (inv : SafeInv k ts) (hc : HeapCall k c) :
    ∃ k' ts', k.step c = some k' ∧ SafeInv k' ts' ∧ Untouched k ts k' ts' (MayChange c) := by
  have hcap : heapMaxPages * pageSize = 4194304 := rfl
  have hmax := inv.region.max_le
  cases c with
  | kmalloc size =>
    obtain ⟨hpos, hsize⟩ := hc
    have hneed := le_needOf hsize
    have hwanted := wantedGrowth_le hneed.2
    obtain ⟨p, s', ts', hp, hstep, -, hcases⟩ := kmalloc_step inv.heap inv.region
      (Nat.ne_of_gt hpos) (Or.inr ⟨inv.bounded, by omega⟩)
    obtain ⟨hsafe, hkeeps⟩ := inv.allocated hstep hneed.1 hcases
    exact ⟨_, ts', by rw [System.step, hp, Option.map_some], hsafe, hkeeps⟩
  | kcalloc count elemSize =>
    obtain ⟨hpos, hsize⟩ := hc
    have hneed := le_needOf hsize
    have hwanted := wantedGrowth_le hneed.2
    have htotal : count * elemSize = w64 (count * elemSize) := (w64_eq (by omega)).symm
    obtain ⟨p, s', ts', hp, hstep, -, hcases⟩ := kcalloc_step inv.heap inv.region
      htotal (Nat.ne_of_gt hpos) (by omega) (Or.inr ⟨inv.bounded, by omega⟩)
    obtain ⟨hsafe, hkeeps⟩ := inv.allocated hstep hneed.1 hcases
    exact ⟨_, ts', by rw [System.step, hp, Option.map_some], hsafe, hkeeps⟩
  | kfree ptr =>
    rcases hc with rfl | hlive
    · exact ⟨k, ts, inv.step_kfree_null, inv, fun x n hx _ => ⟨hx, fun _ _ _ => rfl⟩⟩
    · exact inv.freed hlive
  | pmmAllocPage => exact hc.elim
  | pmmFreePage phys => exact hc.elim
  | write addr v =>
    obtain ⟨p, hp, haddr⟩ := hc
    exact ⟨_, ts, rfl, inv.written hp haddr, fun x n _ h => (h trivial).elim⟩

theorem SafeInv.of_ready (hready : Ready s) (hmax : s.heapCommitted ≤ s.heapMaxBytes) :
    SafeInv (start s) [⟨heapInitialPages * pageSize - sizeofBlock, true⟩] := by
  refine ⟨⟨hready.inv, hready.reg, ?_⟩, hmax, fun r hr => by cases hr⟩
  rw [used_free rfl]
  exact List.Perm.nil

/-- The invariant holds in every state a run reaches. -/
theorem safe_of_run {cs : List Call} (hready : Ready s)
    (hmax : s.heapCommitted ≤ s.heapMaxBytes)
    (hrun : Run (Where HeapCall System.Step) (start s) cs k) : ∃ ts, SafeInv k ts := by
  apply hrun.invariant fun k => ∃ ts, SafeInv k ts
  · exact ⟨_, SafeInv.of_ready hready hmax⟩
  · rintro a c b ⟨ts, inv⟩ ⟨hc, hstep⟩
    obtain ⟨k', ts', hk', inv', -⟩ := inv.step hc
    obtain rfl : b = k' := Option.some.inj (hstep.symm.trans hk')
    exact ⟨ts', inv'⟩

theorem disjoint_Ico {a b c d : ℕ} (h : b ≤ c ∨ d ≤ a) : Disjoint (Set.Ico a b) (Set.Ico c d) := by
  rw [Set.disjoint_left]
  rintro y ⟨hy, hy'⟩ ⟨hz, hz'⟩
  omega

theorem SystemInv.live_disjoint (inv : SystemInv k ts) :
    k.live.Pairwise fun p q => Disjoint (payload k.st p) (payload k.st q) := by
  have hsymm : ∀ {p q : ℕ}, Disjoint (payload k.st p) (payload k.st q) →
      Disjoint (payload k.st q) (payload k.st p) := fun h => h.symm
  -- The live pointers are those in use in another order, and in address order they lie apart.
  rw [inv.live.pairwise_iff hsymm, List.pairwise_map]
  apply List.Pairwise.imp_of_mem _ (used_pairwise sizeofBlock k.st.heapRegionStart ts)
  rintro ⟨p, n⟩ ⟨q, m⟩ hp hq hpq
  unfold payload
  rw [inv.heap.sizeAt_used hp, inv.heap.sizeAt_used hq]
  exact disjoint_Ico (Or.inl ((Nat.le_add_right _ _).trans hpq))

/-! ## Heap safety -/

/-- In every state a run reaches, all results lie in the committed region, live payloads overlap
neither each other nor a header on the list, and the next call returns without a change to the
bytes or the block size of another live payload. -/
theorem heap_safety {l : Limine} {m : Mem} {cs : List Call} (hinit : init l (boot m) = some s)
    (hmax : s.heapCommitted ≤ s.heapMaxBytes)
    (hrun : Run (Where HeapCall System.Step) (start s) cs k) :
    (∀ r ∈ k.results, k.st.heapRegionStart ≤ r.1 ∧
      r.1 + r.2 ≤ k.st.heapRegionStart + k.st.heapCommitted) ∧
    (k.live.Pairwise fun p q => Disjoint (payload k.st p) (payload k.st q)) ∧
    (∀ p ∈ k.live, ∀ b, OnList k.st b → Disjoint (payload k.st p) (header b)) ∧
    ∀ c, HeapCall k c → ∃ k', k.step c = some k' ∧ ∀ p ∈ k.live, ¬MayChange c p →
      payloadSize k'.st p = payloadSize k.st p ∧
        Set.EqOn k'.st.mem k.st.mem (payload k.st p) := by
  obtain ⟨ts, inv⟩ := safe_of_run (init_ready hinit) hmax hrun
  refine ⟨inv.results, inv.live_disjoint, ?_, ?_⟩
  · intro p hp b hb
    have hapart := used_starts (inv.mem_used hp) (inv.heap.starts_of_onList hb)
    exact disjoint_Ico (by omega)
  · intro c hc
    obtain ⟨k', ts', hk', inv', hkeeps⟩ := inv.step hc
    refine ⟨k', hk', ?_⟩
    intro p hp hc
    obtain ⟨hused, hbytes⟩ := hkeeps p _ (inv.mem_used hp) hc
    exact ⟨inv'.heap.sizeAt_used hused, fun y hy => hbytes y hy.1 hy.2⟩

/-- One usable region of 40 pages from page 1 on. -/
def smallMap : MemoryMap where
  entries := [⟨4096, 163840, limineMemmapUsable⟩]
  top_lt := by decide
  aligned := by decide
  apart := List.pairwise_singleton _ _
  no_page_zero := by decide

def smallLimine : Limine where
  memmap := some smallMap
  hhdm := some 0xFFFF800000000000
  mapped := by
    rintro mm ⟨⟩ offset ⟨⟩
    decide

instance (k : System) : ∀ c, Decidable (HeapCall k c)
  | .kmalloc _ | .kcalloc _ _ => inferInstanceAs (Decidable (_ ∧ _))
  | .kfree ptr => inferInstanceAs (Decidable (ptr = 0 ∨ ptr ∈ k.live))
  | .pmmAllocPage | .pmmFreePage _ => inferInstanceAs (Decidable False)
  | .write addr _ =>
    inferInstanceAs (Decidable (∃ p ∈ k.live, addr ∈ Set.Ico p (p + payloadSize k.st p)))

@[irreducible] def smallBoot : State :=
  (init smallLimine (boot fun _ => 0)).get (by decide +kernel)

theorem init_smallBoot : init smallLimine (boot fun _ => 0) = some smallBoot := by
  unfold smallBoot
  exact (Option.some_get _).symm

theorem smallBoot_bounded : smallBoot.heapCommitted ≤ smallBoot.heapMaxBytes := by
  decide +kernel

/-- Two allocations, a write to the first, and the first given back. -/
def smallCalls : List Call :=
  [.kmalloc 100, .kcalloc 3 24, .write 0xFFFF800000002018 7, .kfree 0xFFFF800000002018]

@[irreducible] def afterSmallCalls : System :=
  (exec (guarded HeapCall System.step) (start smallBoot) smallCalls).get (by decide +kernel)

theorem run_smallCalls :
    Run (Where HeapCall System.Step) (start smallBoot) smallCalls afterSmallCalls := by
  unfold afterSmallCalls
  exact run_where_get _

theorem heap_safety_small : afterSmallCalls.results.length = 2 ∧
    (∀ r ∈ afterSmallCalls.results, afterSmallCalls.st.heapRegionStart ≤ r.1 ∧
      r.1 + r.2 ≤ afterSmallCalls.st.heapRegionStart + afterSmallCalls.st.heapCommitted) ∧
    afterSmallCalls.live.Pairwise fun p q =>
      Disjoint (payload afterSmallCalls.st p) (payload afterSmallCalls.st q) := by
  have hsafe := heap_safety init_smallBoot smallBoot_bounded run_smallCalls
  exact ⟨by decide +kernel, hsafe.1, hsafe.2.1⟩

end QuillOS.Memory
