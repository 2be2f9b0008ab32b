import QuillOS.Lib.ByteMemory

/-!
# Page allocator and kernel heap

The state of `memory.cpp` and its functions over a byte memory in which both the page bitmap and
the heap's block headers live. Addresses are virtual addresses; the fields of an object at `p` are
the bytes from `p` on, everything else a 64-bit computation forms is reduced modulo `2 ^ 64`.
A loop over a linked list has no bound in the source: here it may take `walkLimit` steps, more
than there are addresses, and `none` stands for a call that does not return.
-/

namespace QuillOS.Memory

open Lib

def pageSize : ℕ := 4096
def heapInitialPages : ℕ := 16
def heapMaxPages : ℕ := 1024
def heapGrowPages : ℕ := 16
def blockMagic : ℕ := 0xCAFEB00C
def minSplit : ℕ := 32
/-- `sizeof(Block)`. -/
def sizeofBlock : ℕ := 24

@[irreducible] def walkLimit : ℕ := 2 ^ 64

/-! ## 64-bit arithmetic -/

@[irreducible] def w64 (n : ℕ) : ℕ := n % 2 ^ 64

@[irreducible] def sub64 (a b : ℕ) : ℕ := w64 (a + (2 ^ 64 - b))

/-- `n & ~(k - 1)` for a power of two `k`. -/
def alignDown (k n : ℕ) : ℕ := n / k * k

/-! ## The boot loader's answers -/

structure MemmapEntry where
  base : ℕ
  length : ℕ
  type : ℕ
  deriving DecidableEq, Repr

def limineMemmapUsable : ℕ := 0

def MemmapEntry.Usable (e : MemmapEntry) : Prop := e.type = limineMemmapUsable

instance (e : MemmapEntry) : Decidable e.Usable := inferInstanceAs (Decidable (_ = _))

/-- The entry reaches into none of the addresses of `f`. -/
def MemmapEntry.Apart (e f : MemmapEntry) : Prop :=
  e.length = 0 ∨ f.length = 0 ∨ e.base + e.length ≤ f.base ∨ f.base + f.length ≤ e.base

/-- A memory map as the boot loader gives it: usable entries are page-aligned, disjoint and leave
out page 0. -/
structure MemoryMap where
  entries : List MemmapEntry
  top_lt : ∀ e ∈ entries, e.base + e.length < 2 ^ 64
  aligned : ∀ e ∈ entries, e.Usable → pageSize ∣ e.base ∧ pageSize ∣ e.length
  apart : entries.Pairwise fun e f => e.Usable → f.Usable → e.Apart f
  no_page_zero : ∀ e ∈ entries, e.Usable → e.base = 0 → e.length = 0

/-- The responses to the two boot loader requests. No address formed from a usable entry
overflows, be it the end of the entry or of an initial heap that starts in it. -/
structure Limine where
  memmap : Option MemoryMap
  hhdm : Option ℕ
  mapped : ∀ mm ∈ memmap, ∀ offset ∈ hhdm, ∀ e ∈ mm.entries, e.Usable →
    offset + e.base + e.length + heapInitialPages * pageSize < 2 ^ 64

/-! ## The state -/

structure State where
  mem : Mem
  hhdm : ℕ
  pmmBitmap : ℕ
  pmmBitmapBytes : ℕ
  pmmHighestPage : ℕ
  pmmTotal : ℕ
  pmmUsed : ℕ
  pmmSearchHint : ℕ
  heapHead : ℕ
  heapRegionStart : ℕ
  heapCommitted : ℕ
  heapMaxBytes : ℕ
  heapPhysBase : ℕ
  statAllocCount : ℕ
  statAllocBytes : ℕ
  /-- What the allocator printed about a corrupted heap. -/
  console : List String

/-- Before `init`: the static variables are zero, the memory holds anything. -/
def boot (mem : Mem) : State where
  mem := mem
  hhdm := 0
  pmmBitmap := 0
  pmmBitmapBytes := 0
  pmmHighestPage := 0
  pmmTotal := 0
  pmmUsed := 0
  pmmSearchHint := 0
  heapHead := 0
  heapRegionStart := 0
  heapCommitted := 0
  heapMaxBytes := 0
  heapPhysBase := 0
  statAllocCount := 0
  statAllocBytes := 0
  console := []

def consolePrint (s : State) (text : String) : State := { s with console := s.console ++ [text] }

def physToVirt (s : State) (phys : ℕ) : ℕ := w64 (s.hhdm + phys)

def virtToPhys (s : State) (virt : ℕ) : ℕ := sub64 virt s.hhdm

/-! ## The page bitmap -/

def bmpSet (s : State) (page : ℕ) : State := { s with mem := s.mem.setBit s.pmmBitmap page }

def bmpClear (s : State) (page : ℕ) : State := { s with mem := s.mem.clearBit s.pmmBitmap page }

def bmpTest (s : State) (page : ℕ) : Bool := s.mem.testBit s.pmmBitmap page

/-- Marks a page used and counts it, unless it is used already. -/
def markPage (s : State) (page : ℕ) : State :=
  if bmpTest s page then s else { bmpSet s page with pmmUsed := w64 (s.pmmUsed + 1) }

/-- The loop that marks `count` pages from `start` on. -/
def markPages (s : State) (start : ℕ) : ℕ → State
  | 0 => s
  | count + 1 => markPage (markPages s start count) (start + count)

/-- The loop that marks the pages of one usable entry free. -/
def clearPages (s : State) (base : ℕ) : ℕ → State
  | 0 => s
  | count + 1 =>
    let s := clearPages s base count
    { bmpClear s (base + count) with pmmUsed := sub64 s.pmmUsed 1 }

/-- The highest end of an entry, of any type. -/
def highestAddr (entries : List MemmapEntry) : ℕ :=
  entries.foldl (fun highest e => max highest (w64 (e.base + e.length))) 0

def totalPages (entries : List MemmapEntry) : ℕ :=
  entries.foldl (fun total e => if e.Usable then w64 (total + e.length / pageSize) else total) 0

/-- The base of the first usable entry that can hold the bitmap, `0` if there is none. -/
def bitmapPlace (entries : List MemmapEntry) (bytes : ℕ) : ℕ :=
  match entries.find? fun e => decide (e.Usable ∧ bytes ≤ e.length) with
  | some e => e.base
  | none => 0

def clearEntry (s : State) (e : MemmapEntry) : State :=
  if e.Usable then clearPages s (e.base / pageSize) (e.length / pageSize) else s

/-- Pass 1: the extent of the physical address space. -/
def pmmExtent (s : State) (offset : ℕ) (entries : List MemmapEntry) : State :=
  let highestPage := highestAddr entries / pageSize
  { s with
    hhdm := offset
    pmmTotal := totalPages entries
    pmmHighestPage := highestPage
    pmmBitmapBytes := (highestPage + 7) / 8 }

/-- Everything is used, to begin with. -/
def pmmBlank (s : State) (bitmapPhys : ℕ) : State :=
  let bitmap := physToVirt s bitmapPhys
  { s with
    pmmBitmap := bitmap
    mem := s.mem.fill bitmap s.pmmBitmapBytes 0xFF
    pmmUsed := s.pmmHighestPage }

/-- Passes 3 and 4: usable regions are free, except for the bitmap's own pages. -/
def pmmRelease (s : State) (entries : List MemmapEntry) (bitmapPhys : ℕ) : State :=
  let s := entries.foldl clearEntry s
  markPages s (bitmapPhys / pageSize) ((s.pmmBitmapBytes + pageSize - 1) / pageSize)

/-- `none` is the source's `false`. -/
def pmmInit (l : Limine) (s : State) : Option State :=
  match l.memmap, l.hhdm with
  | some mm, some offset =>
    let s := pmmExtent s offset mm.entries
    let bitmapPhys := bitmapPlace mm.entries s.pmmBitmapBytes
    -- A first fit at address 0 counts as no fit: later entries are not tried.
    if bitmapPhys = 0 then none
    else some { pmmRelease (pmmBlank s bitmapPhys) mm.entries bitmapPhys with pmmSearchHint := 0 }
  | _, _ => none

/-- The first clear bit among `count` bits from `i` on. -/
def findClear (s : State) (i : ℕ) : ℕ → Option ℕ
  | 0 => none
  | count + 1 => if bmpTest s i then findClear s (i + 1) count else some i

/-- Marks the page found, moves the hint behind it and zeroes the page. -/
def takePage (s : State) (i : ℕ) : ℕ × State :=
  let s := { bmpSet s i with pmmUsed := w64 (s.pmmUsed + 1), pmmSearchHint := i + 1 }
  (w64 (i * pageSize), { s with mem := s.mem.fill (physToVirt s (i * pageSize)) pageSize 0 })

def pmmAllocPage (s : State) : ℕ × State :=
  match findClear s s.pmmSearchHint (s.pmmHighestPage - s.pmmSearchHint) with
  | some i => takePage s i
  | none =>
    -- Wrap around.
    match findClear s 0 s.pmmSearchHint with
    | some i => takePage s i
    | none => (0, s)

def pmmFreePage (s : State) (phys : ℕ) : State :=
  let page := phys / pageSize
  if s.pmmHighestPage ≤ page then s
  else if bmpTest s page then
    { bmpClear s page with
      pmmUsed := sub64 s.pmmUsed 1
      pmmSearchHint := if page < s.pmmSearchHint then page else s.pmmSearchHint }
  else s

def pmmTotalPages (s : State) : ℕ := s.pmmTotal

def pmmUsedPages (s : State) : ℕ := s.pmmUsed

def pmmFreePages (s : State) : ℕ := if s.pmmUsed < s.pmmTotal then s.pmmTotal - s.pmmUsed else 0

/-! ## Block headers

A header is 24 bytes: the magic number, the free flag at 4, the payload size at 8 and the next
block at 16. -/

def magicAt (s : State) (p : ℕ) : ℕ := s.mem.loadNat p 4
def freeAt (s : State) (p : ℕ) : Bool := s.mem (p + 4) != 0
def sizeAt (s : State) (p : ℕ) : ℕ := s.mem.loadNat (p + 8) 8
def nextAt (s : State) (p : ℕ) : ℕ := s.mem.loadNat (p + 16) 8

def setMagic (s : State) (p : ℕ) : State := { s with mem := s.mem.storeNat p 4 blockMagic }
def setFree (s : State) (p : ℕ) (free : Bool) : State :=
  { s with mem := s.mem.store (p + 4) [if free then 1 else 0] }
def setSize (s : State) (p n : ℕ) : State := { s with mem := s.mem.storeNat (p + 8) 8 n }
def setNext (s : State) (p n : ℕ) : State := { s with mem := s.mem.storeNat (p + 16) 8 n }

/-- A fresh free block: all four fields are written. -/
def writeBlock (s : State) (p size next : ℕ) : State :=
  setNext (setSize (setFree (setMagic s p) p true) p size) p next

/-- The block at `p` takes over the one at `q` behind it. -/
def absorb (s : State) (p q : ℕ) : State :=
  let s := setSize s p (w64 (sizeAt s p + (sizeofBlock + sizeAt s q)))
  setNext s p (nextAt s q)

/-! ## The heap -/

/-- Base and length of the largest usable entry, the first of them if several are. -/
def largestUsable (entries : List MemmapEntry) : ℕ × ℕ :=
  entries.foldl (fun best e => if e.Usable ∧ best.2 < e.length then (e.base, e.length) else best)
    (0, 0)

/-- Where the heap starts in the entry at `base`: behind the bitmap if the entry begins with it. -/
def heapPlace (s : State) (base : ℕ) : ℕ :=
  let bitmapPhys := virtToPhys s s.pmmBitmap
  let bitmapEnd := w64 (bitmapPhys + s.pmmBitmapBytes)
  if bitmapPhys ≤ base ∧ base < bitmapEnd then alignDown pageSize (w64 (bitmapEnd + pageSize - 1))
  else base

/-- Fixes the region the heap may grow in. -/
def heapRegion (s : State) (heapPhys remaining : ℕ) : State :=
  { s with
    heapMaxBytes := min remaining (heapMaxPages * pageSize)
    heapPhysBase := heapPhys
    heapRegionStart := physToVirt s heapPhys }

/-- Reserves the initial pages and makes one free block of them. -/
def heapFirstBlock (s : State) : State :=
  let s := markPages s (s.heapPhysBase / pageSize) heapInitialPages
  let s := { s with
    heapCommitted := heapInitialPages * pageSize
    heapHead := s.heapRegionStart }
  let s := writeBlock s s.heapHead (s.heapCommitted - sizeofBlock) 0
  { s with statAllocCount := 0, statAllocBytes := 0 }

/-- `none` is the source's `false`. -/
def heapInit (mm : MemoryMap) (s : State) : Option State :=
  let best := largestUsable mm.entries
  -- Compared before the bitmap is skipped, so less than this may be left below.
  if best.2 < heapInitialPages * pageSize then none
  else
    let heapPhys := heapPlace s best.1
    let remaining := sub64 (w64 (best.1 + best.2)) heapPhys
    some (heapFirstBlock (heapRegion s heapPhys remaining))

def init (l : Limine) (s : State) : Option State :=
  match l.memmap with
  | some mm => (pmmInit l s).bind (heapInit mm)
  | none => none

/-- The last block of the list that starts at `last`. -/
def lastBlock (s : State) : ℕ → ℕ → Option ℕ
  | 0, _ => none
  | fuel + 1, last =>
    if nextAt s last = 0 then some last else lastBlock s fuel (nextAt s last)

/-- The bytes a growth for `minBytes` commits, clipped to what the region still has. -/
def growSize (s : State) (minBytes : ℕ) : ℕ :=
  let grow := heapGrowPages * pageSize
  let grow :=
    if grow < w64 (minBytes + sizeofBlock) then
      alignDown pageSize (w64 (minBytes + sizeofBlock + pageSize - 1))
    else grow
  if s.heapMaxBytes < w64 (s.heapCommitted + grow) then sub64 s.heapMaxBytes s.heapCommitted
  else grow

/-- Makes a free block at the growth point, puts it behind the last block and joins the two if that
one is free. -/
def appendBlock (s : State) (newBlock size : ℕ) : Option State :=
  let s := writeBlock s newBlock size 0
  (lastBlock s walkLimit s.heapHead).map fun last =>
    let s := setNext s last newBlock
    let lastEnd := w64 (last + sizeofBlock + sizeAt s last)
    if freeAt s last ∧ lastEnd = newBlock then absorb s last newBlock else s

/-- The growth proper. The pages are marked without a look at who has them. -/
def growBy (s : State) (grow : ℕ) : Option State :=
  let newPhys := w64 (s.heapPhysBase + s.heapCommitted)
  let s := markPages s (newPhys / pageSize) (grow / pageSize)
  let newBlock := w64 (s.heapRegionStart + s.heapCommitted)
  (appendBlock s newBlock (sub64 grow sizeofBlock)).map fun s =>
    { s with heapCommitted := w64 (s.heapCommitted + grow) }

def heapGrow (s : State) (minBytes : ℕ) : Option (Bool × State) :=
  let grow := growSize s minBytes
  if grow < sizeofBlock + minSplit then some (false, s)
  else (growBy s grow).map fun s => (true, s)

inductive Search
  | found (block : ℕ)
  | corrupt
  | exhausted
  deriving DecidableEq

/-- First-fit search from `current` on. -/
def search (s : State) (size : ℕ) : ℕ → ℕ → Option Search
  | 0, _ => none
  | fuel + 1, current =>
    if current = 0 then some .exhausted
    -- A bad block ends the search, and the heap is not grown.
    else if magicAt s current ≠ blockMagic then some .corrupt
    else if freeAt s current ∧ size ≤ sizeAt s current then some (.found current)
    else search s size fuel (nextAt s current)

/-- Makes a free block of what lies behind the first `size` bytes of the payload. -/
def splitBlock (s : State) (current size : ℕ) : State :=
  let remainder := w64 (current + sizeofBlock + size)
  let s := setFree (setMagic s remainder) remainder true
  let s := setSize s remainder (sub64 (sub64 (sizeAt s current) size) sizeofBlock)
  let s := setNext s remainder (nextAt s current)
  setNext (setSize s current size) current remainder

/-- Hands out the block at `current`, split if enough is left of it. -/
def takeBlock (s : State) (current size : ℕ) : State :=
  -- What is too small for a block of its own stays in this one.
  let s :=
    if w64 (size + sizeofBlock + minSplit) ≤ sizeAt s current then splitBlock s current size
    else s
  let s := setFree s current false
  { s with
    statAllocCount := w64 (s.statAllocCount + 1)
    statAllocBytes := w64 (s.statAllocBytes + sizeAt s current) }

/-- `kmalloc` with a bound on how often it calls itself after a growth. -/
def kmallocRetry : ℕ → State → ℕ → Option (ℕ × State)
  | 0, _, _ => none
  | fuel + 1, s, size =>
    if size = 0 then some (0, s)
    else
      -- The fifteen largest sizes wrap to 0 here.
      let size := alignDown 16 (w64 (size + 15))
      (search s size walkLimit s.heapHead).bind fun
        | .corrupt => some (0, consolePrint s "\n[HEAP] CORRUPTION: bad magic in kmalloc!")
        | .found current => some (w64 (current + sizeofBlock), takeBlock s current size)
        | .exhausted => (heapGrow s size).bind fun
          | (true, s) => kmallocRetry fuel s size
          | (false, s) => some (0, s)

def kmalloc (s : State) (size : ℕ) : Option (ℕ × State) := kmallocRetry walkLimit s size

/-- The block before `block` in the list, or the last one if it is not listed; `0` for none. -/
def prevBlock (s : State) (block : ℕ) : ℕ → ℕ → ℕ → Option ℕ
  | 0, _, _ => none
  | fuel + 1, prev, cur =>
    if cur ≠ 0 ∧ cur ≠ block then prevBlock s block fuel cur (nextAt s cur) else some prev

/-- The block takes over the next one if that is free. -/
def coalesceNext (s : State) (block : ℕ) : State :=
  let next := nextAt s block
  -- Where this block ends is not compared with `next`.
  if next ≠ 0 ∧ magicAt s next = blockMagic ∧ freeAt s next then absorb s block next else s

/-- The previous block takes over this one if it is free and ends where this one begins. -/
def coalescePrev (s : State) (prev block : ℕ) : State :=
  if prev ≠ 0 ∧ magicAt s prev = blockMagic ∧ freeAt s prev ∧
      w64 (prev + sizeofBlock + sizeAt s prev) = block then
    absorb s prev block
  else s

/-- Marks the block free and takes it out of the statistics. -/
def releaseBlock (s : State) (block : ℕ) : State :=
  let s := setFree s block true
  { s with
    statAllocCount := sub64 s.statAllocCount 1
    statAllocBytes := sub64 s.statAllocBytes (sizeAt s block) }

def kfree (s : State) (ptr : ℕ) : Option State :=
  if ptr = 0 then some s
  else
    let block := sub64 ptr sizeofBlock
    if magicAt s block ≠ blockMagic then
      some (consolePrint s "\n[HEAP] CORRUPTION: bad magic in kfree!")
    else if freeAt s block then some (consolePrint s "\n[HEAP] Double free detected!")
    else
      -- The next block first: what the previous one takes over includes it.
      let s := coalesceNext (releaseBlock s block) block
      (prevBlock s block walkLimit 0 s.heapHead).map fun prev => coalescePrev s prev block

def kcalloc (s : State) (count elemSize : ℕ) : Option (ℕ × State) :=
  let total := w64 (count * elemSize)
  (kmalloc s total).map fun (ptr, s) =>
    (ptr, if ptr ≠ 0 then { s with mem := s.mem.fill ptr total 0 } else s)

/-! ## Heap diagnostics -/

def heapTotalSize (s : State) : ℕ := s.heapCommitted

def heapAllocatedBytes (s : State) : ℕ := s.statAllocBytes

def heapAllocCount (s : State) : ℕ := s.statAllocCount

/-- The loop of the diagnostics: `f` is applied at every block of the list that starts at `b`. -/
def walkBlocks {α : Type} (s : State) (f : α → ℕ → α) : ℕ → α → ℕ → Option α
  | 0, _, _ => none
  | fuel + 1, acc, b => if b = 0 then some acc else walkBlocks s f fuel (f acc b) (nextAt s b)

def heapFreeBytes (s : State) : Option ℕ :=
  walkBlocks s (fun free b => if freeAt s b then w64 (free + sizeAt s b) else free) walkLimit 0
    s.heapHead

def heapBlockCount (s : State) : Option ℕ :=
  walkBlocks s (fun count _ => w64 (count + 1)) walkLimit 0 s.heapHead

end QuillOS.Memory
