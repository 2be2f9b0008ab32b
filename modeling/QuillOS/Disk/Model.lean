import QuillOS.Lib.Records

/-!
# The ATA disk

`read_sector` and `write_sector` of `disk.cpp`. The hardware is what it holds under each setting of
the address registers, 256 words to the sector; the status bytes that a call polls are an input of
the call. The outcome of the cache flush is not looked at.
-/

namespace QuillOS.Disk

open Lib

def srBsy : UInt8 := 0x80
def srDrq : UInt8 := 0x08
def srErr : UInt8 := 0x01

structure BlockDevice where
  present : Bool
  totalSectors : UInt32
  lbaSupported : Bool
  deriving DecidableEq

/-- The registers a command finds its sector by. -/
structure Address where
  driveHead : UInt8
  sectCount : UInt8
  lbaLo : UInt8
  lbaMid : UInt8
  lbaHi : UInt8
  deriving DecidableEq

abbrev Sector := Fin 256 → UInt16

structure State where
  drive : BlockDevice
  sectors : Address → Sector

/-- What the driver writes to the registers before a command. -/
def address (lba : UInt32) : Address where
  driveHead := (0xE0 : UInt8) ||| ((lba >>> 24) &&& (0x0F : UInt32)).toUInt8
  sectCount := 1
  lbaLo := (lba &&& (0xFF : UInt32)).toUInt8
  lbaMid := ((lba >>> 8) &&& (0xFF : UInt32)).toUInt8
  lbaHi := ((lba >>> 16) &&& (0xFF : UInt32)).toUInt8

/-- The polls of `ata_wait_drq` from the `i`-th on, for at most `left` of them. -/
def waitDrqFrom (status : ℕ → UInt8) : ℕ → ℕ → Bool
  | 0, _ => false
  | left + 1, i =>
    if status i &&& srErr ≠ 0 then false
    else if status i &&& srBsy = 0 ∧ status i &&& srDrq ≠ 0 then true
    else waitDrqFrom status left (i + 1)

def ataWaitDrq (status : ℕ → UInt8) : Bool := waitDrqFrom status 100000 0

/-- The word at place `i` of a buffer. -/
def wordOf (buffer : Mem) (i : Fin 256) : UInt16 := UInt16.ofNat (buffer.loadNat (2 * i.val) 2)

/-- The transfer of `read_sector`. -/
def readWords (words : Sector) (buffer : Mem) : Mem :=
  (List.finRange 256).foldl (fun m i => m.store (2 * i.val) (leBytes 2 (words i).toNat)) buffer

/-- The buffer with the sector; `none` when false is returned, with the buffer as it was. -/
def readSector (d : State) (lba : UInt32) (buffer : Mem) (status : ℕ → UInt8) : Option Mem :=
  if !d.drive.present || !d.drive.lbaSupported then none
  else if lba ≥ d.drive.totalSectors then none
  else if !ataWaitDrq status then none
  else some (readWords (d.sectors (address lba)) buffer)

def writeSector (d : State) (lba : UInt32) (buffer : Mem) (status : ℕ → UInt8) : State × Bool :=
  if !d.drive.present || !d.drive.lbaSupported then (d, false)
  else if lba ≥ d.drive.totalSectors then (d, false)
  else if !ataWaitDrq status then (d, false)
  else ({ d with sectors := Function.update d.sectors (address lba) (wordOf buffer) }, true)

/-! ## Sectors read and written -/

/-- The driver takes commands for the sector. -/
def State.Usable (d : State) (lba : UInt32) : Prop :=
  d.drive.present = true ∧ d.drive.lbaSupported = true ∧ lba < d.drive.totalSectors

instance (d : State) (lba : UInt32) : Decidable (d.Usable lba) :=
  inferInstanceAs (Decidable (_ ∧ _ ∧ _))

theorem readSector_of_usable {d : State} {lba : UInt32} (h : d.Usable lba) {status : ℕ → UInt8}
    (hstatus : ataWaitDrq status = true) (buffer : Mem) :
    readSector d lba buffer status = some (readWords (d.sectors (address lba)) buffer) := by
  unfold readSector
  rw [if_neg (by simp [h.1, h.2.1]), if_neg (UInt32.not_le.mpr h.2.2), if_neg (by simp [hstatus])]

theorem readSector_of_not_usable {d : State} {lba : UInt32} (h : ¬d.Usable lba) (buffer : Mem)
    (status : ℕ → UInt8) : readSector d lba buffer status = none := by
  unfold readSector
  split_ifs with hdrive hlba
  · rfl
  · rfl
  · rfl
  · simp only [Bool.or_eq_true, Bool.not_eq_true', not_or, Bool.not_eq_false] at hdrive
    exact absurd ⟨hdrive.1, hdrive.2, UInt32.not_le.mp hlba⟩ h

/-- A read that succeeds gives what the registers address. -/
theorem readSector_eq_some {d : State} {lba : UInt32} {buffer b : Mem} {status : ℕ → UInt8}
    (h : readSector d lba buffer status = some b) :
    b = readWords (d.sectors (address lba)) buffer := by
  unfold readSector at h
  split_ifs at h
  exact (Option.some.inj h).symm

/-- A write goes through exactly when the driver takes it and the drive asks for the data. -/
theorem writeSector_eq_true_iff {d : State} {lba : UInt32} {buffer : Mem} {status : ℕ → UInt8} :
    (writeSector d lba buffer status).2 = true ↔ d.Usable lba ∧ ataWaitDrq status = true := by
  unfold writeSector State.Usable
  split_ifs with hdrive hlba hstatus
  · simp only [Bool.or_eq_true, Bool.not_eq_true'] at hdrive
    rcases hdrive with h | h <;> simp [h]
  · simp [UInt32.not_lt.mpr hlba]
  · simp only [Bool.not_eq_true'] at hstatus
    simp [hstatus]
  · simp only [Bool.or_eq_true, Bool.not_eq_true', not_or, Bool.not_eq_false] at hdrive
    simp only [Bool.not_eq_true', Bool.not_eq_false] at hstatus
    simp [hdrive, hstatus, UInt32.not_le.mp hlba]

theorem writeSector_of_not_usable {d : State} {lba : UInt32} (h : ¬d.Usable lba) (buffer : Mem)
    (status : ℕ → UInt8) : writeSector d lba buffer status = (d, false) := by
  unfold writeSector
  split_ifs with hdrive hlba
  · rfl
  · rfl
  · rfl
  · simp only [Bool.or_eq_true, Bool.not_eq_true', not_or, Bool.not_eq_false] at hdrive
    exact absurd ⟨hdrive.1, hdrive.2, UInt32.not_le.mp hlba⟩ h

theorem writeSector_of_true {d : State} {lba : UInt32} {buffer : Mem} {status : ℕ → UInt8}
    (h : (writeSector d lba buffer status).2 = true) :
    (writeSector d lba buffer status).1 =
      { d with sectors := Function.update d.sectors (address lba) (wordOf buffer) } := by
  revert h
  unfold writeSector
  split_ifs
  · exact fun h => by cases h
  · exact fun h => by cases h
  · exact fun h => by cases h
  · exact fun _ => rfl

/-- Writing a sector leaves the description of the drive alone. -/
theorem writeSector_drive (d : State) (lba : UInt32) (buffer : Mem) (status : ℕ → UInt8) :
    (writeSector d lba buffer status).1.drive = d.drive := by
  unfold writeSector
  split_ifs <;> rfl

theorem load_readWords (words : Sector) (buffer : Mem) (i : Fin 256) :
    (readWords words buffer).load (2 * i.val) 2 = leBytes 2 (words i).toNat :=
  load_foldl_store (fun i => leBytes 2 (words i).toNat) (fun _ => length_leBytes 2 _)
    (List.mem_finRange i) buffer

/-- Buffers with the same 256 words hold the same 512 bytes. -/
theorem eq_of_load_words {m m' : Mem}
    (h : ∀ i : Fin 256, m.load (2 * i.val) 2 = m'.load (2 * i.val) 2) {k : ℕ} (hk : k < 512) :
    m k = m' k := by
  have hbyte := congrArg (fun l => l.getD (k % 2) 0) (h ⟨k / 2, by omega⟩)
  have hget : ∀ m : Mem, (m.load (2 * (k / 2)) 2).getD (k % 2) 0 = m k := by
    intro m
    have hlt : k % 2 < (m.load (2 * (k / 2)) 2).length := by rw [Mem.length_load]; omega
    rw [List.getD_eq_getElem?_getD, List.getElem?_eq_getElem hlt, Option.getD_some]
    simp only [Mem.load, List.getElem_map, List.getElem_range]
    congr 1
    omega
  simpa only [hget] using hbyte

/-- A sector that was read covers what the buffer held. -/
theorem readWords_congr (words : Sector) (m m' : Mem) {k : ℕ} (hk : k < 512) :
    readWords words m k = readWords words m' k :=
  eq_of_load_words (fun i => by rw [load_readWords, load_readWords]) hk

/-- The words taken out of a buffer fill another one with the same bytes. -/
theorem readWords_wordOf (b buffer : Mem) {k : ℕ} (hk : k < 512) :
    readWords (wordOf b) buffer k = b k := by
  refine eq_of_load_words (fun i => ?_) hk
  have hlt := leValue_lt (b.load (2 * i.val) 2)
  have hback := leBytes_leValue (b.load (2 * i.val) 2)
  rw [Mem.length_load] at hlt hback
  rw [load_readWords]
  unfold wordOf Mem.loadNat
  rw [UInt16.toNat_ofNat', Nat.mod_eq_of_lt (show _ < 2 ^ 16 from hlt)]
  exact hback

end QuillOS.Disk
