import QuillOS.Disk.Model

/-!
# The driver and the drive

The functions of `disk.cpp` as the accesses they make to the ports of the primary bus, against an ATA
drive that answers them: a drive is busy for a while after a command, offers or asks for the words of
one sector and takes no command in between. What the driver does is what `Disk` says of a drive that
asks for its data in time.
-/

namespace QuillOS.Disk.Ata

open Lib

/-! ## The drive -/

def ataData : UInt16 := 0x1F0
def ataSectCount : UInt16 := 0x1F2
def ataLbaLo : UInt16 := 0x1F3
def ataLbaMid : UInt16 := 0x1F4
def ataLbaHi : UInt16 := 0x1F5
def ataDriveHead : UInt16 := 0x1F6
def ataStatus : UInt16 := 0x1F7
def ataCommand : UInt16 := 0x1F7
def ataAltStatus : UInt16 := 0x3F6

def cmdIdentify : UInt8 := 0xEC
def cmdReadSectors : UInt8 := 0x20
def cmdWriteSectors : UInt8 := 0x30
def cmdCacheFlush : UInt8 := 0xE7

/-- What a drive is doing. It stays busy for `polls + 1` more reads of its status. -/
inductive Phase
  | idle
  | failed
  | busy (polls : ℕ) (next : Phase)
  | sending (words : List UInt16)
  | receiving (lba : ℕ) (words : List UInt16)
  deriving DecidableEq

def Phase.status : Phase → UInt8
  | .idle => 0x40
  | .failed => 0x41
  | .busy _ _ => 0x80
  | .sending _ | .receiving _ _ => 0x48

/-- The phase `next` behind a number of polls. -/
def Phase.after : ℕ → Phase → Phase
  | 0, next => next
  | n + 1, next => .busy n next

/-- The master drive of the bus. `delays` says for how many polls it is busy each time. -/
structure Device where
  regs : Address
  phase : Phase
  sectors : ℕ → Sector
  total : ℕ
  identify : Sector
  delays : ℕ → ℕ
  periods : ℕ

/-- The sector the registers name in LBA mode. -/
def lbaOf (a : Address) : ℕ :=
  (a.driveHead &&& 0x0F).toNat * 2 ^ 24 + a.lbaHi.toNat * 2 ^ 16 + a.lbaMid.toNat * 2 ^ 8 +
    a.lbaLo.toNat

/-- The registers name one sector of the master, in LBA mode. -/
def Names (a : Address) (total : ℕ) : Prop :=
  a.driveHead &&& 0x40 ≠ 0 ∧ a.driveHead &&& 0x10 = 0 ∧ a.sectCount = 1 ∧ lbaOf a < total

instance (a : Address) (total : ℕ) : Decidable (Names a total) :=
  inferInstanceAs (Decidable (_ ∧ _))

namespace Device

/-- The drive turns to something and is busy until then. -/
def turn (d : Device) (next : Phase) : Device :=
  { d with phase := .after (d.delays d.periods) next, periods := d.periods + 1 }

/-- A command is taken by a drive that has no other one. Commands for several sectors fail. -/
def command (d : Device) (c : UInt8) : Device :=
  match d.phase with
  | .idle | .failed =>
    if c = cmdIdentify then d.turn (.sending (List.ofFn d.identify))
    else if c = cmdCacheFlush then d.turn .idle
    else if Names d.regs d.total then
      if c = cmdReadSectors then d.turn (.sending (List.ofFn (d.sectors (lbaOf d.regs))))
      else if c = cmdWriteSectors then d.turn (.receiving (lbaOf d.regs) [])
      else d.turn .failed
    else d.turn .failed
  | _ => d

/-- A register is written while no command is under way. -/
def setRegs (d : Device) (f : Address → Address) : Device :=
  match d.phase with
  | .idle | .failed => { d with regs := f d.regs }
  | _ => d

def outb (d : Device) (port : UInt16) (value : UInt8) : Device :=
  if port = ataCommand then d.command value
  else if port = ataDriveHead then d.setRegs fun a => { a with driveHead := value }
  else if port = ataSectCount then d.setRegs fun a => { a with sectCount := value }
  else if port = ataLbaLo then d.setRegs fun a => { a with lbaLo := value }
  else if port = ataLbaMid then d.setRegs fun a => { a with lbaMid := value }
  else if port = ataLbaHi then d.setRegs fun a => { a with lbaHi := value }
  else d

/-- A read of the status. -/
def poll (d : Device) : UInt8 × Device :=
  match d.phase with
  | .busy n next => (0x80, { d with phase := .after n next })
  | phase => (phase.status, d)

def inb (d : Device) (port : UInt16) : UInt8 × Device :=
  if port = ataStatus ∨ port = ataAltStatus then d.poll
  else if port = ataLbaMid then (d.regs.lbaMid, d)
  else if port = ataLbaHi then (d.regs.lbaHi, d)
  else (0, d)

/-- A word of the data port. The last one ends the command. -/
def inw (d : Device) : UInt16 × Device :=
  match d.phase with
  | .sending [] => (0, { d with phase := .idle })
  | .sending (w :: ws) => (w, { d with phase := if ws = [] then .idle else .sending ws })
  | _ => (0, d)

def outw (d : Device) (w : UInt16) : Device :=
  match d.phase with
  | .receiving lba ws =>
    if ws.length + 1 = 256 then
      { d with
        sectors := Function.update d.sectors lba fun i => (ws ++ [w]).getD i.val 0 }.turn .idle
    else { d with phase := .receiving lba (ws ++ [w]) }
  | _ => d

end Device

/-! ## The driver -/

def ata400ns (d : Device) : Device :=
  let (_, d) := d.inb ataAltStatus
  let (_, d) := d.inb ataAltStatus
  let (_, d) := d.inb ataAltStatus
  let (_, d) := d.inb ataAltStatus
  d

/-- The loop of `ata_wait_not_busy`, for at most `left` polls. -/
def waitNotBusyFrom : ℕ → Device → UInt8 × Device
  | 0, d => (0xFF, d)
  | left + 1, d =>
    let (status, d) := d.inb ataStatus
    if status &&& srBsy = 0 then (status, d) else waitNotBusyFrom left d

def ataWaitNotBusy (d : Device) : UInt8 × Device := waitNotBusyFrom 100000 d

/-- The loop of `ata_wait_drq`. -/
def waitDrqFrom : ℕ → Device → Bool × Device
  | 0, d => (false, d)
  | left + 1, d =>
    let (status, d) := d.inb ataStatus
    if status &&& srErr ≠ 0 then (false, d)
    else if status &&& srBsy = 0 ∧ status &&& srDrq ≠ 0 then (true, d)
    else waitDrqFrom left d

def ataWaitDrq (d : Device) : Bool × Device := waitDrqFrom 100000 (ata400ns d)

/-- A word is read from the data port and put into place `i`. -/
def readWord {β : Type} (put : β → Fin 256 → UInt16 → β) (p : β × Device) (i : Fin 256) :
    β × Device :=
  (put p.1 i p.2.inw.1, p.2.inw.2)

/-- `ata_identify`, with what `identify_data` holds afterwards. -/
def ataIdentify (data : Sector) (d : Device) : Bool × Sector × Device :=
  let d := ata400ns (d.outb ataDriveHead 0xA0)
  let d := d.outb ataSectCount 0
  let d := d.outb ataLbaLo 0
  let d := d.outb ataLbaMid 0
  let d := d.outb ataLbaHi 0
  let d := ata400ns (d.outb ataCommand cmdIdentify)
  let (status, d) := d.inb ataStatus
  if status = 0 then (false, data, d)
  else
    let (status, d) := ataWaitNotBusy d
    if status = 0xFF then (false, data, d)
    else
      let (mid, d) := d.inb ataLbaMid
      if mid ≠ 0 then (false, data, d)
      else
        let (hi, d) := d.inb ataLbaHi
        if hi ≠ 0 then (false, data, d)
        else
          let (ok, d) := ataWaitDrq d
          if !ok then (false, data, d)
          else
            let (data, d) := (List.finRange 256).foldl
              (readWord fun data i w => Function.update data i w) (data, d)
            (true, data, d)

/-- `Disk::init`. The strings of the drive and its size in megabytes are only shown. -/
def init (data : Sector) (d : Device) : BlockDevice × Device :=
  let (ok, data, d) := ataIdentify data d
  if !ok then ({ present := false, totalSectors := 0, lbaSupported := false }, d)
  else
    ({ present := true
       totalSectors := (data 60).toUInt32 ||| (data 61).toUInt32 <<< 16
       lbaSupported := data 49 &&& 0x200 ≠ 0 }, d)

/-- The address registers are set for a sector. -/
def select (lba : UInt32) (d : Device) : Device :=
  let d := d.outb ataDriveHead (address lba).driveHead
  let d := d.outb ataSectCount (address lba).sectCount
  let d := d.outb ataLbaLo (address lba).lbaLo
  let d := d.outb ataLbaMid (address lba).lbaMid
  d.outb ataLbaHi (address lba).lbaHi

/-- The buffer with the sector; `none` when false is returned. -/
def readSector (drive : BlockDevice) (lba : UInt32) (buffer : Mem) (d : Device) :
    Option Mem × Device :=
  if !drive.present || !drive.lbaSupported then (none, d)
  else if lba ≥ drive.totalSectors then (none, d)
  else
    let d := (select lba d).outb ataCommand cmdReadSectors
    let (ok, d) := ataWaitDrq d
    if !ok then (none, d)
    else
      let (buffer, d) := (List.finRange 256).foldl
        (readWord fun m i w => m.store (2 * i.val) (leBytes 2 w.toNat)) (buffer, d)
      (some buffer, d)

def writeSector (drive : BlockDevice) (lba : UInt32) (buffer : Mem) (d : Device) :
    Bool × Device :=
  if !drive.present || !drive.lbaSupported then (false, d)
  else if lba ≥ drive.totalSectors then (false, d)
  else
    let d := (select lba d).outb ataCommand cmdWriteSectors
    let (ok, d) := ataWaitDrq d
    if !ok then (false, d)
    else
      let d := (List.finRange 256).foldl (fun d i => d.outw (wordOf buffer i)) d
      let d := d.outb ataCommand cmdCacheFlush
      (true, (ataWaitNotBusy d).2)

/-! ## Waiting -/

variable {d : Device} {next : Phase} {n left : ℕ}

/-- A phase that no poll ends. -/
def Phase.Settled (p : Phase) : Prop := p.status &&& srBsy = 0

theorem poll_settled {p : Phase} (hp : p.Settled) (d : Device) :
    ({ d with phase := p } : Device).poll = (p.status, { d with phase := p }) := by
  cases p with
  | busy n next => exact absurd (show (0x80 : UInt8) &&& srBsy = 0 from hp) (by decide)
  | _ => rfl

theorem poll_after (hnext : next.Settled) (d : Device) (n : ℕ) :
    ({ d with phase := .after n next } : Device).poll =
      (if n = 0 then next.status else 0x80, { d with phase := .after (n - 1) next }) := by
  cases n with
  | zero => exact poll_settled hnext d
  | succ n => rfl

theorem ata400ns_after (hnext : next.Settled) (d : Device) (n : ℕ) :
    ata400ns { d with phase := .after n next } = { d with phase := .after (n - 4) next } := by
  change ((((({ d with phase := .after n next } : Device).poll).2.poll).2.poll).2.poll).2 = _
  rw [poll_after hnext, poll_after hnext, poll_after hnext, poll_after hnext]
  rfl

theorem waitNotBusyFrom_after (hnext : next.Settled) (d : Device) (h : n < left) :
    waitNotBusyFrom left { d with phase := .after n next } =
      (next.status, { d with phase := next }) := by
  induction left generalizing n with
  | zero => exact absurd h (Nat.not_lt_zero n)
  | succ left ih =>
    change (if (Device.poll _).1 &&& srBsy = 0 then Device.poll _
      else waitNotBusyFrom left (Device.poll _).2) = _
    rw [poll_after hnext]
    dsimp only
    cases n with
    | zero => exact if_pos hnext
    | succ n =>
      rw [if_neg (Nat.succ_ne_zero n), if_neg (by decide)]
      exact ih (Nat.lt_of_succ_lt_succ h)

/-- A drive that has its data in time is found to have it. -/
theorem waitDrqFrom_after (hnext : next.status = 0x48) (d : Device) (h : n < left) :
    waitDrqFrom left { d with phase := .after n next } = (true, { d with phase := next }) := by
  have hsettled : next.Settled := by
    unfold Phase.Settled
    rw [hnext]
    decide
  induction left generalizing n with
  | zero => exact absurd h (Nat.not_lt_zero n)
  | succ left ih =>
    change (if (Device.poll _).1 &&& srErr ≠ 0 then (false, (Device.poll _).2)
      else if (Device.poll _).1 &&& srBsy = 0 ∧ (Device.poll _).1 &&& srDrq ≠ 0 then
        (true, (Device.poll _).2)
      else waitDrqFrom left (Device.poll _).2) = _
    rw [poll_after hsettled]
    dsimp only
    cases n with
    | zero =>
      rw [if_pos rfl, hnext, if_neg (by decide), if_pos (by decide)]
      rfl
    | succ n =>
      rw [if_neg (Nat.succ_ne_zero n), if_neg (by decide), if_neg (by decide)]
      exact ih (Nat.lt_of_succ_lt_succ h)

theorem ataWaitDrq_after (hnext : next.status = 0x48) (d : Device) (h : n < 100000) :
    ataWaitDrq { d with phase := .after n next } = (true, { d with phase := next }) := by
  have hsettled : next.Settled := by
    unfold Phase.Settled
    rw [hnext]
    decide
  unfold ataWaitDrq
  rw [ata400ns_after hsettled]
  exact waitDrqFrom_after hnext d (by omega)

/-! ## Transfers -/

/-- The phase of a drive with these words left to send. -/
def sendingOf (words : List UInt16) : Phase := if words = [] then .idle else .sending words

theorem foldl_readWord {β : Type} (put : β → Fin 256 → UInt16 → β) (f : Fin 256 → UInt16)
    (l : List (Fin 256)) (b : β) (d : Device) :
    l.foldl (readWord put) (b, { d with phase := sendingOf (l.map f) }) =
      (l.foldl (fun b i => put b i (f i)) b, { d with phase := .idle }) := by
  induction l generalizing b with
  | nil => rfl
  | cons i l ih => exact ih (put b i (f i))

theorem foldl_outw (f : Fin 256 → UInt16) {lba : ℕ} (l : List (Fin 256)) (words : List UInt16)
    (d : Device) (hlen : words.length + l.length = 256) (hl : l ≠ []) :
    l.foldl (fun d i => d.outw (f i)) { d with phase := .receiving lba words } =
      ({ d with sectors := Function.update d.sectors lba fun i =>
          (words ++ l.map f).getD i.val 0 } : Device).turn .idle := by
  induction l generalizing words with
  | nil => exact absurd rfl hl
  | cons i l ih =>
    rw [List.length_cons] at hlen
    rw [List.foldl_cons, Device.outw]
    dsimp only
    by_cases hlast : l = []
    · subst hlast
      rw [if_pos (by simpa using hlen)]
      rfl
    · have hpos := List.length_pos_iff.mpr hlast
      rw [if_neg (by omega), ih (words ++ [f i]) (by simp; omega) hlast, List.append_assoc]
      rfl

/-! ## Commands -/

/-- The drive answers in the time the driver waits. -/
def Device.Prompt (d : Device) : Prop := ∀ n, d.delays n < 100000

theorem select_idle (lba : UInt32) (hidle : d.phase = .idle) :
    select lba d = { d with regs := address lba } := by
  obtain ⟨regs, phase, sectors, total, identify, delays, periods⟩ := d
  obtain rfl : phase = .idle := hidle
  rfl

theorem toNat_lowByte (a : UInt32) : ((a &&& (0xFF : UInt32)).toUInt8).toNat = a.toNat % 2 ^ 8 := by
  rw [UInt32.toNat_toUInt8, UInt32.toNat_and]
  change (a.toNat &&& 2 ^ 8 - 1) % 2 ^ 8 = _
  rw [Nat.and_two_pow_sub_one_eq_mod, Nat.mod_mod]

theorem head_bits (k : Fin 16) : ((0xE0 ||| UInt8.ofNat k.val) &&& 0x0F).toNat = k.val ∧
    (0xE0 ||| UInt8.ofNat k.val) &&& 0x40 ≠ 0 ∧ (0xE0 ||| UInt8.ofNat k.val) &&& 0x10 = 0 := by
  revert k
  decide

/-- The registers of a sector name it. -/
theorem names_address {lba : UInt32} {total : ℕ} (hlba : lba.toNat < total)
    (htotal : total ≤ 2 ^ 28) : lbaOf (address lba) = lba.toNat ∧ Names (address lba) total := by
  have hshift : ∀ k : UInt32, (lba >>> k).toNat = lba.toNat / 2 ^ (k.toNat % 32) := fun k => by
    rw [UInt32.toNat_shiftRight, Nat.shiftRight_eq_div_pow]
  have hhead : ((lba >>> 24 &&& (0x0F : UInt32)).toUInt8) = UInt8.ofNat (lba.toNat / 2 ^ 24) := by
    apply UInt8.toNat_inj.mp
    rw [UInt32.toNat_toUInt8, UInt32.toNat_and, hshift]
    change (lba.toNat / 2 ^ 24 &&& 2 ^ 4 - 1) % 2 ^ 8 = (lba.toNat / 2 ^ 24) % 2 ^ 8
    rw [Nat.and_two_pow_sub_one_eq_mod, Nat.mod_eq_of_lt (show _ < 2 ^ 4 by omega)]
  obtain ⟨hfour, hlbaMode, hmaster⟩ := head_bits ⟨lba.toNat / 2 ^ 24, by omega⟩
  have hvalue : lbaOf (address lba) = lba.toNat := by
    unfold lbaOf address
    dsimp only
    rw [hhead, hfour, toNat_lowByte, toNat_lowByte, toNat_lowByte, hshift, hshift]
    change lba.toNat / 2 ^ 24 * 2 ^ 24 + lba.toNat / 2 ^ 16 % 2 ^ 8 * 2 ^ 16 +
      lba.toNat / 2 ^ 8 % 2 ^ 8 * 2 ^ 8 + lba.toNat % 2 ^ 8 = _
    omega
  refine ⟨hvalue, ?_, ?_, rfl, by rwa [hvalue]⟩
  · unfold address
    dsimp only
    rwa [hhead]
  · unfold address
    dsimp only
    rwa [hhead]

theorem outb_command (d : Device) (c : UInt8) : d.outb ataCommand c = d.command c := if_pos rfl

/-- A turn of an idle drive ends while the driver waits. -/
theorem ataWaitDrq_turn (hprompt : d.Prompt) (hnext : next.status = 0x48) :
    ataWaitDrq (d.turn next) = (true, { d with phase := next, periods := d.periods + 1 }) :=
  ataWaitDrq_after hnext { d with periods := d.periods + 1 } (hprompt d.periods)

theorem ofFn_ne_nil (words : Sector) : List.ofFn words ≠ [] :=
  List.ne_nil_of_length_eq_add_one (n := 255) (List.length_ofFn)

/-- A whole sector is read. -/
theorem foldl_readWord_sector {β : Type} (put : β → Fin 256 → UInt16 → β) (words : Sector) (b : β)
    (d : Device) :
    (List.finRange 256).foldl (readWord put) (b, { d with phase := .sending (List.ofFn words) }) =
      ((List.finRange 256).foldl (fun b i => put b i (words i)) b, { d with phase := .idle }) := by
  have hsending : Phase.sending (List.ofFn words) = sendingOf ((List.finRange 256).map words) := by
    rw [← List.ofFn_eq_map]
    exact (if_neg (ofFn_ne_nil words)).symm
  rw [hsending]
  exact foldl_readWord put words _ b d

theorem readSector_idle {drive : BlockDevice} {lba : UInt32} (hidle : d.phase = .idle)
    (hprompt : d.Prompt) (hpresent : drive.present = true) (hlbaMode : drive.lbaSupported = true)
    (hlba : lba < drive.totalSectors) (hin : lba.toNat < d.total) (htotal : d.total ≤ 2 ^ 28)
    (buffer : Mem) :
    readSector drive lba buffer d =
      (some (readWords (d.sectors lba.toNat) buffer),
        { d with regs := address lba, phase := .idle, periods := d.periods + 1 }) := by
  obtain ⟨hvalue, hnames⟩ := names_address hin htotal
  have hcommand : (select lba d).outb ataCommand cmdReadSectors =
      ({ d with regs := address lba } : Device).turn (.sending (List.ofFn (d.sectors lba.toNat))) := by
    rw [select_idle lba hidle, outb_command, Device.command]
    dsimp only
    rw [hidle]
    dsimp only
    rw [if_neg (by decide), if_neg (by decide), if_pos hnames, if_pos rfl, hvalue]
  unfold readSector
  rw [if_neg (by simp [hpresent, hlbaMode]), if_neg (UInt32.not_le.mpr hlba), hcommand]
  dsimp only
  rw [ataWaitDrq_turn (d := { d with regs := address lba }) hprompt rfl]
  dsimp only
  rw [if_neg (by decide), foldl_readWord_sector _ (d.sectors lba.toNat) buffer
    { d with regs := address lba, periods := d.periods + 1 }]
  dsimp only [readWords]

/-- After the last word the drive is busy, and the flush may find it so. -/
theorem flush_idle (hprompt : d.Prompt) :
    ∃ p, ataWaitNotBusy ((d.turn .idle).outb ataCommand cmdCacheFlush) =
      (0x40, { d with phase := .idle, periods := p }) := by
  have hidle : Phase.idle.Settled := show (0x40 : UInt8) &&& srBsy = 0 by decide
  rw [outb_command]
  cases hdelay : d.delays d.periods with
  | zero =>
    refine ⟨d.periods + 2, ?_⟩
    have hflush : (d.turn .idle).command cmdCacheFlush =
        ({ d with periods := d.periods + 1 } : Device).turn .idle := by
      unfold Device.turn Device.command
      simp only [hdelay, Phase.after]
      rfl
    rw [hflush]
    exact waitNotBusyFrom_after hidle { d with periods := d.periods + 2 } (hprompt (d.periods + 1))
  | succ n =>
    refine ⟨d.periods + 1, ?_⟩
    have hflush : (d.turn .idle).command cmdCacheFlush = d.turn .idle := by
      unfold Device.turn Device.command
      simp only [hdelay, Phase.after]
    rw [hflush]
    exact waitNotBusyFrom_after hidle { d with periods := d.periods + 1 } (hprompt d.periods)

theorem writeSector_idle (drive : BlockDevice) {lba : UInt32} (hidle : d.phase = .idle)
    (hprompt : d.Prompt) (hpresent : drive.present = true) (hlbaMode : drive.lbaSupported = true)
    (hlba : lba < drive.totalSectors) (hin : lba.toNat < d.total) (htotal : d.total ≤ 2 ^ 28)
    (buffer : Mem) : ∃ p,
    writeSector drive lba buffer d =
      (true, { d with
        regs := address lba
        phase := .idle
        sectors := Function.update d.sectors lba.toNat (wordOf buffer)
        periods := p }) := by
  obtain ⟨hvalue, hnames⟩ := names_address hin htotal
  have hcommand : (select lba d).outb ataCommand cmdWriteSectors =
      ({ d with regs := address lba } : Device).turn (.receiving lba.toNat []) := by
    rw [select_idle lba hidle, outb_command, Device.command]
    dsimp only
    rw [hidle]
    dsimp only
    rw [if_neg (by decide), if_neg (by decide), if_pos hnames, if_neg (by decide), if_pos rfl,
      hvalue]
  have hwords : (fun i : Fin 256 => ([] ++ (List.finRange 256).map (wordOf buffer)).getD i.val 0) =
      wordOf buffer := by
    funext i
    rw [List.nil_append, ← List.ofFn_eq_map, List.getD_eq_getElem?_getD, List.getElem?_ofFn,
      dif_pos i.isLt]
    rfl
  obtain ⟨p, hflush⟩ := flush_idle (d := { d with
      regs := address lba
      periods := d.periods + 1
      sectors := Function.update d.sectors lba.toNat (wordOf buffer) }) hprompt
  refine ⟨p, ?_⟩
  unfold writeSector
  rw [if_neg (by simp [hpresent, hlbaMode]), if_neg (UInt32.not_le.mpr hlba), hcommand]
  dsimp only
  rw [ataWaitDrq_turn (d := { d with regs := address lba }) hprompt rfl]
  dsimp only
  rw [if_neg (by decide), foldl_outw (wordOf buffer) (List.finRange 256) []
    { d with regs := address lba, periods := d.periods + 1 } (by simp) (by simp), hwords, hflush]

/-! ## Detection -/

/-- The identification gives the number of sectors and says that they have addresses. -/
structure Device.Identified (d : Device) : Prop where
  total : ((d.identify 60).toUInt32 ||| (d.identify 61).toUInt32 <<< 16).toNat = d.total
  lba : d.identify 49 &&& 0x200 ≠ 0
  bound : d.total ≤ 2 ^ 28

/-- What `Disk::init` finds. -/
def Device.drive (d : Device) : BlockDevice where
  present := true
  totalSectors := UInt32.ofNat d.total
  lbaSupported := true

theorem update_all (words data : Sector) :
    (List.finRange 256).foldl (fun data i => Function.update data i (words i)) data = words := by
  have hall : ∀ (l : List (Fin 256)) (data : Sector) (i : Fin 256),
      l.foldl (fun data i => Function.update data i (words i)) data i =
        if i ∈ l then words i else data i := by
    intro l
    induction l with
    | nil => simp
    | cons j l ih =>
      intro data i
      rw [List.foldl_cons, ih]
      by_cases hl : i ∈ l
      · simp [hl]
      · by_cases hj : i = j
        · subst hj
          simp [hl]
        · simp [hl, hj]
  funext i
  rw [hall, if_pos (List.mem_finRange i)]

/-- The registers after `ata_identify`. -/
def zeroed : Address := ⟨0xA0, 0, 0, 0, 0⟩

theorem ataIdentify_idle (hidle : d.phase = .idle) (hprompt : d.Prompt) (data : Sector) :
    ataIdentify data d =
      (true, d.identify, { d with regs := zeroed, phase := .idle, periods := d.periods + 1 }) := by
  let d₀ : Device := { d with regs := zeroed, periods := d.periods + 1 }
  let next : Phase := .sending (List.ofFn d.identify)
  have hnext : next.status = 0x48 := rfl
  have hsettled : next.Settled := show (0x48 : UInt8) &&& srBsy = 0 by decide
  have hcommand : ((((((ata400ns (d.outb ataDriveHead 0xA0)).outb ataSectCount 0).outb ataLbaLo
      0).outb ataLbaMid 0).outb ataLbaHi 0).outb ataCommand cmdIdentify) =
        { d₀ with phase := .after (d.delays d.periods) next } := by
    obtain ⟨regs, phase, sectors, total, identify, delays, periods⟩ := d
    obtain rfl : phase = .idle := hidle
    rfl
  have hstatus : ({ d₀ with phase := .after (d.delays d.periods - 4) next } : Device).inb ataStatus =
      (if d.delays d.periods - 4 = 0 then next.status else 0x80,
        { d₀ with phase := .after (d.delays d.periods - 4 - 1) next }) := poll_after hsettled d₀ _
  have hwait : ataWaitNotBusy { d₀ with phase := .after (d.delays d.periods - 4 - 1) next } =
      (next.status, { d₀ with phase := next }) :=
    waitNotBusyFrom_after hsettled d₀ (by have := hprompt d.periods; omega)
  have hmid : ({ d₀ with phase := next } : Device).inb ataLbaMid = (0, { d₀ with phase := next }) := rfl
  have hhi : ({ d₀ with phase := next } : Device).inb ataLbaHi = (0, { d₀ with phase := next }) := rfl
  have hready : ataWaitDrq { d₀ with phase := next } = (true, { d₀ with phase := next }) :=
    ataWaitDrq_after (n := 0) hnext d₀ (by decide)
  unfold ataIdentify
  dsimp only
  rw [hcommand, ata400ns_after hsettled, hstatus, if_neg (by rw [hnext]; dsimp only; split <;> decide),
    hwait]
  dsimp only
  rw [if_neg (show ¬next.status = 0xFF by rw [hnext]; decide), hmid]
  dsimp only
  rw [if_neg (not_not.mpr rfl), hhi]
  dsimp only
  rw [if_neg (not_not.mpr rfl), hready]
  dsimp only
  rw [if_neg (show ¬(!true) = true by decide), foldl_readWord_sector _ d.identify data d₀, update_all]

theorem init_idle (hidle : d.phase = .idle) (hprompt : d.Prompt) (hident : d.Identified)
    (data : Sector) :
    init data d = (d.drive, { d with regs := zeroed, phase := .idle, periods := d.periods + 1 }) := by
  unfold init
  rw [ataIdentify_idle hidle hprompt]
  dsimp only
  rw [if_neg (show ¬(!true) = true by decide), Device.drive, ← hident.total, UInt32.ofNat_toNat,
    decide_eq_true hident.lba]

/-! ## Runs -/

inductive Call
  | read (lba : UInt32) (buffer : Mem)
  | write (lba : UInt32) (buffer : Mem)

/-- What a call returns, with the buffer that was read. -/
inductive Result
  | read (buffer : Option Mem)
  | write (ok : Bool)

/-- A call of the driver. -/
def step (drive : BlockDevice) (d : Device) : Call → Result × Device
  | .read lba buffer =>
    let (b, d) := readSector drive lba buffer d
    (.read b, d)
  | .write lba buffer =>
    let (ok, d) := writeSector drive lba buffer d
    (.write ok, d)

def run (drive : BlockDevice) : Device → List Call → List Result
  | _, [] => []
  | d, call :: calls => (step drive d call).1 :: run drive (step drive d call).2 calls

/-- The call as `Disk` has it, where the driver polls `status`. -/
def diskStep (status : ℕ → UInt8) (s : State) : Call → Result × State
  | .read lba buffer => (.read (Disk.readSector s lba buffer status), s)
  | .write lba buffer =>
    let (s, ok) := Disk.writeSector s lba buffer status
    (.write ok, s)

def diskRun (status : ℕ → UInt8) : State → List Call → List Result
  | _, [] => []
  | s, call :: calls =>
    (diskStep status s call).1 :: diskRun status (diskStep status s call).2 calls

/-- The registers find the sectors of the drive. -/
def Agrees (s : State) (d : Device) : Prop :=
  ∀ lba : UInt32, lba.toNat < d.total → s.sectors (address lba) = d.sectors lba.toNat

/-- Between two calls. -/
structure Ready (d : Device) : Prop where
  idle : d.phase = .idle
  prompt : d.Prompt
  bound : d.total ≤ 2 ^ 28

theorem address_inj {a b : UInt32} {total : ℕ} (ha : a.toNat < total) (hb : b.toNat < total)
    (htotal : total ≤ 2 ^ 28) (h : address a = address b) : a = b := by
  apply UInt32.toNat_inj.mp
  rw [← (names_address ha htotal).1, ← (names_address hb htotal).1, h]

theorem lt_totalSectors (hready : Ready d) (lba : UInt32) :
    lba < d.drive.totalSectors ↔ lba.toNat < d.total := by
  have hbound := hready.bound
  rw [UInt32.lt_iff_toNat_lt, Device.drive, UInt32.toNat_ofNat', Nat.mod_eq_of_lt (by omega)]

theorem usable_iff {s : State} (hready : Ready d) (hdrive : s.drive = d.drive) (lba : UInt32) :
    s.Usable lba ↔ lba.toNat < d.total := by
  unfold State.Usable
  rw [hdrive, ← lt_totalSectors hready lba]
  exact ⟨fun h => h.2.2, fun h => ⟨rfl, rfl, h⟩⟩

/-- Sectors the drive does not have are refused. -/
theorem readSector_refused {lba : UInt32} (hout : ¬lba < d.drive.totalSectors) (buffer : Mem) :
    readSector d.drive lba buffer d = (none, d) := by
  unfold readSector
  rw [if_neg (by simp [Device.drive]), if_pos (UInt32.not_lt.mp hout)]

theorem writeSector_refused {lba : UInt32} (hout : ¬lba < d.drive.totalSectors) (buffer : Mem) :
    writeSector d.drive lba buffer d = (false, d) := by
  unfold writeSector
  rw [if_neg (by simp [Device.drive]), if_pos (UInt32.not_lt.mp hout)]

/-- A written sector is found by its registers and no others. -/
theorem Agrees.write {s : State} (h : Agrees s d) (hbound : d.total ≤ 2 ^ 28) {lba : UInt32}
    (hin : lba.toNat < d.total) (words : Sector) (regs : Address) (phase : Phase) (p : ℕ) :
    Agrees { s with sectors := Function.update s.sectors (address lba) words }
      { d with
        sectors := Function.update d.sectors lba.toNat words
        regs := regs, phase := phase, periods := p } := by
  intro a ha
  dsimp only at ha ⊢
  by_cases heq : a = lba
  · subst heq
    rw [Function.update_self, Function.update_self]
  · rw [Function.update_of_ne fun hadr => heq (address_inj ha hin hbound hadr),
      Function.update_of_ne fun hnat => heq (UInt32.toNat_inj.mp hnat), h a ha]

/-- One call of the driver is the call of `Disk`. -/
theorem step_eq {s : State} {status : ℕ → UInt8} (hready : Ready d) (hdrive : s.drive = d.drive)
    (hagrees : Agrees s d) (hstatus : Disk.ataWaitDrq status = true) (call : Call) :
    (step d.drive d call).1 = (diskStep status s call).1 ∧ Ready (step d.drive d call).2 ∧
      (step d.drive d call).2.drive = d.drive ∧
      (diskStep status s call).2.drive = d.drive ∧
      Agrees (diskStep status s call).2 (step d.drive d call).2 := by
  have hbound := hready.bound
  cases call with
  | read lba buffer =>
    by_cases hin : lba.toNat < d.total
    · have hlba := (lt_totalSectors hready lba).mpr hin
      have husable := (usable_iff hready hdrive lba).mpr hin
      unfold step diskStep
      dsimp only
      rw [readSector_idle hready.idle hready.prompt rfl rfl hlba hin hbound,
        Disk.readSector_of_usable husable hstatus, hagrees lba hin]
      exact ⟨rfl, ⟨rfl, hready.prompt, hbound⟩, rfl, hdrive, hagrees⟩
    · have hlba := mt (lt_totalSectors hready lba).mp hin
      have husable := mt (usable_iff hready hdrive lba).mp hin
      unfold step diskStep
      dsimp only
      rw [readSector_refused hlba, Disk.readSector_of_not_usable husable]
      exact ⟨rfl, hready, rfl, hdrive, hagrees⟩
  | write lba buffer =>
    by_cases hin : lba.toNat < d.total
    · have hlba := (lt_totalSectors hready lba).mpr hin
      have husable := (usable_iff hready hdrive lba).mpr hin
      have hok : (Disk.writeSector s lba buffer status).2 = true :=
        Disk.writeSector_eq_true_iff.mpr ⟨husable, hstatus⟩
      obtain ⟨p, hport⟩ := writeSector_idle d.drive hready.idle hready.prompt rfl rfl hlba
        hin hbound buffer
      unfold step diskStep
      dsimp only
      rw [hport, hok, Disk.writeSector_of_true hok]
      exact ⟨rfl, ⟨rfl, hready.prompt, hbound⟩, rfl, hdrive,
        hagrees.write hbound hin (wordOf buffer) _ _ p⟩
    · have hlba := mt (lt_totalSectors hready lba).mp hin
      have husable := mt (usable_iff hready hdrive lba).mp hin
      unfold step diskStep
      dsimp only
      rw [writeSector_refused hlba, Disk.writeSector_of_not_usable husable]
      exact ⟨rfl, hready, rfl, hdrive, hagrees⟩

theorem run_eq {s : State} {status : ℕ → UInt8} (hready : Ready d) (hdrive : s.drive = d.drive)
    (hagrees : Agrees s d) (hstatus : Disk.ataWaitDrq status = true) (calls : List Call) :
    run d.drive d calls = diskRun status s calls := by
  induction calls generalizing d s with
  | nil => rfl
  | cons call calls ih =>
    obtain ⟨hresult, hready', hsame, hdrive', hagrees'⟩ :=
      step_eq hready hdrive hagrees hstatus call
    unfold run diskRun
    rw [hresult, ← ih hready' (hdrive'.trans hsame.symm) hagrees', hsame]

/-- An identified drive that answers in time is detected, and whatever sectors are read and written
from then on, the calls return what they return on the disk of `Disk` with the same sectors. -/
theorem driver_refines_disk (d : Device) (hidle : d.phase = .idle) (hprompt : d.Prompt)
    (hident : d.Identified) (data : Sector) (calls : List Call) (s : State)
    (hdrive : s.drive = d.drive) (hagrees : Agrees s d) (status : ℕ → UInt8)
    (hstatus : Disk.ataWaitDrq status = true) :
    (init data d).1 = d.drive ∧
      run (init data d).1 (init data d).2 calls = diskRun status s calls := by
  rw [init_idle hidle hprompt hident]
  exact ⟨rfl, run_eq (d := { d with regs := zeroed, phase := .idle, periods := d.periods + 1 })
    ⟨rfl, hprompt, hident.bound⟩ hdrive hagrees hstatus calls⟩

/-- A drive of 1000 empty sectors that is busy for ten polls each time. -/
def sampleDrive : Device where
  regs := zeroed
  phase := .idle
  sectors _ _ := 0
  total := 1000
  identify i := if i.val = 60 then 1000 else if i.val = 49 then 0x200 else 0
  delays _ := 10
  periods := 0

theorem driver_refines_disk_sample :
    run (init (fun _ => 0) sampleDrive).1 (init (fun _ => 0) sampleDrive).2
        [.write 100 fun _ => 7, .read 100 fun _ => 0, .read 1000 fun _ => 0] =
      diskRun (fun _ => 0x48) ⟨sampleDrive.drive, fun _ _ => 0⟩
        [.write 100 fun _ => 7, .read 100 fun _ => 0, .read 1000 fun _ => 0] :=
  (driver_refines_disk sampleDrive rfl (fun _ => (by decide : 10 < 100000))
    ⟨by decide, by decide, by decide⟩ (fun _ => 0) _ ⟨sampleDrive.drive, fun _ _ => 0⟩ rfl
    (fun _ _ => rfl) (fun _ => 0x48) (by decide)).2

end QuillOS.Disk.Ata
