import QuillOS.Lib.Run
import QuillOS.Shell.Model

/-!
# Boot and the keyboard

The steps of `_start` from `keyboard_init` to `shell_init`, between which key presses come in. A
scancode goes through `keyboard_irq_handler` to `shell_update`. Of the boot steps, those of the disk,
the accounts, the clipboard and the shell are spelled out; the others set up the rest of the kernel.
`Users::init` is cut where it has cleared the table and not yet loaded it.
-/

namespace QuillOS.Boot

open Filesystem (Str)
open Shell (Kernel ascii shellUpdate)

/-! ## Keyboard -/

structure Keyboard where
  shiftDown : Bool
  ctrlDown : Bool
  extPrefix : Bool
  deriving DecidableEq

def scLower : List UInt8 :=
  [0, 27] ++ ascii "1234567890-=" ++ [8, 9] ++ ascii "qwertyuiop[]\n" ++ [0] ++
    ascii "asdfghjkl;'\x60" ++ [0] ++ ascii "\\zxcvbnm,./" ++ [0] ++ ascii "*" ++ [0] ++ ascii " "

def scUpper : List UInt8 :=
  [0, 27] ++ ascii "!@#$%^&*()_+" ++ [8, 9] ++ ascii "QWERTYUIOP\x7b\x7d\n" ++ [0] ++
    ascii "ASDFGHJKL:\"~" ++ [0] ++ ascii "|ZXCVBNM<>?" ++ [0] ++ ascii "*" ++ [0] ++ ascii " "

/-- A letter typed with Ctrl. -/
def ctrlChar (c : UInt8) : Option UInt8 :=
  if 97 ≤ c ∧ c ≤ 122 then some (c - 97 + 1)
  else if 65 ≤ c ∧ c ≤ 90 then some (c - 65 + 1)
  else none

/-- The character of a key press with the modifiers as they are. -/
def keyChar (kb : Keyboard) (code : ℕ) : Option UInt8 :=
  if scLower.length ≤ code then none
  else
    let c := if kb.shiftDown then scUpper.getD code 0 else scLower.getD code 0
    if c = 0 then none
    else if kb.ctrlDown then ctrlChar c
    else some c

/-- `keyboard_irq_handler`: the modifiers and the character given to `shell_update`, if any. -/
def keyboardIrq (kb : Keyboard) (sc : UInt8) : Keyboard × Option UInt8 :=
  let release := sc &&& 0x80 ≠ 0
  let code := (sc &&& 0x7F).toNat
  if sc = 0xE0 then ({ kb with extPrefix := true }, none)
  -- The second byte of an extended key is dropped, press or release.
  else if kb.extPrefix then ({ kb with extPrefix := false }, none)
  else if code = 0x2A ∨ code = 0x36 then ({ kb with shiftDown := !release }, none)
  else if code = 0x1D then ({ kb with ctrlDown := !release }, none)
  else if release then (kb, none)
  else (kb, keyChar kb code)

/-! ## Boot -/

inductive BootStep
  | keyboardInit
  | mouseInit
  | serialInit
  | cpuInit
  | memoryInit
  | schedulerInit
  | pciInit
  | diskInit
  | e1000Init
  | networkInit
  | clusterInit
  | djobInit
  | processInit
  | usersClear
  | usersLoad
  | clipboardInit
  | shellInit
  deriving DecidableEq, Repr

def bootOrder : List BootStep :=
  [.keyboardInit, .mouseInit, .serialInit, .cpuInit, .memoryInit, .schedulerInit, .pciInit, .diskInit,
    .e1000Init, .networkInit, .clusterInit, .djobInit, .processInit, .usersClear, .usersLoad,
    .clipboardInit, .shellInit]

/-- The rest of the kernel, with its part of the boot. -/
structure Kernel (κ : Type) extends Shell.Kernel κ where
  boot : BootStep → κ → κ

structure State (κ : Type) where
  /-- The number of boot steps done. -/
  pc : ℕ
  keyboard : Keyboard
  shell : Shell.State κ

variable {κ : Type}

/-- The statics before `keyboard_init`, with `stored` in the sector of the accounts. -/
def start (stored : Users.Sector) (rest : κ) : State κ where
  pc := 0
  keyboard := { shiftDown := false, ctrlDown := false, extPrefix := false }
  shell :=
    { mode := .signupUser
      line := []
      pendingUsername := []
      pendingPassword := []
      passwordMode := false
      editFilename := []
      editBuf := []
      cwd := Filesystem.rootPath
      fs := fun _ => Filesystem.FileEntry.cleared
      clipboard := []
      users :=
        { users := Users.blank
          current := none
          disk := { present := false, userSector := stored } }
      rest := rest
      log := [] }

/-- A boot step; the disk is there when `Disk::init` looks for it. -/
def bootStep (d : Kernel κ) (s : Shell.State κ) : BootStep → Shell.State κ
  | .diskInit => { s with users.disk.present := true, rest := d.boot .diskInit s.rest }
  | .usersClear => { s with users := Users.clear s.users }
  | .usersLoad => { s with users := (Users.loadFromDisk s.users).1 }
  | .clipboardInit => { s with clipboard := [] }
  | .shellInit => Shell.shellInit s
  | b => { s with rest := d.boot b s.rest }

/-- A step of `_start`, or a scancode of the keyboard. -/
inductive Label
  | boot
  | key (sc : UInt8)

def press (d : Kernel κ) (s : State κ) (sc : UInt8) : Option (State κ) :=
  let (kb, c) := keyboardIrq s.keyboard sc
  match c with
  | none => some { s with keyboard := kb }
  | some c => (shellUpdate d.toKernel s.shell c).map fun shell =>
      { s with keyboard := kb, shell := shell }

/-- Keys come in once `keyboard_init` is done, here as long as `shell_init` is not. -/
def step (d : Kernel κ) (s : State κ) : Label → Option (State κ)
  | .boot => bootOrder[s.pc]?.map fun b =>
      { s with pc := s.pc + 1, shell := bootStep d s.shell b }
  | .key sc => if 0 < s.pc ∧ s.pc < bootOrder.length then press d s sc else none

def Step (d : Kernel κ) (s : State κ) (l : Label) (t : State κ) : Prop := step d s l = some t

end QuillOS.Boot
