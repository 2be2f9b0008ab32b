import QuillOS.Filesystem.Model
import QuillOS.Shell.Users

/-!
# The shell

`shell.cpp`: the line buffer, the modes of login, sign-up, onboarding, editor and command line, and
the commands that work on files, on the clipboard and on the session. `shell_buffer` is the list of
its characters up to `shell_ptr`; console output is left out. The other commands work on the rest of
the kernel, whose state `κ` they change and nothing else. `none` is a write past the end of a buffer
or a read through a null pointer. The log records what the session depends on.
-/

namespace QuillOS.Shell

open Filesystem (Str fits slash rootPath maxPathLen maxFileData)

def shellBufferSize : ℕ := 256
def clipboardMaxSize : ℕ := 4096

inductive Mode
  | signupUser
  | signupPass
  | signupConfirm
  | onboardUsecase
  | onboardPackages
  | loginUser
  | loginPass
  | edit
  | shell
  deriving DecidableEq, Repr

/-- What happens to a session: a call of `Users::verify` or `Users::create` that returned true, a
run of `shell_init`, a logout, a command line given to `process_command`, a file written by the
editor. -/
inductive Event
  | verified
  | created
  | started
  | loggedOut
  | command (line : Str)
  | wrote
  deriving DecidableEq, Repr

/-- The rest of the kernel: the commands that act on it, and `Serial::read_line`. -/
structure Kernel (κ : Type) where
  command : κ → Str → Str → κ
  readLine : κ → Str × κ

structure State (κ : Type) where
  mode : Mode
  line : Str
  pendingUsername : Str
  pendingPassword : Str
  passwordMode : Bool
  editFilename : Str
  editBuf : Str
  cwd : Str
  fs : Filesystem.Entries
  clipboard : Str
  users : Users.State
  rest : κ
  log : List Event

variable {κ : Type}

/-- The characters of a text. -/
def ascii (text : String) : Str := text.toList.map fun c => UInt8.ofNat c.toNat

def State.event (s : State κ) (e : Event) : State κ := { s with log := s.log ++ [e] }

/-- Sets the mode, with the echo its prompt asks for. -/
def State.prompt (s : State κ) (m : Mode) : State κ :=
  { s with mode := m, passwordMode := decide (m ∈ [.signupPass, .signupConfirm, .loginPass]) }

def enterShellMode (s : State κ) : State κ := s.prompt .shell

/-- The mode depends on whether there is an account. -/
def shellInit (s : State κ) : State κ :=
  let s := { s with line := [], fs := Filesystem.init }.event .started
  if Users.count s.users = 0 then s.prompt .signupUser else s.prompt .loginUser

/-! ## Commands -/

/-- `build_path`, into a buffer of `MAX_PATH_LEN` bytes. -/
def buildPath (cwd name : Str) : Option Str :=
  fits maxPathLen <|
    if name.head? = some slash then name
    else cwd ++ (if cwd = rootPath then [] else [slash]) ++ name

/-- `cmd` and `arg` of a command line. -/
def splitCommand (input : Str) : Str × Str :=
  let input := input.dropWhile (· = 32)
  let cmd := (input.takeWhile (· ≠ 32)).take 63
  let arg := ((input.drop cmd.length).dropWhile (· = 32)).take 191
  (cmd, arg)

/-- The bytes of a file up to a terminator, read into a buffer of `MAX_FILE_DATA` bytes. -/
def readText (s : State κ) (path : Str) : Option (Option Str) :=
  (Filesystem.readFile s.fs path (UInt32.ofNat maxFileData)).map
    (Option.map (List.takeWhile (· ≠ 0)))

/-- `Clipboard::set`. -/
def State.copy (s : State κ) (text : Str) : State κ :=
  { s with clipboard := text.take (clipboardMaxSize - 1) }

/-- `Clipboard::get`, as a string. -/
def State.clip (s : State κ) : Str := s.clipboard.takeWhile (· ≠ 0)

/-- A command that calls one file operation on the path of its argument. -/
def onPath (s : State κ) (arg : Str)
    (op : Filesystem.Entries → Str → Option (Filesystem.Entries × Bool)) : Option (State κ) :=
  if arg = [] then some s
  else do
    let path ← buildPath s.cwd arg
    let (fs, _) ← op s.fs path
    return { s with fs := fs }

def mkdirCommand (s : State κ) (arg : Str) : Option (State κ) := onPath s arg Filesystem.mkdir
def touchCommand (s : State κ) (arg : Str) : Option (State κ) := onPath s arg Filesystem.touch
def rmCommand (s : State κ) (arg : Str) : Option (State κ) := onPath s arg Filesystem.rm

/-- `ls` counts the entries of any path, so that `cd` takes every path that fits. -/
def cdCommand (s : State κ) (arg : Str) : Option (State κ) :=
  if arg = [] ∨ arg = rootPath then some { s with cwd := rootPath }
  else do
    let path ← buildPath s.cwd arg
    let _ ← Filesystem.ls s.fs path 16
    return { s with cwd := path }

def lsCommand (s : State κ) (arg : Str) : Option (State κ) := do
  let path ← (if arg = [] then some s.cwd else buildPath s.cwd arg)
  let _ ← Filesystem.ls s.fs path 1024
  return s

def catCommand (s : State κ) (arg : Str) : Option (State κ) :=
  if arg = [] then some s
  else do
    let path ← buildPath s.cwd arg
    let _ ← readText s path
    return s

def writeCommand (s : State κ) (arg : Str) : Option (State κ) :=
  let filename := (arg.takeWhile (· ≠ 32)).take 63
  let content := ((arg.drop filename.length).dropWhile (· = 32)).take 127
  if filename = [] ∨ content = [] then some s
  else do
    let path ← buildPath s.cwd filename
    let (fs, _) ← Filesystem.writeFile s.fs path content
    return { s with fs := fs }

def copyCommand (s : State κ) (arg : Str) : State κ := if arg = [] then s else s.copy arg

/-- `copyf`, and the first half of `cut`: the new state and whether the file was read. -/
def copyFile (s : State κ) (path : Str) : Option (State κ × Bool) :=
  (readText s path).map fun
    | none => (s, false)
    | some text => (s.copy text, true)

def copyfCommand (s : State κ) (arg : Str) : Option (State κ) :=
  if arg = [] then some s
  else do
    let path ← buildPath s.cwd arg
    let (s, _) ← copyFile s path
    return s

def pastefCommand (s : State κ) (arg : Str) : Option (State κ) :=
  if arg = [] ∨ s.clipboard = [] then some s
  else onPath s arg fun fs path => Filesystem.writeFile fs path s.clip

def cutCommand (s : State κ) (arg : Str) : Option (State κ) :=
  if arg = [] then some s
  else do
    let path ← buildPath s.cwd arg
    let (s, ok) ← copyFile s path
    if !ok then return s
    else
      let (fs, _) ← Filesystem.rm s.fs path
      return { s with fs := fs }

def pastehCommand (d : Kernel κ) (s : State κ) : State κ :=
  let (text, rest) := d.readLine s.rest
  let s := { s with rest := rest }
  if text = [] then s else s.copy text

/-- `edit_filename` holds 64 bytes. -/
def nanoCommand (s : State κ) (arg : Str) : Option (State κ) :=
  if arg = [] then some s
  else do
    let path ← buildPath s.cwd arg
    let filename ← fits 64 path
    let contents ← readText s path
    return { s with
      editFilename := filename
      editBuf := (contents.getD []).take 1023
      mode := .edit }

def logoutCommand (s : State κ) : State κ :=
  ({ s with users := { s.users with current := none } }.event .loggedOut).prompt .loginUser

def processCommand (d : Kernel κ) (s : State κ) (input : Str) : Option (State κ) :=
  let (cmd, arg) := splitCommand input
  if cmd = [] then some s
  else if cmd = ascii "cls" then some (shellInit s)
  else if cmd = ascii "cd" then cdCommand s arg
  else if cmd = ascii "ls" then lsCommand s arg
  else if cmd = ascii "mkdir" then mkdirCommand s arg
  else if cmd = ascii "touch" then touchCommand s arg
  else if cmd = ascii "cat" then catCommand s arg
  else if cmd = ascii "write" then writeCommand s arg
  else if cmd = ascii "rm" then rmCommand s arg
  else if cmd = ascii "nano" then nanoCommand s arg
  else if cmd = ascii "logout" then some (logoutCommand s)
  else if cmd = ascii "copy" then some (copyCommand s arg)
  else if cmd = ascii "copyf" then copyfCommand s arg
  else if cmd = ascii "pastef" then pastefCommand s arg
  else if cmd = ascii "cut" then cutCommand s arg
  else if cmd = ascii "pasteh" then some (pastehCommand d s)
  else some { s with rest := d.command s.rest cmd arg }

/-! ## Lines -/

def signupUser (s : State κ) (line : Str) : Option (State κ) :=
  if line = [] then some (s.prompt .signupUser)
  else (fits 32 line).map fun name => { s with pendingUsername := name }.prompt .signupPass

def signupPass (s : State κ) (line : Str) : Option (State κ) :=
  if line.length < 3 then some (s.prompt .signupPass)
  else (fits 64 line).map fun pass => { s with pendingPassword := pass }.prompt .signupConfirm

def signupConfirm (s : State κ) (line : Str) : State κ :=
  if s.pendingPassword ≠ line then { s with pendingPassword := [] }.prompt .signupPass
  else
    let (users, ok) := Users.create s.users s.pendingUsername s.pendingPassword
    if !ok then { s with users := users }.prompt .signupUser
    else
      { s with
        users := { users with current := Users.find users s.pendingUsername }
        pendingPassword := [] }.event .created |>.prompt .onboardUsecase

def usecaseOf (line : Str) : Option Users.UseCase :=
  if line.head? = some 49 then some .dev
  else if line.head? = some 50 then some .hosting
  else if line.head? = some 51 then some .cluster
  else if line.head? = some 52 then some .daily
  else none

def onboardUsecase (s : State κ) (line : Str) : State κ :=
  match usecaseOf line with
  | none => s.prompt .onboardUsecase
  | some uc =>
    { s with users := Users.setUsecase s.users s.users.current uc }.prompt .onboardPackages

/-- The answer `y` looks at the current user's use case. -/
def onboardPackages (s : State κ) (line : Str) : Option (State κ) :=
  if (line.head? = some 121 ∨ line.head? = some 89) ∧ s.users.current = none then none
  else some (enterShellMode
    { s with users := Users.completeOnboarding s.users s.users.current })

def loginUser (s : State κ) (line : Str) : Option (State κ) :=
  if line = [] then some (s.prompt .loginUser)
  else (fits 32 line).map fun name => { s with pendingUsername := name }.prompt .loginPass

def loginPass (s : State κ) (line : Str) : Option (State κ) :=
  if !Users.verify s.users s.pendingUsername line then
    some ({ s with pendingUsername := [] }.prompt .loginUser)
  else
    let u := Users.find s.users s.pendingUsername
    let s := { s with users := { s.users with current := u } }.event .verified
    u.map fun i =>
      if !(s.users.users i).onboarded then s.prompt .onboardUsecase else enterShellMode s

def handleLine (d : Kernel κ) (s : State κ) (line : Str) : Option (State κ) :=
  match s.mode with
  | .signupUser => signupUser s line
  | .signupPass => signupPass s line
  | .signupConfirm => some (signupConfirm s line)
  | .onboardUsecase => some (onboardUsecase s line)
  | .onboardPackages => onboardPackages s line
  | .loginUser => loginUser s line
  | .loginPass => loginPass s line
  | .edit => some s
  | .shell => processCommand d (s.event (.command line)) line

/-! ## Keys -/

/-- The write of the edited text to its file. -/
def saveEdit (s : State κ) : Option (State κ) :=
  (Filesystem.writeFile s.fs s.editFilename s.editBuf).map fun (fs, _) =>
    { s with fs := fs }.event .wrote

def editUpdate (s : State κ) (c : UInt8) : Option (State κ) :=
  -- Ctrl-X saves and leaves, Ctrl-S saves, Ctrl-Q and Ctrl-C leave.
  if c = 0x18 then (saveEdit s).map fun s => { s with mode := .shell }
  else if c = 0x13 then saveEdit s
  else if c = 0x11 ∨ c = 0x03 then some { s with mode := .shell }
  else if c = 8 then some { s with editBuf := s.editBuf.dropLast }
  else if c = 10 ∨ 32 ≤ c ∧ c < 127 then
    some (if s.editBuf.length < 1023 then { s with editBuf := s.editBuf ++ [c] } else s)
  else some s

def shellUpdate (d : Kernel κ) (s : State κ) (c : UInt8) : Option (State κ) :=
  if s.mode = .edit then editUpdate s c
  -- Ctrl-C drops the line and keeps the mode.
  else if c = 0x03 then some { s with line := [] }
  else if c = 10 then handleLine d { s with line := [] } s.line
  else if c = 8 then some { s with line := s.line.dropLast }
  else if 32 ≤ c ∧ c < 127 then
    some (if s.line.length < shellBufferSize - 1 then { s with line := s.line ++ [c] } else s)
  else some s

/-- A key character given to the shell. -/
def KeyStep (d : Kernel κ) (s : State κ) (c : UInt8) (t : State κ) : Prop :=
  shellUpdate d s c = some t

end QuillOS.Shell
