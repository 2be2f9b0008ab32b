import QuillOS.Shell.Model

/-!
# The session on the console

The functions of `shell.cpp` that lead from `shell_init` to the command line, with what they print and
with the echo flag where they set it: each prompt sets it for the mode it finds. A backspace is
printed as the character 8, for which `console_putc` calls `console_backspace`. What commands and the
editor print is left out, so that the screen is followed up to the first entry into the command line.
On the state these functions are those of the shell.
-/

namespace QuillOS.Shell

open Filesystem (Str fits)

/-- The kernel with the name that `Cluster::get_local_name` gives. -/
structure Console (κ : Type) extends Kernel κ where
  localName : κ → Str

/-- The shell and the characters printed so far. -/
structure Session (κ : Type) where
  shell : State κ
  screen : Str

variable {κ : Type}

/-- The bytes of a text. -/
def utf8 (text : String) : Str := text.toUTF8.toList

namespace Session

def kprint (t : Session κ) (text : Str) : Session κ := { t with screen := t.screen ++ text }

def setMode (t : Session κ) (m : Mode) : Session κ := { t with shell.mode := m }

def setPasswordMode (t : Session κ) (hidden : Bool) : Session κ :=
  { t with shell.passwordMode := hidden }

/-! ## Prompts -/

def currentUser (t : Session κ) : Option Users.User :=
  t.shell.users.current.map t.shell.users.users

def getHostname (k : Console κ) (t : Session κ) : Str :=
  if k.localName t.shell.rest = [] then utf8 "quillos" else k.localName t.shell.rest

def showPrompt (k : Console κ) (t : Session κ) : Session κ :=
  let t := t.kprint (utf8 "\n")
  let t := match t.currentUser with
    | some u => t.kprint u.name
    | none => t.kprint (utf8 "quill")
  let t := t.kprint (utf8 "@")
  let t := t.kprint (t.getHostname k)
  let t := t.kprint (utf8 ":")
  let t := t.kprint t.shell.cwd
  t.kprint (utf8 " > ")

def showLoginPrompt (t : Session κ) : Session κ :=
  if t.shell.mode = .loginUser then (t.kprint (utf8 "\nLogin: ")).setPasswordMode false
  else if t.shell.mode = .loginPass then (t.kprint (utf8 "\nPassword: ")).setPasswordMode true
  else t

def showSignupPrompt (t : Session κ) : Session κ :=
  if t.shell.mode = .signupUser then
    let t := t.kprint (utf8 "\nNo users found. Let's create your account.")
    (t.kprint (utf8 "\nUsername: ")).setPasswordMode false
  else if t.shell.mode = .signupPass then (t.kprint (utf8 "\nPassword: ")).setPasswordMode true
  else if t.shell.mode = .signupConfirm then
    (t.kprint (utf8 "\nConfirm password: ")).setPasswordMode true
  else t

def showOnboardPrompt (t : Session κ) : Session κ :=
  if t.shell.mode = .onboardUsecase then
    let t := t.kprint (utf8 "\n\nWhat will you use QuillOS for?")
    let t := t.kprint (utf8 "\n  1) Developer   — toolchain, build tools")
    let t := t.kprint (utf8 "\n  2) Hosting     — server, networking focus")
    let t := t.kprint (utf8 "\n  3) Cluster     — distributed computing")
    let t := t.kprint (utf8 "\n  4) Daily       — general-purpose")
    (t.kprint (utf8 "\nChoose [1-4]: ")).setPasswordMode false
  else if t.shell.mode = .onboardPackages then
    (t.kprint (utf8 "\nInstall default packages for this usecase? [y/n]: ")).setPasswordMode false
  else t

def enterShellMode (k : Console κ) (t : Session κ) : Session κ :=
  let t := (t.setMode .shell).setPasswordMode false
  let t := t.kprint (utf8 "\n\nWelcome to QuillOS")
  let t := match t.currentUser with
    | some u => (t.kprint (utf8 ", ")).kprint u.name
    | none => t
  showPrompt k (t.kprint (utf8 "!\nType 'help' for commands."))

def shellInit (t : Session κ) : Session κ :=
  let t := { t with shell := { t.shell with line := [], fs := Filesystem.init }.event .started }
  -- `Filesystem::init` logs that it ran.
  let t := t.kprint (utf8 "\n[FS] init: filesystem initialized, root created")
  let t := t.kprint (utf8 "\n================================")
  let t := t.kprint (utf8 "\n  QuillOS v0.1")
  let t := t.kprint (utf8 "\n================================")
  if Users.count t.shell.users = 0 then showSignupPrompt (t.setMode .signupUser)
  else showLoginPrompt (t.setMode .loginUser)

/-! ## Lines -/

def signupUser (t : Session κ) (line : Str) : Option (Session κ) :=
  if line = [] then some (showSignupPrompt (t.kprint (utf8 "\nUsername cannot be empty.")))
  else (fits 32 line).map fun name =>
    showSignupPrompt ({ t with shell.pendingUsername := name }.setMode .signupPass)

def signupPass (t : Session κ) (line : Str) : Option (Session κ) :=
  if line.length < 3 then
    let t := t.kprint (utf8 "\nPassword must be at least 3 characters.")
    some (showSignupPrompt (t.setMode .signupPass))
  else (fits 64 line).map fun pass =>
    showSignupPrompt ({ t with shell.pendingPassword := pass }.setMode .signupConfirm)

def signupConfirm (t : Session κ) (line : Str) : Session κ :=
  if t.shell.pendingPassword ≠ line then
    let t := t.kprint (utf8 "\nPasswords do not match. Try again.")
    showSignupPrompt { t.setMode .signupPass with shell.pendingPassword := [] }
  else
    let (users, ok) :=
      Users.create t.shell.users t.shell.pendingUsername t.shell.pendingPassword
    if !ok then
      let t := { t with shell.users := users }.kprint (utf8 "\nFailed to create user.")
      showSignupPrompt (t.setMode .signupUser)
    else
      let current := Users.find users t.shell.pendingUsername
      let shell := { t.shell with users := { users with current := current }, pendingPassword := [] }
      let t := { t with shell := shell.event .created }
      let t := (t.kprint (utf8 "\n\nAccount created: ")).kprint t.shell.pendingUsername
      showOnboardPrompt (t.setMode .onboardUsecase)

def usecaseName : Users.UseCase → Str
  | .dev => utf8 "Developer"
  | .hosting => utf8 "Hosting"
  | .cluster => utf8 "Cluster"
  | .daily => utf8 "Daily Driver"
  | .none => utf8 "None"

def onboardUsecase (t : Session κ) (line : Str) : Session κ :=
  match usecaseOf line with
  | none => showOnboardPrompt (t.kprint (utf8 "\nInvalid choice. Enter 1, 2, 3, or 4."))
  | some uc =>
    let t := { t with shell.users := Users.setUsecase t.shell.users t.shell.users.current uc }
    let t := (t.kprint (utf8 "\nUsecase set: ")).kprint (usecaseName uc)
    showOnboardPrompt (t.setMode .onboardPackages)

/-- What the installation of a use case lists. -/
def packages : Users.UseCase → Str
  | .dev => utf8 "\n  + gcc, nasm, make, git"
  | .hosting => utf8 "\n  + httpd, sshd, firewall"
  | .cluster => utf8 "\n  + cluster-tools, mpi, job-runner"
  | _ => utf8 "\n  + base utilities"

/-- The installation looks at the current user; `none` when there is none. -/
def install (t : Session κ) (line : Str) : Option (Session κ) :=
  if line.head? = some 121 ∨ line.head? = some 89 then
    t.currentUser.map fun u =>
      let t := (t.kprint (utf8 "\nInstalling packages for ")).kprint (usecaseName u.usecase)
      let t := (t.kprint (utf8 "...")).kprint (packages u.usecase)
      t.kprint (utf8 "\nDone.")
  else some (t.kprint (utf8 "\nSkipped. You can install packages later."))

def onboardPackages (k : Console κ) (t : Session κ) (line : Str) : Option (Session κ) :=
  (t.install line).map fun t =>
    enterShellMode k
      { t with shell.users := Users.completeOnboarding t.shell.users t.shell.users.current }

def loginUser (t : Session κ) (line : Str) : Option (Session κ) :=
  if line = [] then some (showLoginPrompt t)
  else (fits 32 line).map fun name =>
    showLoginPrompt ({ t with shell.pendingUsername := name }.setMode .loginPass)

def loginPass (k : Console κ) (t : Session κ) (line : Str) : Option (Session κ) :=
  if !Users.verify t.shell.users t.shell.pendingUsername line then
    let t := { t.kprint (utf8 "\nLogin failed.") with shell.pendingUsername := [] }
    some (showLoginPrompt (t.setMode .loginUser))
  else
    let u := Users.find t.shell.users t.shell.pendingUsername
    let shell := { t.shell with users := { t.shell.users with current := u } }
    let t := { t with shell := shell.event .verified }
    u.map fun i =>
      if !(t.shell.users.users i).onboarded then showOnboardPrompt (t.setMode .onboardUsecase)
      else enterShellMode k t

def handleLine (k : Console κ) (t : Session κ) (line : Str) : Option (Session κ) :=
  match t.shell.mode with
  | .signupUser => t.signupUser line
  | .signupPass => t.signupPass line
  | .signupConfirm => some (t.signupConfirm line)
  | .onboardUsecase => some (t.onboardUsecase line)
  | .onboardPackages => t.onboardPackages k line
  | .loginUser => t.loginUser line
  | .loginPass => t.loginPass k line
  | .edit => some t
  | .shell =>
    (processCommand k.toKernel (t.shell.event (.command line)) line).map fun s =>
      if s.mode = .shell then showPrompt k { t with shell := s } else { t with shell := s }

/-! ## Keys -/

def shellUpdate (k : Console κ) (t : Session κ) (c : UInt8) : Option (Session κ) :=
  if t.shell.mode = .edit then (editUpdate t.shell c).map fun s => { t with shell := s }
  else if c = 0x03 then
    let t := { t with shell.line := [] }.kprint (utf8 "^C")
    some (if t.shell.mode = .shell then showPrompt k t else t)
  else if c = 10 then handleLine k { t with shell.line := [] } t.shell.line
  else if c = 8 then
    if t.shell.line = [] then some t
    else some ({ t with shell.line := t.shell.line.dropLast }.kprint [8])
  else if 32 ≤ c ∧ c < 127 then
    if t.shell.line.length < shellBufferSize - 1 then
      let t := { t with shell.line := t.shell.line ++ [c] }
      -- Only the echo depends on the flag, not what goes into the line.
      some (if t.shell.passwordMode then t.kprint (utf8 "*") else t.kprint [c])
    else some t
  else some t

/-! ## The state under the screen -/

@[simp] theorem kprint_shell (t : Session κ) (text : Str) : (t.kprint text).shell = t.shell := rfl

@[simp] theorem setMode_shell (t : Session κ) (m : Mode) :
    (t.setMode m).shell = { t.shell with mode := m } := rfl

@[simp] theorem setPasswordMode_shell (t : Session κ) (hidden : Bool) :
    (t.setPasswordMode hidden).shell = { t.shell with passwordMode := hidden } := rfl

@[simp] theorem showPrompt_shell (k : Console κ) (t : Session κ) :
    (showPrompt k t).shell = t.shell := by
  unfold showPrompt
  dsimp only
  split <;> rfl

/-- Each prompt sets the echo as its mode asks for it. -/
theorem showLoginPrompt_shell {t : Session κ}
    (h : t.shell.mode = .loginUser ∨ t.shell.mode = .loginPass) :
    (showLoginPrompt t).shell = t.shell.prompt t.shell.mode := by
  unfold showLoginPrompt State.prompt
  rcases h with h | h <;> simp [h]

theorem showSignupPrompt_shell {t : Session κ}
    (h : t.shell.mode = .signupUser ∨ t.shell.mode = .signupPass ∨ t.shell.mode = .signupConfirm) :
    (showSignupPrompt t).shell = t.shell.prompt t.shell.mode := by
  unfold showSignupPrompt State.prompt
  rcases h with h | h | h <;> simp [h]

theorem showOnboardPrompt_shell {t : Session κ}
    (h : t.shell.mode = .onboardUsecase ∨ t.shell.mode = .onboardPackages) :
    (showOnboardPrompt t).shell = t.shell.prompt t.shell.mode := by
  unfold showOnboardPrompt State.prompt
  rcases h with h | h <;> simp [h]

theorem enterShellMode_shell (k : Console κ) (t : Session κ) :
    (enterShellMode k t).shell = Shell.enterShellMode t.shell := by
  unfold enterShellMode Shell.enterShellMode
  rw [showPrompt_shell]
  split <;> rfl

theorem shellInit_shell (t : Session κ) : t.shellInit.shell = Shell.shellInit t.shell := by
  unfold shellInit Shell.shellInit
  dsimp only
  by_cases hcount : Users.count t.shell.users = 0
  · rw [if_pos (by exact hcount), if_pos (by exact hcount), showSignupPrompt_shell (.inl rfl)]
    rfl
  · rw [if_neg (by exact hcount), if_neg (by exact hcount), showLoginPrompt_shell (.inl rfl)]
    rfl

theorem signupUser_shell {t : Session κ} (hmode : t.shell.mode = .signupUser) (line : Str) :
    (t.signupUser line).map Session.shell = Shell.signupUser t.shell line := by
  unfold signupUser Shell.signupUser
  split_ifs
  · rw [Option.map_some, showSignupPrompt_shell (t := t.kprint _) (.inl hmode), kprint_shell, hmode]
  · rw [Option.map_map]
    refine congrArg (fun f => Option.map f (fits 32 line)) (funext fun name => ?_)
    exact showSignupPrompt_shell (.inr (.inl rfl))

theorem signupPass_shell (t : Session κ) (line : Str) :
    (t.signupPass line).map Session.shell = Shell.signupPass t.shell line := by
  unfold signupPass Shell.signupPass
  split_ifs
  · exact congrArg some (showSignupPrompt_shell (.inr (.inl rfl)))
  · rw [Option.map_map]
    refine congrArg (fun f => Option.map f (fits 64 line)) (funext fun pass => ?_)
    exact showSignupPrompt_shell (.inr (.inr rfl))

theorem signupConfirm_shell (t : Session κ) (line : Str) :
    (t.signupConfirm line).shell = Shell.signupConfirm t.shell line := by
  unfold signupConfirm Shell.signupConfirm
  split_ifs
  · exact showSignupPrompt_shell (.inr (.inl rfl))
  dsimp only
  split_ifs
  · exact showSignupPrompt_shell (.inl rfl)
  · exact showOnboardPrompt_shell (.inl rfl)

theorem onboardUsecase_shell {t : Session κ} (hmode : t.shell.mode = .onboardUsecase) (line : Str) :
    (t.onboardUsecase line).shell = Shell.onboardUsecase t.shell line := by
  unfold onboardUsecase Shell.onboardUsecase
  cases usecaseOf line with
  | none =>
    dsimp only
    rw [showOnboardPrompt_shell (t := t.kprint _) (.inl hmode), kprint_shell, hmode]
  | some uc => exact showOnboardPrompt_shell (.inr rfl)

theorem install_shell (t : Session κ) (line : Str) : (t.install line).map Session.shell =
    if (line.head? = some 121 ∨ line.head? = some 89) ∧ t.shell.users.current = none then none
    else some t.shell := by
  unfold install currentUser
  by_cases hyes : line.head? = some 121 ∨ line.head? = some 89
  · rw [if_pos hyes]
    cases hcurrent : t.shell.users.current with
    | none => simp [hyes]
    | some i => simp
  · rw [if_neg hyes, if_neg fun h => hyes h.1]
    rfl

theorem onboardPackages_shell (k : Console κ) (t : Session κ) (line : Str) :
    (t.onboardPackages k line).map Session.shell = Shell.onboardPackages t.shell line := by
  have hinstall := t.install_shell line
  unfold onboardPackages Shell.onboardPackages
  rw [Option.map_map]
  split_ifs at hinstall ⊢
  · rw [Option.map_eq_none_iff.mp hinstall]
    rfl
  · obtain ⟨u, hu, hshell⟩ := Option.map_eq_some_iff.mp hinstall
    rw [hu, ← hshell]
    exact congrArg some (enterShellMode_shell k _)

theorem loginUser_shell {t : Session κ} (hmode : t.shell.mode = .loginUser) (line : Str) :
    (t.loginUser line).map Session.shell = Shell.loginUser t.shell line := by
  unfold loginUser Shell.loginUser
  split_ifs
  · rw [Option.map_some, showLoginPrompt_shell (.inl hmode), hmode]
  · rw [Option.map_map]
    refine congrArg (fun f => Option.map f (fits 32 line)) (funext fun name => ?_)
    exact showLoginPrompt_shell (.inr rfl)

theorem loginPass_shell (k : Console κ) (t : Session κ) (line : Str) :
    (t.loginPass k line).map Session.shell = Shell.loginPass t.shell line := by
  unfold loginPass Shell.loginPass
  split_ifs
  · exact congrArg some (showLoginPrompt_shell (.inl rfl))
  dsimp only
  rw [Option.map_map]
  refine congrArg (fun f => Option.map f (Users.find _ _)) (funext fun i => ?_)
  simp only [Function.comp_apply]
  split_ifs
  · exact showOnboardPrompt_shell (.inl rfl)
  · exact enterShellMode_shell k _

theorem handleLine_shell (k : Console κ) (t : Session κ) (line : Str) :
    (t.handleLine k line).map Session.shell = Shell.handleLine k.toKernel t.shell line := by
  unfold handleLine Shell.handleLine
  cases hmode : t.shell.mode with
  | signupUser => exact signupUser_shell hmode line
  | signupPass => exact t.signupPass_shell line
  | signupConfirm => exact congrArg some (t.signupConfirm_shell line)
  | onboardUsecase => exact congrArg some (onboardUsecase_shell hmode line)
  | onboardPackages => exact t.onboardPackages_shell k line
  | loginUser => exact loginUser_shell hmode line
  | loginPass => exact t.loginPass_shell k line
  | edit => rfl
  | shell =>
    dsimp only
    rw [Option.map_map]
    refine Eq.trans (Option.map_congr fun s _ => ?_) Option.map_id'
    simp only [Function.comp_apply]
    split_ifs
    · exact showPrompt_shell k _
    · rfl

/-- A key does to the state what the shell does to it. -/
theorem shellUpdate_shell (k : Console κ) (t : Session κ) (c : UInt8) :
    (t.shellUpdate k c).map Session.shell = Shell.shellUpdate k.toKernel t.shell c := by
  unfold shellUpdate Shell.shellUpdate
  by_cases hedit : t.shell.mode = .edit
  · rw [if_pos hedit, if_pos hedit, Option.map_map]
    exact Option.map_id'
  rw [if_neg hedit, if_neg hedit]
  by_cases habort : c = 0x03
  · rw [if_pos habort, if_pos habort]
    dsimp only
    split_ifs
    · exact congrArg some (showPrompt_shell k _)
    · rfl
  rw [if_neg habort, if_neg habort]
  by_cases hline : c = 10
  · rw [if_pos hline, if_pos hline]
    exact handleLine_shell k _ _
  rw [if_neg hline, if_neg hline]
  by_cases hback : c = 8
  · rw [if_pos hback, if_pos hback]
    split_ifs with hempty
    · have hsame : t.shell.line.dropLast = t.shell.line := by rw [hempty]; rfl
      rw [hsame]
      rfl
    · rfl
  rw [if_neg hback, if_neg hback]
  split_ifs
  · dsimp only
    split_ifs <;> rfl
  · rfl
  · rfl

/-! ## What a key does outside the editor -/

section Key

variable {k : Console κ} {t : Session κ} {c : UInt8}

theorem shellUpdate_abort (hedit : t.shell.mode ≠ .edit) (hshell : t.shell.mode ≠ .shell) :
    t.shellUpdate k 0x03 = some ({ t with shell.line := [] }.kprint (utf8 "^C")) := by
  unfold shellUpdate
  rw [if_neg hedit, if_pos rfl]
  dsimp only
  rw [if_neg (by exact hshell)]

theorem shellUpdate_newline (hedit : t.shell.mode ≠ .edit) :
    t.shellUpdate k 10 = handleLine k { t with shell.line := [] } t.shell.line := by
  unfold shellUpdate
  rw [if_neg hedit, if_neg (by decide), if_pos rfl]

theorem shellUpdate_backspace (hedit : t.shell.mode ≠ .edit) :
    t.shellUpdate k 8 = some (if t.shell.line = [] then t
      else { t with shell.line := t.shell.line.dropLast }.kprint [8]) := by
  unfold shellUpdate
  rw [if_neg hedit, if_neg (by decide), if_neg (by decide), if_pos rfl]
  split_ifs <;> rfl

theorem shellUpdate_char (hedit : t.shell.mode ≠ .edit) (hc : 32 ≤ c ∧ c < 127) :
    t.shellUpdate k c = some (if t.shell.line.length < shellBufferSize - 1 then
      { t with shell.line := t.shell.line ++ [c] }.kprint
        (if t.shell.passwordMode then utf8 "*" else [c])
      else t) := by
  have hne : c ≠ 0x03 ∧ c ≠ 10 ∧ c ≠ 8 := by
    refine ⟨?_, ?_, ?_⟩ <;> rintro rfl <;> exact absurd hc (by decide)
  unfold shellUpdate
  rw [if_neg hedit, if_neg hne.1, if_neg hne.2.1, if_neg hne.2.2, if_pos hc]
  by_cases hroom : t.shell.line.length < shellBufferSize - 1
  · rw [if_pos hroom, if_pos hroom]
    dsimp only
    split_ifs <;> rfl
  · rw [if_neg hroom, if_neg hroom]

/-- Other control characters are ignored. -/
theorem shellUpdate_other (hedit : t.shell.mode ≠ .edit) (h3 : c ≠ 0x03) (h10 : c ≠ 10) (h8 : c ≠ 8)
    (hc : ¬(32 ≤ c ∧ c < 127)) : t.shellUpdate k c = some t := by
  unfold shellUpdate
  rw [if_neg hedit, if_neg h3, if_neg h10, if_neg h8, if_neg hc]

end Key

end Session

end QuillOS.Shell
