import QuillOS.Boot.Model

/-!
# The accounts during boot

The shell starts in the sign-up mode of a machine without accounts, and keys reach it long before
the accounts are loaded. As long as no key completes a sign-up, the table in memory stays blank until
it is loaded and is the stored one from then on, and the disk is not written. A key that completes
one creates an account at once, and after `Disk::init` it is saved over the stored ones.
-/

namespace QuillOS.Boot

open Lib
open Filesystem (Str)
open Shell (Mode)

variable {κ : Type}

/-- The modes of a sign-up. -/
def SigningUp (m : Mode) : Prop := m = .signupUser ∨ m = .signupPass ∨ m = .signupConfirm

/-- Enter on the repeated password of a sign-up that goes through. -/
def CompletesSignup (s : Shell.State κ) (c : UInt8) : Prop :=
  c = 10 ∧ s.mode = .signupConfirm ∧ s.pendingPassword = s.line ∧
    Users.Creates s.users s.pendingUsername

instance (s : Shell.State κ) (c : UInt8) : Decidable (CompletesSignup s c) :=
  inferInstanceAs (Decidable (c = 10 ∧ s.mode = .signupConfirm ∧ s.pendingPassword = s.line ∧
    Users.Creates s.users s.pendingUsername))

/-- The step does not complete a sign-up. -/
def Quiet (s : State κ) : Label → Prop
  | .boot => True
  | .key sc => ∀ c ∈ (keyboardIrq s.keyboard sc).2, ¬ CompletesSignup s.shell c

instance : ∀ (s : State κ) (l : Label), Decidable (Quiet s l)
  | _, .boot => inferInstanceAs (Decidable True)
  | s, .key sc => inferInstanceAs
      (Decidable (∀ c ∈ (keyboardIrq s.keyboard sc).2, ¬ CompletesSignup s.shell c))

/-- The step `b` of the boot is done. -/
def State.Done (s : State κ) (b : BootStep) : Prop := b ∈ bootOrder.take s.pc

instance (s : State κ) (b : BootStep) : Decidable (s.Done b) :=
  inferInstanceAs (Decidable (b ∈ bootOrder.take s.pc))

/-- The table in memory is the stored one once it is loaded, blank before, and the sector of the
accounts is as it was. -/
def Undisturbed (stored : Users.Sector) (s : State κ) : Prop :=
  s.shell.users.users = (if s.Done .usersLoad then stored.users else Users.blank) ∧
    s.shell.users.disk.userSector = stored

structure BootInv (stored : Users.Sector) (s : State κ) : Prop where
  undisturbed : Undisturbed stored s
  present : s.Done .diskInit → s.shell.users.disk.present = true
  mode : ¬ s.Done .shellInit → SigningUp s.shell.mode

/-! ## Keys during a sign-up -/

/-- The sign-up goes on without touching the accounts. -/
def StillSigningUp (s t : Shell.State κ) : Prop := SigningUp t.mode ∧ t.users = s.users

theorem signupConfirm_quiet {s : Shell.State κ} {line : Str}
    (h : ¬ (s.pendingPassword = line ∧ Users.Creates s.users s.pendingUsername)) :
    StillSigningUp s (Shell.signupConfirm s line) := by
  unfold Shell.signupConfirm
  dsimp only
  split_ifs with hne hfail
  · exact ⟨.inr (.inl rfl), rfl⟩
  · have hnot : ¬ Users.Creates s.users s.pendingUsername := by
      intro hcreates
      rw [Users.create_eq_true_iff.mpr hcreates] at hfail
      simp at hfail
    rw [Users.create_of_not hnot]
    exact ⟨.inl rfl, rfl⟩
  · have hok : (Users.create s.users s.pendingUsername s.pendingPassword).2 = true := by
      simpa using hfail
    exact absurd ⟨not_not.mp hne, Users.create_eq_true_iff.mp hok⟩ h

theorem handleLine_quiet {d : Shell.Kernel κ} {s t : Shell.State κ} {line : Str}
    (hmode : SigningUp s.mode)
    (hquiet : s.mode = .signupConfirm →
      ¬ (s.pendingPassword = line ∧ Users.Creates s.users s.pendingUsername))
    (h : Shell.handleLine d s line = some t) : StillSigningUp s t := by
  unfold Shell.handleLine at h
  rcases hmode with hm | hm | hm
  · rw [hm] at h
    dsimp only [Shell.signupUser] at h
    split_ifs at h
    · obtain rfl := Option.some.inj h
      exact ⟨.inl rfl, rfl⟩
    · obtain ⟨name, -, rfl⟩ := Option.map_eq_some_iff.mp h
      exact ⟨.inr (.inl rfl), rfl⟩
  · rw [hm] at h
    dsimp only [Shell.signupPass] at h
    split_ifs at h
    · obtain rfl := Option.some.inj h
      exact ⟨.inr (.inl rfl), rfl⟩
    · obtain ⟨pass, -, rfl⟩ := Option.map_eq_some_iff.mp h
      exact ⟨.inr (.inr rfl), rfl⟩
  · rw [hm] at h
    obtain rfl := Option.some.inj h
    exact signupConfirm_quiet (hquiet hm)

theorem shellUpdate_quiet {d : Shell.Kernel κ} {s t : Shell.State κ} {c : UInt8}
    (hmode : SigningUp s.mode) (hquiet : ¬ CompletesSignup s c)
    (h : Shell.shellUpdate d s c = some t) : StillSigningUp s t := by
  unfold Shell.shellUpdate at h
  have hedit : s.mode ≠ .edit := by
    rcases hmode with hm | hm | hm <;> simp [hm]
  rw [if_neg hedit] at h
  split_ifs at h with hbreak henter
  · obtain rfl := Option.some.inj h
    exact ⟨hmode, rfl⟩
  · have hline := handleLine_quiet (s := { s with line := [] }) hmode
      (fun hm hboth => hquiet ⟨henter, hm, hboth⟩) h
    exact hline
  all_goals
    obtain rfl := Option.some.inj h
    exact ⟨hmode, rfl⟩

/-- A key that completes a sign-up changes the table in memory. -/
theorem shellUpdate_creates {d : Shell.Kernel κ} {s t : Shell.State κ} {c : UInt8}
    (hdone : CompletesSignup s c) (h : Shell.shellUpdate d s c = some t) :
    t.users.users ≠ s.users.users := by
  obtain ⟨rfl, hmode, hpass, hcreates⟩ := hdone
  unfold Shell.shellUpdate Shell.handleLine at h
  rw [if_neg (by simp [hmode]), if_neg (by decide), if_pos rfl] at h
  simp only [hmode, Shell.signupConfirm] at h
  have hok : (Users.create s.users s.pendingUsername s.pendingPassword).2 = true :=
    Users.create_eq_true_iff.mpr hcreates
  rw [if_neg (by simp [hpass]), hok] at h
  obtain rfl := Option.some.inj h
  exact Users.create_users_ne hcreates s.pendingPassword

/-! ## Steps -/

theorem start_inv (stored : Users.Sector) (rest : κ) : BootInv stored (start stored rest) where
  undisturbed := ⟨by simp [State.Done, start], rfl⟩
  present h := by simp [State.Done, start] at h
  mode _ := .inl rfl

/-- A key before `shell_init` that does not complete a sign-up. -/
theorem BootInv.press {stored : Users.Sector} {d : Kernel κ} {s t : State κ} {sc : UInt8}
    (inv : BootInv stored s) (hmode : SigningUp s.shell.mode) (hquiet : Quiet s (.key sc))
    (h : press d s sc = some t) : BootInv stored t := by
  unfold Boot.press at h
  dsimp only at h
  cases hc : (keyboardIrq s.keyboard sc).2 with
  | none =>
    rw [hc] at h
    obtain rfl := Option.some.inj h
    exact ⟨inv.undisturbed, inv.present, inv.mode⟩
  | some c =>
    rw [hc] at h
    obtain ⟨shell, hshell, rfl⟩ := Option.map_eq_some_iff.mp h
    obtain ⟨hm, husers⟩ := shellUpdate_quiet hmode (hquiet c hc) hshell
    refine ⟨?_, ?_, fun _ => hm⟩
    · obtain ⟨hmem, hdisk⟩ := inv.undisturbed
      exact ⟨by rw [husers]; exact hmem, by rw [husers]; exact hdisk⟩
    · rw [husers]
      exact inv.present

/-- What is done before the steps on the accounts. -/
theorem bootOrder_before {pc : ℕ} {b : BootStep} (h : bootOrder[pc]? = some b) :
    (b = .usersLoad → .diskInit ∈ bootOrder.take pc) ∧
      (b = .usersClear → .usersLoad ∉ bootOrder.take pc) := by
  obtain ⟨hlt, rfl⟩ := List.getElem?_eq_some_iff.mp h
  have hall : ∀ i : Fin bootOrder.length,
      (bootOrder.get i = .usersLoad → .diskInit ∈ bootOrder.take i) ∧
        (bootOrder.get i = .usersClear → .usersLoad ∉ bootOrder.take i) := by
    decide
  exact hall ⟨pc, hlt⟩

/-- The state after the boot step `b`. -/
def State.next (s : State κ) (d : Kernel κ) (b : BootStep) : State κ :=
  { s with pc := s.pc + 1, shell := bootStep d s.shell b }

theorem done_next {d : Kernel κ} {s : State κ} {b : BootStep} (hb : bootOrder[s.pc]? = some b)
    (b' : BootStep) : (s.next d b).Done b' ↔ s.Done b' ∨ b' = b := by
  unfold State.Done State.next
  rw [List.take_add_one, hb]
  simp

/-- A boot step that leaves the accounts and the mode alone. -/
theorem BootInv.of_same {stored : Users.Sector} {d : Kernel κ} {s : State κ} {b : BootStep}
    (inv : BootInv stored s) (hb : bootOrder[s.pc]? = some b) (hload : b ≠ .usersLoad)
    (husers : (bootStep d s.shell b).users.users = s.shell.users.users)
    (hsector : (bootStep d s.shell b).users.disk.userSector = s.shell.users.disk.userSector)
    (hpresent : s.shell.users.disk.present = true ∨ b = .diskInit →
      (bootStep d s.shell b).users.disk.present = true)
    (hmode : b ≠ .shellInit → (bootStep d s.shell b).mode = s.shell.mode) :
    BootInv stored (s.next d b) := by
  obtain ⟨hmem, hdisk⟩ := inv.undisturbed
  refine ⟨⟨?_, hsector.trans hdisk⟩, fun h => ?_, fun h => ?_⟩
  · have hdone : (s.next d b).Done .usersLoad ↔ s.Done .usersLoad := by
      rw [done_next hb]
      exact ⟨fun h => h.resolve_right hload.symm, .inl⟩
    simp only [hdone]
    exact husers.trans hmem
  · apply hpresent
    rcases (done_next hb _).mp h with hdone | heq
    · exact .inl (inv.present hdone)
    · exact .inr heq.symm
  · rw [done_next hb, not_or] at h
    have hm : (s.next d b).shell.mode = s.shell.mode := hmode (Ne.symm h.2)
    rw [hm]
    exact inv.mode h.1

theorem shellInit_users (s : Shell.State κ) : (Shell.shellInit s).users = s.users := by
  unfold Shell.shellInit
  dsimp only
  split_ifs <;> rfl

/-- The accounts as the boot steps leave them. -/
theorem BootInv.boot {stored : Users.Sector} {d : Kernel κ} {s : State κ} {b : BootStep}
    (hvalid : stored.Valid) (inv : BootInv stored s) (hb : bootOrder[s.pc]? = some b) :
    BootInv stored (s.next d b) := by
  obtain ⟨hmem, hdisk⟩ := inv.undisturbed
  cases b with
  | usersClear =>
    -- The table is cleared while it is still blank.
    have hload : ¬ s.Done .usersLoad := (bootOrder_before hb).2 rfl
    have hblank : s.shell.users.users = Users.blank := by rw [hmem, if_neg hload]
    exact inv.of_same hb (by decide) hblank.symm rfl (fun h => h.resolve_right (by decide))
      fun _ => rfl
  | usersLoad =>
    -- `Disk::init` came before, so the stored table is read.
    have hpresent : s.shell.users.disk.present = true := inv.present ((bootOrder_before hb).1 rfl)
    have hload : (Users.loadFromDisk s.shell.users).1 =
        { s.shell.users with users := stored.users } := by
      simp [Users.loadFromDisk, hpresent, hdisk, hvalid]
    refine ⟨⟨?_, ?_⟩, fun _ => ?_, fun h => ?_⟩
    · rw [if_pos ((done_next hb _).mpr (.inr rfl))]
      exact congrArg Users.State.users hload
    · exact (congrArg (fun u => u.disk.userSector) hload).trans hdisk
    · exact (congrArg (fun u => u.disk.present) hload).trans hpresent
    · rw [done_next hb, not_or] at h
      exact inv.mode h.1
  | shellInit =>
    have husers := shellInit_users s.shell
    apply inv.of_same hb (by decide)
    · exact congrArg Users.State.users husers
    · exact congrArg (fun u => u.disk.userSector) husers
    · intro h
      exact (congrArg (fun u => u.disk.present) husers).trans (h.resolve_right (by decide))
    · intro h
      exact absurd rfl h
  | diskInit => exact inv.of_same hb (by decide) rfl rfl (fun _ => rfl) fun _ => rfl
  | keyboardInit | mouseInit | serialInit | cpuInit | memoryInit | schedulerInit | pciInit | e1000Init
  | networkInit | clusterInit | djobInit | processInit | clipboardInit =>
    exact inv.of_same hb (by decide) rfl rfl (fun h => h.resolve_right (by decide)) fun _ => rfl

/-- Before `shell_init` is done the boot is not over. -/
theorem not_done_shellInit {s : State κ} (hpc : s.pc < bootOrder.length) : ¬ s.Done .shellInit := by
  have hall : ∀ i : Fin bootOrder.length, .shellInit ∉ bootOrder.take i := by decide
  exact hall ⟨s.pc, hpc⟩

theorem BootInv.step {stored : Users.Sector} {d : Kernel κ} {s t : State κ} {l : Label}
    (hvalid : stored.Valid) (inv : BootInv stored s) (hquiet : Quiet s l) (h : Step d s l t) :
    BootInv stored t := by
  unfold Step Boot.step at h
  cases l with
  | boot =>
    obtain ⟨b, hb, rfl⟩ := Option.map_eq_some_iff.mp h
    exact inv.boot hvalid hb
  | key sc =>
    dsimp only at h
    split_ifs at h with hlive
    exact inv.press (inv.mode (not_done_shellInit hlive.2)) hquiet h

/-- The step that completes a sign-up disturbs the accounts. -/
theorem BootInv.quiet_of_undisturbed {stored : Users.Sector} {d : Kernel κ} {s t : State κ}
    {l : Label} (inv : BootInv stored s) (h : Step d s l t) (ht : Undisturbed stored t) :
    Quiet s l := by
  cases l with
  | boot => trivial
  | key sc =>
    intro c hc hdone
    unfold Step Boot.step at h
    dsimp only at h
    split_ifs at h with hlive
    unfold Boot.press at h
    dsimp only at h
    rw [Option.mem_def.mp hc] at h
    obtain ⟨shell, hshell, rfl⟩ := Option.map_eq_some_iff.mp h
    apply shellUpdate_creates hdone hshell
    exact ht.1.trans inv.undisturbed.1.symm

/-! ## Runs -/

/-- In every interleaving of the boot with scancodes none of which completes a sign-up, the accounts
are loaded as they were stored and the disk is not written; and the first key that completes one
disturbs them. -/
theorem boot_keeps_accounts (d : Kernel κ) (stored : Users.Sector) (rest : κ) (ls : List Label)
    (s : State κ) (hvalid : stored.Valid)
    (hrun : Run (Where Quiet (Step d)) (start stored rest) ls s) :
    Undisturbed stored s ∧ ∀ l t, Step d s l t → (Undisturbed stored t ↔ Quiet s l) := by
  have inv : BootInv stored s := by
    apply hrun.invariant (BootInv stored) (start_inv stored rest)
    rintro a l b ha ⟨hquiet, hstep⟩
    exact ha.step hvalid hquiet hstep
  refine ⟨inv.undisturbed, fun l t hstep => ⟨inv.quiet_of_undisturbed hstep, fun hquiet => ?_⟩⟩
  exact (inv.step hvalid hquiet hstep).undisturbed

/-- A kernel whose other parts do nothing. -/
def bareKernel : Kernel Unit where
  command rest _ _ := rest
  readLine rest := ([], rest)
  boot _ rest := rest

/-- A disk with one account. -/
def oneAccount : Users.Sector where
  magic := Users.userMagic
  version := 1
  users := Function.update Users.blank 0 (Users.newUser (Shell.ascii "root") (Shell.ascii "secret"))

/-- A key typed during boot, and the boot. -/
def quietBoot : List Label := [.boot, .key 0x1E] ++ List.replicate 16 .boot

theorem boot_keeps_accounts_quietBoot : ∃ s,
    Run (Where Quiet (Step bareKernel)) (start oneAccount ()) quietBoot s ∧
      Undisturbed oneAccount s := by
  have hdone : (exec (guarded Quiet (step bareKernel)) (start oneAccount ()) quietBoot).isSome := by
    decide +kernel
  have hrun := run_where_get hdone
  exact ⟨_, hrun, (boot_keeps_accounts bareKernel oneAccount () quietBoot _ ⟨rfl, rfl⟩ hrun).1⟩

/-! ## A sign-up during boot -/

/-- The disk is found, then `a`, `abc` and `abc` are typed with Enter, then the boot goes on. -/
def typedBoot : List Label :=
  List.replicate 8 .boot ++
    [.key 0x1E, .key 0x1C, .key 0x1E, .key 0x30, .key 0x2E, .key 0x1C, .key 0x1E, .key 0x30, .key 0x2E,
      .key 0x1C] ++ List.replicate 9 .boot

@[irreducible] def typedState : State Unit :=
  (exec (step bareKernel) (start oneAccount ()) typedBoot).get (by decide +kernel)

/-- The boot ends with the typed account alone, in memory and on the disk. -/
theorem typedState_accounts : typedState.pc = bootOrder.length ∧
    (List.finRange Users.maxUsers).map (fun i => (typedState.shell.users.users i).name) =
      Shell.ascii "a" :: List.replicate 7 [] ∧
    (List.finRange Users.maxUsers).map
        (fun i => (typedState.shell.users.disk.userSector.users i).name) =
      Shell.ascii "a" :: List.replicate 7 [] := by
  unfold typedState
  decide +kernel

theorem boot_loses_account : ∃ ls s, Run (Step bareKernel) (start oneAccount ()) ls s ∧
    s.pc = bootOrder.length ∧ s.shell.users.users ≠ oneAccount.users ∧
      s.shell.users.disk.userSector.users ≠ oneAccount.users := by
  have hrun : Run (Step bareKernel) (start oneAccount ()) typedBoot typedState := by
    unfold typedState
    exact run_get _
  obtain ⟨hpc, hmem, hdisk⟩ := typedState_accounts
  refine ⟨typedBoot, typedState, hrun, hpc, ?_, ?_⟩
  · intro heq
    rw [heq] at hmem
    revert hmem
    decide
  · intro heq
    rw [heq] at hdisk
    revert hdisk
    decide

end QuillOS.Boot
