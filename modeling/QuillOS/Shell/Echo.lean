import QuillOS.Shell.Console
import QuillOS.Shell.Gate

/-!
# Passwords and the screen

Two sessions with the same keys but for the characters of passwords. As long as the comparisons of
passwords come out alike, the two go through the same modes and print the same, since the echo is
hidden in exactly the modes that take a password.
-/

namespace QuillOS.Shell

open Lib
open Filesystem (Str fits)

variable {κ : Type}

/-- The modes that take a password. -/
def Secret (m : Mode) : Prop := m ∈ [.signupPass, .signupConfirm, .loginPass]

instance (m : Mode) : Decidable (Secret m) :=
  inferInstanceAs (Decidable (m ∈ [Mode.signupPass, .signupConfirm, .loginPass]))

/-- The characters that go into a line. -/
def Printable (c : UInt8) : Prop := 32 ≤ c ∧ c < 127

instance (c : UInt8) : Decidable (Printable c) := inferInstanceAs (Decidable (_ ∧ _))

/-! ## One session -/

/-- What holds before the command line is entered: the echo fits the mode, a password belongs to a
name that was copied in full, and onboarding has a user. -/
structure EntryInv (s : State κ) : Prop where
  edit : s.mode ≠ .edit
  echo : s.passwordMode = decide (Secret s.mode)
  pending : Secret s.mode → s.pendingUsername.length < 32
  current : s.mode = .onboardUsecase ∨ s.mode = .onboardPackages → s.users.current.isSome

/-- A prompt sets the echo for its mode. -/
theorem entryInv_prompt {s : State κ} {m : Mode} (hedit : m ≠ .edit)
    (hpending : Secret m → s.pendingUsername.length < 32)
    (hcurrent : m = .onboardUsecase ∨ m = .onboardPackages → s.users.current.isSome) :
    EntryInv (s.prompt m) where
  edit := hedit
  echo := rfl
  pending := hpending
  current := hcurrent

theorem entryInv_shellInit (s : State κ) : EntryInv (shellInit s) := by
  unfold shellInit
  dsimp only
  split_ifs
  · exact entryInv_prompt (by decide) (fun h => absurd h (by decide)) (by simp)
  · exact entryInv_prompt (by decide) (fun h => absurd h (by decide)) (by simp)

theorem saveToDisk_current (s : Users.State) : (Users.saveToDisk s).current = s.current := by
  unfold Users.saveToDisk
  split <;> rfl

theorem setUsecase_current (s : Users.State) (u : Option (Fin Users.maxUsers))
    (uc : Users.UseCase) : (Users.setUsecase s u uc).current = s.current := by
  cases u with
  | none => rfl
  | some i => exact saveToDisk_current _

/-- An account is found under the name it was created with, if the name was not cut. -/
theorem find_create {s : Users.State} {name : Str} (password : Str)
    (h : (Users.create s name password).2 = true) (hlen : name.length < 32) :
    (Users.find (Users.create s name password).1 name).isSome := by
  have hcreates := Users.create_eq_true_iff.mp h
  obtain ⟨i, hi⟩ := Option.isSome_iff_exists.mp hcreates.2.2
  have hcut : Users.strCopy name 32 = name := List.take_of_length_le (by omega)
  by_contra hnone
  rw [Bool.not_eq_true, Option.isSome_eq_false_iff, Option.isNone_iff_eq_none] at hnone
  have hslot := Users.find_eq_none.mp hnone i
  rw [Users.create_users hcreates hi, Function.update_self] at hslot
  exact hslot rfl hcut

theorem find_of_verify {s : Users.State} {name line : Str} (h : Users.verify s name line = true) :
    ∃ i, Users.find s name = some i := by
  unfold Users.verify at h
  cases hfind : Users.find s name with
  | none => simp [hfind] at h
  | some i => exact ⟨i, rfl⟩

/-- A line is not longer than what it is copied to. -/
def LineFits (m : Mode) (line : Str) : Prop :=
  (m = .signupUser ∨ m = .loginUser → line.length ≤ 31) ∧ (Secret m → line.length ≤ 63)

/-- A line that is handled before the command line is entered, with the line buffer as it was. -/
theorem EntryInv.handleLine {d : Kernel κ} {s t : State κ} {line : Str} (inv : EntryInv s)
    (hmode : s.mode ≠ .shell) (h : handleLine d s line = some t) :
    EntryInv t ∧ t.line = s.line := by
  cases handleLine_cases h with
  | noUsername | notCreated | onboarded | noLogin | refused =>
    exact ⟨entryInv_prompt (by decide) (fun h => absurd h (by decide)) (by simp), rfl⟩
  | username hm hlen | login hm hlen =>
    exact ⟨entryInv_prompt (by decide) (fun _ => hlen) (by simp), rfl⟩
  | shortPassword hm | password hm | mismatch hm =>
    have hpending := inv.pending (by rw [hm]; decide)
    exact ⟨entryInv_prompt (by decide) (fun _ => hpending) (by simp), rfl⟩
  | created hm hcreate =>
    have hpending := inv.pending (by rw [hm]; decide)
    have hfound := find_create s.pendingPassword (congrArg Prod.snd hcreate) hpending
    rw [hcreate] at hfound
    exact ⟨entryInv_prompt (by decide) (fun h => absurd h (by decide)) fun _ => hfound, rfl⟩
  | noUsecase hm =>
    have hcurrent := inv.current (.inl hm)
    exact ⟨entryInv_prompt (by decide) (fun h => absurd h (by decide)) fun _ => hcurrent, rfl⟩
  | usecase hm uc =>
    have hcurrent := inv.current (.inl hm)
    rw [← setUsecase_current _ _ uc] at hcurrent
    exact ⟨entryInv_prompt (by decide) (fun h => absurd h (by decide)) fun _ => hcurrent, rfl⟩
  | verified hm hfind hm' =>
    rcases hm' with rfl | rfl
    · exact ⟨entryInv_prompt (by decide) (fun h => absurd h (by decide)) fun _ => rfl, rfl⟩
    · exact ⟨entryInv_prompt (by decide) (fun h => absurd h (by decide)) (by simp), rfl⟩
  | edit hm => exact absurd hm inv.edit
  | command hm => exact absurd hm hmode

/-- A line that fits is handled. -/
theorem EntryInv.handleLine_isSome {d : Kernel κ} {s : State κ} {line : Str} (inv : EntryInv s)
    (hmode : s.mode ≠ .shell) (hfits : LineFits s.mode line) :
    ∃ t, Shell.handleLine d s line = some t := by
  unfold Shell.handleLine
  split
  next hm =>
    have hlen := hfits.1 (.inl hm)
    unfold signupUser
    rw [Filesystem.fits_of_lt (by omega)]
    split_ifs <;> exact ⟨_, rfl⟩
  next hm =>
    have hlen := hfits.2 (by rw [hm]; decide)
    unfold signupPass
    rw [Filesystem.fits_of_lt (by omega)]
    split_ifs <;> exact ⟨_, rfl⟩
  next hm => exact ⟨_, rfl⟩
  next hm => exact ⟨_, rfl⟩
  next hm =>
    have hcurrent := inv.current (.inr hm)
    unfold onboardPackages
    rw [if_neg fun h => by rw [h.2] at hcurrent; cases hcurrent]
    exact ⟨_, rfl⟩
  next hm =>
    have hlen := hfits.1 (.inr hm)
    unfold loginUser
    rw [Filesystem.fits_of_lt (by omega)]
    split_ifs <;> exact ⟨_, rfl⟩
  next hm =>
    unfold loginPass
    split_ifs with hverify
    · exact ⟨_, rfl⟩
    · rw [Bool.not_eq_true', Bool.not_eq_false] at hverify
      obtain ⟨i, hi⟩ := find_of_verify hverify
      dsimp only
      rw [hi]
      exact ⟨_, rfl⟩
  next hm => exact absurd hm inv.edit
  next hm => exact absurd hm hmode

theorem EntryInv.key {d : Kernel κ} {s t : State κ} {c : UInt8} (inv : EntryInv s)
    (hmode : s.mode ≠ .shell) (h : shellUpdate d s c = some t) : EntryInv t := by
  unfold shellUpdate at h
  rw [if_neg inv.edit] at h
  split_ifs at h
  · obtain rfl := Option.some.inj h
    exact ⟨inv.edit, inv.echo, inv.pending, inv.current⟩
  · have hline : EntryInv { s with line := [] } := ⟨inv.edit, inv.echo, inv.pending, inv.current⟩
    exact (hline.handleLine hmode h).1
  all_goals
    obtain rfl := Option.some.inj h
    exact ⟨inv.edit, inv.echo, inv.pending, inv.current⟩

theorem EntryInv.key_isSome {d : Kernel κ} {s : State κ} (inv : EntryInv s)
    (hmode : s.mode ≠ .shell) (hfits : LineFits s.mode s.line) (c : UInt8) :
    ∃ t, shellUpdate d s c = some t := by
  unfold shellUpdate
  rw [if_neg inv.edit]
  split_ifs
  · exact ⟨_, rfl⟩
  · have hline : EntryInv { s with line := [] } := ⟨inv.edit, inv.echo, inv.pending, inv.current⟩
    exact hline.handleLine_isSome hmode hfits
  all_goals exact ⟨_, rfl⟩

/-! ## Accounts but for their hashes -/

/-- An account without the hash of its password. -/
def unhashed (u : Users.User) : Users.User := { u with passHash := 0 }

theorem unhashed_eq {a b : Users.User} : unhashed a = unhashed b ↔
    a.name = b.name ∧ a.usecase = b.usecase ∧ a.onboarded = b.onboarded ∧ a.active = b.active := by
  simp [unhashed]

structure SameAccounts (u v : Users.State) : Prop where
  users : ∀ i, unhashed (u.users i) = unhashed (v.users i)
  current : u.current = v.current

section Accounts

variable {u v : Users.State}

theorem SameAccounts.refl (u : Users.State) : SameAccounts u u := ⟨fun _ => rfl, rfl⟩

theorem SameAccounts.find (h : SameAccounts u v) (name : Str) :
    Users.find u name = Users.find v name := by
  have hname : ∀ i, (u.users i).name = (v.users i).name := fun i => (unhashed_eq.mp (h.users i)).1
  have hactive : ∀ i, (u.users i).active = (v.users i).active :=
    fun i => (unhashed_eq.mp (h.users i)).2.2.2
  unfold Users.find
  simp only [hactive, hname]

theorem SameAccounts.freeSlot (h : SameAccounts u v) : Users.freeSlot u = Users.freeSlot v := by
  have hactive : ∀ i, (u.users i).active = (v.users i).active :=
    fun i => (unhashed_eq.mp (h.users i)).2.2.2
  unfold Users.freeSlot
  simp only [hactive]

/-- A change of one account that does not look at its hash. -/
theorem SameAccounts.update (h : SameAccounts u v) (i : Fin Users.maxUsers) {a b : Users.User}
    (hab : unhashed a = unhashed b) :
    SameAccounts (Users.saveToDisk { u with users := Function.update u.users i a })
      (Users.saveToDisk { v with users := Function.update v.users i b }) where
  users j := by
    rw [Users.saveToDisk_users, Users.saveToDisk_users]
    rcases eq_or_ne j i with rfl | hj
    · simpa using hab
    · simpa [hj] using h.users j
  current := by
    rw [saveToDisk_current, saveToDisk_current]
    exact h.current

theorem SameAccounts.create (h : SameAccounts u v) (name p q : Str) :
    (Users.create u name p).2 = (Users.create v name q).2 ∧
      SameAccounts (Users.create u name p).1 (Users.create v name q).1 := by
  unfold Users.create
  rw [h.find, h.freeSlot]
  split_ifs
  · exact ⟨rfl, h⟩
  · exact ⟨rfl, h⟩
  · cases Users.freeSlot v with
    | none => exact ⟨rfl, h⟩
    | some i => exact ⟨rfl, h.update i rfl⟩

theorem SameAccounts.setUsecase (h : SameAccounts u v) (uc : Users.UseCase) :
    SameAccounts (Users.setUsecase u u.current uc) (Users.setUsecase v v.current uc) := by
  rw [h.current]
  cases v.current with
  | none => exact h
  | some i =>
    refine h.update i ?_
    have hi := unhashed_eq.mp (h.users i)
    exact unhashed_eq.mpr ⟨hi.1, rfl, hi.2.2.1, hi.2.2.2⟩

theorem SameAccounts.completeOnboarding (h : SameAccounts u v) :
    SameAccounts (Users.completeOnboarding u u.current)
      (Users.completeOnboarding v v.current) := by
  rw [h.current]
  cases v.current with
  | none => exact h
  | some i =>
    refine h.update i ?_
    have hi := unhashed_eq.mp (h.users i)
    exact unhashed_eq.mpr ⟨hi.1, hi.2.1, rfl, hi.2.2.2⟩

end Accounts

/-! ## Two sessions -/

/-- Sessions that show the same, and go on to show the same: they differ in passwords, hashes and what
the line holds. -/
structure Alike (s t : Session κ) : Prop where
  screen : s.screen = t.screen
  mode : s.shell.mode = t.shell.mode
  pendingUsername : s.shell.pendingUsername = t.shell.pendingUsername
  users : SameAccounts s.shell.users t.shell.users
  cwd : s.shell.cwd = t.shell.cwd
  rest : s.shell.rest = t.shell.rest

namespace Alike

variable {s t : Session κ} {k : Console κ}

theorem kprint (h : Alike s t) (text : Str) : Alike (s.kprint text) (t.kprint text) :=
  ⟨congrArg (· ++ text) h.screen, h.mode, h.pendingUsername, h.users, h.cwd, h.rest⟩

theorem setMode (h : Alike s t) (m : Mode) : Alike (s.setMode m) (t.setMode m) :=
  ⟨h.screen, rfl, h.pendingUsername, h.users, h.cwd, h.rest⟩

theorem setPasswordMode (h : Alike s t) (hidden : Bool) :
    Alike (s.setPasswordMode hidden) (t.setPasswordMode hidden) :=
  ⟨h.screen, h.mode, h.pendingUsername, h.users, h.cwd, h.rest⟩

theorem currentUser (h : Alike s t) :
    s.currentUser.map unhashed = t.currentUser.map unhashed := by
  unfold Session.currentUser
  rw [h.users.current, Option.map_map, Option.map_map]
  exact Option.map_congr fun i _ => h.users.users i

/-- The current users are both there, with one name and one use case, or both missing. -/
theorem currentUser_cases (h : Alike s t) : s.currentUser = none ∧ t.currentUser = none ∨
    ∃ u v, s.currentUser = some u ∧ t.currentUser = some v ∧ unhashed u = unhashed v := by
  have hmap := h.currentUser
  cases hs : s.currentUser with
  | none =>
    rw [hs] at hmap
    exact .inl ⟨rfl, Option.map_eq_none_iff.mp hmap.symm⟩
  | some u =>
    rw [hs] at hmap
    obtain ⟨v, hv, huv⟩ := Option.map_eq_some_iff.mp hmap.symm
    exact .inr ⟨u, v, rfl, hv, huv.symm⟩

/-- A part of the screen that depends on the current user but for the hash. -/
theorem matchUser (h : Alike s t) {f g : Users.User → Session κ} {f' g' : Session κ}
    (hsome : ∀ u v, unhashed u = unhashed v → Alike (f u) (g v)) (hnone : Alike f' g') :
    Alike (match s.currentUser with | some u => f u | none => f')
      (match t.currentUser with | some u => g u | none => g') := by
  rcases h.currentUser_cases with ⟨hs, ht⟩ | ⟨u, v, hs, ht, huv⟩
  · rw [hs, ht]
    exact hnone
  · rw [hs, ht]
    exact hsome u v huv

theorem kprintName (h : Alike s t) {u v : Users.User} (huv : unhashed u = unhashed v) :
    Alike (s.kprint u.name) (t.kprint v.name) := by
  rw [(unhashed_eq.mp huv).1]
  exact h.kprint _

theorem kprintHostname (h : Alike s t) :
    Alike (s.kprint (s.getHostname k)) (t.kprint (t.getHostname k)) := by
  unfold Session.getHostname
  rw [h.rest]
  exact h.kprint _

theorem kprintCwd (h : Alike s t) : Alike (s.kprint s.shell.cwd) (t.kprint t.shell.cwd) := by
  rw [h.cwd]
  exact h.kprint _

theorem kprintPending (h : Alike s t) :
    Alike (s.kprint s.shell.pendingUsername) (t.kprint t.shell.pendingUsername) := by
  rw [h.pendingUsername]
  exact h.kprint _

theorem showPrompt (h : Alike s t) : Alike (Session.showPrompt k s) (Session.showPrompt k t) := by
  have hline := h.kprint (utf8 "\n")
  have hname := hline.matchUser (fun _ _ => hline.kprintName) (hline.kprint (utf8 "quill"))
  have hhost : Alike _ _ := (hname.kprint (utf8 "@")).kprintHostname (k := k)
  have hcwd := (hhost.kprint (utf8 ":")).kprintCwd
  exact hcwd.kprint (utf8 " > ")

theorem showLoginPrompt (h : Alike s t) : Alike s.showLoginPrompt t.showLoginPrompt := by
  unfold Session.showLoginPrompt
  rw [h.mode]
  split_ifs
  · exact (h.kprint _).setPasswordMode _
  · exact (h.kprint _).setPasswordMode _
  · exact h

theorem showSignupPrompt (h : Alike s t) : Alike s.showSignupPrompt t.showSignupPrompt := by
  unfold Session.showSignupPrompt
  rw [h.mode]
  split_ifs
  · exact ((h.kprint _).kprint _).setPasswordMode _
  · exact (h.kprint _).setPasswordMode _
  · exact (h.kprint _).setPasswordMode _
  · exact h

theorem showOnboardPrompt (h : Alike s t) : Alike s.showOnboardPrompt t.showOnboardPrompt := by
  unfold Session.showOnboardPrompt
  rw [h.mode]
  split_ifs
  · exact ((((((h.kprint _).kprint _).kprint _).kprint _).kprint _).kprint _).setPasswordMode _
  · exact (h.kprint _).setPasswordMode _
  · exact h

theorem enterShellMode (h : Alike s t) :
    Alike (Session.enterShellMode k s) (Session.enterShellMode k t) := by
  have hwelcome := ((h.setMode .shell).setPasswordMode false).kprint (utf8 "\n\nWelcome to QuillOS")
  have hname := hwelcome.matchUser (fun _ _ => (hwelcome.kprint (utf8 ", ")).kprintName) hwelcome
  exact (hname.kprint (utf8 "!\nType 'help' for commands.")).showPrompt

theorem signupUser (h : Alike s t) {line : Str} {s' t' : Session κ}
    (hs : s.signupUser line = some s') (ht : t.signupUser line = some t') : Alike s' t' := by
  unfold Session.signupUser at hs ht
  split_ifs at hs ht
  · obtain rfl := Option.some.inj hs
    obtain rfl := Option.some.inj ht
    exact (h.kprint _).showSignupPrompt
  · obtain ⟨name, hname, rfl⟩ := Option.map_eq_some_iff.mp hs
    obtain ⟨name', hname', rfl⟩ := Option.map_eq_some_iff.mp ht
    obtain rfl : name = name' := Option.some.inj (hname.symm.trans hname')
    refine showSignupPrompt ?_
    exact ⟨h.screen, rfl, rfl, h.users, h.cwd, h.rest⟩

/-- Only the length of a new password is looked at. -/
theorem signupPass (h : Alike s t) {line line' : Str} (hlen : line.length = line'.length)
    {s' t' : Session κ} (hs : s.signupPass line = some s') (ht : t.signupPass line' = some t') :
    Alike s' t' := by
  unfold Session.signupPass at hs ht
  rw [hlen] at hs
  split_ifs at hs ht
  · obtain rfl := Option.some.inj hs
    obtain rfl := Option.some.inj ht
    exact ((h.kprint _).setMode _).showSignupPrompt
  · obtain ⟨pass, -, rfl⟩ := Option.map_eq_some_iff.mp hs
    obtain ⟨pass', -, rfl⟩ := Option.map_eq_some_iff.mp ht
    refine showSignupPrompt ?_
    exact ⟨h.screen, rfl, h.pendingUsername, h.users, h.cwd, h.rest⟩

theorem signupConfirm (h : Alike s t) {line line' : Str}
    (hsame : s.shell.pendingPassword = line ↔ t.shell.pendingPassword = line') :
    Alike (s.signupConfirm line) (t.signupConfirm line') := by
  unfold Session.signupConfirm
  by_cases hmatch : s.shell.pendingPassword = line
  · rw [if_neg (not_not.mpr hmatch), if_neg (not_not.mpr (hsame.mp hmatch)), h.pendingUsername]
    obtain ⟨hok, hcreate⟩ := h.users.create t.shell.pendingUsername s.shell.pendingPassword
      t.shell.pendingPassword
    dsimp only
    rw [hok]
    split_ifs
    · refine showSignupPrompt ?_
      exact ⟨congrArg (· ++ _) h.screen, rfl, h.pendingUsername, hcreate, h.cwd, h.rest⟩
    · have hfind := hcreate.find t.shell.pendingUsername
      refine showOnboardPrompt (setMode (kprintPending (kprint ?_ _)) _)
      exact ⟨h.screen, h.mode, h.pendingUsername, ⟨hcreate.users, hfind⟩, h.cwd, h.rest⟩
  · rw [if_pos hmatch, if_pos fun ht => hmatch (hsame.mpr ht)]
    refine showSignupPrompt ?_
    exact ⟨congrArg (· ++ _) h.screen, rfl, h.pendingUsername, h.users, h.cwd, h.rest⟩

theorem onboardUsecase (h : Alike s t) (line : Str) :
    Alike (s.onboardUsecase line) (t.onboardUsecase line) := by
  unfold Session.onboardUsecase
  cases usecaseOf line with
  | none => exact (h.kprint _).showOnboardPrompt
  | some uc =>
    refine showOnboardPrompt (setMode (kprint (kprint ?_ _) _) _)
    exact ⟨h.screen, h.mode, h.pendingUsername, h.users.setUsecase uc, h.cwd, h.rest⟩

theorem install (h : Alike s t) {line : Str} {s' t' : Session κ} (hs : s.install line = some s')
    (ht : t.install line = some t') : Alike s' t' := by
  unfold Session.install at hs ht
  split_ifs at hs ht
  · obtain ⟨u, hu, rfl⟩ := Option.map_eq_some_iff.mp hs
    obtain ⟨v, hv, rfl⟩ := Option.map_eq_some_iff.mp ht
    have huv : unhashed u = unhashed v := by
      have hcurrent := h.currentUser
      rw [hu, hv] at hcurrent
      exact Option.some.inj hcurrent
    rw [(unhashed_eq.mp huv).2.1]
    exact ((((h.kprint _).kprint _).kprint _).kprint _).kprint _
  · obtain rfl := Option.some.inj hs
    obtain rfl := Option.some.inj ht
    exact h.kprint _

theorem onboardPackages (h : Alike s t) {line : Str} {s' t' : Session κ}
    (hs : s.onboardPackages k line = some s') (ht : t.onboardPackages k line = some t') :
    Alike s' t' := by
  obtain ⟨s₁, hs₁, rfl⟩ := Option.map_eq_some_iff.mp hs
  obtain ⟨t₁, ht₁, rfl⟩ := Option.map_eq_some_iff.mp ht
  have hdone := h.install hs₁ ht₁
  refine enterShellMode ?_
  exact ⟨hdone.screen, hdone.mode, hdone.pendingUsername, hdone.users.completeOnboarding, hdone.cwd,
    hdone.rest⟩

theorem loginUser (h : Alike s t) {line : Str} {s' t' : Session κ}
    (hs : s.loginUser line = some s') (ht : t.loginUser line = some t') : Alike s' t' := by
  unfold Session.loginUser at hs ht
  split_ifs at hs ht
  · obtain rfl := Option.some.inj hs
    obtain rfl := Option.some.inj ht
    exact h.showLoginPrompt
  · obtain ⟨name, hname, rfl⟩ := Option.map_eq_some_iff.mp hs
    obtain ⟨name', hname', rfl⟩ := Option.map_eq_some_iff.mp ht
    obtain rfl : name = name' := Option.some.inj (hname.symm.trans hname')
    refine showLoginPrompt ?_
    exact ⟨h.screen, rfl, rfl, h.users, h.cwd, h.rest⟩

theorem loginPass (h : Alike s t) {line line' : Str}
    (hsame : Users.verify s.shell.users s.shell.pendingUsername line =
      Users.verify t.shell.users t.shell.pendingUsername line')
    {s' t' : Session κ} (hs : s.loginPass k line = some s') (ht : t.loginPass k line' = some t') :
    Alike s' t' := by
  unfold Session.loginPass at hs ht
  rw [hsame] at hs
  split_ifs at hs ht
  · obtain rfl := Option.some.inj hs
    obtain rfl := Option.some.inj ht
    refine showLoginPrompt ?_
    exact ⟨congrArg (· ++ _) h.screen, rfl, rfl, h.users, h.cwd, h.rest⟩
  · obtain ⟨i, hi, rfl⟩ := Option.map_eq_some_iff.mp hs
    obtain ⟨j, hj, rfl⟩ := Option.map_eq_some_iff.mp ht
    have hfind := h.users.find s.shell.pendingUsername
    rw [h.pendingUsername] at hfind hi
    obtain rfl : i = j := Option.some.inj (hi.symm.trans (hfind.trans hj))
    have honboarded := (unhashed_eq.mp (h.users.users i)).2.2.1
    have hcurrent : Alike
        { s with shell := State.event { s.shell with users := { s.shell.users with
          current := Users.find s.shell.users s.shell.pendingUsername } } .verified }
        { t with shell := State.event { t.shell with users := { t.shell.users with
          current := Users.find t.shell.users t.shell.pendingUsername } } .verified } := by
      refine ⟨h.screen, h.mode, h.pendingUsername, ⟨h.users.users, ?_⟩, h.cwd, h.rest⟩
      rw [h.pendingUsername]
      exact hfind
    change Alike (if !(s.shell.users.users i).onboarded then _ else _)
      (if !(t.shell.users.users i).onboarded then _ else _)
    rw [honboarded]
    split_ifs
    · exact (hcurrent.setMode _).showOnboardPrompt
    · exact hcurrent.enterShellMode

end Alike

/-- The comparison of passwords that the line leads to comes out alike. -/
def SameOutcome (s t : State κ) : Prop :=
  (s.mode = .signupConfirm → (s.pendingPassword = s.line ↔ t.pendingPassword = t.line)) ∧
  (s.mode = .loginPass → Users.verify s.users s.pendingUsername s.line =
    Users.verify t.users t.pendingUsername t.line)

/-- Lines that differ in the characters of a password at most. -/
def SameLine (m : Mode) (line line' : Str) : Prop :=
  line.length = line'.length ∧ (¬Secret m → line = line')

/-- Keys that differ in a character of a password at most. -/
def SameKey (m : Mode) (a b : UInt8) : Prop := a = b ∨ Secret m ∧ Printable a ∧ Printable b

theorem SameKey.eq {m : Mode} {a b : UInt8} (h : SameKey m a b) (ha : ¬Printable a) : a = b :=
  h.resolve_right fun h => ha h.2.1

theorem SameKey.printable {m : Mode} {a b : UInt8} (h : SameKey m a b) (ha : Printable a) :
    Printable b := by
  rcases h with rfl | ⟨-, -, hb⟩
  · exact ha
  · exact hb

/-- What two sessions keep, key after key. -/
structure PairInv (p : Session κ × Session κ) : Prop where
  alike : Alike p.1 p.2
  line : SameLine p.1.shell.mode p.1.shell.line p.2.shell.line
  left : EntryInv p.1.shell
  right : EntryInv p.2.shell

/-- Two sessions before the command line, a key for each, and what comes of a line that ends. -/
def Paired (p : Session κ × Session κ) (key : UInt8 × UInt8) : Prop :=
  p.1.shell.mode ≠ .shell ∧ SameKey p.1.shell.mode key.1 key.2 ∧
    (key.1 = 10 → SameOutcome p.1.shell p.2.shell)

instance (p : Session κ × Session κ) (key : UInt8 × UInt8) : Decidable (Paired p key) := by
  unfold Paired SameKey SameOutcome
  infer_instance

def pairUpdate (k : Console κ) (p : Session κ × Session κ) (key : UInt8 × UInt8) :
    Option (Session κ × Session κ) := do
  let s ← p.1.shellUpdate k key.1
  let t ← p.2.shellUpdate k key.2
  return (s, t)

def PairStep (k : Console κ) (p : Session κ × Session κ) (key : UInt8 × UInt8)
    (q : Session κ × Session κ) : Prop := pairUpdate k p key = some q

theorem pairStep_iff {k : Console κ} {p q : Session κ × Session κ} {key : UInt8 × UInt8} :
    PairStep k p key q ↔
      p.1.shellUpdate k key.1 = some q.1 ∧ p.2.shellUpdate k key.2 = some q.2 := by
  unfold PairStep pairUpdate
  cases p.1.shellUpdate k key.1 with
  | none => simp
  | some s =>
    cases p.2.shellUpdate k key.2 with
    | none => simp
    | some t => simp [Prod.ext_iff]

/-- A line in each of two sessions. -/
theorem Alike.handleLine {k : Console κ} {s t : Session κ} (h : Alike s t)
    (hmode : s.shell.mode ≠ .shell) {line line' : Str} (hline : SameLine s.shell.mode line line')
    (hsame : SameOutcome { s.shell with line := line } { t.shell with line := line' })
    {s' t' : Session κ} (hs : s.handleLine k line = some s') (ht : t.handleLine k line' = some t') :
    Alike s' t' := by
  unfold Session.handleLine at hs ht
  rw [← h.mode] at ht
  cases hm : s.shell.mode with
  | signupUser =>
    rw [hm] at hs ht
    obtain rfl := hline.2 (by rw [hm]; decide)
    exact h.signupUser hs ht
  | signupPass =>
    rw [hm] at hs ht
    exact h.signupPass hline.1 hs ht
  | signupConfirm =>
    rw [hm] at hs ht
    obtain rfl := Option.some.inj hs
    obtain rfl := Option.some.inj ht
    exact h.signupConfirm (hsame.1 hm)
  | onboardUsecase =>
    rw [hm] at hs ht
    obtain rfl := hline.2 (by rw [hm]; decide)
    obtain rfl := Option.some.inj hs
    obtain rfl := Option.some.inj ht
    exact h.onboardUsecase line
  | onboardPackages =>
    rw [hm] at hs ht
    obtain rfl := hline.2 (by rw [hm]; decide)
    exact h.onboardPackages hs ht
  | loginUser =>
    rw [hm] at hs ht
    obtain rfl := hline.2 (by rw [hm]; decide)
    exact h.loginUser hs ht
  | loginPass =>
    rw [hm] at hs ht
    exact h.loginPass (hsame.2 hm) hs ht
  | edit =>
    rw [hm] at hs ht
    obtain rfl := Option.some.inj hs
    obtain rfl := Option.some.inj ht
    exact h
  | shell => exact absurd hm hmode

theorem shellUpdate_of_some {k : Console κ} {s t : Session κ} {c : UInt8}
    (h : s.shellUpdate k c = some t) : shellUpdate k.toKernel s.shell c = some t.shell := by
  rw [← Session.shellUpdate_shell, h]
  rfl

/-- A session that handled its line has an empty one. -/
theorem handleLine_line {k : Console κ} {s s' : Session κ} {line : Str} (inv : EntryInv s.shell)
    (hmode : s.shell.mode ≠ .shell) (h : s.handleLine k line = some s') :
    s'.shell.line = s.shell.line := by
  have hshell := s.handleLine_shell k line
  rw [h] at hshell
  exact (inv.handleLine hmode hshell.symm).2

/-- A character typed into each of two lines. -/
theorem PairInv.alike_char {s t : Session κ} {a b : UInt8} (inv : PairInv (s, t))
    (hkey : SameKey s.shell.mode a b) :
    Alike ({ s with shell.line := s.shell.line ++ [a] }.kprint
        (if s.shell.passwordMode then utf8 "*" else [a]))
      ({ t with shell.line := t.shell.line ++ [b] }.kprint
        (if t.shell.passwordMode then utf8 "*" else [b])) ∧
      SameLine s.shell.mode (s.shell.line ++ [a]) (t.shell.line ++ [b]) := by
  obtain ⟨⟨hscreen, hmode, hpending, husers, hcwd, hrest⟩, hline, hleft, hright⟩ := inv
  have halike : Alike { s with shell.line := s.shell.line ++ [a] }
      { t with shell.line := t.shell.line ++ [b] } :=
    ⟨hscreen, hmode, hpending, husers, hcwd, hrest⟩
  have hlength : (s.shell.line ++ [a]).length = (t.shell.line ++ [b]).length := by
    rw [List.length_append, List.length_append, hline.1]
    rfl
  dsimp only at hmode
  rw [hleft.echo, hright.echo, ← hmode]
  by_cases hsecret : Secret s.shell.mode
  · rw [decide_eq_true hsecret]
    exact ⟨halike.kprint _, hlength, fun h => absurd hsecret h⟩
  · obtain rfl := hkey.resolve_right fun h => hsecret h.1
    exact ⟨halike.kprint _, hlength, fun h => congrArg (· ++ [a]) (hline.2 h)⟩

/-- A line that ends in each of two sessions. -/
theorem PairInv.alike_newline {k : Console κ} {s t s' t' : Session κ} (inv : PairInv (s, t))
    (hmode : s.shell.mode ≠ .shell) (hsame : SameOutcome s.shell t.shell)
    (hs : s.shellUpdate k 10 = some s') (ht : t.shellUpdate k 10 = some t') :
    Alike s' t' ∧ s'.shell.line = [] ∧ t'.shell.line = [] := by
  obtain ⟨halike, hline, hleft, hright⟩ := inv
  rw [Session.shellUpdate_newline hleft.edit] at hs
  rw [Session.shellUpdate_newline hright.edit] at ht
  have hcleared : Alike { s with shell.line := [] } { t with shell.line := [] } :=
    ⟨halike.screen, halike.mode, halike.pendingUsername, halike.users, halike.cwd, halike.rest⟩
  refine ⟨hcleared.handleLine hmode hline hsame hs ht, ?_, ?_⟩
  · exact handleLine_line (s := { s with shell.line := [] })
      ⟨hleft.edit, hleft.echo, hleft.pending, hleft.current⟩ hmode hs
  · exact handleLine_line (s := { t with shell.line := [] })
      ⟨hright.edit, hright.echo, hright.pending, hright.current⟩ (halike.mode ▸ hmode) ht

/-- The screen and the line after a key in each of two sessions. -/
theorem PairInv.alike_key {k : Console κ} {s t s' t' : Session κ} {a b : UInt8}
    (inv : PairInv (s, t)) (hpaired : Paired (s, t) (a, b)) (hs : s.shellUpdate k a = some s')
    (ht : t.shellUpdate k b = some t') :
    Alike s' t' ∧ SameLine s'.shell.mode s'.shell.line t'.shell.line := by
  obtain ⟨hshell, hkey, houtcome⟩ := hpaired
  obtain ⟨halike, hline, hleft, hright⟩ := id inv
  dsimp only at *
  have hedit := hleft.edit
  have hedit' := hright.edit
  by_cases habort : a = 0x03
  · obtain rfl := hkey.eq (by rw [habort]; decide)
    subst habort
    rw [Session.shellUpdate_abort hedit hshell] at hs
    rw [Session.shellUpdate_abort hedit' (halike.mode ▸ hshell)] at ht
    obtain rfl := Option.some.inj hs
    obtain rfl := Option.some.inj ht
    refine ⟨Alike.kprint ?_ _, rfl, fun _ => rfl⟩
    exact ⟨halike.screen, halike.mode, halike.pendingUsername, halike.users, halike.cwd, halike.rest⟩
  by_cases hend : a = 10
  · obtain rfl := hkey.eq (by rw [hend]; decide)
    subst hend
    obtain ⟨halike', hs', ht'⟩ := inv.alike_newline hshell (houtcome rfl) hs ht
    rw [hs', ht']
    exact ⟨halike', rfl, fun _ => rfl⟩
  by_cases hback : a = 8
  · obtain rfl := hkey.eq (by rw [hback]; decide)
    subst hback
    have hempty : s.shell.line = [] ↔ t.shell.line = [] := by
      rw [← List.length_eq_zero_iff, hline.1, List.length_eq_zero_iff]
    rw [Session.shellUpdate_backspace hedit] at hs
    rw [Session.shellUpdate_backspace hedit'] at ht
    obtain rfl := Option.some.inj hs
    obtain rfl := Option.some.inj ht
    by_cases hs₀ : s.shell.line = []
    · rw [if_pos hs₀, if_pos (hempty.mp hs₀)]
      exact ⟨halike, hline⟩
    · rw [if_neg hs₀, if_neg fun h => hs₀ (hempty.mpr h)]
      refine ⟨Alike.kprint ?_ _, ?_, fun hm => congrArg List.dropLast (hline.2 hm)⟩
      · exact ⟨halike.screen, halike.mode, halike.pendingUsername, halike.users, halike.cwd,
          halike.rest⟩
      · change s.shell.line.dropLast.length = t.shell.line.dropLast.length
        rw [List.length_dropLast, List.length_dropLast, hline.1]
  by_cases hchar : Printable a
  · rw [Session.shellUpdate_char hedit hchar] at hs
    rw [Session.shellUpdate_char hedit' (hkey.printable hchar), ← hline.1] at ht
    obtain rfl := Option.some.inj hs
    obtain rfl := Option.some.inj ht
    by_cases hroom : s.shell.line.length < shellBufferSize - 1
    · rw [if_pos hroom, if_pos hroom]
      exact inv.alike_char hkey
    · rw [if_neg hroom, if_neg hroom]
      exact ⟨halike, hline⟩
  · obtain rfl := hkey.eq hchar
    rw [Session.shellUpdate_other hedit habort hend hback hchar] at hs
    rw [Session.shellUpdate_other hedit' habort hend hback hchar] at ht
    obtain rfl := Option.some.inj hs
    obtain rfl := Option.some.inj ht
    exact ⟨halike, hline⟩

/-- A key in each of two sessions. -/
theorem PairInv.key {k : Console κ} {p q : Session κ × Session κ} {key : UInt8 × UInt8}
    (inv : PairInv p) (hpaired : Paired p key) (hstep : PairStep k p key q) : PairInv q := by
  obtain ⟨hs, ht⟩ := pairStep_iff.mp hstep
  obtain ⟨halike, hline⟩ := inv.alike_key hpaired hs ht
  have hshell : p.2.shell.mode ≠ .shell := inv.alike.mode ▸ hpaired.1
  exact ⟨halike, hline, inv.left.key hpaired.1 (shellUpdate_of_some hs),
    inv.right.key hshell (shellUpdate_of_some ht)⟩

theorem pairInv_shellInit (s : Session κ) : PairInv (s.shellInit, s.shellInit) where
  alike := ⟨rfl, rfl, rfl, .refl _, rfl, rfl⟩
  line := ⟨rfl, fun _ => rfl⟩
  left := by
    rw [Session.shellInit_shell]
    exact entryInv_shellInit s.shell
  right := by
    rw [Session.shellInit_shell]
    exact entryInv_shellInit s.shell

/-- A session goes on as long as names and passwords fit. -/
theorem EntryInv.update_isSome {k : Console κ} {s : Session κ} (inv : EntryInv s.shell)
    (hmode : s.shell.mode ≠ .shell) (hfits : LineFits s.shell.mode s.shell.line) (c : UInt8) :
    ∃ t, s.shellUpdate k c = some t := by
  obtain ⟨u, hu⟩ := inv.key_isSome (d := k.toKernel) hmode hfits c
  rw [← Session.shellUpdate_shell] at hu
  obtain ⟨t, ht, -⟩ := Option.map_eq_some_iff.mp hu
  exact ⟨t, ht⟩

/-- A character of a password shows as an asterisk, or not at all when the line is full. -/
theorem EntryInv.echo_hidden {k : Console κ} {s t : Session κ} {c : UInt8} (inv : EntryInv s.shell)
    (hsecret : Secret s.shell.mode) (hc : Printable c) (h : s.shellUpdate k c = some t) :
    t.screen = s.screen ++ (if s.shell.line.length < shellBufferSize - 1 then utf8 "*" else []) := by
  have hhidden : s.shell.passwordMode = true := inv.echo.trans (decide_eq_true hsecret)
  rw [Session.shellUpdate_char inv.edit hc] at h
  obtain rfl := Option.some.inj h
  split_ifs
  · rfl
  · exact (List.append_nil _).symm

/-- Two sessions that an onlooker cannot tell apart, in which passwords do not show. -/
structure Discreet (k : Console κ) (p : Session κ × Session κ) : Prop where
  mode : p.1.shell.mode = p.2.shell.mode
  screen : p.1.screen = p.2.screen
  /-- The echo is hidden in exactly the modes that take a password. -/
  echo_left : p.1.shell.passwordMode = true ↔ Secret p.1.shell.mode
  echo_right : p.2.shell.passwordMode = true ↔ Secret p.2.shell.mode
  stars : Secret p.1.shell.mode → ∀ s ∈ [p.1, p.2], ∀ c, Printable c → ∀ t, s.shellUpdate k c = some t →
    t.screen = s.screen ++ (if s.shell.line.length < shellBufferSize - 1 then utf8 "*" else [])
  /-- Neither session ends early. -/
  goes_on : LineFits p.1.shell.mode p.1.shell.line → ∀ key, Paired p key → ∃ q, PairStep k p key q

theorem PairInv.discreet {k : Console κ} {p : Session κ × Session κ} (inv : PairInv p) :
    Discreet k p where
  mode := inv.alike.mode
  screen := inv.alike.screen
  echo_left := by rw [inv.left.echo, decide_eq_true_iff]
  echo_right := by rw [inv.right.echo, decide_eq_true_iff]
  stars hsecret s hs c hc t h := by
    rcases List.mem_pair.mp hs with rfl | rfl
    · exact inv.left.echo_hidden hsecret hc h
    · exact inv.right.echo_hidden (inv.alike.mode ▸ hsecret) hc h
  goes_on hfits key hpaired := by
    have hfits' : LineFits p.2.shell.mode p.2.shell.line := by
      unfold LineFits at hfits ⊢
      rwa [← inv.alike.mode, ← inv.line.1]
    obtain ⟨s, hs⟩ := inv.left.update_isSome (k := k) hpaired.1 hfits key.1
    obtain ⟨t, ht⟩ := inv.right.update_isSome (k := k) (inv.alike.mode ▸ hpaired.1) hfits' key.2
    exact ⟨(s, t), pairStep_iff.mpr ⟨hs, ht⟩⟩

/-- Two sessions are started on the same kernel and get the same keys but for characters of
passwords, and the comparisons of passwords come out alike. Up to the command line they are in the
same modes and show the same after every key, and a password shows as asterisks. -/
theorem screen_hides_passwords (k : Console κ) (s₀ : Session κ) (keys : List (UInt8 × UInt8))
    (p : Session κ × Session κ)
    (hrun : Run (Where Paired (PairStep k)) (s₀.shellInit, s₀.shellInit) keys p) : Discreet k p := by
  have inv : PairInv p := hrun.invariant PairInv (pairInv_shellInit s₀)
    fun a key b ha hab => ha.key hab.1 hab.2
  exact inv.discreet

def bareConsole : Console Unit := { bareKernel with localName := fun _ => [] }

/-- One name, and two passwords of one length. -/
def twoPasswords : List (UInt8 × UInt8) :=
  (ascii "amy\nred\nred\n1\nn\n").zip (ascii "amy\nsky\nsky\n1\nn\n")

theorem screen_hides_passwords_twoPasswords :
    ∃ p, Run (Where Paired (PairStep bareConsole))
      (Session.shellInit ⟨freshShell, []⟩, Session.shellInit ⟨freshShell, []⟩) twoPasswords p ∧
      Discreet bareConsole p := by
  have hdone : (exec (guarded Paired (pairUpdate bareConsole))
      (Session.shellInit ⟨freshShell, []⟩, Session.shellInit ⟨freshShell, []⟩)
      twoPasswords).isSome = true := by
    decide +kernel
  exact ⟨_, run_where_get hdone, screen_hides_passwords bareConsole _ _ _ (run_where_get hdone)⟩

end QuillOS.Shell
