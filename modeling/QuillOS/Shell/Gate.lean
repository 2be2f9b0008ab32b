import QuillOS.Lib.Run
import QuillOS.Shell.Model

/-!
# The authentication gate

Behind the gate lie the command line, the editor and onboarding. A step of the shell enters a mode
behind the gate only from another one, or by a call of `verify` or `create` that returned true; and
`cls` and `logout` leave it.
-/

namespace QuillOS.Shell

open Lib
open Filesystem (Str fits rootPath slash maxPathLen)

variable {κ : Type}

/-- `Users::verify` or `Users::create` has returned true since the shell was last started and the
last logout. -/
def Authenticated (log : List Event) : Prop :=
  ∃ before grant after, log = before ++ grant :: after ∧ (grant = .verified ∨ grant = .created) ∧
    .started ∉ after ∧ .loggedOut ∉ after

/-- The modes behind the gate. -/
def Gated (m : Mode) : Prop :=
  m = .shell ∨ m = .edit ∨ m = .onboardUsecase ∨ m = .onboardPackages

instance (m : Mode) : Decidable (Gated m) :=
  inferInstanceAs (Decidable (m = .shell ∨ m = .edit ∨ m = .onboardUsecase ∨ m = .onboardPackages))

/-- A command line and a write of the editor are acts of a user. -/
def Event.Act (e : Event) : Prop := e = .wrote ∨ ∃ line, e = .command line

/-- Every act so far was that of an authenticated user. -/
def ActsAuthenticated (log : List Event) : Prop :=
  Throughout (fun before e => e.Act → Authenticated before) log

structure GateInv (s : State κ) : Prop where
  gate : Gated s.mode → Authenticated s.log
  acts : ActsAuthenticated s.log

theorem authenticated_grant (log : List Event) {e : Event} (he : e = .verified ∨ e = .created) :
    Authenticated (log ++ [e]) :=
  ⟨log, e, [], rfl, he, by simp, by simp⟩

/-- Acts do not end a session. -/
theorem Authenticated.act {log : List Event} {e : Event} (h : Authenticated log) (he : e.Act) :
    Authenticated (log ++ [e]) := by
  obtain ⟨before, grant, after, rfl, hgrant, hstart, hout⟩ := h
  refine ⟨before, grant, after ++ [e], by simp, hgrant, ?_, ?_⟩
  · obtain rfl | ⟨line, rfl⟩ := he <;> simpa using hstart
  · obtain rfl | ⟨line, rfl⟩ := he <;> simpa using hout

theorem ActsAuthenticated.other {log : List Event} {e : Event} (h : ActsAuthenticated log)
    (he : ¬ e.Act) : ActsAuthenticated (log ++ [e]) :=
  h.snoc fun hact => absurd hact he

theorem ActsAuthenticated.act {log : List Event} {e : Event} (h : ActsAuthenticated log)
    (hauth : Authenticated log) : ActsAuthenticated (log ++ [e]) :=
  h.snoc fun _ => hauth

/-! ## What a command does to the session -/

/-- The session is as it was: mode, accounts, pending names and log. -/
structure SameSession (s t : State κ) : Prop where
  mode : t.mode = s.mode
  users : t.users = s.users
  log : t.log = s.log

theorem buildPath_length {cwd name path : Str} (h : buildPath cwd name = some path) :
    path.length < maxPathLen := by
  obtain ⟨hlen, rfl⟩ := Filesystem.fits_eq_some.mp h
  exact hlen

theorem buildPath_head {cwd name path : Str} (h : buildPath cwd name = some path)
    (habs : cwd.head? = some slash) : path.head? = some slash := by
  obtain ⟨-, rfl⟩ := Filesystem.fits_eq_some.mp h
  split
  · assumption
  · rw [List.append_assoc, List.head?_append, habs]
    rfl

theorem onPath_cases {s t : State κ} {arg : Str}
    {op : Filesystem.Entries → Str → Option (Filesystem.Entries × Bool)}
    (h : onPath s arg op = some t) : ∃ fs, t = { s with fs := fs } := by
  unfold onPath at h
  split_ifs at h
  · exact ⟨s.fs, (Option.some.inj h).symm⟩
  · obtain ⟨path, -, h⟩ := Option.bind_eq_some_iff.mp h
    obtain ⟨⟨fs, ok⟩, -, h⟩ := Option.bind_eq_some_iff.mp h
    exact ⟨fs, (Option.some.inj h).symm⟩

/-- A path is absolute if the current directory is. -/
def FromRoot (s : State κ) (path : Str) : Prop :=
  s.cwd.head? = some slash → path.head? = some slash

theorem cdCommand_cases {s t : State κ} {arg : Str} (h : cdCommand s arg = some t) :
    ∃ cwd, (cwd.length < maxPathLen ∧ FromRoot s cwd) ∧ t = { s with cwd := cwd } := by
  unfold cdCommand at h
  split_ifs at h
  · exact ⟨rootPath, ⟨by decide, fun _ => rfl⟩, (Option.some.inj h).symm⟩
  · obtain ⟨path, hpath, h⟩ := Option.bind_eq_some_iff.mp h
    obtain ⟨_, -, h⟩ := Option.bind_eq_some_iff.mp h
    exact ⟨path, ⟨buildPath_length hpath, buildPath_head hpath⟩, (Option.some.inj h).symm⟩

theorem lsCommand_eq {s t : State κ} {arg : Str} (h : lsCommand s arg = some t) : t = s := by
  unfold lsCommand at h
  obtain ⟨path, -, h⟩ := Option.bind_eq_some_iff.mp h
  obtain ⟨_, -, h⟩ := Option.bind_eq_some_iff.mp h
  exact (Option.some.inj h).symm

theorem catCommand_eq {s t : State κ} {arg : Str} (h : catCommand s arg = some t) : t = s := by
  unfold catCommand at h
  split_ifs at h
  · exact (Option.some.inj h).symm
  · obtain ⟨path, -, h⟩ := Option.bind_eq_some_iff.mp h
    obtain ⟨_, -, h⟩ := Option.bind_eq_some_iff.mp h
    exact (Option.some.inj h).symm

theorem writeCommand_cases {s t : State κ} {arg : Str} (h : writeCommand s arg = some t) :
    ∃ fs, t = { s with fs := fs } := by
  unfold writeCommand at h
  dsimp only at h
  split_ifs at h
  · exact ⟨s.fs, (Option.some.inj h).symm⟩
  · obtain ⟨path, -, h⟩ := Option.bind_eq_some_iff.mp h
    obtain ⟨⟨fs, ok⟩, -, h⟩ := Option.bind_eq_some_iff.mp h
    exact ⟨fs, (Option.some.inj h).symm⟩

theorem copyFile_cases {s t : State κ} {path : Str} {ok : Bool}
    (h : copyFile s path = some (t, ok)) : ∃ clipboard, t = { s with clipboard := clipboard } := by
  obtain ⟨text, -, h⟩ := Option.map_eq_some_iff.mp h
  cases text with
  | none => exact ⟨s.clipboard, (congrArg Prod.fst h).symm⟩
  | some text => exact ⟨_, (congrArg Prod.fst h).symm⟩

theorem copyfCommand_cases {s t : State κ} {arg : Str} (h : copyfCommand s arg = some t) :
    ∃ clipboard, t = { s with clipboard := clipboard } := by
  unfold copyfCommand at h
  split_ifs at h
  · exact ⟨s.clipboard, (Option.some.inj h).symm⟩
  · obtain ⟨path, -, h⟩ := Option.bind_eq_some_iff.mp h
    obtain ⟨⟨u, ok⟩, hcopy, h⟩ := Option.bind_eq_some_iff.mp h
    obtain rfl := Option.some.inj h
    exact copyFile_cases hcopy

theorem pastefCommand_cases {s t : State κ} {arg : Str} (h : pastefCommand s arg = some t) :
    ∃ fs, t = { s with fs := fs } := by
  unfold pastefCommand at h
  split_ifs at h
  · exact ⟨s.fs, (Option.some.inj h).symm⟩
  · exact onPath_cases h

theorem cutCommand_cases {s t : State κ} {arg : Str} (h : cutCommand s arg = some t) :
    ∃ fs clipboard, t = { s with fs := fs, clipboard := clipboard } := by
  unfold cutCommand at h
  split_ifs at h
  · exact ⟨s.fs, s.clipboard, (Option.some.inj h).symm⟩
  · obtain ⟨path, -, h⟩ := Option.bind_eq_some_iff.mp h
    obtain ⟨⟨u, ok⟩, hcopy, h⟩ := Option.bind_eq_some_iff.mp h
    obtain ⟨clipboard, rfl⟩ := copyFile_cases hcopy
    dsimp only at h
    split_ifs at h
    · exact ⟨s.fs, clipboard, (Option.some.inj h).symm⟩
    · obtain ⟨⟨fs, _⟩, -, h⟩ := Option.bind_eq_some_iff.mp h
      exact ⟨fs, clipboard, (Option.some.inj h).symm⟩

theorem copyCommand_cases {s t : State κ} {arg : Str} (h : copyCommand s arg = t) :
    ∃ clipboard, t = { s with clipboard := clipboard } := by
  unfold copyCommand at h
  split_ifs at h
  · exact ⟨s.clipboard, h.symm⟩
  · exact ⟨_, h.symm⟩

theorem pastehCommand_cases {d : Kernel κ} {s t : State κ} (h : pastehCommand d s = t) :
    ∃ clipboard rest, t = { s with clipboard := clipboard, rest := rest } := by
  unfold pastehCommand at h
  dsimp only at h
  split_ifs at h
  · exact ⟨s.clipboard, _, h.symm⟩
  · exact ⟨_, _, h.symm⟩

/-- `nano` opens the editor, or says how it is used. -/
theorem nanoCommand_cases {s t : State κ} {arg : Str} (h : nanoCommand s arg = some t) :
    t = s ∨ ∃ filename buf, (filename.length < maxPathLen ∧ FromRoot s filename) ∧
      t = { s with editFilename := filename, editBuf := buf, mode := .edit } := by
  unfold nanoCommand at h
  split_ifs at h
  · exact .inl (Option.some.inj h).symm
  · obtain ⟨path, hpath, h⟩ := Option.bind_eq_some_iff.mp h
    obtain ⟨filename, hname, h⟩ := Option.bind_eq_some_iff.mp h
    obtain ⟨contents, -, h⟩ := Option.bind_eq_some_iff.mp h
    have hfile : filename = path := (Filesystem.fits_eq_some.mp hname).2
    rw [← hfile] at hpath
    exact .inr ⟨filename, _, ⟨buildPath_length hpath, buildPath_head hpath⟩,
      (Option.some.inj h).symm⟩

/-- The result of a branch is that of one of its arms. -/
theorem some_of_ite {α : Type} {p : Prop} [Decidable p] {a b : Option α} {t : α}
    (h : (if p then a else b) = some t) : a = some t ∨ b = some t := by
  split at h
  · exact .inl h
  · exact .inr h

/-- What the commands on files, on the clipboard and on the rest of the kernel come to. -/
structure Worked (s t : State κ) : Prop where
  cwd : t.cwd = s.cwd ∨ t.cwd.length < maxPathLen ∧ FromRoot s t.cwd
  eq : t = { s with cwd := t.cwd, fs := t.fs, clipboard := t.clipboard, rest := t.rest }

theorem Worked.session {s t : State κ} (h : Worked s t) : SameSession s t := by
  rw [h.eq]
  exact ⟨rfl, rfl, rfl⟩

/-- What a command line can do: its work, open the editor, start the shell again, or log out. -/
theorem processCommand_cases {d : Kernel κ} {s t : State κ} {input : Str}
    (h : processCommand d s input = some t) :
    Worked s t ∨
      (∃ filename buf, (filename.length < maxPathLen ∧ FromRoot s filename) ∧
        t = { s with editFilename := filename, editBuf := buf, mode := .edit }) ∨
      t = shellInit s ∨ t = logoutCommand s := by
  unfold processCommand at h
  -- One branch after the other; only `cls`, `nano` and `logout` change the mode.
  obtain h | h := some_of_ite h
  · obtain rfl := Option.some.inj h
    exact .inl ⟨.inl rfl, rfl⟩
  obtain h | h := some_of_ite h
  · exact .inr (.inr (.inl (Option.some.inj h).symm))
  obtain h | h := some_of_ite h
  · obtain ⟨cwd, hlen, rfl⟩ := cdCommand_cases h
    exact .inl ⟨.inr hlen, rfl⟩
  obtain h | h := some_of_ite h
  · obtain rfl := lsCommand_eq h
    exact .inl ⟨.inl rfl, rfl⟩
  obtain h | h := some_of_ite h
  · obtain ⟨fs, rfl⟩ := onPath_cases h
    exact .inl ⟨.inl rfl, rfl⟩
  obtain h | h := some_of_ite h
  · obtain ⟨fs, rfl⟩ := onPath_cases h
    exact .inl ⟨.inl rfl, rfl⟩
  obtain h | h := some_of_ite h
  · obtain rfl := catCommand_eq h
    exact .inl ⟨.inl rfl, rfl⟩
  obtain h | h := some_of_ite h
  · obtain ⟨fs, rfl⟩ := writeCommand_cases h
    exact .inl ⟨.inl rfl, rfl⟩
  obtain h | h := some_of_ite h
  · obtain ⟨fs, rfl⟩ := onPath_cases h
    exact .inl ⟨.inl rfl, rfl⟩
  obtain h | h := some_of_ite h
  · rcases nanoCommand_cases h with rfl | hedit
    · exact .inl ⟨.inl rfl, rfl⟩
    · exact .inr (.inl hedit)
  obtain h | h := some_of_ite h
  · exact .inr (.inr (.inr (Option.some.inj h).symm))
  obtain h | h := some_of_ite h
  · obtain ⟨clipboard, rfl⟩ := copyCommand_cases (Option.some.inj h)
    exact .inl ⟨.inl rfl, rfl⟩
  obtain h | h := some_of_ite h
  · obtain ⟨clipboard, rfl⟩ := copyfCommand_cases h
    exact .inl ⟨.inl rfl, rfl⟩
  obtain h | h := some_of_ite h
  · obtain ⟨fs, rfl⟩ := pastefCommand_cases h
    exact .inl ⟨.inl rfl, rfl⟩
  obtain h | h := some_of_ite h
  · obtain ⟨fs, clipboard, rfl⟩ := cutCommand_cases h
    exact .inl ⟨.inl rfl, rfl⟩
  obtain h | h := some_of_ite h
  · obtain ⟨clipboard, rest, rfl⟩ := pastehCommand_cases (Option.some.inj h)
    exact .inl ⟨.inl rfl, rfl⟩
  · obtain rfl := Option.some.inj h
    exact .inl ⟨.inl rfl, rfl⟩

/-! ## Lines and keys -/

theorem not_gated_prompt {m : Mode} (h : ¬ Gated m) (s : State κ) (hacts : ActsAuthenticated s.log) :
    GateInv (s.prompt m) :=
  ⟨fun hm => absurd hm h, hacts⟩

theorem shellInit_inv {s : State κ} (hacts : ActsAuthenticated s.log) : GateInv (shellInit s) := by
  have hlog : ActsAuthenticated (s.log ++ [.started]) := hacts.other (by simp [Event.Act])
  unfold shellInit
  dsimp only
  split_ifs
  · exact not_gated_prompt (by decide) _ hlog
  · exact not_gated_prompt (by decide) _ hlog

theorem logoutCommand_inv {s : State κ} (hacts : ActsAuthenticated s.log) :
    GateInv (logoutCommand s) :=
  not_gated_prompt (by decide) _ (hacts.other (by simp [Event.Act]))

theorem GateInv.of_session {s t : State κ} (inv : GateInv s) (h : SameSession s t) : GateInv t :=
  ⟨fun hm => h.log ▸ inv.gate (h.mode ▸ hm), h.log ▸ inv.acts⟩

/-- A state in an authenticated session satisfies the invariant in every mode. -/
theorem gateInv_of_authenticated {t : State κ} (hauth : Authenticated t.log)
    (hacts : ActsAuthenticated t.log) : GateInv t :=
  ⟨fun _ => hauth, hacts⟩

theorem GateInv.processCommand {d : Kernel κ} {s t : State κ} {input : Str}
    (inv : GateInv s) (hmode : s.mode = .shell)
    (h : processCommand d (s.event (.command input)) input = some t) : GateInv t := by
  have hauth : Authenticated s.log := inv.gate (.inl hmode)
  have hact : (Event.command input).Act := .inr ⟨input, rfl⟩
  have hacts : ActsAuthenticated (s.log ++ [.command input]) := inv.acts.act hauth
  have hevent : GateInv (s.event (.command input)) :=
    gateInv_of_authenticated (hauth.act hact) hacts
  rcases processCommand_cases h with hworked | ⟨filename, buf, -, rfl⟩ | rfl | rfl
  · exact hevent.of_session hworked.session
  · exact gateInv_of_authenticated (hauth.act hact) hacts
  · exact shellInit_inv hacts
  · exact logoutCommand_inv hacts

/-- What comes of a line, mode by mode. -/
inductive LineCase (d : Kernel κ) (s : State κ) (line : Str) : State κ → Prop
  | noUsername (hmode : s.mode = .signupUser) (hline : line = []) :
    LineCase d s line (s.prompt .signupUser)
  | username (hmode : s.mode = .signupUser) (hlen : line.length < 32) :
    LineCase d s line ({ s with pendingUsername := line }.prompt .signupPass)
  | shortPassword (hmode : s.mode = .signupPass) (hline : line.length < 3) :
    LineCase d s line (s.prompt .signupPass)
  | password (hmode : s.mode = .signupPass) (hlen : line.length < 64) :
    LineCase d s line ({ s with pendingPassword := line }.prompt .signupConfirm)
  | mismatch (hmode : s.mode = .signupConfirm) :
    LineCase d s line ({ s with pendingPassword := [] }.prompt .signupPass)
  | notCreated (hmode : s.mode = .signupConfirm) {users : Users.State} :
    LineCase d s line ({ s with users := users }.prompt .signupUser)
  | created (hmode : s.mode = .signupConfirm) {users : Users.State}
    (hcreate : Users.create s.users s.pendingUsername s.pendingPassword = (users, true)) :
    LineCase d s line
      ({ s with
        users := { users with current := Users.find users s.pendingUsername }
        pendingPassword := [] }.event .created |>.prompt .onboardUsecase)
  | noUsecase (hmode : s.mode = .onboardUsecase) : LineCase d s line (s.prompt .onboardUsecase)
  | usecase (hmode : s.mode = .onboardUsecase) (uc : Users.UseCase) :
    LineCase d s line
      ({ s with users := Users.setUsecase s.users s.users.current uc }.prompt .onboardPackages)
  | onboarded (hmode : s.mode = .onboardPackages) :
    LineCase d s line
      ({ s with users := Users.completeOnboarding s.users s.users.current }.prompt .shell)
  | noLogin (hmode : s.mode = .loginUser) (hline : line = []) :
    LineCase d s line (s.prompt .loginUser)
  | login (hmode : s.mode = .loginUser) (hlen : line.length < 32) :
    LineCase d s line ({ s with pendingUsername := line }.prompt .loginPass)
  | refused (hmode : s.mode = .loginPass) :
    LineCase d s line ({ s with pendingUsername := [] }.prompt .loginUser)
  | verified (hmode : s.mode = .loginPass) {i : Fin Users.maxUsers} {m : Mode}
    (hfind : Users.find s.users s.pendingUsername = some i)
    (hm : m = .onboardUsecase ∨ m = .shell) :
    LineCase d s line
      ({ s with users := { s.users with current := some i } }.event .verified |>.prompt m)
  | edit (hmode : s.mode = .edit) : LineCase d s line s
  | command {t : State κ} (hmode : s.mode = .shell)
    (h : processCommand d (s.event (.command line)) line = some t) : LineCase d s line t

/-- A string is copied unless `p` holds, and then it fits. -/
theorem copied_of_ite {p : Prop} [Decidable p] {r t : State κ} {line : Str} {size : ℕ}
    {f : Str → State κ} (h : (if p then some r else (fits size line).map f) = some t) :
    p ∧ t = r ∨ line.length < size ∧ t = f line := by
  split at h
  · exact .inl ⟨by assumption, (Option.some.inj h).symm⟩
  · obtain ⟨copied, hfits, rfl⟩ := Option.map_eq_some_iff.mp h
    obtain ⟨hlen, rfl⟩ := Filesystem.fits_eq_some.mp hfits
    exact .inr ⟨hlen, rfl⟩

theorem signupConfirm_cases (d : Kernel κ) {s : State κ} (hmode : s.mode = .signupConfirm)
    (line : Str) : LineCase d s line (signupConfirm s line) := by
  unfold signupConfirm
  split
  · exact .mismatch hmode
  dsimp only
  split
  · exact .notCreated hmode
  · next hok =>
    rw [Bool.not_eq_true', Bool.not_eq_false] at hok
    exact .created hmode (Prod.ext rfl hok)

theorem loginPass_cases (d : Kernel κ) {s t : State κ} {line : Str} (hmode : s.mode = .loginPass)
    (h : loginPass s line = some t) : LineCase d s line t := by
  unfold loginPass at h
  dsimp only at h
  split at h
  · obtain rfl := Option.some.inj h
    exact .refused hmode
  · obtain ⟨i, hfind, rfl⟩ := Option.map_eq_some_iff.mp h
    rw [hfind]
    split
    · exact .verified hmode hfind (.inl rfl)
    · exact .verified hmode hfind (.inr rfl)

theorem handleLine_cases {d : Kernel κ} {s t : State κ} {line : Str}
    (h : handleLine d s line = some t) : LineCase d s line t := by
  unfold handleLine at h
  split at h
  next hmode =>
    obtain ⟨hline, rfl⟩ | ⟨hlen, rfl⟩ := copied_of_ite h
    · exact .noUsername hmode hline
    · exact .username hmode hlen
  next hmode =>
    obtain ⟨hline, rfl⟩ | ⟨hlen, rfl⟩ := copied_of_ite h
    · exact .shortPassword hmode hline
    · exact .password hmode hlen
  next hmode =>
    obtain rfl := Option.some.inj h
    exact signupConfirm_cases d hmode line
  next hmode =>
    obtain rfl := Option.some.inj h
    unfold onboardUsecase
    split
    · exact .noUsecase hmode
    · exact .usecase hmode _
  next hmode =>
    unfold onboardPackages at h
    split at h
    · cases h
    · obtain rfl := Option.some.inj h
      exact .onboarded hmode
  next hmode =>
    obtain ⟨hline, rfl⟩ | ⟨hlen, rfl⟩ := copied_of_ite h
    · exact .noLogin hmode hline
    · exact .login hmode hlen
  next hmode => exact loginPass_cases d hmode h
  next hmode =>
    obtain rfl := Option.some.inj h
    exact .edit hmode
  next hmode => exact .command hmode h

theorem GateInv.handleLine {d : Kernel κ} {s t : State κ} {line : Str} (inv : GateInv s)
    (h : handleLine d s line = some t) : GateInv t := by
  cases handleLine_cases h with
  | noUsername | username | shortPassword | password | mismatch | notCreated | noLogin | login
  | refused => exact not_gated_prompt (by decide) _ inv.acts
  | created =>
    exact gateInv_of_authenticated (authenticated_grant _ (.inr rfl))
      (inv.acts.other (by simp [Event.Act]))
  | noUsecase hmode | usecase hmode | onboarded hmode =>
    exact gateInv_of_authenticated (inv.gate (by simp [Gated, hmode])) inv.acts
  | verified =>
    exact gateInv_of_authenticated (authenticated_grant _ (.inl rfl))
      (inv.acts.other (by simp [Event.Act]))
  | edit => exact inv
  | command hmode h => exact inv.processCommand hmode h

theorem GateInv.editUpdate {s t : State κ} {c : UInt8} (inv : GateInv s) (hmode : s.mode = .edit)
    (h : editUpdate s c = some t) : GateInv t := by
  have hauth : Authenticated s.log := inv.gate (.inr (.inl hmode))
  have hsave : ∀ {u : State κ}, saveEdit s = some u →
      Authenticated u.log ∧ ActsAuthenticated u.log := by
    intro u hu
    obtain ⟨⟨fs, ok⟩, -, rfl⟩ := Option.map_eq_some_iff.mp hu
    exact ⟨hauth.act (.inl rfl), inv.acts.act hauth⟩
  unfold Shell.editUpdate at h
  split_ifs at h
  · obtain ⟨u, hu, rfl⟩ := Option.map_eq_some_iff.mp h
    exact gateInv_of_authenticated (hsave hu).1 (hsave hu).2
  · exact gateInv_of_authenticated (hsave h).1 (hsave h).2
  all_goals
    obtain rfl := Option.some.inj h
    exact gateInv_of_authenticated hauth inv.acts

/-- One key, in any mode. -/
theorem GateInv.key {d : Kernel κ} {s t : State κ} {c : UInt8} (inv : GateInv s)
    (h : KeyStep d s c t) : GateInv t := by
  unfold KeyStep shellUpdate at h
  split_ifs at h with hedit
  · exact inv.editUpdate hedit h
  · obtain rfl := Option.some.inj h
    exact ⟨inv.gate, inv.acts⟩
  · have hline : GateInv { s with line := [] } := ⟨inv.gate, inv.acts⟩
    exact hline.handleLine h
  all_goals
    obtain rfl := Option.some.inj h
    exact ⟨inv.gate, inv.acts⟩

/-! ## Runs -/

/-- A kernel with nothing beyond the shell. -/
def bareKernel : Kernel Unit where
  command rest _ _ := rest
  readLine rest := ([], rest)

/-- The shell of a kernel without accounts, before it is started. -/
def freshShell : State Unit where
  mode := .signupUser
  line := []
  pendingUsername := []
  pendingPassword := []
  passwordMode := false
  editFilename := []
  editBuf := []
  cwd := Filesystem.rootPath
  fs := Filesystem.init
  clipboard := []
  users :=
    { users := Users.blank
      current := none
      disk := { present := false, userSector := { magic := 0, version := 0, users := Users.blank } } }
  rest := ()
  log := []

end QuillOS.Shell
