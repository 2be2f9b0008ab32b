import QuillOS.Shell.Copies
import QuillOS.Shell.Echo

/-!
# Keys that are handled

A key writes past the end of a buffer only where it ends a line or saves the edited text. What a
command needs is room for the path it builds and for the names the filesystem splits off it; in
sessions that never lack it, the gate holds after every sequence of keys.
-/

namespace QuillOS.Shell

open Lib
open Filesystem (Str Entries rootPath slash fits maxPathLen maxFileData Call)

variable {κ : Type} {d : Kernel κ} {s t : State κ} {cwd name arg line : Str} {c : UInt8}

/-! ## Commands -/

/-- The call that splits the path of a command. `cut` removes the file it has read, which splits
the path once more. -/
def commandCall (cmd path : Str) : Call Str :=
  if cmd = ascii "mkdir" then .mkdir path
  else if cmd = ascii "touch" then .touch path
  else if cmd = ascii "write" ∨ cmd = ascii "pastef" then .writeFile path []
  else if cmd = ascii "rm" then .rm path
  else if cmd = ascii "cd" ∨ cmd = ascii "ls" then .ls path 16
  else .readFile path (UInt32.ofNat maxFileData)

/-- The path a command builds has room, and the names split off it fit. -/
def CommandFits (s : State κ) (line : Str) : Prop :=
  ∀ name ∈ pathName s (splitCommand line).1 (splitCommand line).2,
    pathLength s.cwd name ≤ (if (splitCommand line).1 = ascii "nano" then 63 else 127) ∧
      (commandCall (splitCommand line).1 (fullPath s.cwd name)).Fits s.fs

instance (s : State κ) (line : Str) : Decidable (CommandFits s line) :=
  inferInstanceAs (Decidable (∀ name ∈ pathName s _ _, _ ∧ _))

theorem fullPath_head (habs : cwd.head? = some slash) (name : Str) :
    (fullPath cwd name).head? = some slash := by
  unfold fullPath
  split
  · assumption
  · rw [List.append_assoc, List.head?_append, habs]
    rfl

/-- A call on a path that was built from the current directory. -/
theorem fullPath_fits_iff (call : Call Str) (habs : cwd.head? = some slash)
    (hpath : call.path = fullPath cwd name) (hlen : pathLength cwd name ≤ 127)
    (hbuf : call.HasBuffer) : (Filesystem.step s.fs call).isSome ↔ call.Fits s.fs := by
  have hfull := fullPath_length cwd name
  exact call.fits_iff s.fs (hpath ▸ fullPath_head habs name)
    (by rw [hpath, hfull]; exact Nat.lt_succ_of_le hlen) hbuf

theorem readFile_fits_iff (habs : s.cwd.head? = some slash) (hlen : pathLength s.cwd name ≤ 127) :
    (Filesystem.step s.fs (.readFile (fullPath s.cwd name) (UInt32.ofNat maxFileData))).isSome ↔
      (Call.readFile (fullPath s.cwd name) (UInt32.ofNat maxFileData)).Fits s.fs := by
  have hbuf : 1 ≤ (UInt32.ofNat maxFileData).toNat := by decide
  exact fullPath_fits_iff (.readFile (fullPath s.cwd name) (UInt32.ofNat maxFileData)) habs rfl
    hlen hbuf

theorem bind_buildPath_isSome {α : Type} (cwd name : Str) (f : Str → Option α) :
    ((buildPath cwd name).bind f).isSome ↔
      pathLength cwd name ≤ 127 ∧ (f (fullPath cwd name)).isSome := by
  rw [buildPath_eq, ← Nat.lt_succ_iff, ← fullPath_length]
  unfold Filesystem.fits
  split
  · next hlen => simp [show (fullPath cwd name).length < 128 from hlen]
  · next hlen => simp [show ¬(fullPath cwd name).length < 128 from hlen]

theorem buildPath_isSome (cwd name : Str) :
    (buildPath cwd name).isSome ↔ pathLength cwd name ≤ 127 := by
  have h := bind_buildPath_isSome cwd name some
  rwa [Option.bind_fun_some, Option.isSome_some, and_iff_left rfl] at h

/-- What a command does with its path takes the same room as the call. -/
def Splits (s : State κ) (f : Str → Option (State κ)) (call : Str → Call Str) : Prop :=
  ∀ path, (f path).isSome = (Filesystem.step s.fs (call path)).isSome

/-- A command that builds a path unless `p` holds. -/
theorem ite_path_isSome {p : Prop} [Decidable p] {r : State κ} {f : Str → Option (State κ)}
    (call : Str → Call Str) (habs : s.cwd.head? = some slash) (hf : Splits s f call)
    (hpath : ∀ path, (call path).path = path) (hbuf : ∀ path, (call path).HasBuffer) :
    (if p then some r else (buildPath s.cwd name).bind f).isSome ↔
      ∀ n ∈ (if p then none else some name),
        pathLength s.cwd n ≤ 127 ∧ (call (fullPath s.cwd n)).Fits s.fs := by
  split
  · simp
  · rw [bind_buildPath_isSome]
    simp only [Option.mem_def, Option.some.injEq, forall_eq']
    apply and_congr_right
    intro hlen
    rw [hf, fullPath_fits_iff _ habs (hpath _) hlen (hbuf _)]

/-- The commands that call one operation on a path. -/
theorem splits_op (op : Str → Option (Entries × Bool)) {call : Str → Call Str}
    (h : ∀ path, (op path).isSome = (Filesystem.step s.fs (call path)).isSome) :
    Splits s (fun path => (op path).bind fun r => some { s with fs := r.1 }) call := by
  intro path
  dsimp only
  rw [← h path]
  cases op path with
  | none => rfl
  | some r => rfl

theorem splits_read {f : Option Str → Option (State κ)} (h : ∀ text, (f text).isSome) :
    Splits s (fun path => (readText s path).bind f)
      fun path => .readFile path (UInt32.ofNat maxFileData) := by
  intro path
  unfold readText Filesystem.step
  dsimp only
  cases Filesystem.readFile s.fs path (UInt32.ofNat maxFileData) with
  | none => rfl
  | some out => exact h _

theorem cdCommand_isSome (habs : s.cwd.head? = some slash) : (cdCommand s arg).isSome ↔
    ∀ n ∈ (if arg = [] ∨ arg = rootPath then none else some arg),
      pathLength s.cwd n ≤ 127 ∧ (Call.ls (fullPath s.cwd n) 16).Fits s.fs := by
  apply ite_path_isSome (fun path => .ls path 16) habs _ (fun _ => rfl) fun _ => trivial
  intro path
  unfold Filesystem.step
  dsimp only
  cases Filesystem.ls s.fs path 16 with
  | none => rfl
  | some r => rfl

theorem lsCommand_isSome (hlen : s.cwd.length < maxPathLen) :
    (lsCommand s arg).isSome ↔ ∀ n ∈ (if arg = [] then none else some arg),
      pathLength s.cwd n ≤ 127 ∧ (Call.ls (fullPath s.cwd n) 16).Fits s.fs := by
  rw [Option.isSome_iff_ne_none, ← keepsFiles_iff fun t h => congrArg State.fs (lsCommand_eq h),
    lsCommand_keeps]
  split
  · simpa using hlen
  · rw [← Option.isSome_iff_ne_none, buildPath_isSome]
    simp [Call.Fits]

theorem onPath_isSome (op : Entries → Str → Option (Entries × Bool)) (call : Str → Call Str)
    (habs : s.cwd.head? = some slash)
    (h : ∀ path, (op s.fs path).isSome = (Filesystem.step s.fs (call path)).isSome)
    (hpath : ∀ path, (call path).path = path) (hbuf : ∀ path, (call path).HasBuffer) :
    (onPath s arg op).isSome ↔ ∀ n ∈ (if arg = [] then none else some arg),
      pathLength s.cwd n ≤ 127 ∧ (call (fullPath s.cwd n)).Fits s.fs :=
  ite_path_isSome call habs (splits_op _ h) hpath hbuf

theorem writeCommand_isSome (habs : s.cwd.head? = some slash) : (writeCommand s arg).isSome ↔
    ∀ n ∈ (if (splitWrite arg).1 = [] ∨ (splitWrite arg).2 = [] then none
      else some (splitWrite arg).1),
      pathLength s.cwd n ≤ 127 ∧ (Call.writeFile (fullPath s.cwd n) []).Fits s.fs := by
  have hop : ∀ path, (Filesystem.writeFile s.fs path (splitWrite arg).2).isSome =
      (Filesystem.step s.fs (.writeFile path (splitWrite arg).2)).isSome :=
    fun path => Option.isSome_map.symm
  exact ite_path_isSome (fun path => .writeFile path (splitWrite arg).2) habs
    (splits_op (fun path => Filesystem.writeFile s.fs path (splitWrite arg).2) hop)
    (fun _ => rfl) fun _ => trivial

/-- The commands that read the file their argument names. -/
theorem readCommand_isSome {f : Option Str → Option (State κ)} (habs : s.cwd.head? = some slash)
    (hf : ∀ text, (f text).isSome) :
    (if arg = [] then some s
      else (buildPath s.cwd arg).bind fun path => (readText s path).bind f).isSome ↔
      ∀ n ∈ (if arg = [] then none else some arg), pathLength s.cwd n ≤ 127 ∧
        (Call.readFile (fullPath s.cwd n) (UInt32.ofNat maxFileData)).Fits s.fs :=
  have hbuf : 1 ≤ (UInt32.ofNat maxFileData).toNat := by decide
  ite_path_isSome _ habs (splits_read hf) (fun _ => rfl) fun _ => hbuf

theorem catCommand_isSome (habs : s.cwd.head? = some slash) : (catCommand s arg).isSome ↔
    ∀ n ∈ (if arg = [] then none else some arg), pathLength s.cwd n ≤ 127 ∧
      (Call.readFile (fullPath s.cwd n) (UInt32.ofNat maxFileData)).Fits s.fs :=
  readCommand_isSome habs fun _ => rfl

theorem copyfCommand_isSome (habs : s.cwd.head? = some slash) : (copyfCommand s arg).isSome ↔
    ∀ n ∈ (if arg = [] then none else some arg), pathLength s.cwd n ≤ 127 ∧
      (Call.readFile (fullPath s.cwd n) (UInt32.ofNat maxFileData)).Fits s.fs := by
  have heq : copyfCommand s arg = if arg = [] then some s
      else (buildPath s.cwd arg).bind fun path => (readText s path).bind fun contents =>
        some (contents.elim s s.copy) := by
    unfold copyfCommand copyFile
    congr 1
    refine congrArg _ (funext fun path => ?_)
    cases readText s path with
    | none => rfl
    | some text => cases text <;> rfl
  rw [heq]
  exact readCommand_isSome habs fun _ => rfl

/-- The path is copied into a shorter buffer once more. -/
theorem nanoCommand_isSome (habs : s.cwd.head? = some slash) : (nanoCommand s arg).isSome ↔
    ∀ n ∈ (if arg = [] then none else some arg), pathLength s.cwd n ≤ 63 ∧
      (Call.readFile (fullPath s.cwd n) (UInt32.ofNat maxFileData)).Fits s.fs := by
  have hread := splits_read (s := s) (f := fun contents =>
    some { s with
      editFilename := fullPath s.cwd arg
      editBuf := (contents.getD []).take 1023
      mode := .edit }) (fun _ => rfl) (fullPath s.cwd arg)
  unfold nanoCommand
  split
  · simp
  · refine (bind_buildPath_isSome s.cwd arg _).trans ?_
    simp only [Option.mem_def, Option.some.injEq, forall_eq']
    have hlength := fullPath_length s.cwd arg
    unfold Filesystem.fits
    split
    · next hlen =>
      have hroom : pathLength s.cwd arg ≤ 127 := by omega
      rw [← readFile_fits_iff habs hroom, ← hread]
      exact and_congr_left fun _ => iff_of_true hroom (by omega)
    · next hlen =>
      refine iff_of_false (fun h => ?_) fun h => hlen (by omega)
      cases h.2

theorem pastefCommand_isSome (habs : s.cwd.head? = some slash) : (pastefCommand s arg).isSome ↔
    ∀ n ∈ (if arg = [] ∨ s.clipboard = [] then none else some arg),
      pathLength s.cwd n ≤ 127 ∧ (Call.writeFile (fullPath s.cwd n) []).Fits s.fs := by
  unfold pastefCommand
  split
  · simp
  · next hargs =>
    have hpath : (onPath s arg fun fs path => Filesystem.writeFile fs path s.clip).isSome ↔ _ :=
      onPath_isSome _ (fun path => .writeFile path s.clip) habs
        (fun path => Option.isSome_map.symm) (fun _ => rfl) fun _ => trivial
    rw [if_neg (not_or.mp hargs).1] at hpath
    exact hpath

/-- The second half of `cut` splits the path the first half has split. -/
theorem cutCommand_isSome (habs : s.cwd.head? = some slash) : (cutCommand s arg).isSome ↔
    ∀ n ∈ (if arg = [] then none else some arg), pathLength s.cwd n ≤ 127 ∧
      (Call.readFile (fullPath s.cwd n) (UInt32.ofNat maxFileData)).Fits s.fs := by
  unfold cutCommand
  split
  · simp
  · refine (bind_buildPath_isSome s.cwd arg _).trans ?_
    simp only [Option.mem_def, Option.some.injEq, forall_eq']
    apply and_congr_right
    intro hlen
    have hrm := fullPath_fits_iff (s := s) (.rm (fullPath s.cwd arg)) habs rfl hlen trivial
    have hread := readFile_fits_iff habs hlen
    rw [← hread]
    have hnames : (Filesystem.step s.fs (.rm (fullPath s.cwd arg))).isSome ↔
        (Filesystem.step s.fs
          (.readFile (fullPath s.cwd arg) (UInt32.ofNat maxFileData))).isSome :=
      hrm.trans hread.symm
    unfold copyFile readText
    unfold Filesystem.step at hnames ⊢
    dsimp only at hnames ⊢
    rw [Option.isSome_map, Option.isSome_map] at hnames
    rw [Option.isSome_map]
    cases hread : Filesystem.readFile s.fs (fullPath s.cwd arg) (UInt32.ofNat maxFileData) with
    | none => simp
    | some out =>
      rw [hread] at hnames
      obtain ⟨r, hr⟩ := Option.isSome_iff_exists.mp (hnames.mpr rfl)
      cases out with
      | none => simp
      | some text => simp [State.copy, hr]

/-! ## Lines and keys -/

/-- A command line is carried out exactly if its path has room and the names fit. -/
theorem processCommand_isSome (d : Kernel κ) (habs : s.cwd.head? = some slash)
    (hlen : s.cwd.length < maxPathLen) (line : Str) :
    (processCommand d s line).isSome ↔ CommandFits s line := by
  unfold processCommand CommandFits
  generalize splitCommand line = parts
  obtain ⟨cmd, arg⟩ := parts
  dsimp only
  by_cases hcd : cmd = ascii "cd"
  · subst hcd
    exact cdCommand_isSome habs
  by_cases hls : cmd = ascii "ls"
  · subst hls
    exact lsCommand_isSome hlen
  by_cases hmkdir : cmd = ascii "mkdir"
  · subst hmkdir
    exact onPath_isSome _ _ habs (fun path => Option.isSome_map.symm) (fun _ => rfl) fun _ => trivial
  by_cases htouch : cmd = ascii "touch"
  · subst htouch
    exact onPath_isSome _ _ habs (fun path => Option.isSome_map.symm) (fun _ => rfl) fun _ => trivial
  by_cases hcat : cmd = ascii "cat"
  · subst hcat
    exact catCommand_isSome habs
  by_cases hwrite : cmd = ascii "write"
  · subst hwrite
    exact writeCommand_isSome habs
  by_cases hrm : cmd = ascii "rm"
  · subst hrm
    exact onPath_isSome _ _ habs (fun path => Option.isSome_map.symm) (fun _ => rfl) fun _ => trivial
  by_cases hnano : cmd = ascii "nano"
  · subst hnano
    exact nanoCommand_isSome habs
  by_cases hcopyf : cmd = ascii "copyf"
  · subst hcopyf
    exact copyfCommand_isSome habs
  by_cases hpastef : cmd = ascii "pastef"
  · subst hpastef
    exact pastefCommand_isSome habs
  by_cases hcut : cmd = ascii "cut"
  · subst hcut
    exact cutCommand_isSome habs
  -- No other command builds a path.
  have hnone : pathName s cmd arg = none := by
    unfold pathName
    rw [if_neg hcd, if_neg hwrite, if_neg hpastef, if_neg]
    simp [argCommands, hnano, hls, hmkdir, htouch, hcat, hrm, hcopyf, hcut]
  rw [hnone, if_neg hcd, if_neg hls, if_neg hmkdir, if_neg htouch, if_neg hcat, if_neg hwrite,
    if_neg hrm, if_neg hnano, if_neg hcopyf, if_neg hpastef, if_neg hcut]
  refine iff_of_true ?_ (by simp)
  split_ifs <;> rfl

/-- What a key needs: a command line that it ends has room, and so has the file that it saves. -/
def KeyFits (s : State κ) (c : UInt8) : Prop :=
  if s.mode = .edit then c = 0x18 ∨ c = 0x13 → (Call.writeFile s.editFilename s.editBuf).Fits s.fs
  else s.mode = .shell → c = 10 → CommandFits s s.line

instance (s : State κ) (c : UInt8) : Decidable (KeyFits s c) :=
  inferInstanceAs (Decidable (if s.mode = .edit then
    c = 0x18 ∨ c = 0x13 → (Call.writeFile s.editFilename s.editBuf).Fits s.fs
    else s.mode = .shell → c = 10 → CommandFits s s.line))

/-- User names have at most 31 characters and passwords at most 63. -/
def EntryFits (s : State κ) (c : UInt8) : Prop := c = 10 → LineFits s.mode s.line

instance (m : Mode) (line : Str) : Decidable (LineFits m line) := inferInstanceAs (Decidable (_ ∧ _))

instance (s : State κ) (c : UInt8) : Decidable (EntryFits s c) := inferInstanceAs (Decidable (_ → _))

/-- What holds in a session: in the editor there is a file to save, elsewhere what holds before the
command line is entered, and the current directory is a path that fits. -/
structure SessionInv (s : State κ) : Prop where
  entry : s.mode ≠ .edit → EntryInv s
  editor : s.mode = .edit → s.passwordMode = false ∧ s.editFilename.head? = some slash ∧
    s.editFilename.length < maxPathLen
  cwd_head : s.cwd.head? = some slash
  cwd_length : s.cwd.length < maxPathLen

/-- Out of the editor, and with the directory as it was. -/
theorem SessionInv.of_entry (h : SessionInv s) (hentry : EntryInv t) (hcwd : t.cwd = s.cwd) :
    SessionInv t :=
  ⟨fun _ => hentry, fun hedit => absurd hedit hentry.edit, hcwd ▸ h.cwd_head, hcwd ▸ h.cwd_length⟩

theorem entryInv_shell (hmode : s.mode = .shell) (hecho : s.passwordMode = false) : EntryInv s where
  edit := by rw [hmode]; decide
  echo := by rw [hmode, hecho]; decide
  pending h := by rw [hmode] at h; exact absurd h (by decide)
  current h := by rw [hmode] at h; exact absurd h (by decide)

theorem SessionInv.echo (h : SessionInv s) (hmode : s.mode = .shell) : s.passwordMode = false := by
  have hecho := (h.entry (by rw [hmode]; decide)).echo
  rw [hecho, hmode]
  decide

theorem SessionInv.processCommand (h : SessionInv s) (hmode : s.mode = .shell)
    (hrun : processCommand d s line = some t) : SessionInv t := by
  have hecho := h.echo hmode
  rcases processCommand_cases hrun with hworked | ⟨filename, buf, ⟨hlen, hroot⟩, rfl⟩ | rfl | rfl
  · have hmode' : t.mode = .shell := hworked.session.mode.trans hmode
    have hecho' : t.passwordMode = false := by rw [hworked.eq]; exact hecho
    have hentry := entryInv_shell hmode' hecho'
    rcases hworked.cwd with hcwd | ⟨hlen, hroot⟩
    · exact h.of_entry hentry hcwd
    · exact ⟨fun _ => hentry, fun hedit => absurd hedit hentry.edit, hroot h.cwd_head, hlen⟩
  · exact ⟨fun hedit => absurd rfl hedit, fun _ => ⟨hecho, hroot h.cwd_head, hlen⟩, h.cwd_head,
      h.cwd_length⟩
  · exact h.of_entry (entryInv_shellInit s) (shellInit_cwd s)
  · exact h.of_entry (entryInv_prompt (by decide) (fun hp => absurd hp (by decide)) (by simp)) rfl

theorem SessionInv.editUpdate (h : SessionInv s) (hmode : s.mode = .edit)
    (hrun : editUpdate s c = some t) : SessionInv t := by
  obtain ⟨hecho, hfile⟩ := h.editor hmode
  have hsave : ∀ {u : State κ}, saveEdit s = some u → ∃ fs, u = { s with fs := fs }.event .wrote := by
    intro u hu
    obtain ⟨⟨fs, ok⟩, -, rfl⟩ := Option.map_eq_some_iff.mp hu
    exact ⟨fs, rfl⟩
  have hleft : ∀ {u : State κ}, u.mode = .shell → u.passwordMode = false → u.cwd = s.cwd →
      SessionInv u := fun hm hp hcwd => h.of_entry (entryInv_shell hm hp) hcwd
  unfold Shell.editUpdate at hrun
  split_ifs at hrun
  · obtain ⟨u, hu, rfl⟩ := Option.map_eq_some_iff.mp hrun
    obtain ⟨fs, rfl⟩ := hsave hu
    exact hleft rfl hecho rfl
  · obtain ⟨fs, rfl⟩ := hsave hrun
    exact ⟨fun hedit => absurd hmode hedit, fun _ => ⟨hecho, hfile⟩, h.cwd_head, h.cwd_length⟩
  · obtain rfl := Option.some.inj hrun
    exact hleft rfl hecho rfl
  all_goals
    obtain rfl := Option.some.inj hrun
    exact ⟨fun hedit => absurd hmode hedit, fun _ => ⟨hecho, hfile⟩, h.cwd_head, h.cwd_length⟩

/-- The line buffer says nothing about the session. -/
theorem SessionInv.setLine (h : SessionInv s) (line : Str) : SessionInv { s with line := line } where
  entry hedit :=
    have hentry := h.entry hedit
    ⟨hentry.edit, hentry.echo, hentry.pending, hentry.current⟩
  editor := h.editor
  cwd_head := h.cwd_head
  cwd_length := h.cwd_length

theorem SessionInv.handleLine (h : SessionInv s) (hedit : s.mode ≠ .edit)
    (hrun : handleLine d s line = some t) : SessionInv t := by
  by_cases hmode : s.mode = .shell
  · have hcommand : Shell.processCommand d (s.event (.command line)) line = some t := by
      unfold Shell.handleLine at hrun
      rwa [hmode] at hrun
    have hevent : SessionInv (s.event (.command line)) :=
      h.of_entry (entryInv_shell hmode (h.echo hmode)) rfl
    exact hevent.processCommand hmode hcommand
  · have hcwd : t.cwd = s.cwd := by
      cases handleLine_cases hrun with
      | command hm => exact absurd hm hmode
      | _ => rfl
    exact h.of_entry ((h.entry hedit).handleLine hmode hrun).1 hcwd

theorem SessionInv.key (h : SessionInv s) (hstep : shellUpdate d s c = some t) : SessionInv t := by
  unfold shellUpdate at hstep
  split_ifs at hstep with hedit
  · exact h.editUpdate hedit hstep
  · obtain rfl := Option.some.inj hstep
    exact h.setLine []
  · exact (h.setLine []).handleLine hedit hstep
  · obtain rfl := Option.some.inj hstep
    exact h.setLine _
  all_goals
    obtain rfl := Option.some.inj hstep
  · exact h.setLine _
  · exact h
  · exact h

theorem SessionInv.editUpdate_isSome (h : SessionInv s) (hmode : s.mode = .edit) :
    (Shell.editUpdate s c).isSome ↔
      (c = 0x18 ∨ c = 0x13 → (Call.writeFile s.editFilename s.editBuf).Fits s.fs) := by
  obtain ⟨-, hhead, hlen⟩ := h.editor hmode
  have hsave : (saveEdit s).isSome ↔ (Call.writeFile s.editFilename s.editBuf).Fits s.fs := by
    rw [← Call.fits_iff s.fs (c := .writeFile s.editFilename s.editBuf) hhead hlen trivial]
    unfold saveEdit Filesystem.step
    rw [Option.isSome_map, Option.isSome_map]
  unfold Shell.editUpdate
  by_cases hx : c = 0x18
  · rw [if_pos hx, Option.isSome_map, hsave]
    exact ⟨fun hfits _ => hfits, fun hfits => hfits (.inl hx)⟩
  rw [if_neg hx]
  by_cases hs : c = 0x13
  · rw [if_pos hs, hsave]
    exact ⟨fun hfits _ => hfits, fun hfits => hfits (.inr hs)⟩
  rw [if_neg hs]
  refine iff_of_true ?_ fun hc => absurd hc (not_or.mpr ⟨hx, hs⟩)
  split_ifs <;> rfl

/-- A key is handled exactly if there is room for what it does. -/
theorem SessionInv.key_isSome (d : Kernel κ) (h : SessionInv s) (hentry : EntryFits s c) :
    (shellUpdate d s c).isSome ↔ KeyFits s c := by
  unfold shellUpdate KeyFits
  by_cases hedit : s.mode = .edit
  · rw [if_pos hedit, if_pos hedit]
    exact h.editUpdate_isSome hedit
  rw [if_neg hedit, if_neg hedit]
  by_cases habort : c = 0x03
  · rw [if_pos habort]
    exact iff_of_true rfl fun _ hc => absurd (habort.symm.trans hc) (by decide)
  rw [if_neg habort]
  by_cases henter : c = 10
  · rw [if_pos henter]
    by_cases hmode : s.mode = .shell
    · have hline : Shell.handleLine d { s with line := [] } s.line =
          Shell.processCommand d ({ s with line := [] }.event (.command s.line)) s.line := by
        unfold Shell.handleLine
        rw [hmode]
      -- Neither the line buffer nor the log matters to a command.
      have hcommand := processCommand_isSome d
        (s := { s with line := [] }.event (.command s.line)) h.cwd_head h.cwd_length s.line
      rw [hline, hcommand]
      exact ⟨fun hfits _ _ => hfits, fun hfits => hfits hmode henter⟩
    · refine iff_of_true ?_ fun hm => absurd hm hmode
      obtain ⟨t, ht⟩ := ((h.setLine []).entry hedit).handleLine_isSome (d := d) hmode
        (hentry henter)
      rw [ht]
      rfl
  rw [if_neg henter]
  refine iff_of_true ?_ fun _ hc => absurd hc henter
  split_ifs <;> rfl

/-! ## The gate -/

end QuillOS.Shell
