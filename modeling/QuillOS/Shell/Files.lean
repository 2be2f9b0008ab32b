import QuillOS.Filesystem.LongNames
import QuillOS.Shell.Gate

/-!
# The shell and the files

A command that is not a file command leaves the files alone, except that `cls` starts the shell
again and with it an empty filesystem. And `cd` enters whatever path it is given, since `ls` counts
no entries in a directory that does not exist, where it should fail.
-/

namespace QuillOS.Shell

open Filesystem (Str Entries rootPath slash maxPathLen maxFileData normalizePath readFile ls NameFits
  findPath stripSlashes)

variable {κ : Type} {s t : State κ} {arg path : Str} {bufSize : UInt32}

/-! ## Commands that keep the files -/

/-- The commands that are meant to change files. -/
def fileCommands : List Str :=
  [ascii "mkdir", ascii "touch", ascii "write", ascii "rm", ascii "nano", ascii "pastef",
    ascii "cut"]

/-- The command comes to its end, and the files are as they were. -/
def KeepsFiles (s : State κ) (result : Option (State κ)) : Prop :=
  ∃ t, result = some t ∧ t.fs = s.fs

/-- The file a path leads to can be looked up. -/
def ReadFits (path : Str) : Prop := path.head? = some slash → NameFits path

instance (path : Str) : Decidable (ReadFits path) := inferInstanceAs (Decidable (_ → _))

/-- What each command asks for: `cls` that there are no files, and those that look at files that
the path they build fits its buffers. -/
def Undisturbed (s : State κ) (cmd arg : Str) : Prop :=
  if cmd = ascii "cls" then s.fs = Filesystem.init
  else if cmd = ascii "cd" then arg = [] ∨ arg = rootPath ∨ buildPath s.cwd arg ≠ none
  else if cmd = ascii "ls" then
    if arg = [] then s.cwd.length < maxPathLen else buildPath s.cwd arg ≠ none
  else if cmd = ascii "cat" ∨ cmd = ascii "copyf" then
    arg = [] ∨ ∃ path, buildPath s.cwd arg = some path ∧ ReadFits path
  else True

theorem keepsFiles_some : KeepsFiles s (some t) ↔ t.fs = s.fs := by
  unfold KeepsFiles
  simp only [Option.some.injEq, exists_eq_left']

/-- A command that changes no file in any case keeps them if it comes to its end. -/
theorem keepsFiles_iff {result : Option (State κ)} (h : ∀ t, result = some t → t.fs = s.fs) :
    KeepsFiles s result ↔ result ≠ none := by
  rw [Option.ne_none_iff_exists']
  exact ⟨fun ⟨t, ht, _⟩ => ⟨t, ht⟩, fun ⟨t, ht⟩ => ⟨t, ht, h t ht⟩⟩

theorem ls_ne_none (fs : Entries) (bufSize : UInt32) :
    ls fs path bufSize ≠ none ↔ path.length < maxPathLen := by
  unfold ls normalizePath Filesystem.fits
  split
  · simp [*]
  · simp [*]

theorem readText_ne_none (hlen : path.length < maxPathLen) :
    readText s path ≠ none ↔ ReadFits path := by
  unfold readText ReadFits
  rw [Ne, Option.map_eq_none_iff]
  by_cases habs : path.head? = some slash
  · rw [← Ne, Filesystem.readFile_ne_none habs hlen (by decide)]
    exact ⟨fun h _ => h, fun h => h habs⟩
  · unfold readFile
    rw [if_pos habs]
    simp [habs]

theorem cdCommand_fs (h : cdCommand s arg = some t) : t.fs = s.fs := by
  obtain ⟨cwd, -, rfl⟩ := cdCommand_cases h
  rfl

theorem cdCommand_keeps : KeepsFiles s (cdCommand s arg) ↔
    arg = [] ∨ arg = rootPath ∨ buildPath s.cwd arg ≠ none := by
  rw [keepsFiles_iff fun t => cdCommand_fs]
  unfold cdCommand
  split
  · next hroot =>
    have hleft : arg = [] ∨ arg = rootPath ∨ buildPath s.cwd arg ≠ none :=
      hroot.imp id .inl
    simp [hleft]
  · next hroot =>
    rw [not_or] at hroot
    cases hpath : buildPath s.cwd arg with
    | none => simp [hroot]
    | some path =>
      have hls := (ls_ne_none s.fs 16).mpr (buildPath_length hpath)
      obtain ⟨out, hout⟩ := Option.ne_none_iff_exists'.mp hls
      simp [hout]

theorem lsCommand_keeps : KeepsFiles s (lsCommand s arg) ↔
    if arg = [] then s.cwd.length < maxPathLen else buildPath s.cwd arg ≠ none := by
  rw [keepsFiles_iff fun t h => congrArg State.fs (lsCommand_eq h)]
  unfold lsCommand
  split
  · rw [← ls_ne_none s.fs 1024]
    cases hls : ls s.fs s.cwd 1024 with
    | none => simp [hls]
    | some out => simp [hls]
  · cases hpath : buildPath s.cwd arg with
    | none => simp
    | some path =>
      have hls := (ls_ne_none s.fs 1024).mpr (buildPath_length hpath)
      obtain ⟨out, hout⟩ := Option.ne_none_iff_exists'.mp hls
      simp [hout]

theorem copyFile_ne_none : copyFile s path ≠ none ↔ readText s path ≠ none := by
  unfold copyFile
  rw [Ne, Option.map_eq_none_iff]

/-- What `cat` and `copyf` need. -/
theorem bindPath_ne_none {f : Str → Option (State κ)}
    (hf : ∀ path, f path ≠ none ↔ readText s path ≠ none) :
    (buildPath s.cwd arg).bind f ≠ none ↔
      ∃ path, buildPath s.cwd arg = some path ∧ ReadFits path := by
  cases hpath : buildPath s.cwd arg with
  | none => simp
  | some path =>
    rw [Option.bind_some, hf, readText_ne_none (buildPath_length hpath)]
    simp only [Option.some.injEq, exists_eq_left']

theorem catCommand_keeps : KeepsFiles s (catCommand s arg) ↔
    arg = [] ∨ ∃ path, buildPath s.cwd arg = some path ∧ ReadFits path := by
  rw [keepsFiles_iff fun t h => congrArg State.fs (catCommand_eq h)]
  unfold catCommand
  split
  · next hnil => simp [hnil]
  · next hne =>
    rw [or_iff_right hne]
    apply bindPath_ne_none
    intro path
    cases readText s path <;> simp

theorem copyfCommand_fs (h : copyfCommand s arg = some t) : t.fs = s.fs := by
  obtain ⟨clipboard, rfl⟩ := copyfCommand_cases h
  rfl

theorem copyfCommand_keeps : KeepsFiles s (copyfCommand s arg) ↔
    arg = [] ∨ ∃ path, buildPath s.cwd arg = some path ∧ ReadFits path := by
  rw [keepsFiles_iff fun t => copyfCommand_fs]
  unfold copyfCommand
  split
  · next hnil => simp [hnil]
  · next hne =>
    rw [or_iff_right hne]
    apply bindPath_ne_none
    intro path
    rw [← copyFile_ne_none]
    cases copyFile s path <;> simp

theorem shellInit_fs (s : State κ) : (shellInit s).fs = Filesystem.init := by
  unfold shellInit
  dsimp only
  split <;> rfl

theorem copyCommand_fs (s : State κ) (arg : Str) : (copyCommand s arg).fs = s.fs := by
  unfold copyCommand
  split <;> rfl

theorem pastehCommand_fs (d : Kernel κ) (s : State κ) : (pastehCommand d s).fs = s.fs := by
  unfold pastehCommand
  dsimp only
  split <;> rfl

/-- A command that is not a file command keeps the files exactly if it does not start the shell
again over files there were, and if the path it looks at fits its buffers. -/
theorem keeps_files_iff (d : Kernel κ) (s : State κ) (input : Str)
    (hword : (splitCommand input).1 ∉ fileCommands) :
    KeepsFiles s (processCommand d s input) ↔
      Undisturbed s (splitCommand input).1 (splitCommand input).2 := by
  unfold processCommand Undisturbed
  generalize splitCommand input = parts at hword ⊢
  obtain ⟨cmd, arg⟩ := parts
  dsimp only at hword ⊢
  by_cases hnil : cmd = []
  · subst hnil
    rw [if_pos rfl, keepsFiles_some]
    simp [ascii]
  rw [if_neg hnil]
  by_cases hcls : cmd = ascii "cls"
  · rw [if_pos hcls, if_pos hcls, keepsFiles_some, shellInit_fs, eq_comm]
  rw [if_neg hcls, if_neg hcls]
  by_cases hcd : cmd = ascii "cd"
  · rw [if_pos hcd, if_pos hcd, cdCommand_keeps]
  rw [if_neg hcd, if_neg hcd]
  by_cases hls : cmd = ascii "ls"
  · rw [if_pos hls, if_pos hls, lsCommand_keeps]
  rw [if_neg hls, if_neg hls]
  simp only [fileCommands, List.mem_cons, List.not_mem_nil, or_false, not_or] at hword
  obtain ⟨hmkdir, htouch, hwrite, hrm, hnano, hpastef, hcut⟩ := hword
  rw [if_neg hmkdir, if_neg htouch]
  by_cases hcat : cmd = ascii "cat"
  · rw [if_pos hcat, if_pos (Or.inl hcat), catCommand_keeps]
  rw [if_neg hcat, if_neg hwrite, if_neg hrm, if_neg hnano]
  by_cases hlogout : cmd = ascii "logout"
  · have hother : ¬(cmd = ascii "cat" ∨ cmd = ascii "copyf") := by
      rw [hlogout]
      decide
    rw [if_pos hlogout, if_neg hother, keepsFiles_some]
    exact iff_of_true rfl trivial
  rw [if_neg hlogout]
  by_cases hcopy : cmd = ascii "copy"
  · have hother : ¬(cmd = ascii "cat" ∨ cmd = ascii "copyf") := by
      rw [hcopy]
      decide
    rw [if_pos hcopy, if_neg hother, keepsFiles_some]
    exact iff_of_true (copyCommand_fs s arg) trivial
  rw [if_neg hcopy]
  by_cases hcopyf : cmd = ascii "copyf"
  · rw [if_pos hcopyf, if_pos (Or.inr hcopyf), copyfCommand_keeps]
  rw [if_neg hcopyf, if_neg hpastef, if_neg hcut, if_neg (not_or.mpr ⟨hcat, hcopyf⟩)]
  split
  · rw [keepsFiles_some]
    exact iff_of_true (pastehCommand_fs d s) trivial
  · rw [keepsFiles_some]
    exact iff_of_true rfl trivial

/-- A kernel whose other commands do nothing. -/
def idleKernel : Kernel Unit where
  command rest _ _ := rest
  readLine rest := ([], rest)

/-- At the command line, with one empty file `/a`. -/
def oneFile : State Unit where
  mode := .shell
  line := []
  pendingUsername := []
  pendingPassword := []
  passwordMode := false
  editFilename := []
  editBuf := []
  cwd := rootPath
  fs := Function.update Filesystem.init 1 (Filesystem.fileEntry rootPath [97])
  clipboard := []
  users := ⟨Users.blank, none, ⟨false, ⟨0, 0, Users.blank⟩⟩⟩
  rest := ()
  log := []

theorem keeps_files_ls : KeepsFiles oneFile (processCommand idleKernel oneFile (ascii "ls")) := by
  apply (keeps_files_iff idleKernel oneFile (ascii "ls") (by decide)).mpr
  rw [Undisturbed, if_neg (by decide), if_neg (by decide), if_pos (by decide), if_pos (by decide)]
  decide

/-- Clearing the screen clears the files. -/
theorem cls_drops_files : ¬∀ (d : Kernel Unit) (s : State Unit) (input : Str), s.mode = .shell →
    (splitCommand input).1 ∉ fileCommands → KeepsFiles s (processCommand d s input) := by
  intro h
  have hkept := h idleKernel oneFile (ascii "cls") rfl (by decide)
  rw [keeps_files_iff idleKernel oneFile (ascii "cls") (by decide), Undisturbed,
    if_pos (by decide)] at hkept
  have hfile : (oneFile.fs 1).type = .regular := rfl
  rw [hkept] at hfile
  cases hfile

/-! ## The current directory -/

/-- The path is that of the root or of a directory in the table. -/
def NamesDirectory (fs : Entries) (path : Str) : Prop :=
  path.head? = some slash ∧ (stripSlashes path = rootPath ∨
    ∃ i, findPath fs path = some i ∧ (fs i).type = .directory)

instance (fs : Entries) (path : Str) : Decidable (NamesDirectory fs path) :=
  inferInstanceAs (Decidable (_ ∧ (_ ∨ _)))

/-- What `Filesystem::ls` returns, a count of entries. -/
def lsResult (fs : Entries) (path : Str) (bufSize : UInt32) : Option ℤ :=
  (ls fs path bufSize).map fun r => (r.1 : ℤ)

/-- `ls` fails exactly for a path that names no directory. -/
def LsTells (fs : Entries) (path : Str) (bufSize : UInt32) : Prop :=
  lsResult fs path bufSize = some (-1) ↔ ¬NamesDirectory fs path

/-- `cd` stays where it is or enters a directory. -/
def CdSound (s : State κ) (arg : Str) : Prop :=
  ∃ t, cdCommand s arg = some t ∧
    (t.cwd = s.cwd ∨ t.cwd = rootPath ∨ NamesDirectory s.fs t.cwd)

theorem lsResult_ne (fs : Entries) (path : Str) (bufSize : UInt32) :
    lsResult fs path bufSize ≠ some (-1) := by
  intro h
  obtain ⟨r, -, hr⟩ := Option.map_eq_some_iff.mp h
  omega

theorem lsTells_iff (fs : Entries) (path : Str) (bufSize : UInt32) :
    LsTells fs path bufSize ↔ NamesDirectory fs path := by
  unfold LsTells
  rw [iff_false_left (lsResult_ne fs path bufSize), not_not]

theorem cdCommand_eq (hpath : buildPath s.cwd arg = some path) : cdCommand s arg =
    some { s with cwd := if arg = [] ∨ arg = rootPath then rootPath else path } := by
  unfold cdCommand
  split
  · rfl
  · have hls := (ls_ne_none s.fs 16).mpr (buildPath_length hpath)
    obtain ⟨out, hout⟩ := Option.ne_none_iff_exists'.mp hls
    simp [hpath, hout]

/-- `cd` and `ls` do what they should exactly for the paths of directories; nothing tells the
others apart. -/
theorem cd_enters_iff (s : State κ) (arg path : Str)
    (hpath : buildPath s.cwd arg = some path) :
    (CdSound s arg ↔ arg = [] ∨ arg = rootPath ∨ path = s.cwd ∨ path = rootPath ∨
      NamesDirectory s.fs path) ∧
    ∀ p bufSize, LsTells s.fs p bufSize ↔ NamesDirectory s.fs p := by
  refine ⟨?_, fun p bufSize => lsTells_iff s.fs p bufSize⟩
  unfold CdSound
  rw [cdCommand_eq hpath]
  simp only [Option.some.injEq, exists_eq_left']
  by_cases hroot : arg = [] ∨ arg = rootPath
  · rw [if_pos hroot]
    exact iff_of_true (.inr (.inl rfl)) (hroot.imp id .inl)
  · rw [if_neg hroot]
    rw [not_or] at hroot
    rw [or_iff_right hroot.1, or_iff_right hroot.2]

theorem cd_enters_root : CdSound oneFile (ascii "/") :=
  (cd_enters_iff oneFile (ascii "/") rootPath (by decide)).1.mpr (by decide)

/-- `cd b` where there is no `b`. -/
theorem cd_enters_missing : ¬∀ (s : State Unit) (arg path : Str), buildPath s.cwd arg = some path →
    CdSound s arg ∧ ∀ p bufSize, LsTells s.fs p bufSize := by
  intro h
  obtain ⟨hsound, -⟩ := h oneFile (ascii "b") (ascii "/b") (by decide)
  rw [(cd_enters_iff oneFile (ascii "b") (ascii "/b") (by decide)).1] at hsound
  revert hsound
  decide +kernel

end QuillOS.Shell
