import QuillOS.Shell.Files

/-!
# Copies without a bound

`safe_strcpy` and `safe_strcat` do not look at the size of the buffer they fill. Here are the copies
that a line leads to, each with the number of characters it leaves in its buffer, in the order in
which `shell.cpp` makes them.
-/

namespace QuillOS.Shell

open Lib
open Filesystem (Str rootPath slash maxPathLen)

variable {κ : Type}

/-- The buffers that strings are copied to; `path` is the local variable of a command. -/
inductive Buffer
  | pendingUsername
  | pendingPassword
  | cwd
  | path
  | editFilename
  deriving DecidableEq, Repr

def Buffer.size : Buffer → ℕ
  | .pendingUsername => 32
  | .pendingPassword => 64
  | .cwd | .path => maxPathLen
  | .editFilename => 64

/-- A copy, by its destination and the length of the string it leaves there. -/
structure Copy where
  dst : Buffer
  length : ℕ
  deriving DecidableEq, Repr

/-- The string and its terminator stay in the buffer. -/
def Copy.Fits (c : Copy) : Prop := c.length < c.dst.size

instance (c : Copy) : Decidable c.Fits := inferInstanceAs (Decidable (_ < _))

def safeStrcpy (dst : Buffer) (src : Str) : Copy := ⟨dst, src.length⟩

/-- `safe_strcat` to a buffer that holds `old`. -/
def safeStrcat (dst : Buffer) (old src : Str) : Copy := ⟨dst, old.length + src.length⟩

/-- The string `build_path` builds. -/
def fullPath (cwd name : Str) : Str :=
  if name.head? = some slash then name
  else cwd ++ (if cwd = rootPath then [] else [slash]) ++ name

/-! ## Commands -/

def buildPathCopies (cwd name : Str) : List Copy :=
  if name.head? = some slash then [safeStrcpy .path name]
  else if cwd = rootPath then [safeStrcpy .path cwd, safeStrcat .path cwd name]
  else [safeStrcpy .path cwd, safeStrcat .path cwd [slash], safeStrcat .path (cwd ++ [slash]) name]

/-- `mkdir`, `touch`, `cat`, `rm`, `copyf` and `cut` build the path of their argument. -/
def argCopies (s : State κ) (arg : Str) : List Copy :=
  if arg = [] then [] else buildPathCopies s.cwd arg

/-- The count of `ls` is never negative, so that the path is always copied. -/
def cdCopies (s : State κ) (arg : Str) : List Copy :=
  if arg = [] ∨ arg = rootPath then [safeStrcpy .cwd rootPath]
  else buildPathCopies s.cwd arg ++ [safeStrcpy .cwd (fullPath s.cwd arg)]

def lsCopies (s : State κ) (arg : Str) : List Copy :=
  if arg = [] then [safeStrcpy .path s.cwd] else buildPathCopies s.cwd arg

/-- The two words of the argument of `write`, each in a buffer of its own. -/
def splitWrite (arg : Str) : Str × Str :=
  let filename := (arg.takeWhile (· ≠ 32)).take 63
  (filename, ((arg.drop filename.length).dropWhile (· = 32)).take 127)

def writeCopies (s : State κ) (arg : Str) : List Copy :=
  let (filename, content) := splitWrite arg
  if filename = [] ∨ content = [] then [] else buildPathCopies s.cwd filename

def nanoCopies (s : State κ) (arg : Str) : List Copy :=
  if arg = [] then []
  else buildPathCopies s.cwd arg ++ [safeStrcpy .editFilename (fullPath s.cwd arg)]

def pastefCopies (s : State κ) (arg : Str) : List Copy :=
  if arg = [] ∨ s.clipboard = [] then [] else buildPathCopies s.cwd arg

/-- The commands that do nothing else with their argument than build its path. -/
def argCommands : List Str :=
  [ascii "mkdir", ascii "touch", ascii "cat", ascii "rm", ascii "copyf", ascii "cut"]

def commandCopies (s : State κ) (cmd arg : Str) : List Copy :=
  if cmd = ascii "cd" then cdCopies s arg
  else if cmd = ascii "ls" then lsCopies s arg
  else if cmd = ascii "write" then writeCopies s arg
  else if cmd = ascii "nano" then nanoCopies s arg
  else if cmd = ascii "pastef" then pastefCopies s arg
  else if cmd ∈ argCommands then argCopies s arg
  else []

/-- The copies of `handle_line`. -/
def lineCopies (s : State κ) (line : Str) : List Copy :=
  match s.mode with
  | .signupUser | .loginUser => if line = [] then [] else [safeStrcpy .pendingUsername line]
  | .signupPass => if line.length < 3 then [] else [safeStrcpy .pendingPassword line]
  | .shell => commandCopies s (splitCommand line).1 (splitCommand line).2
  | _ => []

/-! ## Room -/

/-- The length of the path of a name. -/
def pathLength (cwd name : Str) : ℕ :=
  if name.head? = some slash then name.length
  else if cwd = rootPath then name.length + 1
  else cwd.length + 1 + name.length

/-- The name a command has a path built of, if it comes to that. -/
def pathName (s : State κ) (cmd arg : Str) : Option Str :=
  if cmd = ascii "cd" then if arg = [] ∨ arg = rootPath then none else some arg
  else if cmd = ascii "write" then
    if (splitWrite arg).1 = [] ∨ (splitWrite arg).2 = [] then none else some (splitWrite arg).1
  else if cmd = ascii "pastef" then if arg = [] ∨ s.clipboard = [] then none else some arg
  else if cmd = ascii "nano" ∨ cmd = ascii "ls" ∨ cmd ∈ argCommands then
    if arg = [] then none else some arg
  else none

/-- What a line must keep to: a name or a password the size of its buffer, and a command a path of
at most 127 characters, or 63 for the editor. -/
def LineRoom (s : State κ) (line : Str) : Prop :=
  match s.mode with
  | .signupUser | .loginUser => line.length ≤ 31
  | .signupPass => line.length ≤ 63
  | .shell =>
    let (cmd, arg) := splitCommand line
    ∀ name ∈ pathName s cmd arg,
      pathLength s.cwd name ≤ if cmd = ascii "nano" then 63 else 127
  | _ => True

variable {d : Kernel κ} {s t : State κ} {cwd name arg line : Str}

/-! ## The copies and the room for them -/

theorem buildPath_eq (cwd name : Str) :
    buildPath cwd name = Filesystem.fits maxPathLen (fullPath cwd name) := rfl

theorem fullPath_length (cwd name : Str) : (fullPath cwd name).length = pathLength cwd name := by
  unfold fullPath pathLength
  split
  · rfl
  split
  · next hroot =>
    rw [hroot, List.append_nil, List.length_append]
    exact Nat.add_comm 1 _
  · simp only [List.length_append, List.length_singleton]

theorem safeStrcpy_fits {dst : Buffer} {src : Str} :
    (safeStrcpy dst src).Fits ↔ src.length < dst.size := Iff.rfl

theorem safeStrcat_fits {dst : Buffer} {old src : Str} :
    (safeStrcat dst old src).Fits ↔ old.length + src.length < dst.size := Iff.rfl

/-- The last copy is the longest. -/
theorem buildPathCopies_fit :
    (∀ c ∈ buildPathCopies cwd name, c.Fits) ↔ pathLength cwd name ≤ 127 := by
  have hpath : Buffer.path.size = 128 := rfl
  unfold buildPathCopies pathLength
  split
  · rw [List.forall_mem_singleton, safeStrcpy_fits, hpath]
    omega
  split
  · next hroot =>
    have hlen : cwd.length = 1 := by rw [hroot]; rfl
    rw [List.forall_mem_cons, List.forall_mem_singleton, safeStrcpy_fits, safeStrcat_fits, hpath]
    omega
  · rw [List.forall_mem_cons, List.forall_mem_cons, List.forall_mem_singleton, safeStrcpy_fits,
      safeStrcat_fits, safeStrcat_fits, hpath, List.length_append, List.length_singleton]
    omega

theorem buildPathCopies_append_fit {dst : Buffer} {bound : ℕ} (cwd name : Str)
    (hdst : dst.size = bound + 1) (hbound : bound ≤ 127) :
    (∀ c ∈ buildPathCopies cwd name ++ [safeStrcpy dst (fullPath cwd name)], c.Fits) ↔
      pathLength cwd name ≤ bound := by
  rw [List.forall_mem_append, List.forall_mem_singleton, buildPathCopies_fit, safeStrcpy_fits,
    fullPath_length, hdst]
  omega

/-- The copies of a command that builds a path unless `p` holds. -/
theorem ite_copies_fit {p : Prop} [Decidable p] {copies : List Copy} {bound : ℕ} (cwd name : Str)
    (h : (∀ c ∈ copies, c.Fits) ↔ pathLength cwd name ≤ bound) :
    (∀ c ∈ (if p then [] else copies), c.Fits) ↔
      ∀ n ∈ (if p then none else some name), pathLength cwd n ≤ bound := by
  split
  · simp
  · simpa using h

theorem cdCopies_fit : (∀ c ∈ cdCopies s arg, c.Fits) ↔
    ∀ n ∈ (if arg = [] ∨ arg = rootPath then none else some arg), pathLength s.cwd n ≤ 127 := by
  unfold cdCopies
  split
  · have hroot : (safeStrcpy .cwd rootPath).Fits := by decide
    simpa using hroot
  · rw [buildPathCopies_append_fit s.cwd arg rfl le_rfl]
    simp

theorem lsCopies_fit (hcwd : s.cwd.length < maxPathLen) : (∀ c ∈ lsCopies s arg, c.Fits) ↔
    ∀ n ∈ (if arg = [] then none else some arg), pathLength s.cwd n ≤ 127 := by
  unfold lsCopies
  split
  · have hfits : (safeStrcpy .path s.cwd).Fits := hcwd
    simpa using hfits
  · rw [buildPathCopies_fit]
    simp

/-- The copies of a command fit exactly if the path it builds has room. -/
theorem commandCopies_fit (hcwd : s.cwd.length < maxPathLen) (cmd arg : Str) :
    (∀ c ∈ commandCopies s cmd arg, c.Fits) ↔
      ∀ n ∈ pathName s cmd arg, pathLength s.cwd n ≤ if cmd = ascii "nano" then 63 else 127 := by
  unfold commandCopies pathName
  by_cases hcd : cmd = ascii "cd"
  · subst hcd
    exact cdCopies_fit
  rw [if_neg hcd, if_neg hcd]
  by_cases hls : cmd = ascii "ls"
  · subst hls
    exact lsCopies_fit hcwd
  rw [if_neg hls]
  by_cases hwrite : cmd = ascii "write"
  · subst hwrite
    exact ite_copies_fit s.cwd _ buildPathCopies_fit
  rw [if_neg hwrite, if_neg hwrite]
  by_cases hpastef : cmd = ascii "pastef"
  · subst hpastef
    exact ite_copies_fit s.cwd arg buildPathCopies_fit
  rw [if_neg hpastef]
  by_cases hnano : cmd = ascii "nano"
  · subst hnano
    exact ite_copies_fit s.cwd arg (buildPathCopies_append_fit s.cwd arg rfl (by decide))
  rw [if_neg hnano, if_neg hpastef, if_neg hnano]
  by_cases harg : cmd ∈ argCommands
  · rw [if_pos harg, if_pos (.inr (.inr harg))]
    exact ite_copies_fit s.cwd arg buildPathCopies_fit
  · rw [if_neg harg, if_neg (by simp [hnano, hls, harg])]
    simp

theorem ite_singleton_fit {p : Prop} [Decidable p] {c : Copy} {len bound : ℕ}
    (hfits : c.Fits ↔ len ≤ bound) (hp : p → len ≤ bound) :
    (∀ c' ∈ (if p then [] else [c]), c'.Fits) ↔ len ≤ bound := by
  split
  · simp [hp ‹_›]
  · simpa using hfits

theorem lineCopies_fit (hcwd : s.cwd.length < maxPathLen) (line : Str) :
    (∀ c ∈ lineCopies s line, c.Fits) ↔ LineRoom s line := by
  unfold lineCopies LineRoom
  cases s.mode with
  | signupUser =>
    exact ite_singleton_fit (Nat.lt_succ_iff) (by rintro rfl; exact Nat.zero_le _)
  | loginUser =>
    exact ite_singleton_fit (Nat.lt_succ_iff) (by rintro rfl; exact Nat.zero_le _)
  | signupPass => exact ite_singleton_fit (Nat.lt_succ_iff) (by omega)
  | shell => exact commandCopies_fit hcwd _ _
  | _ => simp

/-! ## What the shell carries out -/

theorem room_of_buildPath {path : Str} {size : ℕ} (hpath : buildPath cwd name = some path)
    (hlen : path.length < size + 1) : pathLength cwd name ≤ size := by
  rw [buildPath_eq] at hpath
  obtain ⟨-, rfl⟩ := Filesystem.fits_eq_some.mp hpath
  rw [fullPath_length] at hlen
  exact Nat.le_of_lt_succ hlen

/-- A command that went on after it built a path had room for it. -/
theorem room_of_bind {p : Prop} [Decidable p] {r : Option (State κ)} {f : Str → Option (State κ)}
    (h : (if p then r else (buildPath cwd name).bind f) = some t) :
    ∀ n ∈ (if p then none else some name), pathLength cwd n ≤ 127 := by
  split at h
  · next hp => simp [hp]
  · next hp =>
    obtain ⟨path, hpath, -⟩ := Option.bind_eq_some_iff.mp h
    simpa [hp] using room_of_buildPath hpath (buildPath_length hpath)

theorem lsCommand_room (h : lsCommand s arg = some t) :
    ∀ n ∈ (if arg = [] then none else some arg), pathLength s.cwd n ≤ 127 := by
  unfold lsCommand at h
  obtain ⟨path, hpath, -⟩ := Option.bind_eq_some_iff.mp h
  split at hpath
  · next harg => simp [harg]
  · next harg => simpa [harg] using room_of_buildPath hpath (buildPath_length hpath)

theorem nanoCommand_room (h : nanoCommand s arg = some t) :
    ∀ n ∈ (if arg = [] then none else some arg), pathLength s.cwd n ≤ 63 := by
  unfold nanoCommand at h
  split at h
  · next harg => simp [harg]
  · next harg =>
    obtain ⟨path, hpath, h⟩ := Option.bind_eq_some_iff.mp h
    obtain ⟨filename, hname, -⟩ := Option.bind_eq_some_iff.mp h
    have hlen := (Filesystem.fits_eq_some.mp hname).1
    simpa [harg] using room_of_buildPath hpath hlen

theorem pastefCommand_room (h : pastefCommand s arg = some t) :
    ∀ n ∈ (if arg = [] ∨ s.clipboard = [] then none else some arg),
      pathLength s.cwd n ≤ 127 := by
  unfold pastefCommand at h
  split at h
  · next hnone => simp [hnone]
  · next hsome =>
    have hroom := room_of_bind h
    rw [if_neg (not_or.mp hsome).1] at hroom
    rwa [if_neg hsome]

theorem processCommand_room (h : processCommand d s line = some t) :
    ∀ n ∈ pathName s (splitCommand line).1 (splitCommand line).2, pathLength s.cwd n ≤
      if (splitCommand line).1 = ascii "nano" then 63 else 127 := by
  unfold processCommand at h
  generalize splitCommand line = parts at h ⊢
  obtain ⟨cmd, arg⟩ := parts
  dsimp only at h ⊢
  unfold pathName
  by_cases hcd : cmd = ascii "cd"
  · subst hcd
    exact room_of_bind h
  rw [if_neg hcd]
  by_cases hwrite : cmd = ascii "write"
  · subst hwrite
    exact room_of_bind h
  rw [if_neg hwrite]
  by_cases hpastef : cmd = ascii "pastef"
  · subst hpastef
    exact pastefCommand_room h
  rw [if_neg hpastef]
  by_cases hnano : cmd = ascii "nano"
  · subst hnano
    exact nanoCommand_room h
  by_cases hls : cmd = ascii "ls"
  · subst hls
    exact lsCommand_room h
  by_cases harg : cmd ∈ argCommands
  · simp only [argCommands, List.mem_cons, List.not_mem_nil, or_false] at harg
    rcases harg with rfl | rfl | rfl | rfl | rfl | rfl
    all_goals exact room_of_bind h
  · rw [if_neg (by simp [hnano, hls, harg])]
    simp

/-- A line that is handled to its end had room. -/
theorem handleLine_room (h : handleLine d s line = some t) : LineRoom s line := by
  unfold LineRoom
  cases handleLine_cases h with
  | noUsername hm hline | noLogin hm hline =>
    rw [hm, hline]
    exact Nat.zero_le _
  | username hm hlen | login hm hlen | password hm hlen =>
    rw [hm]
    exact Nat.le_of_lt_succ hlen
  | shortPassword hm hline =>
    rw [hm]
    exact hline.le.trans (by decide)
  | mismatch hm | notCreated hm | created hm | noUsecase hm | usecase hm | onboarded hm
  | refused hm | verified hm | edit hm =>
    rw [hm]
    trivial
  | command hm h =>
    rw [hm]
    -- The logged command changes neither the directory nor the clipboard.
    have hroom := processCommand_room h
    exact hroom

/-- A copy that does not fit is where a line ends that is not handled to its end. -/
theorem handled_copies_fit (hcwd : s.cwd.length < maxPathLen) (h : handleLine d s line = some t) :
    ∀ c ∈ lineCopies s line, c.Fits :=
  (lineCopies_fit hcwd line).mpr (handleLine_room h)

/-! ## The current directory -/

theorem shellInit_cwd (s : State κ) : (shellInit s).cwd = s.cwd := by
  unfold shellInit
  dsimp only
  split <;> rfl

/-- `cd` alone moves the current directory, to a path that was built. -/
theorem processCommand_cwd (h : processCommand d s line = some t) :
    t.cwd = s.cwd ∨ t.cwd.length < maxPathLen := by
  rcases processCommand_cases h with hworked | ⟨filename, buf, -, rfl⟩ | rfl | rfl
  · exact hworked.cwd.imp_right And.left
  · exact .inl rfl
  · exact .inl (shellInit_cwd s)
  · exact .inl rfl

theorem handleLine_cwd (h : handleLine d s line = some t) :
    t.cwd = s.cwd ∨ t.cwd.length < maxPathLen := by
  cases handleLine_cases h with
  | command hm h =>
    have hcwd := processCommand_cwd h
    exact hcwd
  | _ => exact .inl rfl

theorem editUpdate_cwd {c : UInt8} (h : editUpdate s c = some t) : t.cwd = s.cwd := by
  have hsave : ∀ {u : State κ}, saveEdit s = some u → u.cwd = s.cwd := by
    intro u hu
    obtain ⟨⟨fs, ok⟩, -, rfl⟩ := Option.map_eq_some_iff.mp hu
    rfl
  unfold editUpdate at h
  split_ifs at h
  · obtain ⟨u, hu, rfl⟩ := Option.map_eq_some_iff.mp h
    have hcwd := hsave hu
    exact hcwd
  · exact hsave h
  all_goals
    obtain rfl := Option.some.inj h
    rfl

theorem key_cwd {c : UInt8} (hcwd : s.cwd.length < maxPathLen) (h : KeyStep d s c t) :
    t.cwd.length < maxPathLen := by
  unfold KeyStep shellUpdate at h
  split_ifs at h
  · rwa [editUpdate_cwd h]
  · obtain rfl := Option.some.inj h
    exact hcwd
  · rcases handleLine_cwd h with hsame | hlen
    · rwa [hsame]
    · exact hlen
  all_goals
    obtain rfl := Option.some.inj h
    exact hcwd

/-! ## Runs -/

theorem cwd_of_run {s₀ : State κ} {keys : List UInt8} (hcwd : s₀.cwd = rootPath)
    (hrun : Run (KeyStep d) (shellInit s₀) keys s) : s.cwd.length < maxPathLen := by
  apply hrun.invariant (fun s => s.cwd.length < maxPathLen) _ fun a c b ha hab => key_cwd ha hab
  rw [shellInit_cwd, hcwd]
  decide

/-- The line buffer holds no more than 255 printable characters. -/
def Typable (line : Str) : Prop := line.length < shellBufferSize ∧ ∀ c ∈ line, 32 ≤ c ∧ c < 127

instance (line : Str) : Decidable (Typable line) := inferInstanceAs (Decidable (_ ∧ _))

/-- Wherever keys have brought the shell since it was started in the root directory, the copies a
line leads to stay in their buffers exactly if the line keeps to the room they have. -/
theorem copies_fit_iff (d : Kernel κ) (s₀ s : State κ) (keys : List UInt8)
    (hcwd : s₀.cwd = rootPath) (hrun : Run (KeyStep d) (shellInit s₀) keys s) (line : Str) :
    (∀ c ∈ lineCopies s line, c.Fits) ↔ LineRoom s line :=
  lineCopies_fit (cwd_of_run hcwd hrun) line

/-- An account is created, and a directory entered. -/
def firstDirectory : List UInt8 := ascii "amy\npass\npass\n1\nn\nmkdir docs\ncd docs\n"

@[irreducible] def inDirectory : State Unit :=
  (exec (shellUpdate bareKernel) (shellInit freshShell) firstDirectory).get (by decide +kernel)

theorem copies_fit_iff_inDirectory :
    Run (KeyStep bareKernel) (shellInit freshShell) firstDirectory inDirectory ∧
      inDirectory.cwd = ascii "/docs" ∧
      ((∀ c ∈ lineCopies inDirectory (ascii "touch a"), c.Fits) ↔
        LineRoom inDirectory (ascii "touch a")) := by
  have hrun : Run (KeyStep bareKernel) (shellInit freshShell) firstDirectory inDirectory := by
    unfold inDirectory
    exact run_get _
  exact ⟨hrun, by decide +kernel, copies_fit_iff bareKernel freshShell _ _ rfl hrun _⟩

/-- The first user of all may type a name of 32 characters, which leaves no room for the
terminator. -/
theorem long_username_overruns : ¬∀ (keys : List UInt8) (s : State Unit) (line : Str),
    Run (KeyStep bareKernel) (shellInit freshShell) keys s → Typable line →
      ∀ c ∈ lineCopies s line, c.Fits := by
  intro h
  have hfits := h [] _ (List.replicate 32 97) (Run.nil _) (by decide +kernel)
  revert hfits
  decide +kernel

end QuillOS.Shell
