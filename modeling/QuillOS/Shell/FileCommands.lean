import QuillOS.Utils.Decimal
import QuillOS.Filesystem.Listing
import QuillOS.Filesystem.Log
import QuillOS.Shell.Copies
import QuillOS.Shell.Editor

/-!
# What the file commands print

The commands that work on files, the current directory and the clipboard with their output, the log
of the filesystem included, and the lines that are typed for them. The branch of `cd` for a negative
count is left out, as a count of entries is never negative. What the editor prints for its keys is
left out as well.
-/

namespace QuillOS.Shell

open Lib
open Utils (numeralOf)
open Filesystem (Str slash rootPath maxPathLen maxFileData Canonical CanonicalPath pathString
  Entries LogLine Logged map_fst_bind map_fst_bind_logged)

variable {κ : Type}

/-! ## Output -/

/-- What `fs_log` and `fs_log2` print. -/
def lineText : LogLine → Str
  | .path op path => ascii "\n[FS] " ++ ascii op ++ ascii ": " ++ path
  | .message op msg => ascii "\n[FS] " ++ ascii op ++ ascii ": " ++ ascii msg
  | .detail op key val =>
    ascii "\n[FS]   " ++ ascii op ++ ascii " " ++ ascii key ++ ascii "='" ++ val ++ ascii "'"

def logText (log : List LogLine) : Str := log.flatMap lineText

/-- A usage line without an argument, else a file operation on its path and the outcome. -/
def pathOutput (s : State κ) (arg : Str) (usage done failed : String)
    (op : Entries → Str → Option (Logged (Entries × Bool))) : Option (State κ × Str) :=
  if arg = [] then some (s, ascii usage)
  else do
    let path ← buildPath s.cwd arg
    let ((fs, ok), log) ← op s.fs path
    return ({ s with fs := fs }, logText log ++ (ascii (if ok then done else failed) ++ arg))

def mkdirOutput (s : State κ) (arg : Str) : Option (State κ × Str) :=
  pathOutput s arg "\nUsage: mkdir <name>" "\nCreated directory: " "\nFailed to create directory: "
    Filesystem.mkdirLogged

def touchOutput (s : State κ) (arg : Str) : Option (State κ × Str) :=
  pathOutput s arg "\nUsage: touch <name>" "\nCreated file: " "\nFailed to create file: "
    Filesystem.touchLogged

def rmOutput (s : State κ) (arg : Str) : Option (State κ × Str) :=
  pathOutput s arg "\nUsage: rm <name>" "\nRemoved: " "\nFailed to remove: " Filesystem.rmLogged

def writeOutput (s : State κ) (arg : Str) : Option (State κ × Str) :=
  let (filename, content) := splitWrite arg
  if filename = [] ∨ content = [] then some (s, ascii "\nUsage: write <name> <content>")
  else
    pathOutput s filename "\nUsage: write <name> <content>" "\nWrote to: " "\nFailed to write: "
      fun fs path => Filesystem.writeFileLogged fs path content

/-- `cd` prints what `ls` logs. -/
def cdOutput (s : State κ) (arg : Str) : Option (State κ × Str) :=
  if arg = [] ∨ arg = rootPath then some ({ s with cwd := rootPath }, [])
  else do
    let path ← buildPath s.cwd arg
    let (_, log) ← Filesystem.lsLogged s.fs path 16
    return ({ s with cwd := path }, logText log)

def lsOutput (s : State κ) (arg : Str) : Option (State κ × Str) := do
  let path ← (if arg = [] then some s.cwd else buildPath s.cwd arg)
  let ((count, listing), log) ← Filesystem.lsLogged s.fs path 1024
  let listing ← listing
  return (s, logText log ++ if count = 0 then ascii "\n(empty)" else ascii "\n" ++ listing)

/-- `readText` with its log. -/
def readTextLogged (s : State κ) (path : Str) : Option (Logged (Option Str)) :=
  (Filesystem.readFileLogged s.fs path (UInt32.ofNat maxFileData)).map fun (contents, log) =>
    (contents.map (List.takeWhile (· ≠ 0)), log)

/-- A command that reads the file its argument names, with what it does and prints for the text. -/
def readOutput (s : State κ) (arg : Str) (usage failed : String)
    (found : Str → Str → Option (State κ × Str)) : Option (State κ × Str) :=
  if arg = [] then some (s, ascii usage)
  else do
    let path ← buildPath s.cwd arg
    let (contents, log) ← readTextLogged s path
    match contents with
    | none => return (s, logText log ++ (ascii failed ++ arg))
    | some text => (found path text).map fun (s, out) => (s, logText log ++ out)

def catOutput (s : State κ) (arg : Str) : Option (State κ × Str) :=
  readOutput s arg "\nUsage: cat <name>" "\nCannot read: " fun _ text =>
    some (s, ascii "\n" ++ if text = [] then ascii "(empty file)" else text)

/-- `Clipboard::size`, as `itoa` writes it. -/
def State.clipSize (s : State κ) : Str := numeralOf s.clipboard.length

def copyOutput (s : State κ) (arg : Str) : State κ × Str :=
  if arg = [] then (s, ascii "\nUsage: copy <text>")
  else
    let s := s.copy arg
    (s, ascii "\nCopied " ++ s.clipSize ++ ascii " bytes to clipboard")

def copyfOutput (s : State κ) (arg : Str) : Option (State κ × Str) :=
  readOutput s arg "\nUsage: copyf <file>" "\nCannot read: " fun _ text =>
    let s := s.copy text
    some (s, ascii "\nCopied " ++ s.clipSize ++ ascii " bytes from " ++ arg)

def pasteText (s : State κ) : Str :=
  if s.clipboard = [] then ascii "\n(clipboard empty)" else ascii "\n" ++ s.clip

def pastefOutput (s : State κ) (arg : Str) : Option (State κ × Str) :=
  if arg = [] then some (s, ascii "\nUsage: pastef <file>")
  else if s.clipboard = [] then some (s, ascii "\nClipboard is empty")
  else do
    let path ← buildPath s.cwd arg
    let ((fs, ok), log) ← Filesystem.writeFileLogged s.fs path s.clip
    return ({ s with fs := fs }, logText log ++
      if ok then ascii "\nWrote " ++ s.clipSize ++ ascii " bytes to " ++ arg
      else ascii "\nCannot write: " ++ arg)

/-- The result of `rm` is not looked at. -/
def cutOutput (s : State κ) (arg : Str) : Option (State κ × Str) :=
  readOutput s arg "\nUsage: cut <file>" "\nCannot cut: " fun path text => do
    let s := s.copy text
    let ((fs, _), log) ← Filesystem.rmLogged s.fs path
    return ({ s with fs := fs }, logText log ++ (ascii "\nCut " ++ s.clipSize ++
      ascii " bytes from " ++ arg ++ ascii " (file removed)"))

def nanoOutput (s : State κ) (arg : Str) : Option (State κ × Str) :=
  if arg = [] then some (s, ascii "\nUsage: nano <filename>")
  else do
    let path ← buildPath s.cwd arg
    let filename ← Filesystem.fits 64 path
    let (contents, log) ← readTextLogged s path
    let text := (contents.getD []).take 1023
    return ({ s with editFilename := filename, editBuf := text, mode := .edit },
      logText log ++ (ascii "\n--- nano: " ++ arg ++ ascii " ---" ++
        ascii "\n[Ctrl+X = save & exit | Ctrl+S = save | Ctrl+Q = quit | Backspace]" ++
        ascii "\n" ++ text))

def printed (r : State κ × Str) : State κ × Option Str := (r.1, some r.2)

/-- `process_command`, with what it prints for a command on files, the current directory or the
clipboard. -/
def commandOutput (d : Kernel κ) (s : State κ) (input : Str) : Option (State κ × Option Str) :=
  let (cmd, arg) := splitCommand input
  if cmd = ascii "pwd" then
    some (printed ({ s with rest := d.command s.rest cmd arg }, ascii "\n" ++ s.cwd))
  else if cmd = ascii "cd" then (cdOutput s arg).map printed
  else if cmd = ascii "ls" then (lsOutput s arg).map printed
  else if cmd = ascii "mkdir" then (mkdirOutput s arg).map printed
  else if cmd = ascii "touch" then (touchOutput s arg).map printed
  else if cmd = ascii "cat" then (catOutput s arg).map printed
  else if cmd = ascii "write" then (writeOutput s arg).map printed
  else if cmd = ascii "rm" then (rmOutput s arg).map printed
  else if cmd = ascii "nano" then (nanoOutput s arg).map printed
  else if cmd = ascii "copy" then some (printed (copyOutput s arg))
  else if cmd = ascii "copyf" then (copyfOutput s arg).map printed
  else if cmd = ascii "paste" then
    some (printed ({ s with rest := d.command s.rest cmd arg }, pasteText s))
  else if cmd = ascii "pastef" then (pastefOutput s arg).map printed
  else if cmd = ascii "cut" then (cutOutput s arg).map printed
  else (processCommand d s input).map fun s => (s, none)

/-! ## The output goes with what is done -/

section States

variable (d : Kernel κ) (s : State κ) (arg : Str)

theorem map_fst_printed (r : Option (State κ × Str)) :
    (r.map printed).map Prod.fst = r.map Prod.fst := by
  cases r <;> rfl

theorem pathOutput_state (usage done failed : String)
    {logged : Entries → Str → Option (Logged (Entries × Bool))}
    {op : Entries → Str → Option (Entries × Bool)}
    (hop : ∀ fs path, (logged fs path).map Prod.fst = op fs path) :
    (pathOutput s arg usage done failed logged).map Prod.fst = onPath s arg op := by
  unfold pathOutput onPath
  split
  · rfl
  · exact map_fst_bind fun path => map_fst_bind_logged (hop s.fs path) fun _ _ => rfl

theorem writeOutput_state : (writeOutput s arg).map Prod.fst = writeCommand s arg := by
  have hcommand : writeCommand s arg =
      if (splitWrite arg).1 = [] ∨ (splitWrite arg).2 = [] then some s
      else (buildPath s.cwd (splitWrite arg).1).bind fun path =>
        (Filesystem.writeFile s.fs path (splitWrite arg).2).bind fun r =>
          some { s with fs := r.1 } := rfl
  rw [hcommand]
  unfold writeOutput
  obtain ⟨filename, content⟩ := splitWrite arg
  dsimp only
  split
  · rfl
  · rename_i hne
    rw [pathOutput_state s _ _ _ _ fun fs path => Filesystem.writeFileLogged_result fs path content]
    unfold onPath
    rw [if_neg (not_or.mp hne).1]
    rfl

theorem cdOutput_state : (cdOutput s arg).map Prod.fst = cdCommand s arg := by
  unfold cdOutput cdCommand
  split
  · rfl
  · exact map_fst_bind fun path =>
      map_fst_bind_logged (Filesystem.lsLogged_result s.fs path 16) fun _ _ => rfl

theorem lsOutput_state : (lsOutput s arg).map Prod.fst = lsCommand s arg := by
  refine map_fst_bind fun path => ?_
  have hls := Filesystem.lsLogged_result s.fs path 1024
  have hbuf : (1 : UInt32) ≤ 1024 := by decide
  cases hnorm : Filesystem.normalizePath path with
  | none =>
    have hnone : Filesystem.ls s.fs path 1024 = none := by rw [Filesystem.ls, hnorm]; rfl
    rw [hnone] at hls ⊢
    rw [Option.map_eq_none_iff.mp hls]
    rfl
  | some norm =>
    -- The listing stays in its buffer.
    rw [Filesystem.ls_of_normalize hbuf hnorm] at hls ⊢
    obtain ⟨⟨r, log⟩, hcall, rfl⟩ := Option.map_eq_some_iff.mp hls
    rw [hcall]
    rfl

theorem readTextLogged_result (path : Str) :
    (readTextLogged s path).map Prod.fst = readText s path := by
  unfold readTextLogged readText
  rw [← Filesystem.readFileLogged_result, Option.map_map, Option.map_map]
  rfl

/-- What a command that reads a file does, whatever it prints. -/
theorem readOutput_state (usage failed : String) {found : Str → Str → Option (State κ × Str)}
    {op : Str → Str → Option (State κ)}
    (hop : ∀ path text, (found path text).map Prod.fst = op path text) :
    (readOutput s arg usage failed found).map Prod.fst =
      if arg = [] then some s
      else (buildPath s.cwd arg).bind fun path => (readText s path).bind fun contents =>
        contents.elim (some s) (op path) := by
  unfold readOutput
  split
  · rfl
  refine map_fst_bind fun path =>
    map_fst_bind_logged (readTextLogged_result s path) fun contents log => ?_
  cases contents with
  | none => rfl
  | some text =>
    rw [Option.elim_some, ← hop, Option.map_map]
    rfl

theorem catOutput_state : (catOutput s arg).map Prod.fst = catCommand s arg := by
  rw [catOutput, readOutput_state s arg _ _ fun path text => rfl, catCommand]
  split
  · rfl
  · refine congrArg _ (funext fun path => congrArg _ (funext fun contents => ?_))
    cases contents <;> rfl

theorem copyfOutput_state : (copyfOutput s arg).map Prod.fst = copyfCommand s arg := by
  rw [copyfOutput, readOutput_state s arg _ _ fun path text => rfl, copyfCommand]
  split
  · rfl
  · refine congrArg _ (funext fun path => ?_)
    rw [copyFile, Option.bind_eq_bind, Option.bind_map]
    refine congrArg _ (funext fun contents => ?_)
    cases contents <;> rfl

theorem cutOutput_state : (cutOutput s arg).map Prod.fst = cutCommand s arg := by
  have hrm : ∀ (path text : Str), ((do
      let s := s.copy text
      let ((fs, _), log) ← Filesystem.rmLogged s.fs path
      return ({ s with fs := fs }, logText log ++ (ascii "\nCut " ++ s.clipSize ++
        ascii " bytes from " ++ arg ++ ascii " (file removed)")) :
          Option (State κ × Str))).map Prod.fst =
      (Filesystem.rm s.fs path).bind fun r => some { s.copy text with fs := r.1 } :=
    fun path text => map_fst_bind_logged (Filesystem.rmLogged_result s.fs path) fun _ _ => rfl
  rw [cutOutput, readOutput_state s arg _ _ hrm, cutCommand]
  split
  · rfl
  · refine congrArg _ (funext fun path => ?_)
    rw [copyFile, Option.bind_eq_bind, Option.bind_map]
    refine congrArg _ (funext fun contents => ?_)
    cases contents <;> rfl

theorem pastefOutput_state : (pastefOutput s arg).map Prod.fst = pastefCommand s arg := by
  unfold pastefOutput pastefCommand onPath
  by_cases harg : arg = []
  · rw [if_pos harg, if_pos (.inl harg)]
    rfl
  by_cases hclip : s.clipboard = []
  · rw [if_neg harg, if_pos hclip, if_pos (.inr hclip)]
    rfl
  · rw [if_neg harg, if_neg hclip, if_neg (not_or.mpr ⟨harg, hclip⟩), if_neg harg]
    exact map_fst_bind fun path =>
      map_fst_bind_logged (Filesystem.writeFileLogged_result s.fs path s.clip) fun _ _ => rfl

theorem nanoOutput_state : (nanoOutput s arg).map Prod.fst = nanoCommand s arg := by
  unfold nanoOutput nanoCommand
  split
  · rfl
  · exact map_fst_bind fun path => map_fst_bind fun filename =>
      map_fst_bind_logged (readTextLogged_result s path) fun _ _ => rfl

theorem copyOutput_state : (copyOutput s arg).1 = copyCommand s arg := by
  unfold copyOutput copyCommand
  split <;> rfl

/-- `commandOutput` is `process_command` with its output beside it. -/
theorem commandOutput_state (input : Str) :
    (commandOutput d s input).map Prod.fst = processCommand d s input := by
  unfold commandOutput processCommand
  obtain ⟨cmd, arg⟩ := splitCommand input
  dsimp only
  by_cases hpwd : cmd = ascii "pwd"
  · subst hpwd
    rfl
  by_cases hcd : cmd = ascii "cd"
  · subst hcd
    exact (map_fst_printed _).trans (cdOutput_state s arg)
  by_cases hls : cmd = ascii "ls"
  · subst hls
    exact (map_fst_printed _).trans (lsOutput_state s arg)
  by_cases hmkdir : cmd = ascii "mkdir"
  · subst hmkdir
    exact (map_fst_printed _).trans (pathOutput_state s arg _ _ _ Filesystem.mkdirLogged_result)
  by_cases htouch : cmd = ascii "touch"
  · subst htouch
    exact (map_fst_printed _).trans (pathOutput_state s arg _ _ _ Filesystem.touchLogged_result)
  by_cases hcat : cmd = ascii "cat"
  · subst hcat
    exact (map_fst_printed _).trans (catOutput_state s arg)
  by_cases hwrite : cmd = ascii "write"
  · subst hwrite
    exact (map_fst_printed _).trans (writeOutput_state s arg)
  by_cases hrm : cmd = ascii "rm"
  · subst hrm
    exact (map_fst_printed _).trans (pathOutput_state s arg _ _ _ Filesystem.rmLogged_result)
  by_cases hnano : cmd = ascii "nano"
  · subst hnano
    exact (map_fst_printed _).trans (nanoOutput_state s arg)
  by_cases hcopy : cmd = ascii "copy"
  · subst hcopy
    exact congrArg some (copyOutput_state s arg)
  by_cases hcopyf : cmd = ascii "copyf"
  · subst hcopyf
    exact (map_fst_printed _).trans (copyfOutput_state s arg)
  by_cases hpaste : cmd = ascii "paste"
  · subst hpaste
    rfl
  by_cases hpastef : cmd = ascii "pastef"
  · subst hpastef
    exact (map_fst_printed _).trans (pastefOutput_state s arg)
  by_cases hcut : cmd = ascii "cut"
  · subst hcut
    exact (map_fst_printed _).trans (cutOutput_state s arg)
  rw [if_neg hpwd, if_neg hcd, if_neg hls, if_neg hmkdir, if_neg htouch, if_neg hcat,
    if_neg hwrite, if_neg hrm, if_neg hnano, if_neg hcopy, if_neg hcopyf, if_neg hpaste,
    if_neg hpastef, if_neg hcut, Option.map_map]
  exact Option.map_id'

end States

/-! ## Arguments -/

/-- A path as it is typed: from the root or from the current directory. -/
structure PathArg where
  absolute : Bool
  comps : List Str
  trailing : ℕ
  canonical : Canonical comps
  graphic : ∀ c ∈ comps, ∀ b ∈ c, 32 < b ∧ b < 127
  named : absolute = false → comps ≠ []

/-- Text of at most `cap` characters that starts with no blank. -/
structure TextArg (cap : ℕ) where
  str : Str
  length_le : str.length ≤ cap
  head_ne : str.head? ≠ some 32
  ne_nil : str ≠ []
  printable : ∀ c ∈ str, 32 ≤ c ∧ c < 127

/-- A key that works on the text in the editor. -/
def EditKey (c : UInt8) : Prop := c = 8 ∨ c = 10 ∨ 32 ≤ c ∧ c < 127

/-- A command line on files, the current directory or the clipboard. `edit` types keys into the
editor and leaves it with Ctrl-X. -/
inductive FileCommand
  | pwd
  | cd (p : Option PathArg)
  | ls (p : Option PathArg)
  | mkdir (p : PathArg)
  | touch (p : PathArg)
  | cat (p : PathArg)
  | write (p : PathArg) (text : TextArg 127)
  | rm (p : PathArg)
  | edit (p : PathArg) (keys : List {c : UInt8 // EditKey c})
  | copy (text : TextArg 191)
  | copyf (p : PathArg)
  | paste
  | pastef (p : PathArg)
  | cut (p : PathArg)

namespace PathArg

variable (p : PathArg) {cwd : List Str}

/-- The path as it stands in the line: a relative one lacks the first slash. -/
def str : Str :=
  (if p.absolute then pathString p.comps else (pathString p.comps).tail) ++
    List.replicate p.trailing slash

/-- The components of the path from the root. -/
def resolve (cwd : List Str) : List Str := if p.absolute then p.comps else cwd ++ p.comps

/-- The full path and its names have room in their buffers. -/
def Fits (cwd : List Str) : Prop :=
  (∀ c ∈ p.resolve cwd, c.length ≤ 31) ∧
    (pathString (p.resolve cwd) ++ List.replicate p.trailing slash).length ≤ 127

instance (cwd : List Str) : Decidable (p.Fits cwd) := inferInstanceAs (Decidable (_ ∧ _))

end PathArg

namespace FileCommand

/-- The word of a command and what is typed behind it. -/
def words : FileCommand → Str × Str
  | pwd => (ascii "pwd", [])
  | cd p => (ascii "cd", p.elim [] PathArg.str)
  | ls p => (ascii "ls", p.elim [] PathArg.str)
  | mkdir p => (ascii "mkdir", p.str)
  | touch p => (ascii "touch", p.str)
  | cat p => (ascii "cat", p.str)
  | write p text => (ascii "write", p.str ++ 32 :: text.str)
  | rm p => (ascii "rm", p.str)
  | edit p _ => (ascii "nano", p.str)
  | copy text => (ascii "copy", text.str)
  | copyf p => (ascii "copyf", p.str)
  | paste => (ascii "paste", [])
  | pastef p => (ascii "pastef", p.str)
  | cut p => (ascii "cut", p.str)

def line (c : FileCommand) : Str :=
  if c.words.2 = [] then c.words.1 else c.words.1 ++ 32 :: c.words.2

/-- The keys from the end of the line on. -/
def keys : FileCommand → List UInt8
  | edit _ keys => 10 :: (keys.map Subtype.val ++ [0x18])
  | _ => [10]

/-- What a command asks of the current directory: that the path it names has room. -/
def Room (cwd : List Str) : FileCommand → Prop
  | pwd | cd none | ls none | copy _ | paste => True
  | cd (some p) => p.Fits cwd ∧ p.trailing = 0
  | ls (some p) | mkdir p | touch p | cat p | rm p | copyf p | pastef p | cut p => p.Fits cwd
  | write p _ => p.Fits cwd ∧ p.str.length ≤ 63
  | edit p _ => p.Fits cwd ∧ (pathString (p.resolve cwd)).length + p.trailing ≤ 63

variable (d : Kernel κ) (s : State κ) in
/-- What a command does and prints once its line is read back as its words. -/
def output : FileCommand → Option (State κ × Str)
  | pwd => some ({ s with rest := d.command s.rest (ascii "pwd") [] }, ascii "\n" ++ s.cwd)
  | cd p => cdOutput s (p.elim [] PathArg.str)
  | ls p => lsOutput s (p.elim [] PathArg.str)
  | mkdir p => mkdirOutput s p.str
  | touch p => touchOutput s p.str
  | cat p => catOutput s p.str
  | write p text => writeOutput s (p.str ++ 32 :: text.str)
  | rm p => rmOutput s p.str
  | edit p _ => nanoOutput s p.str
  | copy text => some (copyOutput s text.str)
  | copyf p => copyfOutput s p.str
  | paste => some ({ s with rest := d.command s.rest (ascii "paste") [] }, pasteText s)
  | pastef p => pastefOutput s p.str
  | cut p => cutOutput s p.str

end FileCommand

/-- A command is typed: the state it leaves and what `process_command` prints. -/
def typeCommand (d : Kernel κ) (s : State κ) (c : FileCommand) : Option (State κ × Str) := do
  let s ← exec (shellUpdate d) s c.line
  let (_, out) ← commandOutput d ({ s with line := [] }.event (.command s.line)) s.line
  let out ← out
  let s ← exec (shellUpdate d) s c.keys
  return (s, out)

variable {d : Kernel κ} {s : State κ} {cwd : List Str} {cs word arg : Str}

/-! ## The typed line -/

/-- Printable characters go into the line while there is room. -/
theorem exec_chars (hmode : s.mode = .shell) (hcs : ∀ c ∈ cs, 32 ≤ c ∧ c < 127)
    (hlen : s.line.length + cs.length < shellBufferSize) :
    exec (shellUpdate d) s cs = some { s with line := s.line ++ cs } := by
  induction cs generalizing s with
  | nil => rw [List.append_nil, exec]
  | cons c cs ih =>
    rw [List.forall_mem_cons] at hcs
    rw [List.length_cons] at hlen
    have hne : c ≠ 0x03 ∧ c ≠ 10 ∧ c ≠ 8 := by
      refine ⟨?_, ?_, ?_⟩ <;> rintro rfl <;> exact absurd hcs.1 (by decide)
    have hkey : shellUpdate d s c = some { s with line := s.line ++ [c] } := by
      unfold shellUpdate
      rw [if_neg (by rw [hmode]; decide), if_neg hne.1, if_neg hne.2.1, if_neg hne.2.2,
        if_pos hcs.1, if_pos (by omega)]
    have hrest := ih (s := { s with line := s.line ++ [c] }) hmode hcs.2
      (by rw [List.length_append, List.length_singleton]; omega)
    rw [exec, hkey, Option.bind_some, hrest, List.append_assoc, List.singleton_append]

theorem takeWhile_word (hword : 32 ∉ word) (rest : Str) :
    (word ++ 32 :: rest).takeWhile (· ≠ 32) = word := by
  have hall : ∀ c ∈ word, decide (c ≠ 32) = true := by
    intro c hc
    refine decide_eq_true ?_
    rintro rfl
    exact hword hc
  rw [List.takeWhile_append_of_pos hall]
  simp

theorem dropWhile_blank (harg : arg.head? ≠ some 32) : arg.dropWhile (· = 32) = arg := by
  cases arg with
  | nil => rfl
  | cons c arg => exact List.dropWhile_cons_of_neg (by simpa using harg)

theorem dropWhile_blank_cons (harg : arg.head? ≠ some 32) :
    (32 :: arg).dropWhile (· = 32) = arg := by
  rw [List.dropWhile_cons, if_pos (by decide), dropWhile_blank harg]

/-- A word and an argument behind one blank are read back. -/
theorem splitCommand_words (hne : word ≠ []) (hword : 32 ∉ word) (hlen : word.length ≤ 63)
    (harg : arg.head? ≠ some 32) (hlen' : arg.length ≤ 191) :
    splitCommand (word ++ 32 :: arg) = (word, arg) := by
  have hhead : (word ++ 32 :: arg).head? ≠ some 32 := by
    cases word with
    | nil => exact absurd rfl hne
    | cons c word => simpa using fun heq : c = 32 => hword (heq ▸ List.mem_cons_self)
  unfold splitCommand
  simp only [dropWhile_blank hhead, takeWhile_word hword, List.take_of_length_le hlen,
    List.drop_left, dropWhile_blank_cons harg, List.take_of_length_le hlen']

theorem splitCommand_word (hword : 32 ∉ word) (hlen : word.length ≤ 63) :
    splitCommand word = (word, []) := by
  have hhead : word.head? ≠ some 32 := fun h => hword (List.mem_of_mem_head? h)
  have hall : word.takeWhile (· ≠ 32) = word := by
    refine List.takeWhile_eq_self_iff.mpr fun c hc => decide_eq_true ?_
    rintro rfl
    exact hword hc
  unfold splitCommand
  simp only [dropWhile_blank hhead, hall, List.take_of_length_le hlen, List.drop_length,
    List.dropWhile_nil, List.take_nil]

theorem splitWrite_words (hword : 32 ∉ word) (hlen : word.length ≤ 63)
    (harg : arg.head? ≠ some 32) (hlen' : arg.length ≤ 127) :
    splitWrite (word ++ 32 :: arg) = (word, arg) := by
  unfold splitWrite
  simp only [takeWhile_word hword, List.take_of_length_le hlen, List.drop_left,
    dropWhile_blank_cons harg, List.take_of_length_le hlen']

/-! ## Paths as they are typed -/

theorem pathString_eq_cons (q : List Str) : pathString q = slash :: (pathString q).tail :=
  (List.cons_head?_tail (Filesystem.pathString_head q)).symm

theorem pathString_append {q r : List Str} (hq : q ≠ []) (hr : r ≠ []) :
    pathString (q ++ r) = pathString q ++ pathString r := by
  unfold pathString
  rw [if_neg hq, if_neg hr, if_neg (by simp [hq]), List.flatMap_append]

namespace PathArg

variable (p : PathArg)

theorem head?_tail (hrel : p.absolute = false) : (pathString p.comps).tail.head? ≠ some slash ∧
    (pathString p.comps).tail ≠ [] := by
  obtain ⟨c, q, hcomps⟩ := List.exists_cons_of_ne_nil (p.named hrel)
  obtain ⟨hne, hfree⟩ := p.canonical c (by simp [hcomps])
  obtain ⟨b, c, rfl⟩ := List.exists_cons_of_ne_nil hne
  have htail : (pathString p.comps).tail = b :: (c ++ q.flatMap (slash :: ·)) := by
    rw [hcomps]
    rfl
  rw [htail]
  refine ⟨fun hhead => hfree ?_, List.cons_ne_nil _ _⟩
  rw [← Option.some.inj hhead]
  exact List.mem_cons_self

/-- What `build_path` makes of a typed path. -/
theorem fullPath_str (hcwd : Canonical cwd) :
    fullPath (pathString cwd) p.str =
      pathString (p.resolve cwd) ++ List.replicate p.trailing slash := by
  unfold fullPath str resolve
  by_cases habs : p.absolute = true
  · rw [if_pos habs, if_pos habs, if_pos]
    rw [List.head?_append, Filesystem.pathString_head, Option.some_or]
  · rw [if_neg habs, if_neg habs]
    obtain ⟨hhead, hne⟩ := p.head?_tail (by simpa using habs)
    have hcomps := p.named (by simpa using habs)
    rw [if_neg, ← List.append_assoc]
    · congr 1
      by_cases hroot : cwd = []
      · rw [hroot, show pathString [] = rootPath from rfl, if_pos rfl, List.append_nil,
          List.nil_append, pathString_eq_cons p.comps]
        rfl
      · rw [if_neg (Filesystem.pathString_ne_rootPath hcwd hroot), pathString_append hroot hcomps,
          List.append_assoc, List.singleton_append, ← pathString_eq_cons]
    · rw [List.head?_append]
      obtain ⟨b, rest, heq⟩ := List.exists_cons_of_ne_nil hne
      rw [heq] at hhead ⊢
      simpa using hhead

theorem str_ne_nil : p.str ≠ [] := by
  unfold str
  by_cases habs : p.absolute = true
  · rw [if_pos habs]
    simp [Filesystem.pathString_ne_nil]
  · rw [if_neg habs]
    simp [(p.head?_tail (by simpa using habs)).2]

theorem absolute_of_comps_nil (hcomps : p.comps = []) : p.absolute = true := by
  by_contra hrel
  exact p.named (Bool.eq_false_iff.mpr hrel) hcomps

theorem resolve_of_comps_nil (hcomps : p.comps = []) : p.resolve cwd = [] := by
  unfold resolve
  rw [if_pos (p.absolute_of_comps_nil hcomps), hcomps]

theorem str_of_comps_nil (hcomps : p.comps = []) (htrailing : p.trailing = 0) :
    p.str = rootPath := by
  unfold str
  rw [if_pos (p.absolute_of_comps_nil hcomps), hcomps, htrailing]
  rfl

theorem str_ne_rootPath (hcomps : p.comps ≠ []) : p.str ≠ rootPath := by
  intro hroot
  have hnil : Canonical [] := nofun
  have hfull := p.fullPath_str hnil
  have hresolve : p.resolve [] = p.comps := by
    unfold resolve
    split <;> rfl
  rw [hroot, hresolve, show fullPath (pathString []) rootPath = rootPath from rfl] at hfull
  rcases List.append_eq_singleton_iff.mp hfull.symm with ⟨hnil, -⟩ | ⟨hpath, -⟩
  · exact Filesystem.pathString_ne_nil _ hnil
  · exact Filesystem.pathString_ne_rootPath p.canonical hcomps hpath

theorem str_graphic : ∀ b ∈ p.str, 32 < b ∧ b < 127 := by
  have hpath : ∀ b ∈ pathString p.comps, 32 < b ∧ b < 127 := by
    intro b hb
    unfold pathString at hb
    split at hb
    · obtain rfl := List.mem_singleton.mp hb
      decide
    · obtain ⟨c, hc, hb⟩ := List.mem_flatMap.mp hb
      rcases List.mem_cons.mp hb with rfl | hb
      · decide
      · exact p.graphic c hc b hb
  intro b hb
  unfold str at hb
  rcases List.mem_append.mp hb with hb | hb
  · split at hb
    · exact hpath b hb
    · exact hpath b (List.mem_of_mem_tail hb)
  · obtain rfl := List.eq_of_mem_replicate hb
    decide

theorem str_printable : ∀ b ∈ p.str, 32 ≤ b ∧ b < 127 := by
  intro b hb
  obtain ⟨hlo, hhi⟩ := p.str_graphic b hb
  exact ⟨UInt8.le_of_lt hlo, hhi⟩

theorem blank_notMem_str : 32 ∉ p.str := fun h => absurd (p.str_graphic 32 h).1 (by decide)

theorem str_head?_ne : p.str.head? ≠ some 32 := fun h =>
  p.blank_notMem_str (List.mem_of_mem_head? h)

variable {p}

/-- The path a typed path stands for. -/
def Fits.path (h : p.Fits cwd) (hcwd : Canonical cwd) : CanonicalPath where
  comps := p.resolve cwd
  trailing := p.trailing
  canonical := by
    unfold resolve
    split
    · exact p.canonical
    · exact List.forall_mem_append.mpr ⟨hcwd, p.canonical⟩
  comps_fit := h.1
  fits := h.2

theorem Fits.path_comps (h : p.Fits cwd) (hcwd : Canonical cwd) :
    (h.path hcwd).comps = p.resolve cwd := rfl

theorem Fits.buildPath (h : p.Fits cwd) (hcwd : Canonical cwd) :
    buildPath (pathString cwd) p.str = some (h.path hcwd).toStr := by
  rw [buildPath_eq, p.fullPath_str hcwd]
  exact Filesystem.fits_of_lt (Nat.lt_succ_of_le h.2)

theorem Fits.length_str (h : p.Fits cwd) (hcwd : Canonical cwd) : p.str.length ≤ 127 := by
  have hlen := congrArg List.length (p.fullPath_str hcwd)
  have hfit := h.2
  rw [← hlen, fullPath_length] at hfit
  unfold pathLength at hfit
  split at hfit
  · exact hfit
  · split at hfit <;> omega

end PathArg

/-! ## The line of a command -/

namespace FileCommand

variable {c : FileCommand}

theorem word_spec (c : FileCommand) : c.words.1 ≠ [] ∧ 32 ∉ c.words.1 ∧ c.words.1.length ≤ 6 ∧
    ∀ b ∈ c.words.1, 32 ≤ b ∧ b < 127 := by
  cases c <;> dsimp only [words] <;> decide +kernel

/-- What is typed behind the word of a command. -/
structure IsArg (arg : Str) : Prop where
  head_ne : arg.head? ≠ some 32
  length_le : arg.length ≤ 191
  printable : ∀ b ∈ arg, 32 ≤ b ∧ b < 127

theorem isArg_nil : IsArg [] := ⟨nofun, by decide, nofun⟩

theorem isArg_text (text : TextArg 191) : IsArg text.str :=
  ⟨text.head_ne, text.length_le, text.printable⟩

theorem isArg_str {p : PathArg} (h : p.Fits cwd) (hcwd : Canonical cwd) : IsArg p.str :=
  ⟨p.str_head?_ne, (h.length_str hcwd).trans (by decide),
    p.str_printable⟩

theorem isArg_write {p : PathArg} {text : TextArg 127} (hlen : p.str.length ≤ 63) :
    IsArg (p.str ++ 32 :: text.str) := by
  refine ⟨?_, ?_, ?_⟩
  · rw [List.head?_append, List.head?_eq_some_head p.str_ne_nil, Option.some_or]
    intro h
    exact p.blank_notMem_str (Option.some.inj h ▸ List.head_mem _)
  · have htext := text.length_le
    rw [List.length_append, List.length_cons]
    omega
  · intro b hb
    rcases List.mem_append.mp hb with hb | hb
    · exact p.str_printable b hb
    · rcases List.mem_cons.mp hb with rfl | hb
      · decide
      · exact text.printable b hb

theorem Room.isArg (h : c.Room cwd) (hcwd : Canonical cwd) : IsArg c.words.2 := by
  cases c with
  | pwd | paste => exact isArg_nil
  | copy text => exact isArg_text text
  | cd p =>
    cases p with
    | none => exact isArg_nil
    | some p => exact isArg_str h.1 hcwd
  | ls p =>
    cases p with
    | none => exact isArg_nil
    | some p => exact isArg_str h hcwd
  | write p text => exact isArg_write h.2
  | edit p keys => exact isArg_str h.1 hcwd
  | mkdir p | touch p | cat p | rm p | copyf p | pastef p | cut p => exact isArg_str h hcwd

/-- The line is read back as its words. -/
theorem Room.splitCommand (h : c.Room cwd) (hcwd : Canonical cwd) :
    splitCommand c.line = c.words := by
  obtain ⟨hne, hblank, hlen, -⟩ := c.word_spec
  have harg := h.isArg hcwd
  unfold line
  split
  · next hnil =>
    rw [splitCommand_word hblank (hlen.trans (by decide))]
    exact Prod.ext rfl hnil.symm
  · exact splitCommand_words hne hblank (hlen.trans (by decide)) harg.head_ne harg.length_le

theorem Room.commandOutput (h : c.Room cwd) (hcwd : Canonical cwd) :
    commandOutput d s c.line = (c.output d s).map printed := by
  unfold Shell.commandOutput
  rw [h.splitCommand hcwd]
  cases c <;> rfl

theorem Room.typable (h : c.Room cwd) (hcwd : Canonical cwd) : Typable c.line := by
  obtain ⟨-, -, hlen, hword⟩ := c.word_spec
  have harg := h.isArg hcwd
  have hlen' := harg.length_le
  unfold line
  split
  · exact ⟨hlen.trans_lt (by decide), hword⟩
  · refine ⟨?_, List.forall_mem_append.mpr ⟨hword,
      List.forall_mem_cons.mpr ⟨by decide, harg.printable⟩⟩⟩
    rw [List.length_append, List.length_cons, shellBufferSize]
    omega

end FileCommand

/-- The end of the line gives it to `process_command`. -/
theorem exec_enter (hmode : s.mode = .shell) (line : Str) (ks : List UInt8) :
    exec (shellUpdate d) { s with line := line } (10 :: ks) =
      (processCommand d { s.event (.command line) with line := [] } line).bind fun t =>
        exec (shellUpdate d) t ks := by
  rw [exec]
  congr 1
  unfold shellUpdate
  rw [if_neg (show ¬(s.mode = .edit) by rw [hmode]; decide), if_neg (by decide), if_pos rfl]
  have hcase : ∀ t : State κ, t.mode = .shell →
      handleLine d t line = processCommand d (t.event (.command line)) line := by
    intro t ht
    unfold handleLine
    rw [ht]
  exact hcase { s with line := [] } hmode

/-- A command typed at an empty line is what `process_command` prints for it, and what the other
keys make of the state it leaves. -/
theorem typeCommand_eq {c : FileCommand} {ks : List UInt8} {t : State κ} {out : Str}
    (hmode : s.mode = .shell) (hline : s.line = []) (hroom : c.Room cwd) (hcwd : Canonical cwd)
    (hkeys : c.keys = 10 :: ks)
    (hout : commandOutput d { s.event (.command c.line) with line := [] } c.line =
      some (t, some out)) :
    typeCommand d s c = (exec (shellUpdate d) t ks).map fun s => (s, out) := by
  obtain ⟨hlen, hchars⟩ := hroom.typable hcwd
  have hrun := commandOutput_state d { s.event (.command c.line) with line := [] } c.line
  rw [hout, Option.map_some] at hrun
  have hcall : commandOutput d ({ s with line := [] }.event (.command c.line)) c.line =
      some (t, some out) := hout
  unfold typeCommand
  rw [exec_chars hmode hchars (by rw [hline, List.length_nil, Nat.zero_add]; exact hlen), hline,
    List.nil_append, hkeys]
  simp only [Option.bind_eq_bind, Option.bind_some, hcall, exec_enter hmode, ← hrun,
    Option.map_eq_bind]
  rfl

end QuillOS.Shell
