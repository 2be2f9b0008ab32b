import QuillOS.Shell.FileCommands

/-!
# The command line as a tree

To whoever types, the command line is a directory tree with a current directory and a clipboard:
every sequence of file commands leaves the shell in a state of that tree and prints what is to be
read off it, the log of the filesystem included, as long as the paths have room in the buffers.
-/

namespace QuillOS.Shell

open Lib
open Utils (numeralOf)
open Filesystem (Str slash rootPath maxFileData maxNodes Canonical CanonicalPath pathString FsTree
  Represents lineOf Entries LogLine Logged GivenPath mkdirLog touchLog writeLog readLog lsLog rmLog)

variable {κ : Type}

/-! ## The session of a tree -/

/-- A typed path as the filesystem is given it. -/
def PathArg.given (p : PathArg) (cwd : List Str) : GivenPath :=
  ⟨pathString (p.resolve cwd) ++ List.replicate p.trailing slash, p.resolve cwd⟩

structure TreeSession where
  cwd : List Str
  tree : FsTree
  clip : Str

/-- The text the keys make of a text in the editor. -/
def edited (text : Str) (keys : List {c : UInt8 // EditKey c}) : Str :=
  (keys.map Subtype.val).foldl Editor.typed text

namespace TreeSession

/-- What a command does. `cd` enters any path, as nothing tells whether there is such a
directory. -/
noncomputable def exec (t : TreeSession) : FileCommand → TreeSession
  | .pwd | .ls _ | .cat _ | .paste => t
  | .cd p => { t with cwd := p.elim [] fun p => p.resolve t.cwd }
  | .mkdir p => { t with tree := (t.tree.mkdir maxNodes (p.resolve t.cwd)).1 }
  | .touch p => { t with tree := (t.tree.touch maxNodes (p.resolve t.cwd) []).1 }
  | .write p text => { t with tree := (t.tree.write maxNodes (p.resolve t.cwd) text.str).1 }
  | .rm p => { t with tree := (t.tree.remove (p.resolve t.cwd)).1 }
  | .edit p keys =>
    let text := (t.tree.read (p.resolve t.cwd)).getD []
    { t with tree := (t.tree.write maxNodes (p.resolve t.cwd) (edited text keys)).1 }
  | .copy text => { t with clip := text.str }
  | .copyf p => { t with clip := (t.tree.read (p.resolve t.cwd)).getD t.clip }
  | .pastef p =>
    if t.clip = [] then t
    else { t with tree := (t.tree.write maxNodes (p.resolve t.cwd) t.clip).1 }
  | .cut p =>
    match t.tree.read (p.resolve t.cwd) with
    | none => t
    | some text => { t with tree := (t.tree.remove (p.resolve t.cwd)).1, clip := text }

/-- The outcome of an operation on a path, behind its log. -/
def outcome (log : List LogLine) (ok : Bool) (done failed : String) (p : PathArg) : Str :=
  logText log ++ (ascii (if ok then done else failed) ++ p.str)

/-- What is printed for the file at a path, if there is one, behind the log of reading it. -/
def contents (t : TreeSession) (p : PathArg) (failed : String) (found : Str → Str) : Str :=
  logText (readLog t.tree (p.given t.cwd)) ++
    match t.tree.read (p.resolve t.cwd) with
    | none => ascii failed ++ p.str
    | some text => found text

/-- A listing of a directory, in some order and cut off behind 1023 characters. -/
def Lists (t : FsTree) (q : List Str) (out : Str) : Prop :=
  ∃ names : List Str, names.Nodup ∧ (∀ c, c ∈ names ↔ c ∈ t.children q) ∧
    out = if names = [] then ascii "\n(empty)"
      else ascii "\n" ++ (names.flatMap (lineOf t q)).take 1023

/-- The directory `ls` is asked for, the current one without an argument. -/
def listed (t : TreeSession) (p : Option PathArg) : GivenPath :=
  p.elim ⟨pathString t.cwd, t.cwd⟩ fun p => p.given t.cwd

/-- What a command prints, with the log of the calls it makes. -/
def Prints (t : TreeSession) : FileCommand → Str → Prop
  | .pwd, out => out = ascii "\n" ++ pathString t.cwd
  | .cd none, out => out = []
  | .cd (some p), out => out =
      if p.comps = [] then [] else logText (lsLog t.tree (p.given t.cwd))
  | .ls p, out => ∃ listing, Lists t.tree (t.listed p).comps listing ∧
      out = logText (lsLog t.tree (t.listed p)) ++ listing
  | .mkdir p, out => out = outcome (mkdirLog t.tree (p.given t.cwd))
      (t.tree.mkdir maxNodes (p.resolve t.cwd)).2
      "\nCreated directory: " "\nFailed to create directory: " p
  | .touch p, out => out = outcome (touchLog t.tree (p.given t.cwd))
      (t.tree.touch maxNodes (p.resolve t.cwd) []).2
      "\nCreated file: " "\nFailed to create file: " p
  | .cat p, out => out = t.contents p "\nCannot read: " fun text =>
      ascii "\n" ++ if text = [] then ascii "(empty file)" else text
  | .write p text, out => out = outcome (writeLog t.tree (p.given t.cwd))
      (t.tree.write maxNodes (p.resolve t.cwd) text.str).2 "\nWrote to: " "\nFailed to write: " p
  | .rm p, out => out = outcome (rmLog t.tree (p.given t.cwd)) (t.tree.remove (p.resolve t.cwd)).2
      "\nRemoved: " "\nFailed to remove: " p
  | .edit p _, out => out = logText (readLog t.tree (p.given t.cwd)) ++
      (ascii "\n--- nano: " ++ p.str ++ ascii " ---" ++
        ascii "\n[Ctrl+X = save & exit | Ctrl+S = save | Ctrl+Q = quit | Backspace]" ++
        ascii "\n" ++ (t.tree.read (p.resolve t.cwd)).getD [])
  | .copy text, out => out =
      ascii "\nCopied " ++ numeralOf text.str.length ++ ascii " bytes to clipboard"
  | .copyf p, out => out = t.contents p "\nCannot read: " fun text =>
      ascii "\nCopied " ++ numeralOf text.length ++ ascii " bytes from " ++ p.str
  | .paste, out => out =
      if t.clip = [] then ascii "\n(clipboard empty)" else ascii "\n" ++ t.clip
  | .pastef p, out => out =
      if t.clip = [] then ascii "\nClipboard is empty"
      else logText (writeLog t.tree (p.given t.cwd)) ++
        if (t.tree.write maxNodes (p.resolve t.cwd) t.clip).2 then
          ascii "\nWrote " ++ numeralOf t.clip.length ++ ascii " bytes to " ++ p.str
        else ascii "\nCannot write: " ++ p.str
  | .cut p, out => out = t.contents p "\nCannot cut: " fun text =>
      logText (rmLog t.tree (p.given t.cwd)) ++ (ascii "\nCut " ++ numeralOf text.length ++
        ascii " bytes from " ++ p.str ++ ascii " (file removed)")

end TreeSession

/-- A text that fits a file: no terminator, and room for one. -/
def IsText (text : Str) : Prop := text.length ≤ 1023 ∧ 0 ∉ text

/-- The shell waits for a command in the session `t`. -/
structure AtPrompt (s : State κ) (t : TreeSession) : Prop where
  mode : s.mode = .shell
  line : s.line = []
  cwd : s.cwd = pathString t.cwd
  canonical : Canonical t.cwd
  cwd_fit : ∀ c ∈ t.cwd, c.length ≤ 31
  cwd_length : (pathString t.cwd).length ≤ 127
  fs : Represents s.fs t.tree
  files : t.tree.Files IsText
  clipboard : s.clipboard = t.clip
  clip : IsText t.clip

/-- What happens when a command's line is processed and its other keys are typed. -/
def Runs (d : Kernel κ) (s : State κ) (t : TreeSession) (c : FileCommand) (ks : List UInt8) :
    Prop :=
  ∃ out s₁ s', commandOutput d s c.line = some (s₁, some out) ∧
    exec (shellUpdate d) s₁ ks = some s' ∧ t.Prints c out ∧ AtPrompt s' (t.exec c)

variable {d : Kernel κ} {s s' : State κ} {t : TreeSession} {p : PathArg} {text : Str}

/-! ## Texts -/

theorem IsText.takeWhile (h : IsText text) : text.takeWhile (· ≠ 0) = text := by
  refine List.takeWhile_eq_self_iff.mpr fun c hc => decide_eq_true ?_
  rintro rfl
  exact h.2 hc

theorem IsText.take (h : IsText text) : text.take 1023 = text := List.take_of_length_le h.1

theorem isText_nil : IsText [] := ⟨by decide, List.not_mem_nil⟩

theorem isText_arg {cap : ℕ} (text : TextArg cap) (hcap : cap ≤ 1023) : IsText text.str :=
  ⟨text.length_le.trans hcap, fun h => absurd (text.printable 0 h).1 (by decide)⟩

theorem isText_typed (h : IsText text) {c : UInt8} (hc : EditKey c) :
    IsText (Editor.typed text c) := by
  have hne : c ≠ 0 := by
    rintro rfl
    revert hc
    unfold EditKey
    decide
  unfold Editor.typed
  split_ifs with hback hkey hroom
  · exact ⟨(List.length_dropLast ▸ Nat.sub_le _ _).trans h.1,
      fun hmem => h.2 (List.mem_of_mem_dropLast hmem)⟩
  · refine ⟨?_, ?_⟩
    · rw [List.length_append, List.length_singleton]
      omega
    · rw [List.mem_append, List.mem_singleton, not_or]
      exact ⟨h.2, hne.symm⟩
  · exact h
  · exact h

theorem isText_edited (h : IsText text) (keys : List {c : UInt8 // EditKey c}) :
    IsText (edited text keys) := by
  unfold edited
  induction keys generalizing text with
  | nil => exact h
  | cons c keys ih => exact ih (isText_typed h c.2)

/-! ## The editor -/

theorem shellUpdate_edit (hmode : s.mode = .edit) {c : UInt8} (hc : EditKey c) :
    shellUpdate d s c = some { s with editBuf := Editor.typed s.editBuf c } := by
  have hne : ∀ b : UInt8, ¬EditKey b → c ≠ b := by
    rintro b hb rfl
    exact hb hc
  have hx := hne 0x18 (by unfold EditKey; decide)
  have hs := hne 0x13 (by unfold EditKey; decide)
  have hq := hne 0x11 (by unfold EditKey; decide)
  have habort := hne 0x03 (by unfold EditKey; decide)
  unfold shellUpdate
  rw [if_pos hmode, Editor.editUpdate_eq, if_neg (Editor.not_saves hx hs)]
  unfold Editor.modeAfter
  rw [if_neg (not_or.mpr ⟨hx, not_or.mpr ⟨hq, habort⟩⟩)]

/-- The keys make a text of the one in the buffer, and Ctrl-X writes it. -/
theorem exec_edit (hmode : s.mode = .edit) (keys : List {c : UInt8 // EditKey c}) :
    exec (shellUpdate d) s (keys.map Subtype.val ++ [0x18]) =
      (Filesystem.writeFile s.fs s.editFilename (edited s.editBuf keys)).map fun r =>
        { { s with editBuf := edited s.editBuf keys, fs := r.1 }.event .wrote with
          mode := .shell } := by
  induction keys generalizing s with
  | nil =>
    rw [List.map_nil, List.nil_append, exec]
    unfold shellUpdate
    rw [if_pos hmode]
    unfold editUpdate
    rw [if_pos rfl, saveEdit, Option.map_map]
    cases hwrite : Filesystem.writeFile s.fs s.editFilename s.editBuf <;>
      simp [exec, edited, hwrite]
  | cons c keys ih =>
    rw [List.map_cons, List.cons_append, exec, shellUpdate_edit hmode c.2, Option.bind_some,
      ih (s := { s with editBuf := Editor.typed s.editBuf c.1 }) hmode]
    rfl

namespace AtPrompt

/-! ## What a command may change -/

theorem of_fields (h : AtPrompt s t) (hmode : s'.mode = .shell) (hline : s'.line = [])
    (hcwd : s'.cwd = s.cwd) (hfs : s'.fs = s.fs) (hclip : s'.clipboard = s.clipboard) :
    AtPrompt s' t where
  mode := hmode
  line := hline
  cwd := hcwd.trans h.cwd
  canonical := h.canonical
  cwd_fit := h.cwd_fit
  cwd_length := h.cwd_length
  fs := hfs ▸ h.fs
  files := h.files
  clipboard := hclip.trans h.clipboard
  clip := h.clip

theorem setTree (h : AtPrompt s t) {fs : Filesystem.Entries} {tree : FsTree}
    (hfs : Represents fs tree) (hfiles : tree.Files IsText) :
    AtPrompt { s with fs := fs } { t with tree := tree } :=
  ⟨h.mode, h.line, h.cwd, h.canonical, h.cwd_fit, h.cwd_length, hfs, hfiles, h.clipboard, h.clip⟩

theorem setClip (h : AtPrompt s t) (htext : IsText text) :
    AtPrompt (s.copy text) { t with clip := text } where
  mode := h.mode
  line := h.line
  cwd := h.cwd
  canonical := h.canonical
  cwd_fit := h.cwd_fit
  cwd_length := h.cwd_length
  fs := h.fs
  files := h.files
  clipboard := List.take_of_length_le (htext.1.trans (by decide))
  clip := htext

theorem setCwd (h : AtPrompt s t) {q : CanonicalPath} :
    AtPrompt { s with cwd := pathString q.comps } { t with cwd := q.comps } :=
  ⟨h.mode, h.line, rfl, q.canonical, q.comps_fit, Nat.le_of_lt_succ q.pathString_lt, h.fs, h.files,
    h.clipboard, h.clip⟩

/-! ## What a command looks at -/

theorem clip_eq (h : AtPrompt s t) : s.clip = t.clip := by
  unfold State.clip
  rw [h.clipboard, h.clip.takeWhile]

theorem clipSize_copy (htext : IsText text) : (s.copy text).clipSize = numeralOf text.length := by
  unfold State.clipSize State.copy
  rw [List.take_of_length_le (htext.1.trans (by decide))]

theorem buildPath (h : AtPrompt s t) (hfit : p.Fits t.cwd) :
    buildPath s.cwd p.str = some (hfit.path h.canonical).toStr := by
  rw [h.cwd]
  exact hfit.buildPath h.canonical

theorem readText (h : AtPrompt s t) (q : CanonicalPath) :
    readTextLogged s q.toStr = some (t.tree.read q.comps, readLog t.tree q.given) := by
  unfold readTextLogged
  rw [Filesystem.readFileLogged_refines h.fs q (by decide), Option.map_some]
  dsimp only
  cases hread : t.tree.read q.comps with
  | none => rfl
  | some text =>
    have htext := h.files.read hread
    change some (some ((text.take 1023).takeWhile (· ≠ 0)), _) = _
    rw [htext.take, htext.takeWhile]

/-- A text is written whole. -/
theorem writeFile_refines (h : AtPrompt s t) (q : CanonicalPath) (htext : IsText text) :
    ∃ fs, Filesystem.writeFileLogged s.fs q.toStr text =
        some ((fs, (t.tree.write maxNodes q.comps text).2), writeLog t.tree q.given) ∧
      Represents fs (t.tree.write maxNodes q.comps text).1 := by
  have hwrite := Filesystem.writeFileLogged_refines h.fs q text
  rwa [show maxFileData - 1 = 1023 from rfl, htext.take] at hwrite

/-! ## Commands that call one operation -/

variable {c : FileCommand} {out : Str} {log : List LogLine} {r : FsTree × Bool}

/-- A command that is done when its line is processed. -/
theorem runs_of_output (h : AtPrompt s t) (hroom : c.Room t.cwd)
    (hout : c.output d s = some (s', out)) (hprints : t.Prints c out)
    (hat : AtPrompt s' (t.exec c)) : Runs d s t c [] := by
  refine ⟨out, s', s', ?_, rfl, hprints, hat⟩
  rw [hroom.commandOutput h.canonical, hout]
  rfl

theorem pathOutput (h : AtPrompt s t) (hfit : p.Fits t.cwd)
    {f : Entries → Str → Option (Logged (Entries × Bool))}
    (hf : ∃ fs, f s.fs (hfit.path h.canonical).toStr = some ((fs, r.2), log) ∧ Represents fs r.1)
    (hfiles : r.1.Files IsText) (usage done failed : String) :
    ∃ s', Shell.pathOutput s p.str usage done failed f =
        some (s', TreeSession.outcome log r.2 done failed p) ∧
      AtPrompt s' { t with tree := r.1 } := by
  obtain ⟨fs, hfs, hrep⟩ := hf
  refine ⟨{ s with fs := fs }, ?_, h.setTree hrep hfiles⟩
  unfold Shell.pathOutput TreeSession.outcome
  rw [if_neg p.str_ne_nil, h.buildPath hfit]
  simp only [Option.bind_eq_bind, Option.bind_some, hfs]
  rfl

theorem runs_of_op (h : AtPrompt s t) (hfit : p.Fits t.cwd) (hroom : c.Room t.cwd)
    {f : Entries → Str → Option (Logged (Entries × Bool))} {usage done failed : String}
    (hout : c.output d s = Shell.pathOutput s p.str usage done failed f)
    (hf : ∃ fs, f s.fs (hfit.path h.canonical).toStr = some ((fs, r.2), log) ∧ Represents fs r.1)
    (hfiles : r.1.Files IsText) (hexec : t.exec c = { t with tree := r.1 })
    (hprints : t.Prints c (TreeSession.outcome log r.2 done failed p)) : Runs d s t c [] := by
  obtain ⟨s', hs', hat⟩ := h.pathOutput hfit hf hfiles usage done failed
  exact h.runs_of_output hroom (hout.trans hs') hprints (hexec ▸ hat)

theorem runs_mkdir (h : AtPrompt s t) (hfit : p.Fits t.cwd) : Runs d s t (.mkdir p) [] :=
  h.runs_of_op (c := .mkdir p) hfit hfit rfl (Filesystem.mkdirLogged_refines h.fs _)
    (h.files.mkdir _) rfl rfl

theorem runs_touch (h : AtPrompt s t) (hfit : p.Fits t.cwd) : Runs d s t (.touch p) [] :=
  h.runs_of_op (c := .touch p) hfit hfit rfl (Filesystem.touchLogged_refines h.fs _)
    (h.files.touch _ isText_nil) rfl rfl

theorem runs_rm (h : AtPrompt s t) (hfit : p.Fits t.cwd) : Runs d s t (.rm p) [] :=
  h.runs_of_op (c := .rm p) hfit hfit rfl (Filesystem.rmLogged_refines h.fs _) (h.files.remove _)
    rfl rfl

theorem runs_write (h : AtPrompt s t) {text : TextArg 127} (hfit : p.Fits t.cwd)
    (hlen : p.str.length ≤ 63) : Runs d s t (.write p text) [] := by
  have htext := isText_arg text (by decide)
  have hout : FileCommand.output d s (.write p text) =
      Shell.pathOutput s p.str "\nUsage: write <name> <content>" "\nWrote to: "
        "\nFailed to write: " fun fs path => Filesystem.writeFileLogged fs path text.str := by
    change writeOutput s (p.str ++ 32 :: text.str) = _
    unfold writeOutput
    rw [splitWrite_words p.blank_notMem_str hlen text.head_ne text.length_le]
    exact if_neg (not_or.mpr ⟨p.str_ne_nil, text.ne_nil⟩)
  exact h.runs_of_op (c := .write p text) hfit ⟨hfit, hlen⟩ hout (h.writeFile_refines _ htext)
    (h.files.write _ htext) rfl rfl

theorem runs_pastef (h : AtPrompt s t) (hfit : p.Fits t.cwd) : Runs d s t (.pastef p) [] := by
  have hout : FileCommand.output d s (.pastef p) = pastefOutput s p.str := rfl
  unfold pastefOutput State.clipSize at hout
  rw [if_neg p.str_ne_nil, h.clip_eq] at hout
  by_cases hempty : t.clip = []
  · rw [h.clipboard, if_pos hempty] at hout
    have hexec : t.exec (.pastef p) = t := if_pos hempty
    exact h.runs_of_output (c := .pastef p) hfit hout (if_pos hempty).symm (hexec.symm ▸ h)
  · have hclip : ¬s.clipboard = [] := h.clipboard ▸ hempty
    rw [if_neg hclip, h.buildPath hfit] at hout
    obtain ⟨fs, hfs, hrep⟩ := h.writeFile_refines (hfit.path h.canonical) h.clip
    have hexec : t.exec (.pastef p) =
      { t with tree := (t.tree.write maxNodes (p.resolve t.cwd) t.clip).1 } := if_neg hempty
    simp only [Option.bind_eq_bind, Option.bind_some, hfs] at hout
    have hprints : t.Prints (.pastef p) (logText (writeLog t.tree (p.given t.cwd)) ++
        if (t.tree.write maxNodes (p.resolve t.cwd) t.clip).2 then
          ascii "\nWrote " ++ numeralOf s.clipboard.length ++ ascii " bytes to " ++ p.str
        else ascii "\nCannot write: " ++ p.str) := by
      rw [h.clipboard]
      exact (if_neg hempty).symm
    exact h.runs_of_output (c := .pastef p) hfit hout hprints
      (hexec.symm ▸ h.setTree hrep (h.files.write _ h.clip))

/-! ## The other commands -/

theorem runs_pwd (h : AtPrompt s t) : Runs d s t .pwd [] := by
  have hprints : t.Prints .pwd (ascii "\n" ++ s.cwd) := congrArg (ascii "\n" ++ ·) h.cwd
  exact h.runs_of_output (c := .pwd) trivial rfl hprints (h.of_fields h.mode h.line rfl rfl rfl)

theorem runs_paste (h : AtPrompt s t) : Runs d s t .paste [] := by
  have hprints : t.Prints .paste (pasteText s) := by
    unfold pasteText TreeSession.Prints
    rw [h.clip_eq, h.clipboard]
  exact h.runs_of_output (c := .paste) trivial rfl hprints (h.of_fields h.mode h.line rfl rfl rfl)

theorem runs_copy (h : AtPrompt s t) {text : TextArg 191} : Runs d s t (.copy text) [] := by
  have htext := isText_arg text (by decide)
  have hprints : t.Prints (.copy text) (ascii "\nCopied " ++ (s.copy text.str).clipSize ++
      ascii " bytes to clipboard") := by
    rw [clipSize_copy htext]
    rfl
  exact h.runs_of_output (c := .copy text) trivial (congrArg some (if_neg text.ne_nil)) hprints
    (h.setClip htext)

/-- The current directory as a path. -/
def here (h : AtPrompt s t) : CanonicalPath where
  comps := t.cwd
  trailing := 0
  canonical := h.canonical
  comps_fit := h.cwd_fit
  fits := by rw [List.replicate_zero, List.append_nil]; exact h.cwd_length

theorem lsLogged (h : AtPrompt s t) (q : CanonicalPath) (bufSize : UInt32) :
    ∃ listing, Filesystem.lsLogged s.fs q.toStr bufSize = some (listing, lsLog t.tree q.given) ∧
      Filesystem.ls s.fs q.toStr bufSize = some listing := by
  obtain ⟨⟨listing, log⟩, hcall, rfl⟩ :=
    Option.map_eq_some_iff.mp (Filesystem.lsLogged_log h.fs q bufSize)
  refine ⟨listing, hcall, ?_⟩
  rw [← Filesystem.lsLogged_result, hcall]
  rfl

theorem runs_cd (h : AtPrompt s t) {p : Option PathArg} (hroom : FileCommand.Room t.cwd (.cd p)) :
    Runs d s t (.cd p) [] := by
  cases p with
  | none =>
    have hroot : (pathString []).length ≤ 127 := by decide
    exact h.runs_of_output (c := .cd none) trivial rfl rfl
      ⟨h.mode, h.line, rfl, nofun, nofun, hroot, h.fs, h.files, h.clipboard, h.clip⟩
  | some p =>
    obtain ⟨hfit, htrailing⟩ := hroom
    have hpath : (hfit.path h.canonical).toStr = pathString (p.resolve t.cwd) := by
      rw [CanonicalPath.toStr, show (hfit.path h.canonical).trailing = 0 from htrailing,
        List.replicate_zero, List.append_nil, hfit.path_comps]
    have hat : AtPrompt { s with cwd := pathString (p.resolve t.cwd) }
        { t with cwd := p.resolve t.cwd } := h.setCwd (q := hfit.path h.canonical)
    have hout : FileCommand.output d s (.cd (some p)) = cdOutput s p.str := rfl
    unfold cdOutput at hout
    by_cases hcomps : p.comps = []
    · -- The root is entered by its name.
      rw [if_pos (.inr (p.str_of_comps_nil hcomps htrailing))] at hout
      rw [p.resolve_of_comps_nil hcomps] at hat
      have hexec : t.exec (.cd (some p)) = { t with cwd := [] } :=
        congrArg (TreeSession.mk · t.tree t.clip) (p.resolve_of_comps_nil hcomps)
      exact h.runs_of_output (c := .cd (some p)) ⟨hfit, htrailing⟩ hout (if_pos hcomps).symm
        (hexec.symm ▸ hat)
    · obtain ⟨listing, hls, -⟩ := h.lsLogged (hfit.path h.canonical) 16
      rw [if_neg (not_or.mpr ⟨p.str_ne_nil, p.str_ne_rootPath hcomps⟩), h.buildPath hfit] at hout
      simp only [Option.bind_eq_bind, Option.bind_some, hls] at hout
      rw [hpath] at hout
      exact h.runs_of_output (c := .cd (some p)) ⟨hfit, htrailing⟩ hout (if_neg hcomps).symm hat

theorem runs_ls (h : AtPrompt s t) {p : Option PathArg} (hroom : FileCommand.Room t.cwd (.ls p)) :
    Runs d s t (.ls p) [] := by
  have hpath : ∃ q : CanonicalPath, t.listed p = q.given ∧
      (if p.elim [] PathArg.str = [] then some s.cwd
        else Shell.buildPath s.cwd (p.elim [] PathArg.str)) = some q.toStr := by
    cases p with
    | none =>
      have hhere : h.here.toStr = pathString t.cwd := List.append_nil _
      exact ⟨h.here, (congrArg (GivenPath.mk · t.cwd) hhere).symm, by rw [hhere, ← h.cwd]; rfl⟩
    | some p => exact ⟨hroom.path h.canonical, rfl, (if_neg p.str_ne_nil).trans (h.buildPath hroom)⟩
  obtain ⟨q, hgiven, hq⟩ := hpath
  have hbuf : (1 : UInt32) ≤ 1024 := by decide
  obtain ⟨listing, hcall, hls⟩ := h.lsLogged q 1024
  rw [Filesystem.ls_of_normalize hbuf q.normalizePath_toStr, Option.some_inj] at hls
  obtain ⟨names, hnodup, hmem, hlen, hlisting⟩ := h.fs.listing_eq q.canonical
  have hprints : t.Prints (.ls p) (logText (lsLog t.tree q.given) ++ if names = [] then
      ascii "\n(empty)" else ascii "\n" ++ (names.flatMap (lineOf t.tree q.comps)).take 1023) := by
    dsimp only [TreeSession.Prints]
    rw [hgiven]
    exact ⟨_, ⟨names, hnodup, hmem, rfl⟩, rfl⟩
  refine h.runs_of_output (c := .ls p) hroom ?_ hprints h
  change lsOutput s (p.elim [] PathArg.str) = _
  unfold lsOutput
  rw [hq]
  simp only [Option.bind_eq_bind, Option.bind_some, hcall, ← hls, ← hlen, hlisting,
    List.length_eq_zero_iff]
  rfl

/-! ## Commands that read a file -/

theorem readOutput (h : AtPrompt s t) (hfit : p.Fits t.cwd) (usage failed : String)
    (found : Str → Str → Option (State κ × Str)) :
    Shell.readOutput s p.str usage failed found =
      match t.tree.read (p.resolve t.cwd) with
      | none => some (s, logText (readLog t.tree (p.given t.cwd)) ++ (ascii failed ++ p.str))
      | some text => (found (hfit.path h.canonical).toStr text).map fun (s, out) =>
          (s, logText (readLog t.tree (p.given t.cwd)) ++ out) := by
  unfold Shell.readOutput
  rw [if_neg p.str_ne_nil, h.buildPath hfit]
  simp only [Option.bind_eq_bind, Option.bind_some, h.readText, hfit.path_comps]
  cases t.tree.read (p.resolve t.cwd) <;> rfl

/-- A command that reads a file, with what it does where there is one. -/
theorem runs_of_read (h : AtPrompt s t) (hfit : p.Fits t.cwd) (hroom : c.Room t.cwd)
    {usage failed : String} {found : Str → Str → Option (State κ × Str)} {said : Str → Str}
    (hout : c.output d s = Shell.readOutput s p.str usage failed found)
    (hprints : t.Prints c (t.contents p failed said))
    (hnone : t.tree.read (p.resolve t.cwd) = none → t.exec c = t)
    (hsome : ∀ text, t.tree.read (p.resolve t.cwd) = some text → IsText text → ∃ s',
      found (hfit.path h.canonical).toStr text = some (s', said text) ∧ AtPrompt s' (t.exec c)) :
    Runs d s t c [] := by
  rw [h.readOutput hfit] at hout
  unfold TreeSession.contents at hprints
  cases hread : t.tree.read (p.resolve t.cwd) with
  | none =>
    rw [hread] at hout hprints
    exact h.runs_of_output hroom hout hprints ((hnone hread).symm ▸ h)
  | some text =>
    obtain ⟨s', hfound, hat⟩ := hsome text hread (h.files.read hread)
    rw [hread] at hout hprints
    dsimp only at hout
    rw [hfound] at hout
    exact h.runs_of_output hroom hout hprints hat

theorem runs_cat (h : AtPrompt s t) (hfit : p.Fits t.cwd) : Runs d s t (.cat p) [] :=
  h.runs_of_read (c := .cat p) hfit hfit rfl rfl (fun _ => rfl) fun _ _ _ => ⟨s, rfl, h⟩

theorem runs_copyf (h : AtPrompt s t) (hfit : p.Fits t.cwd) : Runs d s t (.copyf p) [] := by
  have hexec : t.exec (.copyf p) =
      { t with clip := (t.tree.read (p.resolve t.cwd)).getD t.clip } := rfl
  refine h.runs_of_read (c := .copyf p) hfit hfit rfl rfl (fun hread => ?_)
    fun text hread htext => ⟨s.copy text, ?_, ?_⟩
  · rw [hexec, hread]
    rfl
  · dsimp only
    rw [clipSize_copy htext]
  · rw [hexec, hread]
    exact h.setClip htext

theorem runs_cut (h : AtPrompt s t) (hfit : p.Fits t.cwd) : Runs d s t (.cut p) [] := by
  have hexec : t.exec (.cut p) = match t.tree.read (p.resolve t.cwd) with
    | none => t
    | some text => { t with tree := (t.tree.remove (p.resolve t.cwd)).1, clip := text } := rfl
  refine h.runs_of_read (c := .cut p) hfit hfit rfl rfl (fun hread => ?_)
    fun text hread htext => ?_
  · rw [hexec, hread]
  · have hcopied := h.setClip htext
    obtain ⟨fs, hfs, hrep⟩ := Filesystem.rmLogged_refines hcopied.fs (hfit.path h.canonical)
    refine ⟨{ s.copy text with fs := fs }, ?_, ?_⟩
    · simp only [Option.bind_eq_bind, clipSize_copy htext]
      rw [hfs]
      rfl
    · rw [hexec, hread]
      exact hcopied.setTree hrep (h.files.remove _)

/-- The file is opened with its text, and what the keys make of it is written. -/
theorem runs_edit (h : AtPrompt s t) (hfit : p.Fits t.cwd)
    (hlen : (pathString (p.resolve t.cwd)).length + p.trailing ≤ 63)
    (keys : List {c : UInt8 // EditKey c}) :
    Runs d s t (.edit p keys) (keys.map Subtype.val ++ [0x18]) := by
  have hout := FileCommand.Room.commandOutput (c := .edit p keys) (d := d) (s := s) ⟨hfit, hlen⟩
    h.canonical
  change _ = (nanoOutput s p.str).map printed at hout
  have hread : ∀ text, t.tree.read (p.resolve t.cwd) = some text → IsText text :=
    fun text => h.files.read
  have htext : IsText ((t.tree.read (p.resolve t.cwd)).getD []) := by
    cases heq : t.tree.read (p.resolve t.cwd) with
    | none => exact isText_nil
    | some text => exact hread text heq
  have hfilename : Filesystem.fits 64 (hfit.path h.canonical).toStr =
      some (hfit.path h.canonical).toStr := by
    apply Filesystem.fits_of_lt
    unfold CanonicalPath.toStr
    rw [List.length_append, List.length_replicate]
    exact Nat.lt_succ_of_le hlen
  have hedited := isText_edited htext keys
  obtain ⟨fs, hfs, hrep⟩ := h.writeFile_refines (hfit.path h.canonical) hedited
  have hwrite := Filesystem.writeFileLogged_result s.fs (hfit.path h.canonical).toStr
    (edited ((t.tree.read (p.resolve t.cwd)).getD []) keys)
  rw [hfs] at hwrite
  unfold nanoOutput at hout
  rw [if_neg p.str_ne_nil, h.buildPath hfit] at hout
  simp only [Option.bind_eq_bind, Option.bind_some, h.readText, hfilename, hfit.path_comps,
    htext.take] at hout
  refine ⟨_, _, _, hout, (exec_edit rfl keys).trans (congrArg (Option.map _) hwrite.symm), rfl, ?_⟩
  exact (h.setTree hrep (h.files.write _ hedited)).of_fields rfl h.line rfl rfl rfl

/-! ## Whole sessions -/

theorem runs (h : AtPrompt s t) (hroom : c.Room t.cwd) :
    ∃ ks, c.keys = 10 :: ks ∧ Runs d s t c ks := by
  cases c with
  | pwd => exact ⟨[], rfl, h.runs_pwd⟩
  | cd p => exact ⟨[], rfl, h.runs_cd hroom⟩
  | ls p => exact ⟨[], rfl, h.runs_ls hroom⟩
  | mkdir p => exact ⟨[], rfl, h.runs_mkdir hroom⟩
  | touch p => exact ⟨[], rfl, h.runs_touch hroom⟩
  | cat p => exact ⟨[], rfl, h.runs_cat hroom⟩
  | write p text => exact ⟨[], rfl, h.runs_write hroom.1 hroom.2⟩
  | rm p => exact ⟨[], rfl, h.runs_rm hroom⟩
  | edit p keys => exact ⟨_, rfl, h.runs_edit hroom.1 hroom.2 keys⟩
  | copy text => exact ⟨[], rfl, h.runs_copy⟩
  | copyf p => exact ⟨[], rfl, h.runs_copyf hroom⟩
  | paste => exact ⟨[], rfl, h.runs_paste⟩
  | pastef p => exact ⟨[], rfl, h.runs_pastef hroom⟩
  | cut p => exact ⟨[], rfl, h.runs_cut hroom⟩

/-- A typed command does and prints what it does and prints in the session of the tree. -/
theorem typeCommand (h : AtPrompt s t) (hroom : c.Room t.cwd) :
    ∃ s' out, typeCommand d s c = some (s', out) ∧ t.Prints c out ∧ AtPrompt s' (t.exec c) := by
  have h₀ : AtPrompt { s.event (.command c.line) with line := [] } t :=
    h.of_fields h.mode rfl rfl rfl rfl
  obtain ⟨ks, hkeys, out, s₁, s', hout, hks, hprints, hat⟩ := h₀.runs hroom
  refine ⟨s', out, ?_, hprints, hat⟩
  rw [typeCommand_eq h.mode h.line hroom h.canonical hkeys hout, hks, Option.map_some]

end AtPrompt

/-- A shell that has just been started and entered. -/
theorem atPrompt_init (hmode : s.mode = .shell) (hline : s.line = []) (hcwd : s.cwd = rootPath)
    (hfs : s.fs = Filesystem.init) (hclip : s.clipboard = []) :
    AtPrompt s ⟨[], PathTree.empty, []⟩ where
  mode := hmode
  line := hline
  cwd := hcwd
  canonical := nofun
  cwd_fit := nofun
  cwd_length := by decide
  fs := hfs ▸ Filesystem.represents_init
  files := PathTree.files_empty
  clipboard := hclip
  clip := isText_nil

/-- Commands typed one after another leave the shell where they lead in the tree, and each prints
what is to be read off the tree at its time. -/
theorem session_refines_tree (h : AtPrompt s t) (cs : List FileCommand)
    (hroom : Admits (fun t c => c.Room t.cwd) TreeSession.exec t cs) :
    ∃ s' outs, answers (typeCommand d) s cs = some (s', outs) ∧
      Described TreeSession.Prints TreeSession.exec t cs outs ∧
      AtPrompt s' (cs.foldl TreeSession.exec t) := by
  apply answers_described AtPrompt _ h hroom
  intro s t c h hroom
  exact h.typeCommand hroom

/-- The name `docs`. -/
def docsArg : PathArg where
  absolute := false
  comps := [ascii "docs"]
  trailing := 0
  canonical := by unfold Canonical; decide +kernel
  graphic := by decide +kernel
  named := by decide +kernel

/-- The path `/b/`. -/
def slashedArg : PathArg where
  absolute := true
  comps := [ascii "b"]
  trailing := 1
  canonical := by unfold Canonical; decide +kernel
  graphic := by decide +kernel
  named := by decide +kernel

/-- A file is written in a directory and moved out of it. -/
def movingFile : List FileCommand :=
  [.mkdir docsArg, .cd docsArg,
    .write docsArg ⟨ascii "hi there", by decide +kernel, by decide +kernel, by decide +kernel,
      by decide +kernel⟩,
    .edit docsArg [⟨33, by unfold EditKey; decide +kernel⟩], .cut docsArg, .pastef slashedArg,
    .ls none]

theorem session_refines_tree_moving :
    ∃ s' outs, answers (typeCommand idleKernel) { oneFile with fs := Filesystem.init } movingFile =
        some (s', outs) ∧
      Described TreeSession.Prints TreeSession.exec ⟨[], PathTree.empty, []⟩ movingFile outs ∧
      AtPrompt s' (movingFile.foldl TreeSession.exec ⟨[], PathTree.empty, []⟩) := by
  have hroot : docsArg.Fits [] := by decide +kernel
  have hdocs : docsArg.Fits [ascii "docs"] := by decide +kernel
  have hslashed : slashedArg.Fits [ascii "docs"] := by decide +kernel
  exact session_refines_tree (atPrompt_init rfl rfl rfl rfl rfl) movingFile
    ⟨hroot, ⟨hroot, rfl⟩, ⟨hdocs, by decide +kernel⟩, ⟨hdocs, by decide +kernel⟩, hdocs, hslashed,
      trivial, trivial⟩

end QuillOS.Shell
