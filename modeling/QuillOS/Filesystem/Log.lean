import QuillOS.Filesystem.Refinement

/-!
# What the filesystem logs

The operations with the lines they print through `fs_log` and `fs_log2`, and these lines as they
are read off the tree. A line is kept as the parts it is printed from.
-/

namespace QuillOS.Filesystem

open Lib

inductive LogLine
  /-- `fs_log` of the path a call is given. -/
  | path (op : String) (path : Str)
  | message (op msg : String)
  /-- `fs_log2`. -/
  | detail (op key : String) (val : Str)
  deriving DecidableEq

/-- What a call returns, and the lines it prints. -/
abbrev Logged (α : Type) := α × List LogLine

/-- Prints the lines and goes on. -/
def logs {α : Type} (lines : List LogLine) (r : Option (Logged α)) : Option (Logged α) :=
  r.map fun (a, rest) => (a, lines ++ rest)

/-- Prints a message and returns. -/
def returns {α : Type} (a : α) (op msg : String) : Option (Logged α) := some (a, [.message op msg])

/-! ## The operations -/

/-- `createEntry`, with the messages for an empty name and for an entry that is there already. -/
def createEntryLogged (s : Entries) (norm : Str) (op empty found : String) (existing : Bool)
    (entry : FileEntry → Str → Str → FileEntry) : Option (Logged (Entries × Bool)) := do
  let (parent, name) ← splitPath norm
  logs [.detail op "parent" parent, .detail op "name" name] <|
    if name = [] then returns (s, false) op empty
    else do
      let ok ← parentExists s parent
      if !ok then returns (s, false) op "FAIL: parent dir not found"
      else if pathExists s parent name then returns (s, existing) op found
      else match findFreeSlot s with
        | none => returns (s, false) op "FAIL: no free slots"
        | some slot =>
          returns (Function.update s slot (entry (s slot) parent name), true) op "OK"

def mkdirLogged (s : Entries) (path : Str) : Option (Logged (Entries × Bool)) :=
  logs [.path "mkdir" path] <|
    if path.head? ≠ some slash then returns (s, false) "mkdir" "FAIL: invalid path"
    else do
      let norm ← normalizePath path
      if norm = rootPath then returns (s, false) "mkdir" "FAIL: root already exists"
      else
        createEntryLogged s norm "mkdir" "FAIL: empty name after split" "FAIL: already exists" false
          dirEntry

def touchLogged (s : Entries) (path : Str) : Option (Logged (Entries × Bool)) :=
  logs [.path "touch" path] <|
    if path.head? ≠ some slash then returns (s, false) "touch" "FAIL: invalid path"
    else do
      let norm ← normalizePath path
      createEntryLogged s norm "touch" "FAIL: empty name" "OK (already exists)" true fun _ =>
        fileEntry

/-- `storeContent`, which fails on what is not a regular file. -/
def storeContentLogged (s : Entries) (idx : Fin maxFiles) (content : Str) :
    Option (Logged (Entries × Bool)) :=
  returns (storeContent s idx content) "write"
    (if (s idx).type ≠ .regular then "FAIL: not a regular file" else "OK")

def writeFileLogged (s : Entries) (path content : Str) : Option (Logged (Entries × Bool)) :=
  logs [.path "write" path] <|
    if path.head? ≠ some slash then returns (s, false) "write" "FAIL: invalid args"
    else do
      let norm ← normalizePath path
      let (parent, name) ← splitPath norm
      match findEntry s parent name with
      | some idx => storeContentLogged s idx content
      | none =>
        logs [.message "write" "auto-creating file"] <| do
          let ((s, created), lines) ← touchLogged s norm
          logs lines <|
            if !created then some ((s, false), [])
            else match findEntry s parent name with
              | none => returns (s, false) "write" "FAIL: could not create"
              | some idx => storeContentLogged s idx content

def readFileLogged (s : Entries) (path : Str) (bufSize : UInt32) : Option (Logged (Option Str)) :=
  logs [.path "read" path] <|
    if path.head? ≠ some slash then returns none "read" "FAIL: invalid args"
    else do
      let norm ← normalizePath path
      let (parent, name) ← splitPath norm
      match findEntry s parent name with
      | none => returns none "read" "FAIL: file not found"
      | some idx =>
        if (s idx).type ≠ .regular then returns none "read" "FAIL: not a regular file"
        else
          let copyLen :=
            if (s idx).size ≥ bufSize.toNat then (bufSize - 1).toNat else (s idx).size
          if copyLen < bufSize.toNat then
            returns (some ((s idx).data.toList.take copyLen)) "read" "OK"
          else none

def lsLogged (s : Entries) (path : Str) (bufSize : UInt32) : Option (Logged (ℕ × Option Str)) :=
  logs [.path "ls" path] <|
    (ls s path bufSize).bind fun r => returns r "ls" (if r.1 > 0 then "found entries" else "empty")

def rmLogged (s : Entries) (path : Str) : Option (Logged (Entries × Bool)) :=
  logs [.path "rm" path] <|
    if path.head? ≠ some slash then returns (s, false) "rm" "FAIL: invalid path"
    else do
      let norm ← normalizePath path
      if norm = rootPath then returns (s, false) "rm" "FAIL: cannot remove root"
      else
        let (parent, name) ← splitPath norm
        match findEntry s parent name with
        | none => returns (s, false) "rm" "FAIL: not found"
        | some idx =>
          if (s idx).type = .directory then
            let full ← fits maxPathLen (joinPath parent name)
            if hasChild s full then returns (s, false) "rm" "FAIL: directory not empty"
            else returns (Function.update s idx FileEntry.cleared, true) "rm" "OK"
          else returns (Function.update s idx FileEntry.cleared, true) "rm" "OK"

/-! ## Logging changes nothing -/

section Results

variable {α : Type} (s : Entries) (path : Str)

@[simp] theorem map_fst_logs (lines : List LogLine) (r : Option (Logged α)) :
    (logs lines r).map Prod.fst = r.map Prod.fst := by
  cases r <;> rfl

theorem map_fst_bind {β γ : Type} {x : Option β} {f : β → Option (α × γ)} {g : β → Option α}
    (h : ∀ b, (f b).map Prod.fst = g b) : (x.bind f).map Prod.fst = x.bind g := by
  cases x with
  | none => rfl
  | some b => exact h b

/-- Results are passed on without what is printed. -/
theorem map_fst_bind_logged {β γ δ : Type} {x : Option (β × δ)} {y : Option β}
    {f : β × δ → Option (α × γ)} {g : β → Option α} (hx : x.map Prod.fst = y)
    (h : ∀ b log, (f (b, log)).map Prod.fst = g b) : (x.bind f).map Prod.fst = y.bind g := by
  subst hx
  cases x with
  | none => rfl
  | some r => exact h r.1 r.2

theorem createEntryLogged_result (norm : Str) (op empty found : String) (existing : Bool)
    (entry : FileEntry → Str → Str → FileEntry) :
    (createEntryLogged s norm op empty found existing entry).map Prod.fst =
      createEntry s norm existing entry := by
  refine map_fst_bind fun (parent, name) => ?_
  dsimp only
  rw [map_fst_logs]
  split
  · rfl
  refine map_fst_bind fun ok => ?_
  split
  · rfl
  split
  · rfl
  · cases findFreeSlot s <;> rfl

theorem mkdirLogged_result : (mkdirLogged s path).map Prod.fst = mkdir s path := by
  rw [mkdirLogged, map_fst_logs, mkdir_eq]
  split
  · rfl
  refine map_fst_bind fun norm => ?_
  split
  · rfl
  · exact createEntryLogged_result ..

theorem touchLogged_result : (touchLogged s path).map Prod.fst = touch s path := by
  rw [touchLogged, map_fst_logs, touch_eq]
  split
  · rfl
  · exact map_fst_bind fun norm => createEntryLogged_result ..

theorem writeFileLogged_result (content : Str) :
    (writeFileLogged s path content).map Prod.fst = writeFile s path content := by
  rw [writeFileLogged, map_fst_logs, writeFile]
  split
  · rfl
  refine map_fst_bind fun norm => map_fst_bind fun (parent, name) => ?_
  dsimp only
  cases findEntry s parent name with
  | some idx => rfl
  | none =>
    dsimp only
    rw [map_fst_logs]
    refine map_fst_bind_logged (touchLogged_result s norm) fun (s₁, created) lines => ?_
    dsimp only
    rw [map_fst_logs]
    split
    · rfl
    · cases findEntry s₁ parent name <;> rfl

theorem readFileLogged_result (bufSize : UInt32) :
    (readFileLogged s path bufSize).map Prod.fst = readFile s path bufSize := by
  rw [readFileLogged, map_fst_logs, readFile]
  split
  · rfl
  refine map_fst_bind fun norm => map_fst_bind fun (parent, name) => ?_
  dsimp only
  cases findEntry s parent name with
  | none => rfl
  | some idx =>
    dsimp only
    split
    · rfl
    · exact apply_ite (Option.map Prod.fst) _ _ _

theorem lsLogged_result (bufSize : UInt32) :
    (lsLogged s path bufSize).map Prod.fst = ls s path bufSize := by
  rw [lsLogged, map_fst_logs]
  cases ls s path bufSize <;> rfl

theorem rmLogged_result : (rmLogged s path).map Prod.fst = rm s path := by
  rw [rmLogged, map_fst_logs, rm]
  split
  · rfl
  refine map_fst_bind fun norm => ?_
  split
  · rfl
  refine map_fst_bind fun (parent, name) => ?_
  dsimp only
  cases findEntry s parent name with
  | none => rfl
  | some idx =>
    dsimp only
    split
    · refine map_fst_bind fun full => ?_
      split <;> rfl
    · rfl

end Results

/-! ## The log of a tree -/

/-- A path as a call is given it: its string, and the components it stands for. -/
structure GivenPath where
  str : Str
  comps : List Str

def CanonicalPath.given (p : CanonicalPath) : GivenPath := ⟨p.toStr, p.comps⟩

/-- The lines with the parts of a path. -/
def partLines (op : String) (comps : List Str) : List LogLine :=
  [.detail op "parent" (pathString comps.dropLast), .detail op "name" (comps.getLastD [])]

open Classical in
/-- How the creation of an entry ends. -/
noncomputable def createMessage (t : FsTree) (comps : List Str) (found : String) : String :=
  if ¬t.IsDir comps.dropLast then "FAIL: parent dir not found"
  else if t comps ≠ none then found
  else if t.support.ncard < maxNodes then "OK"
  else "FAIL: no free slots"

noncomputable def mkdirLog (t : FsTree) (p : GivenPath) : List LogLine :=
  .path "mkdir" p.str ::
    if p.comps = [] then [.message "mkdir" "FAIL: root already exists"]
    else
      partLines "mkdir" p.comps ++
        [.message "mkdir" (createMessage t p.comps "FAIL: already exists")]

noncomputable def touchLog (t : FsTree) (p : GivenPath) : List LogLine :=
  .path "touch" p.str :: (partLines "touch" p.comps ++ [.message "touch"
    (if p.comps = [] then "FAIL: empty name" else createMessage t p.comps "OK (already exists)")])

open Classical in
/-- Where there is nothing to write to, `touch` is called, and its failure is the last line. -/
noncomputable def writeLog (t : FsTree) (p : GivenPath) : List LogLine :=
  .path "write" p.str ::
    match t p.comps with
    | some .dir => [.message "write" "FAIL: not a regular file"]
    | some (.file _) => [.message "write" "OK"]
    | none =>
      .message "write" "auto-creating file" :: (touchLog t ⟨pathString p.comps, p.comps⟩ ++
        if t.CanCreate maxNodes p.comps then [.message "write" "OK"] else [])

def readLog (t : FsTree) (p : GivenPath) : List LogLine :=
  [.path "read" p.str, .message "read" (match t p.comps with
    | none => "FAIL: file not found"
    | some .dir => "FAIL: not a regular file"
    | some (.file _) => "OK")]

open Classical in
noncomputable def lsLog (t : FsTree) (p : GivenPath) : List LogLine :=
  [.path "ls" p.str, .message "ls" (if t.children p.comps = ∅ then "empty" else "found entries")]

open Classical in
noncomputable def rmLog (t : FsTree) (p : GivenPath) : List LogLine :=
  [.path "rm" p.str, .message "rm" (
    if p.comps = [] then "FAIL: cannot remove root"
    else match t p.comps with
      | none => "FAIL: not found"
      | some .dir => if t.children p.comps = ∅ then "OK" else "FAIL: directory not empty"
      | some (.file _) => "OK")]

section Refines

variable {α : Type} {s : Entries} {t : FsTree} {p : CanonicalPath} {q : List Str} {c : Str}

@[simp] theorem map_snd_logs (lines : List LogLine) (r : Option (Logged α)) :
    (logs lines r).map Prod.snd = (r.map Prod.snd).map (lines ++ ·) := by
  cases r <;> rfl

@[simp] theorem map_snd_returns (a : α) (op msg : String) :
    (returns a op msg).map Prod.snd = some [.message op msg] := rfl

theorem logged_eq {r : Option (Logged α)} {a : α} {log : List LogLine}
    (hresult : r.map Prod.fst = some a) (hlog : r.map Prod.snd = some log) : r = some (a, log) := by
  cases r with
  | none => cases hresult
  | some r =>
    cases hresult
    cases hlog
    rfl

theorem createEntryLogged_log (h : Represents s t) (hp : p.comps = q ++ [c])
    (op empty found : String) (existing : Bool) (entry : FileEntry → Str → Str → FileEntry) :
    (createEntryLogged s (pathString (q ++ [c])) op empty found existing entry).map Prod.snd =
      some (partLines op (q ++ [c]) ++ [.message op (createMessage t (q ++ [c]) found)]) := by
  obtain ⟨hcanon, hc, -, hsplit⟩ := p.concat hp
  obtain ⟨ok, hok, hdir⟩ := p.parentExists_iff h hp
  have hexists := h.pathExists_iff hcanon
  have hroom := h.room_iff
  unfold createEntryLogged partLines createMessage
  rw [hsplit]
  simp only [Option.bind_eq_bind, Option.bind_some, map_snd_logs, if_neg hc, hok,
    List.dropLast_concat, List.getLastD_concat, ← hdir, ← hexists, hroom]
  cases ok with
  | false => rfl
  | true =>
    cases pathExists s (pathString q) c with
    | true => rfl
    | false => cases findFreeSlot s <;> simp

theorem mkdirLogged_refines (h : Represents s t) (p : CanonicalPath) :
    ∃ s', mkdirLogged s p.toStr =
        some ((s', (t.mkdir maxNodes p.comps).2), mkdirLog t p.given) ∧
      Represents s' (t.mkdir maxNodes p.comps).1 := by
  obtain ⟨s', hcall, h'⟩ := mkdir_refines h p
  refine ⟨s', logged_eq ((mkdirLogged_result s _).trans hcall) ?_, h'⟩
  rw [mkdirLogged, map_snd_logs, if_neg (not_not.mpr p.toStr_head), p.normalizePath_toStr,
    Option.bind_eq_bind, Option.bind_some]
  unfold mkdirLog CanonicalPath.given
  dsimp only
  rcases List.eq_nil_or_concat' p.comps with hp | ⟨q, c, hp⟩
  · rw [hp, if_pos (show pathString [] = rootPath from rfl)]
    rfl
  · obtain ⟨-, -, hroot, -⟩ := p.concat hp
    rw [hp, if_neg hroot, createEntryLogged_log h hp, if_neg (by simp)]
    rfl

theorem touchLogged_refines (h : Represents s t) (p : CanonicalPath) :
    ∃ s', touchLogged s p.toStr =
        some ((s', (t.touch maxNodes p.comps []).2), touchLog t p.given) ∧
      Represents s' (t.touch maxNodes p.comps []).1 := by
  obtain ⟨s', hcall, h'⟩ := touch_refines h p
  refine ⟨s', logged_eq ((touchLogged_result s _).trans hcall) ?_, h'⟩
  rw [touchLogged, map_snd_logs, if_neg (not_not.mpr p.toStr_head), p.normalizePath_toStr,
    Option.bind_eq_bind, Option.bind_some]
  unfold touchLog CanonicalPath.given
  dsimp only
  rcases List.eq_nil_or_concat' p.comps with hp | ⟨q, c, hp⟩
  · rw [hp, show pathString [] = rootPath from rfl, createEntryLogged, splitPath_rootPath]
    rfl
  · rw [hp, createEntryLogged_log h hp, if_neg (by simp)]
    rfl

theorem storeContentLogged_log {i : Fin maxFiles} (hi : (s i).IsUsed) (content : Str) :
    (storeContentLogged s i content).map Prod.snd = some [.message "write" (match node (s i) with
      | .dir => "FAIL: not a regular file"
      | .file _ => "OK")] := by
  unfold storeContentLogged node
  rw [map_snd_returns]
  by_cases htype : (s i).type = .regular
  · rw [if_neg (not_not.mpr htype), htype, if_neg FileType.noConfusion]
  · rw [hi.directory htype]
    rfl

theorem writeFileLogged_refines (h : Represents s t) (p : CanonicalPath) (content : Str) :
    ∃ s', writeFileLogged s p.toStr content =
        some ((s', (t.write maxNodes p.comps (content.take (maxFileData - 1))).2),
          writeLog t p.given) ∧
      Represents s' (t.write maxNodes p.comps (content.take (maxFileData - 1))).1 := by
  obtain ⟨s', hcall, h'⟩ := writeFile_refines h p content
  refine ⟨s', logged_eq ((writeFileLogged_result s _ content).trans hcall) ?_, h'⟩
  rw [writeFileLogged, map_snd_logs, if_neg (not_not.mpr p.toStr_head), p.normalizePath_toStr,
    Option.bind_eq_bind, Option.bind_some]
  obtain ⟨s₁, htouch, h₁⟩ := touchLogged_refines h p.normal
  have hgiven : p.normal.given = ⟨pathString p.comps, p.comps⟩ :=
    congrArg (GivenPath.mk · p.comps) p.normal_toStr
  rw [p.normal_toStr, hgiven, show p.normal.comps = p.comps from rfl] at htouch
  rw [show p.normal.comps = p.comps from rfl] at h₁
  unfold writeLog CanonicalPath.given
  dsimp only
  rcases List.eq_nil_or_concat' p.comps with hp | ⟨q, c, hp⟩
  · have hcan : ¬t.CanCreate maxNodes [] := fun hcan => hcan.1 rfl
    rw [hp] at htouch ⊢
    rw [show pathString [] = rootPath from rfl] at htouch ⊢
    simp only [splitPath_rootPath, Option.bind_eq_bind, Option.bind_some, h.find_root, htouch,
      map_snd_logs, h.closed.root, if_neg hcan, PathTree.touch, PathTree.create]
    rfl
  obtain ⟨hcanon, hc, hroot, hsplit⟩ := p.concat hp
  rw [hp] at htouch h₁ ⊢
  rw [hsplit, Option.bind_eq_bind, Option.bind_some]
  dsimp only
  cases hfind : findEntry s (pathString q) c with
  | some i =>
    have hi := h.holds_of_find hcanon hfind
    dsimp only
    rw [storeContentLogged_log hi.used, h.lookup_of_holds hi]
    cases node (s i) <;> rfl
  | none =>
    have hfree : t (q ++ [c]) = none := by
      rw [h.lookup_of_find hcanon, hfind, Option.map_none]
    unfold PathTree.touch PathTree.create at htouch h₁
    rw [if_pos hfree] at htouch h₁
    simp only [map_snd_logs, htouch, hfree, Option.bind_eq_bind, Option.bind_some]
    by_cases hcreate : t.CanCreate maxNodes (q ++ [c])
    · rw [if_pos hcreate] at h₁
      have hnode : Function.update t (q ++ [c]) (some (.file [])) (q ++ [c]) = some (.file []) :=
        Function.update_self _ _ _
      obtain ⟨i, hi, hfile⟩ := (h₁.lookup q c _).mp hnode
      have hstored := storeContentLogged_log hi.used content
      rw [hfile] at hstored
      simp only [if_pos hcreate, h₁.find_of_holds hi]
      rw [if_neg (show ¬((!true) = true) by decide), hstored]
      rfl
    · simp only [if_neg hcreate]
      rfl

theorem readFileLogged_refines (h : Represents s t) (p : CanonicalPath) {bufSize : UInt32}
    (hbuf : 1 ≤ bufSize.toNat) :
    readFileLogged s p.toStr bufSize =
      some ((t.read p.comps).map (List.take (bufSize.toNat - 1)), readLog t p.given) := by
  have hcall := readFile_refines h p hbuf
  refine logged_eq ((readFileLogged_result s _ bufSize).trans hcall) ?_
  rw [readFileLogged, map_snd_logs, if_neg (not_not.mpr p.toStr_head), p.normalizePath_toStr,
    Option.bind_eq_bind, Option.bind_some]
  unfold readLog CanonicalPath.given
  dsimp only
  rcases List.eq_nil_or_concat' p.comps with hp | ⟨q, c, hp⟩
  · rw [hp, show pathString [] = rootPath from rfl, splitPath_rootPath, Option.bind_eq_bind,
      Option.bind_some, h.closed.root]
    dsimp only
    rw [h.find_root]
    rfl
  obtain ⟨hcanon, hc, hroot, hsplit⟩ := p.concat hp
  rw [hp, hsplit, Option.bind_eq_bind, Option.bind_some, h.lookup_of_find hcanon]
  dsimp only
  cases hfind : findEntry s (pathString q) c with
  | none => rfl
  | some i =>
    have hi := h.holds_of_find hcanon hfind
    rw [Option.map_some]
    dsimp only
    by_cases htype : (s i).type = .regular
    · have hlen : (if (s i).size ≥ bufSize.toNat then (bufSize - 1).toNat else (s i).size) <
          bufSize.toNat := by
        have hsub : (bufSize - 1).toNat = bufSize.toNat - 1 :=
          UInt32.toNat_sub_of_le bufSize 1 (UInt32.le_iff_toNat_le.mpr hbuf)
        split <;> omega
      have hfile : ¬(s i).type = .directory := by
        rw [htype]
        exact FileType.noConfusion
      rw [if_neg (not_not.mpr htype), if_pos hlen, node, if_neg hfile]
      rfl
    · rw [if_pos htype, node_eq_dir.mpr (hi.used.directory htype)]
      rfl

theorem lsLogged_log (h : Represents s t) (p : CanonicalPath) (bufSize : UInt32) :
    (lsLogged s p.toStr bufSize).map Prod.snd = some (lsLog t p.given) := by
  obtain ⟨⟨count, out⟩, hls, hcount⟩ := Option.map_eq_some_iff.mp (ls_refines h p bufSize)
  have hpos : count > 0 ↔ t.children p.comps ≠ ∅ := by
    rw [← h.hasChild_iff p.canonical, hasChild, decide_eq_true_iff]
    rw [show count = _ from hcount.trans (h.children_ncard p.canonical)]
    exact Set.ncard_pos (Set.toFinite _)
  unfold lsLogged lsLog CanonicalPath.given
  rw [map_snd_logs, hls, Option.bind_some, map_snd_returns]
  by_cases hempty : t.children p.comps = ∅
  · rw [if_neg (hpos.not.mpr (not_not.mpr hempty)), if_pos hempty]
    rfl
  · rw [if_pos (hpos.mpr hempty), if_neg hempty]
    rfl

theorem rmLogged_refines (h : Represents s t) (p : CanonicalPath) :
    ∃ s', rmLogged s p.toStr = some ((s', (t.remove p.comps).2), rmLog t p.given) ∧
      Represents s' (t.remove p.comps).1 := by
  obtain ⟨s', hcall, h'⟩ := rm_refines h p
  refine ⟨s', logged_eq ((rmLogged_result s _).trans hcall) ?_, h'⟩
  rw [rmLogged, map_snd_logs, if_neg (not_not.mpr p.toStr_head), p.normalizePath_toStr,
    Option.bind_eq_bind, Option.bind_some]
  unfold rmLog CanonicalPath.given
  dsimp only
  rcases List.eq_nil_or_concat' p.comps with hp | ⟨q, c, hp⟩
  · rw [hp, if_pos (show pathString [] = rootPath from rfl), if_pos rfl]
    rfl
  obtain ⟨hcanon, hc, hroot, hsplit⟩ := p.concat hp
  rw [hp, if_neg hroot, if_neg (by simp), hsplit, Option.bind_eq_bind, Option.bind_some,
    h.lookup_of_find hcanon]
  dsimp only
  cases hfind : findEntry s (pathString q) c with
  | none => rfl
  | some i =>
    have hi := h.holds_of_find hcanon hfind
    have hfull : joinPath (pathString q) c = pathString (q ++ [c]) :=
      (pathString_concat hi.left).symm
    have hfits : fits maxPathLen (pathString (q ++ [c])) = some (pathString (q ++ [c])) :=
      fits_of_lt (hp ▸ p.pathString_lt)
    have hchild := h.hasChild_iff hcanon
    rw [Option.map_some]
    dsimp only
    by_cases hdir : (s i).type = .directory
    · rw [if_pos hdir, node_eq_dir.mpr hdir, hfull, hfits, Option.bind_some]
      dsimp only
      by_cases hempty : t.children (q ++ [c]) = ∅
      · rw [if_neg (hchild.not.mpr (not_not.mpr hempty)), if_pos hempty]
        rfl
      · rw [if_pos (hchild.mpr hempty), if_neg hempty]
        rfl
    · rw [if_neg hdir, node, if_neg hdir]
      rfl

end Refines

end QuillOS.Filesystem
