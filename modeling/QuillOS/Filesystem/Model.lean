import QuillOS.Filesystem.Path

/-!
# The filesystem

`filesystem.cpp`: a table of 64 entries, each with a name and the full path of its parent. Console
output and null pointers are left out. `none` is a write past the end of a buffer; otherwise an
operation gives the new table and its result.
-/

namespace QuillOS.Filesystem

inductive FileType
  | unused
  | regular
  | directory
  deriving DecidableEq, Repr

structure FileEntry where
  name : Str
  parent : Str
  type : FileType
  data : Vector UInt8 maxFileData
  size : ℕ

/-- An entry overwritten with zero bytes. -/
def FileEntry.cleared : FileEntry where
  name := []
  parent := []
  type := .unused
  data := Vector.replicate maxFileData 0
  size := 0

def FileEntry.IsUsed (e : FileEntry) : Prop := e.type ≠ .unused

instance (e : FileEntry) : Decidable e.IsUsed := inferInstanceAs (Decidable (e.type ≠ .unused))

abbrev Entries := Fin maxFiles → FileEntry

def init : Entries := Function.update (fun _ => FileEntry.cleared) 0
  { FileEntry.cleared with type := .directory, name := rootPath, parent := [] }

def findEntry (s : Entries) (parent name : Str) : Option (Fin maxFiles) :=
  Fin.find? fun i => decide ((s i).IsUsed ∧ (s i).name = name ∧ (s i).parent = parent)

def findFreeSlot (s : Entries) : Option (Fin maxFiles) :=
  Fin.find? fun i => decide ((s i).type = .unused)

def pathExists (s : Entries) (parent name : Str) : Bool := (findEntry s parent name).isSome

/-- The parent check of `mkdir` and `touch`. -/
def parentExists (s : Entries) (parent : Str) : Option Bool :=
  if parent = rootPath then some true
  else (splitPath parent).map fun (pp, pn) =>
    match findEntry s pp pn with
    | none => false
    | some i => decide ((s i).type = .directory)

/-- The entry `mkdir` stores in a slot. -/
def dirEntry (old : FileEntry) (parent name : Str) : FileEntry :=
  { old with type := .directory, name := name, parent := parent, size := 0 }

/-- The entry `touch` stores in a slot. -/
def fileEntry (parent name : Str) : FileEntry where
  type := .regular
  name := name
  parent := parent
  size := 0
  data := Vector.replicate maxFileData 0

def mkdir (s : Entries) (path : Str) : Option (Entries × Bool) :=
  if path.head? ≠ some slash then some (s, false)
  else do
    let norm ← normalizePath path
    if norm = rootPath then return (s, false)
    else
      let (parent, name) ← splitPath norm
      if name = [] then return (s, false)
      else
        let ok ← parentExists s parent
        if !ok then return (s, false)
        else if pathExists s parent name then return (s, false)
        else match findFreeSlot s with
          | none => return (s, false)
          | some slot =>
            return (Function.update s slot (dirEntry (s slot) parent name), true)

def touch (s : Entries) (path : Str) : Option (Entries × Bool) :=
  if path.head? ≠ some slash then some (s, false)
  else do
    let norm ← normalizePath path
    let (parent, name) ← splitPath norm
    if name = [] then return (s, false)
    else
      let ok ← parentExists s parent
      if !ok then return (s, false)
      else if pathExists s parent name then return (s, true)
      else match findFreeSlot s with
        | none => return (s, false)
        | some slot =>
          return (Function.update s slot (fileEntry parent name), true)

/-- The end of `write_file`, once the entry is known. -/
def storeContent (s : Entries) (idx : Fin maxFiles) (content : Str) : Entries × Bool :=
  if (s idx).type ≠ .regular then (s, false)
  else
    let len := if content.length ≥ maxFileData then maxFileData - 1 else content.length
    (Function.update s idx
      { s idx with
        data := Vector.ofFn fun i => if i.val < len then content.getD i.val 0 else 0
        size := len }, true)

def writeFile (s : Entries) (path content : Str) : Option (Entries × Bool) :=
  if path.head? ≠ some slash then some (s, false)
  else do
    let norm ← normalizePath path
    let (parent, name) ← splitPath norm
    match findEntry s parent name with
    | some idx => return storeContent s idx content
    | none =>
      let (s, created) ← touch s norm
      if !created then return (s, false)
      else match findEntry s parent name with
        | none => return (s, false)
        | some idx => return storeContent s idx content

/-- The bytes copied to the caller's buffer before the terminator; `some none` is the result
`false`. For an empty buffer `buf_size - 1` wraps. -/
def readFile (s : Entries) (path : Str) (bufSize : UInt32) : Option (Option Str) :=
  if path.head? ≠ some slash then some none
  else do
    let norm ← normalizePath path
    let (parent, name) ← splitPath norm
    match findEntry s parent name with
    | none => return none
    | some idx =>
      if (s idx).type ≠ .regular then return none
      else
        let copyLen :=
          if (s idx).size ≥ bufSize.toNat then (bufSize - 1).toNat else (s idx).size
        if copyLen < bufSize.toNat then return some ((s idx).data.toList.take copyLen)
        else none

/-- One character of the listing, dropped when only the terminator has room. -/
def put (bufSize : UInt32) (out : Str) (c : UInt8) : Str :=
  if out.length < (bufSize - 1).toNat then out ++ [c] else out

/-- A line of the listing: `'d'` or `'f'`, a blank, the name and a line feed. -/
def putLine (bufSize : UInt32) (out : Str) (e : FileEntry) : Str :=
  let kind : UInt8 := if e.type = .directory then 100 else 102
  put bufSize (e.name.foldl (put bufSize) (put bufSize (put bufSize out kind) 32)) 10

/-- The test `ls` makes on an entry. -/
def listedIn (norm : Str) (e : FileEntry) : Bool :=
  decide (e.IsUsed ∧ if norm = rootPath then e.parent = rootPath else e.parent = norm)

/-- One turn of the loop of `ls`, on the count and the listing so far. -/
def lsEntry (norm : Str) (bufSize : UInt32) (acc : ℕ × Str) (e : FileEntry) : ℕ × Str :=
  if listedIn norm e then (acc.1 + 1, putLine bufSize acc.2 e) else acc

/-- The count, and the listing if it stays inside the buffer. -/
def ls (s : Entries) (path : Str) (bufSize : UInt32) : Option (ℕ × Option Str) :=
  (normalizePath path).map fun norm =>
    let acc := (List.finRange maxFiles).foldl (fun acc i => lsEntry norm bufSize acc (s i)) (0, [])
    (acc.1, if acc.2.length < bufSize.toNat then some acc.2 else none)

/-- The emptiness check of `rm`. -/
def hasChild (s : Entries) (full : Str) : Bool :=
  decide (∃ i, (s i).IsUsed ∧ (s i).parent = full)

def rm (s : Entries) (path : Str) : Option (Entries × Bool) :=
  if path.head? ≠ some slash then some (s, false)
  else do
    let norm ← normalizePath path
    if norm = rootPath then return (s, false)
    else
      let (parent, name) ← splitPath norm
      match findEntry s parent name with
      | none => return (s, false)
      | some idx =>
        if (s idx).type = .directory then
          let full ← fits maxPathLen (joinPath parent name)
          if hasChild s full then return (s, false)
          else return (Function.update s idx FileEntry.cleared, true)
        else return (Function.update s idx FileEntry.cleared, true)

/-! ## Calls -/

/-- A call of the filesystem, its path given as a `π`. -/
inductive Call (π : Type*)
  | mkdir (path : π)
  | touch (path : π)
  | writeFile (path : π) (content : Str)
  | readFile (path : π) (bufSize : UInt32)
  | ls (path : π) (bufSize : UInt32)
  | rm (path : π)

def Call.map {π ρ : Type*} (f : π → ρ) : Call π → Call ρ
  | mkdir p => mkdir (f p)
  | touch p => touch (f p)
  | writeFile p content => writeFile (f p) content
  | readFile p bufSize => readFile (f p) bufSize
  | ls p bufSize => ls (f p) bufSize
  | rm p => rm (f p)

inductive Result
  | flag (ok : Bool)
  | bytes (output : Option Str)
  | count (n : ℕ)
  deriving DecidableEq, Repr

def step (s : Entries) : Call Str → Option (Entries × Result)
  | .mkdir path => (mkdir s path).map fun (s, ok) => (s, .flag ok)
  | .touch path => (touch s path).map fun (s, ok) => (s, .flag ok)
  | .writeFile path content => (writeFile s path content).map fun (s, ok) => (s, .flag ok)
  | .readFile path bufSize => (readFile s path bufSize).map fun out => (s, .bytes out)
  | .ls path bufSize => (ls s path bufSize).map fun (count, _) => (s, .count count)
  | .rm path => (rm s path).map fun (s, ok) => (s, .flag ok)

/-! ## The scans -/

theorem findEntry_spec {s : Entries} {parent name : Str} {i : Fin maxFiles}
    (h : findEntry s parent name = some i) :
    (s i).IsUsed ∧ (s i).name = name ∧ (s i).parent = parent := by
  unfold findEntry at h
  exact of_decide_eq_true (Fin.find?_eq_some_iff.mp h).1

theorem findEntry_eq_none {s : Entries} {parent name : Str} :
    findEntry s parent name = none ↔
      ∀ i, ¬((s i).IsUsed ∧ (s i).name = name ∧ (s i).parent = parent) := by
  unfold findEntry
  rw [Fin.find?_eq_none_iff]
  exact forall_congr' fun i => by simp

theorem findFreeSlot_spec {s : Entries} {i : Fin maxFiles} (h : findFreeSlot s = some i) :
    ¬(s i).IsUsed := by
  unfold findFreeSlot at h
  exact not_not.mpr (of_decide_eq_true (Fin.find?_eq_some_iff.mp h).1)

theorem findFreeSlot_eq_none {s : Entries} : findFreeSlot s = none ↔ ∀ i, (s i).IsUsed := by
  unfold findFreeSlot FileEntry.IsUsed
  rw [Fin.find?_eq_none_iff]
  exact forall_congr' fun i => by simp

theorem pathExists_eq_false {s : Entries} {parent name : Str} :
    pathExists s parent name = false ↔ findEntry s parent name = none := by
  unfold pathExists
  exact Option.isSome_eq_false_iff.trans Option.isNone_iff_eq_none

theorem parentExists_eq_true {s : Entries} {parent : Str} (h : parentExists s parent = some true) :
    parent = rootPath ∨ ∃ pp pn j, splitPath parent = some (pp, pn) ∧
      findEntry s pp pn = some j ∧ (s j).type = .directory := by
  unfold parentExists at h
  split at h
  · exact .inl (by assumption)
  obtain ⟨⟨pp, pn⟩, hsplit, h⟩ := Option.map_eq_some_iff.mp h
  dsimp only at h
  split at h
  · cases h
  · exact .inr ⟨pp, pn, _, hsplit, by assumption, of_decide_eq_true h⟩

/-! ## What each operation can do -/

/-- `e` is stored in a free slot under the strings `split_path` gives for the path `norm`. -/
structure Creates (s : Entries) (norm : Str) (slot : Fin maxFiles) (e : FileEntry) : Prop where
  split : splitPath norm = some (e.parent, e.name)
  name_ne : e.name ≠ []
  parent_ok : parentExists s e.parent = some true
  fresh : findEntry s e.parent e.name = none
  free : ¬(s slot).IsUsed
  used : e.IsUsed

/-- What `mkdir` and `touch` share from the split of the path on: `existing` is the answer for an
entry that is there already, `entry` the one to store. -/
def createEntry (s : Entries) (norm : Str) (existing : Bool)
    (entry : FileEntry → Str → Str → FileEntry) : Option (Entries × Bool) := do
  let (parent, name) ← splitPath norm
  if name = [] then return (s, false)
  else
    let ok ← parentExists s parent
    if !ok then return (s, false)
    else if pathExists s parent name then return (s, existing)
    else match findFreeSlot s with
      | none => return (s, false)
      | some slot => return (Function.update s slot (entry (s slot) parent name), true)

theorem mkdir_eq (s : Entries) (path : Str) : mkdir s path =
    if path.head? ≠ some slash then some (s, false)
    else (normalizePath path).bind fun norm =>
      if norm = rootPath then some (s, false) else createEntry s norm false dirEntry := by
  unfold mkdir createEntry
  rfl

theorem touch_eq (s : Entries) (path : Str) : touch s path =
    if path.head? ≠ some slash then some (s, false)
    else (normalizePath path).bind fun norm =>
      createEntry s norm true fun _ => fileEntry := by
  unfold touch createEntry
  rfl

/-- Either nothing changes, or all checks are passed and the entry is stored. -/
theorem createEntry_cases {s s' : Entries} {norm : Str} {existing b : Bool}
    (entry : FileEntry → Str → Str → FileEntry)
    (hname : ∀ old parent name, (entry old parent name).name = name)
    (hparent : ∀ old parent name, (entry old parent name).parent = parent)
    (hused : ∀ old parent name, (entry old parent name).IsUsed)
    (h : createEntry s norm existing entry = some (s', b)) :
    s' = s ∨ b = true ∧ ∃ slot parent name, Creates s norm slot (entry (s slot) parent name) ∧
      s' = Function.update s slot (entry (s slot) parent name) := by
  unfold createEntry at h
  obtain ⟨⟨parent, name⟩, hsplit, h⟩ := Option.bind_eq_some_iff.mp h
  dsimp only at h
  split at h
  · obtain ⟨rfl, rfl⟩ := Prod.mk.inj (Option.some.inj h)
    exact .inl rfl
  rename_i hne
  obtain ⟨ok, hok, h⟩ := Option.bind_eq_some_iff.mp h
  split at h
  · obtain ⟨rfl, rfl⟩ := Prod.mk.inj (Option.some.inj h)
    exact .inl rfl
  split at h
  · obtain ⟨rfl, rfl⟩ := Prod.mk.inj (Option.some.inj h)
    exact .inl rfl
  rename_i hok' hfresh
  split at h
  · obtain ⟨rfl, rfl⟩ := Prod.mk.inj (Option.some.inj h)
    exact .inl rfl
  rename_i slot hslot
  obtain ⟨rfl, rfl⟩ := Prod.mk.inj (Option.some.inj h)
  refine .inr ⟨rfl, slot, parent, name, ?_, rfl⟩
  constructor
  · rw [hname, hparent]
    exact hsplit
  · rw [hname]
    exact hne
  · rw [hparent]
    exact hok.trans (congrArg some (by simpa using hok'))
  · rw [hname, hparent]
    exact pathExists_eq_false.mp (Bool.eq_false_iff.mpr hfresh)
  · exact findFreeSlot_spec hslot
  · exact hused _ _ _

theorem mkdir_cases {s s' : Entries} {path : Str} {b : Bool} (h : mkdir s path = some (s', b)) :
    s' = s ∨ b = true ∧ ∃ norm slot parent name, path.head? = some slash ∧
      normalizePath path = some norm ∧ Creates s norm slot (dirEntry (s slot) parent name) ∧
      s' = Function.update s slot (dirEntry (s slot) parent name) := by
  rw [mkdir_eq] at h
  split at h
  · obtain ⟨rfl, rfl⟩ := Prod.mk.inj (Option.some.inj h)
    exact .inl rfl
  rename_i habs
  obtain ⟨norm, hnorm, h⟩ := Option.bind_eq_some_iff.mp h
  split at h
  · obtain ⟨rfl, rfl⟩ := Prod.mk.inj (Option.some.inj h)
    exact .inl rfl
  have hcases := createEntry_cases dirEntry (fun _ _ _ => rfl) (fun _ _ _ => rfl)
    (fun _ _ _ => FileType.noConfusion) h
  refine hcases.imp id ?_
  rintro ⟨hb, slot, parent, name, hcreates, rfl⟩
  exact ⟨hb, norm, slot, parent, name, not_not.mp habs, hnorm, hcreates, rfl⟩

theorem touch_cases {s s' : Entries} {path : Str} {b : Bool} (h : touch s path = some (s', b)) :
    s' = s ∨ b = true ∧ ∃ norm slot parent name, path.head? = some slash ∧
      normalizePath path = some norm ∧ Creates s norm slot (fileEntry parent name) ∧
      s' = Function.update s slot (fileEntry parent name) := by
  rw [touch_eq] at h
  split at h
  · obtain ⟨rfl, rfl⟩ := Prod.mk.inj (Option.some.inj h)
    exact .inl rfl
  rename_i habs
  obtain ⟨norm, hnorm, h⟩ := Option.bind_eq_some_iff.mp h
  have hcases := createEntry_cases (fun _ => fileEntry) (fun _ _ _ => rfl) (fun _ _ _ => rfl)
    (fun _ _ _ => FileType.noConfusion) h
  refine hcases.imp id ?_
  rintro ⟨hb, slot, parent, name, hcreates, rfl⟩
  exact ⟨hb, norm, slot, parent, name, not_not.mp habs, hnorm, hcreates, rfl⟩

/-- Two tables that differ in file contents only. -/
def SameShape (s s' : Entries) : Prop :=
  ∀ i, (s' i).type = (s i).type ∧ (s' i).name = (s i).name ∧ (s' i).parent = (s i).parent

theorem storeContent_sameShape (s : Entries) (idx : Fin maxFiles) (content : Str) :
    SameShape s (storeContent s idx content).1 := by
  intro i
  unfold storeContent
  split
  · exact ⟨rfl, rfl, rfl⟩
  · by_cases hi : i = idx
    · subst hi
      simp only [Function.update_self, and_self]
    · simp only [Function.update_of_ne hi, and_self]

/-- The table `write_file` stores the content in is the old one, or what `touch` made of it. -/
structure WriteTarget (s t : Entries) (norm parent name : Str) (created : Bool) : Prop where
  split : splitPath norm = some (parent, name)
  table : t = s ∧ findEntry s parent name ≠ none ∨
    findEntry s parent name = none ∧ touch s norm = some (t, created)

theorem writeFile_stages {s s' : Entries} {path content : Str} {b : Bool}
    (h : writeFile s path content = some (s', b)) :
    path.head? ≠ some slash ∧ s' = s ∨ ∃ norm parent name t created, path.head? = some slash ∧
      normalizePath path = some norm ∧ WriteTarget s t norm parent name created ∧
      (s' = t ∧ b = false ∧ (created = true → findEntry t parent name = none) ∨
        ∃ idx, findEntry t parent name = some idx ∧ (s', b) = storeContent t idx content) := by
  unfold writeFile at h
  split at h
  · rename_i habs
    obtain ⟨rfl, rfl⟩ := Prod.mk.inj (Option.some.inj h)
    exact .inl ⟨habs, rfl⟩
  rename_i habs
  obtain ⟨norm, hnorm, h⟩ := Option.bind_eq_some_iff.mp h
  obtain ⟨⟨parent, name⟩, hsplit, h⟩ := Option.bind_eq_some_iff.mp h
  dsimp only at h
  split at h
  · rename_i idx hidx
    have hfound : findEntry s parent name ≠ none := by simp [hidx]
    exact .inr ⟨norm, parent, name, s, true, not_not.mp habs, hnorm,
      ⟨hsplit, .inl ⟨rfl, hfound⟩⟩, .inr ⟨idx, hidx, (Option.some.inj h).symm⟩⟩
  rename_i hnone
  obtain ⟨⟨t, created⟩, ht, h⟩ := Option.bind_eq_some_iff.mp h
  have htarget : WriteTarget s t norm parent name created := ⟨hsplit, .inr ⟨hnone, ht⟩⟩
  refine .inr ⟨norm, parent, name, t, created, not_not.mp habs, hnorm, htarget, ?_⟩
  dsimp only at h
  split at h
  · rename_i hcreated
    obtain ⟨rfl, rfl⟩ := Prod.mk.inj (Option.some.inj h)
    exact .inl ⟨rfl, rfl, fun hc => absurd hc (by simpa using hcreated)⟩
  split at h
  · rename_i hgone
    obtain ⟨rfl, rfl⟩ := Prod.mk.inj (Option.some.inj h)
    exact .inl ⟨rfl, rfl, fun _ => hgone⟩
  · rename_i idx hidx
    exact .inr ⟨idx, hidx, (Option.some.inj h).symm⟩

theorem writeFile_cases {s s' : Entries} {path content : Str} {b : Bool}
    (h : writeFile s path content = some (s', b)) :
    ∃ t, SameShape t s' ∧ (t = s ∨ ∃ norm c, path.head? = some slash ∧
      normalizePath path = some norm ∧ touch s norm = some (t, c)) := by
  rcases writeFile_stages h with
    ⟨-, rfl⟩ | ⟨norm, parent, name, t, created, habs, hnorm, htarget, hstore⟩
  · exact ⟨s', fun i => ⟨rfl, rfl, rfl⟩, .inl rfl⟩
  refine ⟨t, ?_, htarget.table.imp And.left fun h => ⟨norm, created, habs, hnorm, h.2⟩⟩
  rcases hstore with ⟨rfl, -⟩ | ⟨idx, -, hstore⟩
  · exact fun i => ⟨rfl, rfl, rfl⟩
  · obtain rfl : s' = _ := (Prod.mk.inj hstore).1
    exact storeContent_sameShape t idx content

theorem rm_cases {s s' : Entries} {path : Str} {b : Bool} (h : rm s path = some (s', b)) :
    s' = s ∨ b = true ∧ ∃ norm parent name idx, normalizePath path = some norm ∧
      splitPath norm = some (parent, name) ∧ findEntry s parent name = some idx ∧
      s' = Function.update s idx FileEntry.cleared ∧
      ((s idx).type = .directory →
        ∀ i, (s i).IsUsed → (s i).parent ≠ joinPath parent name) := by
  unfold rm at h
  split at h
  · obtain ⟨rfl, rfl⟩ := Prod.mk.inj (Option.some.inj h)
    exact .inl rfl
  obtain ⟨norm, hnorm, h⟩ := Option.bind_eq_some_iff.mp h
  split at h
  · obtain ⟨rfl, rfl⟩ := Prod.mk.inj (Option.some.inj h)
    exact .inl rfl
  obtain ⟨⟨parent, name⟩, hsplit, h⟩ := Option.bind_eq_some_iff.mp h
  dsimp only at h
  split at h
  · obtain ⟨rfl, rfl⟩ := Prod.mk.inj (Option.some.inj h)
    exact .inl rfl
  rename_i idx hidx
  split at h
  · obtain ⟨full, hfull, h⟩ := Option.bind_eq_some_iff.mp h
    split at h
    · obtain ⟨rfl, rfl⟩ := Prod.mk.inj (Option.some.inj h)
      exact .inl rfl
    · rename_i hchild
      obtain ⟨rfl, rfl⟩ := Prod.mk.inj (Option.some.inj h)
      refine .inr ⟨rfl, norm, parent, name, idx, hnorm, hsplit, hidx, rfl, ?_⟩
      intro _ i hi hpar
      apply hchild
      rw [(fits_eq_some.mp hfull).2]
      exact decide_eq_true ⟨i, hi, hpar⟩
  · rename_i htype
    obtain ⟨rfl, rfl⟩ := Prod.mk.inj (Option.some.inj h)
    exact .inr ⟨rfl, norm, parent, name, idx, hnorm, hsplit, hidx, rfl, fun h => absurd h htype⟩

/-- The operation behind a call, and that `read_file` and `ls` return the table they read. -/
inductive StepCase (s : Entries) : Call Str → Entries → Result → Prop
  | mkdir {path : Str} {t : Entries} {b : Bool} (h : mkdir s path = some (t, b)) :
      StepCase s (.mkdir path) t (.flag b)
  | touch {path : Str} {t : Entries} {b : Bool} (h : touch s path = some (t, b)) :
      StepCase s (.touch path) t (.flag b)
  | writeFile {path content : Str} {t : Entries} {b : Bool}
      (h : writeFile s path content = some (t, b)) :
      StepCase s (.writeFile path content) t (.flag b)
  | readFile {path : Str} {bufSize : UInt32} {output : Option Str}
      (h : readFile s path bufSize = some output) :
      StepCase s (.readFile path bufSize) s (.bytes output)
  | ls {path : Str} {bufSize : UInt32} {count : ℕ} {output : Option Str}
      (h : ls s path bufSize = some (count, output)) :
      StepCase s (.ls path bufSize) s (.count count)
  | rm {path : Str} {t : Entries} {b : Bool} (h : rm s path = some (t, b)) :
      StepCase s (.rm path) t (.flag b)

theorem step_cases {s t : Entries} {c : Call Str} {r : Result} (h : step s c = some (t, r)) :
    StepCase s c t r := by
  cases c with
  | mkdir path =>
    obtain ⟨⟨u, b⟩, hcall, heq⟩ := Option.map_eq_some_iff.mp h
    obtain ⟨rfl, rfl⟩ := Prod.mk.inj heq
    exact .mkdir hcall
  | touch path =>
    obtain ⟨⟨u, b⟩, hcall, heq⟩ := Option.map_eq_some_iff.mp h
    obtain ⟨rfl, rfl⟩ := Prod.mk.inj heq
    exact .touch hcall
  | writeFile path content =>
    obtain ⟨⟨u, b⟩, hcall, heq⟩ := Option.map_eq_some_iff.mp h
    obtain ⟨rfl, rfl⟩ := Prod.mk.inj heq
    exact .writeFile hcall
  | readFile path bufSize =>
    obtain ⟨output, hcall, heq⟩ := Option.map_eq_some_iff.mp h
    obtain ⟨rfl, rfl⟩ := Prod.mk.inj heq
    exact .readFile hcall
  | ls path bufSize =>
    obtain ⟨⟨count, output⟩, hcall, heq⟩ := Option.map_eq_some_iff.mp h
    obtain ⟨rfl, rfl⟩ := Prod.mk.inj heq
    exact .ls hcall
  | rm path =>
    obtain ⟨⟨u, b⟩, hcall, heq⟩ := Option.map_eq_some_iff.mp h
    obtain ⟨rfl, rfl⟩ := Prod.mk.inj heq
    exact .rm hcall

end QuillOS.Filesystem
