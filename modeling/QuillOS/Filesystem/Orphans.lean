import QuillOS.Lib.Run
import QuillOS.Filesystem.Model

/-!
# No orphans

Every entry below the root names an existing directory as its parent, as long as no call creates
an entry under a parent string such as `"/a/"` that differs from the full path of the directory
it leads to.
-/

namespace QuillOS.Filesystem

open Lib

/-- The full path `rm` compares the parent strings of the other entries with. -/
def fullPath (e : FileEntry) : Str := joinPath e.parent e.name

def NoOrphans (s : Entries) : Prop :=
  ∀ i, i ≠ 0 → (s i).IsUsed →
    (s i).parent = rootPath ∨ ∃ j, (s j).type = .directory ∧ (s i).parent = fullPath (s j)

instance (s : Entries) : Decidable (NoOrphans s) :=
  inferInstanceAs (Decidable (∀ i, i ≠ 0 → (s i).IsUsed →
    (s i).parent = rootPath ∨ ∃ j, (s j).type = .directory ∧ (s i).parent = fullPath (s j)))

/-- Entry `j` is stored under entry `i`: its parent string is the full path of `i`, or leads
`split_path` and `find_entry` to `i`. -/
def StoredUnder (s : Entries) (i j : Fin maxFiles) : Prop :=
  (s j).IsUsed ∧
    ((s j).parent = fullPath (s i) ∨ splitPath (s j).parent = some ((s i).parent, (s i).name))

instance (s : Entries) (i j : Fin maxFiles) : Decidable (StoredUnder s i j) :=
  inferInstanceAs (Decidable (_ ∧ _))

def Step (s : Entries) (c : Call Str) (t : Entries) : Prop := (step s c).map Prod.fst = some t

/-! ## The condition -/

/-- A parent string that is rebuilt from its own parts. -/
def ProperParent (parent : Str) : Prop :=
  parent = rootPath ∨ (splitPath parent).map (fun (pp, pn) => joinPath pp pn) = some parent

instance (parent : Str) : Decidable (ProperParent parent) := inferInstanceAs (Decidable (_ ∨ _))

/-- Creating an entry at `path`, with these two strings, passes every check of `mkdir` and
`touch`. -/
structure WouldCreate (s : Entries) (path parent name : Str) : Prop where
  absolute : path.head? = some slash
  name_ne : name ≠ []
  parent_ok : parentExists s parent = some true
  fresh : findEntry s parent name = none
  room : findFreeSlot s ≠ none

instance (s : Entries) (path parent name : Str) : Decidable (WouldCreate s path parent name) :=
  decidable_of_iff (path.head? = some slash ∧ name ≠ [] ∧ parentExists s parent = some true ∧
      findEntry s parent name = none ∧ findFreeSlot s ≠ none)
    ⟨fun ⟨h1, h2, h3, h4, h5⟩ => ⟨h1, h2, h3, h4, h5⟩, fun ⟨h1, h2, h3, h4, h5⟩ => ⟨h1, h2, h3, h4, h5⟩⟩

def CreatesProperly (s : Entries) (path : Str) : Prop :=
  ∀ q ∈ (normalizePath path).bind splitPath, WouldCreate s path q.1 q.2 → ProperParent q.1

instance (s : Entries) (path : Str) : Decidable (CreatesProperly s path) :=
  inferInstanceAs (Decidable (∀ q ∈ (normalizePath path).bind splitPath, _))

/-- A call that creates an entry does so under a proper parent string. -/
def Proper (s : Entries) : Call Str → Prop
  | .mkdir path | .touch path | .writeFile path _ => CreatesProperly s path
  | _ => True

instance (s : Entries) (c : Call Str) : Decidable (Proper s c) := by
  cases c <;> unfold Proper <;> infer_instance

/-! ## The invariant -/

/-- The strings of a used entry other than the root. -/
structure EntryShape (e : FileEntry) : Prop where
  parent_ne : e.parent ≠ []
  name_ne : e.name ≠ []
  name_free : slash ∉ e.name
  name_fits : e.name.length < maxNameLen
  fits : (fullPath e).length < maxPathLen

structure Inv (s : Entries) : Prop where
  root_type : (s 0).type = .directory
  root_name : (s 0).name = rootPath
  root_parent : (s 0).parent = []
  shape : ∀ i, i ≠ 0 → (s i).IsUsed → EntryShape (s i)
  noOrphans : ∀ i, i ≠ 0 → (s i).IsUsed → (s i).parent = rootPath ∨
    ∃ j, j ≠ 0 ∧ (s j).type = .directory ∧ (s i).parent = fullPath (s j)

theorem Inv.root_used {s : Entries} (hinv : Inv s) : (s 0).IsUsed := by
  unfold FileEntry.IsUsed
  rw [hinv.root_type]
  exact FileType.noConfusion

/-- The root is never found by a name without a slash. -/
theorem Inv.ne_zero_of_name {s : Entries} (hinv : Inv s) {i : Fin maxFiles}
    (h : slash ∉ (s i).name) : i ≠ 0 := by
  rintro rfl
  rw [hinv.root_name] at h
  exact h (List.mem_singleton.mpr rfl)

theorem inv_init : Inv init := by
  have hfree : ∀ i, i ≠ 0 → ¬(init i).IsUsed := by
    intro i hi
    unfold init
    rw [Function.update_of_ne hi]
    exact not_not.mpr rfl
  exact ⟨rfl, rfl, rfl, fun i hi h => absurd h (hfree i hi), fun i hi h => absurd h (hfree i hi)⟩

theorem Inv.sameShape {s t : Entries} (hinv : Inv s) (h : SameShape s t) : Inv t := by
  have hused : ∀ i, (t i).IsUsed ↔ (s i).IsUsed := fun i => by
    unfold FileEntry.IsUsed; rw [(h i).1]
  have hfull : ∀ i, fullPath (t i) = fullPath (s i) := fun i => by
    unfold fullPath; rw [(h i).2.1, (h i).2.2]
  refine ⟨(h 0).1.trans hinv.root_type, (h 0).2.1.trans hinv.root_name,
    (h 0).2.2.trans hinv.root_parent, fun i hi hu => ?_, fun i hi hu => ?_⟩
  · obtain ⟨h1, h2, h3, h4, h5⟩ := hinv.shape i hi ((hused i).mp hu)
    refine ⟨?_, ?_, ?_, ?_, ?_⟩
    · rwa [(h i).2.2]
    · rwa [(h i).2.1]
    · rwa [(h i).2.1]
    · rwa [(h i).2.1]
    · rwa [hfull]
  · rw [(h i).2.2]
    refine (hinv.noOrphans i hi ((hused i).mp hu)).imp id ?_
    rintro ⟨j, hj, hdir, hpar⟩
    exact ⟨j, hj, (h j).1.trans hdir, hpar.trans (hfull j).symm⟩

theorem joinPath_length_le (p name : Str) :
    (joinPath (parentOf p) name).length ≤ (p ++ slash :: name).length := by
  unfold joinPath parentOf
  by_cases hp : p = []
  · simp [hp]
  · rw [if_neg hp]
    split
    · simp
    · exact le_rfl

/-- The strings of a new entry, for an absolute path in normal form. -/
theorem Creates.shape {s : Entries} {norm : Str} {slot : Fin maxFiles} {e : FileEntry}
    (h : Creates s norm slot e) (habs : norm.head? = some slash)
    (hnorm : stripSlashes norm = norm) : EntryShape e := by
  obtain ⟨hlen, hfree, hfits, hcut⟩ := splitPath_spec h.split
  rw [hnorm] at hcut
  obtain ⟨p, hp, hparent⟩ : ∃ p, norm = p ++ slash :: e.name ∧ e.parent = parentOf p := by
    refine hcut.resolve_left fun ⟨hname, _⟩ => hfree ?_
    rw [← hname]
    exact List.mem_of_mem_head? (habs ▸ rfl)
  refine ⟨hparent ▸ parentOf_ne_nil p, h.name_ne, hfree, hfits, ?_⟩
  unfold fullPath
  rw [hparent]
  exact (joinPath_length_le p e.name).trans_lt (hp ▸ hlen)

theorem Creates.inv {s : Entries} {norm : Str} {slot : Fin maxFiles} {e : FileEntry} (hinv : Inv s)
    (h : Creates s norm slot e) (hshape : EntryShape e) (hproper : ProperParent e.parent) :
    Inv (Function.update s slot e) := by
  have hslot : slot ≠ 0 := by
    rintro rfl
    exact h.free hinv.root_used
  have hne : ∀ j, (s j).IsUsed → j ≠ slot := by
    rintro j hj rfl
    exact h.free hj
  have hdir : ∀ j, (s j).type = .directory → Function.update s slot e j = s j := fun j hj =>
    Function.update_of_ne (hne j (by unfold FileEntry.IsUsed; rw [hj]; exact FileType.noConfusion)) _ _
  have hroot : Function.update s slot e 0 = s 0 := Function.update_of_ne hslot.symm _ _
  refine ⟨hroot ▸ hinv.root_type, hroot ▸ hinv.root_name, hroot ▸ hinv.root_parent,
    fun i hi hu => ?_, fun i hi hu => ?_⟩
  · by_cases his : i = slot
    · rwa [his, Function.update_self]
    · rw [Function.update_of_ne his] at hu ⊢
      exact hinv.shape i hi hu
  · by_cases his : i = slot
    · rw [his, Function.update_self]
      refine hproper.elim .inl fun hjoin => ?_
      refine (parentExists_eq_true h.parent_ok).imp id ?_
      rintro ⟨pp, pn, j, hsplit, hfind, hjdir⟩
      obtain ⟨hused, hname, hparent⟩ := findEntry_spec hfind
      rw [hsplit] at hjoin
      have hjoin : joinPath pp pn = e.parent := Option.some.inj hjoin
      have hj : j ≠ 0 := hinv.ne_zero_of_name (hname ▸ (splitPath_spec hsplit).2.1)
      exact ⟨j, hj, by rwa [hdir j hjdir], by rw [hdir j hjdir, fullPath, hname, hparent, hjoin]⟩
    · rw [Function.update_of_ne his] at hu ⊢
      refine (hinv.noOrphans i hi hu).imp id ?_
      rintro ⟨j, hj, hjdir, hpar⟩
      exact ⟨j, hj, by rwa [hdir j hjdir], by rwa [hdir j hjdir]⟩

theorem Inv.clear {s : Entries} {parent name : Str} {idx : Fin maxFiles} (hinv : Inv s)
    (hidx : findEntry s parent name = some idx) (hfree : slash ∉ name)
    (hempty : (s idx).type = .directory → ∀ i, (s i).IsUsed → (s i).parent ≠ joinPath parent name) :
    Inv (Function.update s idx FileEntry.cleared) := by
  obtain ⟨hused, hname, hparent⟩ := findEntry_spec hidx
  have hne : idx ≠ 0 := hinv.ne_zero_of_name (hname ▸ hfree)
  have hroot : Function.update s idx FileEntry.cleared 0 = s 0 := Function.update_of_ne hne.symm _ _
  have hkeep : ∀ i, (Function.update s idx FileEntry.cleared i).IsUsed → i ≠ idx := by
    rintro i hi rfl
    rw [Function.update_self] at hi
    exact hi rfl
  refine ⟨hroot ▸ hinv.root_type, hroot ▸ hinv.root_name, hroot ▸ hinv.root_parent,
    fun i hi hu => ?_, fun i hi hu => ?_⟩
  · have his := hkeep i hu
    rw [Function.update_of_ne his] at hu ⊢
    exact hinv.shape i hi hu
  · have his := hkeep i hu
    rw [Function.update_of_ne his] at hu ⊢
    refine (hinv.noOrphans i hi hu).imp id ?_
    rintro ⟨j, hj, hdir, hpar⟩
    -- A directory with an entry under it is not the one that was removed.
    have hjs : j ≠ idx := by
      rintro rfl
      refine hempty hdir i hu ?_
      rw [hpar, fullPath, hname, hparent]
    exact ⟨j, hj, by rwa [Function.update_of_ne hjs], by rwa [Function.update_of_ne hjs]⟩

/-! ## Every call keeps it -/

theorem Creates.properParent {s : Entries} {path norm : Str} {slot : Fin maxFiles} {e : FileEntry}
    (h : Creates s norm slot e) (habs : path.head? = some slash)
    (hnorm : normalizePath path = some norm) (hproper : CreatesProperly s path) :
    ProperParent e.parent := by
  refine hproper (e.parent, e.name) ?_ ⟨habs, h.name_ne, h.parent_ok, h.fresh, fun hroom => ?_⟩
  · rw [hnorm]
    exact h.split
  · exact h.free (findFreeSlot_eq_none.mp hroom slot)

theorem normalizePath_spec {path norm : Str} (h : normalizePath path = some norm) :
    path.length < maxPathLen ∧ norm = stripSlashes path := by
  obtain ⟨t, ht, rfl⟩ := Option.map_eq_some_iff.mp h
  obtain ⟨hlen, rfl⟩ := fits_eq_some.mp ht
  exact ⟨hlen, rfl⟩

/-- The normal form of an absolute path is absolute, and its own normal form. -/
theorem normalizePath_absolute {path norm : Str} (h : normalizePath path = some norm)
    (habs : path.head? = some slash) :
    norm.head? = some slash ∧ normalizePath norm = some norm ∧ stripSlashes norm = norm := by
  obtain ⟨hlen, rfl⟩ := normalizePath_spec h
  refine ⟨?_, ?_, stripSlashes_idem path⟩
  · obtain ⟨t, ht⟩ := stripSlashes_isPrefix path
    cases hs : stripSlashes path with
    | nil => exact absurd hs (stripSlashes_ne_nil (by rintro rfl; cases habs))
    | cons c r =>
      rw [hs, List.cons_append] at ht
      rw [← ht] at habs
      exact habs
  · unfold normalizePath
    rw [fits_of_lt ((stripSlashes_length_le path).trans_lt hlen), Option.map_some, stripSlashes_idem]

theorem Inv.mkdir {s t : Entries} {path : Str} {b : Bool} (hinv : Inv s)
    (hproper : Proper s (.mkdir path)) (h : mkdir s path = some (t, b)) : Inv t := by
  rcases mkdir_cases h with rfl | ⟨-, norm, slot, parent, name, habs, hnorm, hcreates, rfl⟩
  · exact hinv
  · obtain ⟨habs', -, hidem⟩ := normalizePath_absolute hnorm habs
    exact hcreates.inv hinv (hcreates.shape habs' hidem)
      (hcreates.properParent habs hnorm hproper)

theorem Inv.touch {s t : Entries} {path : Str} {b : Bool} (hinv : Inv s)
    (hproper : Proper s (.touch path)) (h : touch s path = some (t, b)) : Inv t := by
  rcases touch_cases h with rfl | ⟨-, norm, slot, parent, name, habs, hnorm, hcreates, rfl⟩
  · exact hinv
  · obtain ⟨habs', -, hidem⟩ := normalizePath_absolute hnorm habs
    exact hcreates.inv hinv (hcreates.shape habs' hidem)
      (hcreates.properParent habs hnorm hproper)

/-- `write_file` creates through `touch`, on the normal form of its path. -/
theorem Inv.writeFile {s t : Entries} {path content : Str} {b : Bool} (hinv : Inv s)
    (hproper : Proper s (.writeFile path content)) (h : writeFile s path content = some (t, b)) :
    Inv t := by
  obtain ⟨u, hshape, rfl | ⟨norm, c, habs, hnorm, htouch⟩⟩ := writeFile_cases h
  · exact hinv.sameShape hshape
  refine Inv.sameShape (hinv.touch (fun q hq hw => hproper q ?_ ?_) htouch) hshape
  · rw [hnorm]
    rwa [(normalizePath_absolute hnorm habs).2.1] at hq
  · exact { hw with absolute := habs }

theorem Inv.rm {s t : Entries} {path : Str} {b : Bool} (hinv : Inv s)
    (h : rm s path = some (t, b)) : Inv t := by
  rcases rm_cases h with rfl | ⟨-, norm, parent, name, idx, -, hsplit, hidx, rfl, hempty⟩
  · exact hinv
  · exact hinv.clear hidx (splitPath_spec hsplit).2.1 hempty

theorem inv_step {s t : Entries} {c : Call Str} (hinv : Inv s) (hproper : Proper s c)
    (h : Step s c t) : Inv t := by
  obtain ⟨⟨u, r⟩, hstep, rfl⟩ := Option.map_eq_some_iff.mp h
  cases step_cases hstep with
  | mkdir hcall => exact hinv.mkdir hproper hcall
  | touch hcall => exact hinv.touch hproper hcall
  | writeFile hcall => exact hinv.writeFile hproper hcall
  | readFile _ => exact hinv
  | ls _ => exact hinv
  | rm hcall => exact hinv.rm hcall

theorem inv_of_run {s : Entries} {cs : List (Call Str)} (h : Run (Where Proper Step) init cs s) :
    Inv s :=
  h.invariant Inv inv_init fun _ _ _ hinv hstep => inv_step hinv hstep.1 hstep.2

/-! ## The results -/

theorem Inv.has_parents {s : Entries} (hinv : Inv s) : NoOrphans s := fun i hi hu =>
  (hinv.noOrphans i hi hu).imp id fun ⟨j, _, hdir, hpar⟩ => ⟨j, hdir, hpar⟩

/-- A parent string that leads to an entry is the full path of that entry. -/
theorem Inv.parent_eq_fullPath {s : Entries} (hinv : Inv s) {i j : Fin maxFiles} (hi : i ≠ 0)
    (hiu : (s i).IsUsed) (h : StoredUnder s i j) : (s j).parent = fullPath (s i) := by
  obtain ⟨hju, hfull | hsplit⟩ := h
  · exact hfull
  have hname := (hinv.shape i hi hiu).name_ne
  have hroot : splitPath rootPath ≠ some ((s i).parent, (s i).name) := by
    rw [splitPath_rootPath]
    intro h
    exact hname (Prod.mk.inj (Option.some.inj h)).2.symm
  by_cases hj : j = 0
  · have hnil : splitPath [] = some (rootPath, []) := by decide
    rw [hj, hinv.root_parent, hnil] at hsplit
    exact absurd (Prod.mk.inj (Option.some.inj hsplit)).2.symm hname
  -- The parent string is the full path of a directory, which `split_path` takes apart uniquely.
  rcases hinv.noOrphans j hj hju with hpar | ⟨k, hk, hdir, hpar⟩
  · exact absurd (hpar ▸ hsplit) hroot
  · have hku : (s k).IsUsed := by
      unfold FileEntry.IsUsed
      rw [hdir]
      exact FileType.noConfusion
    obtain ⟨h1, h2, h3, h4, h5⟩ := hinv.shape k hk hku
    rw [hpar, fullPath, splitPath_joinPath h1 h2 h3 h5, fits_of_lt h4] at hsplit
    obtain ⟨hp, hn⟩ := Prod.mk.inj (Option.some.inj hsplit)
    rw [hpar, fullPath, fullPath, hp, hn]

/-- In every run whose creating calls use proper parent strings there are no orphans, and `rm`
never removes a directory that has an entry stored under it. -/
theorem no_orphans {s : Entries} {cs : List (Call Str)} (hrun : Run (Where Proper Step) init cs s) :
    NoOrphans s ∧ ∀ path t b i, rm s path = some (t, b) → (s i).type = .directory →
      ¬(t i).IsUsed → ∀ j, ¬StoredUnder s i j := by
  have hinv := inv_of_run hrun
  refine ⟨hinv.has_parents, fun path t b i hrm hdir hgone j hunder => ?_⟩
  have hiu : (s i).IsUsed := by
    unfold FileEntry.IsUsed
    rw [hdir]
    exact FileType.noConfusion
  rcases rm_cases hrm with rfl | ⟨-, norm, parent, name, idx, -, hsplit, hidx, rfl, hempty⟩
  · exact hgone hiu
  -- Only the entry that `rm` found has gone.
  have hi : i = idx := by
    by_contra hne
    rw [Function.update_of_ne hne] at hgone
    exact hgone hiu
  subst hi
  obtain ⟨-, hname, hparent⟩ := findEntry_spec hidx
  have hne := hinv.ne_zero_of_name (hname ▸ (splitPath_spec hsplit).2.1)
  refine hempty hdir j hunder.1 ?_
  rw [hinv.parent_eq_fullPath hne hiu hunder, fullPath, hname, hparent]

/-- The bytes of `"/a"`, `"/a/b"` and `"/a//b"`. -/
def pathA : Str := [47, 97]
def pathAB : Str := [47, 97, 47, 98]
def pathASlashB : Str := [47, 97, 47, 47, 98]

theorem no_orphans_nested :
    ∃ s, Run Step init [.mkdir pathA, .touch pathAB] s ∧
      NoOrphans s ∧ ∀ path t b i, rm s path = some (t, b) → (s i).type = .directory →
        ¬(t i).IsUsed → ∀ j, ¬StoredUnder s i j := by
  have hok : (exec (guarded Proper fun s c => (step s c).map Prod.fst) init
      [.mkdir pathA, .touch pathAB]).isSome = true := by decide +kernel
  have hrun : Run (Where Proper Step) init [.mkdir pathA, .touch pathAB] _ := run_where_get hok
  exact ⟨_, hrun.of_where, no_orphans hrun⟩

@[irreducible] def orphaned : Entries :=
  (exec (fun s c => (step s c).map Prod.fst) init [.mkdir pathA, .touch pathASlashB]).get
    (by decide +kernel)

theorem orphaned_run : Run Step init [.mkdir pathA, .touch pathASlashB] orphaned := by
  unfold orphaned
  exact run_get _

@[irreducible] def orphanedRemoved : Entries × Bool := (rm orphaned pathA).get (by decide +kernel)

theorem orphanedRemoved_eq : rm orphaned pathA = some (orphanedRemoved.1, true) := by
  have hok : orphanedRemoved.2 = true := by decide +kernel
  have heq : rm orphaned pathA = some orphanedRemoved := by
    unfold orphanedRemoved
    exact (Option.some_get _).symm
  rw [heq, ← hok]

/-- `touch "/a//b"` stores the parent string `"/a/"`, which the emptiness check of `rm "/a"` does
not recognise. -/
theorem doubled_slash_orphans :
    ∃ s, Run Step init [.mkdir pathA, .touch pathASlashB] s ∧ ¬NoOrphans s ∧
      ∃ t i j, rm s pathA = some (t, true) ∧ (s i).type = .directory ∧ ¬(t i).IsUsed ∧
        StoredUnder s i j := by
  exact ⟨orphaned, orphaned_run, by decide +kernel, orphanedRemoved.1, 1, 2, orphanedRemoved_eq,
    by decide +kernel, by decide +kernel, by decide +kernel⟩

end QuillOS.Filesystem
