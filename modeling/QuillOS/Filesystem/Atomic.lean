import QuillOS.Filesystem.Orphans

/-!
# Atomicity

A call that fails leaves the table as it was and any other changes one entry at most, whatever
the slashes in its path: `touch` looks for the same two strings as the `write_file` that calls it.
-/

namespace QuillOS.Filesystem

open Lib

variable {s t : Entries} {norm parent name path content : Str} {slot idx : Fin maxFiles}
  {e : FileEntry} {b : Bool}

/-- The tables differ in one entry at most. -/
def OneEntry (s t : Entries) : Prop := ∃ i, ∀ j, j ≠ i → t j = s j

theorem OneEntry.refl (s : Entries) : OneEntry s s := ⟨0, fun _ _ => rfl⟩

theorem OneEntry.update (s : Entries) (i : Fin maxFiles) (e : FileEntry) :
    OneEntry s (Function.update s i e) :=
  ⟨i, fun _ hj => Function.update_of_ne hj _ _⟩

/-- The path leads to the root or to an entry. -/
def NamesEntry (s : Entries) (path : Str) : Prop :=
  ∃ norm, normalizePath path = some norm ∧ (norm = rootPath ∨
    ∃ parent name, splitPath norm = some (parent, name) ∧ findEntry s parent name ≠ none)

/-- The calls that only look. -/
def Call.Reads {π : Type*} : Call π → Prop
  | .readFile _ _ | .ls _ _ => True
  | _ => False

/-! ## The write that creates its file -/

theorem storeContent_cases (s : Entries) (idx : Fin maxFiles) (content : Str) :
    (s idx).type ≠ .regular ∧ storeContent s idx content = (s, false) ∨
      ∃ e, storeContent s idx content = (Function.update s idx e, true) := by
  unfold storeContent
  split
  · exact .inl ⟨by assumption, rfl⟩
  · exact .inr ⟨_, rfl⟩

/-- A new entry is the only one under its strings. -/
theorem Creates.find (h : Creates s norm slot e) :
    findEntry (Function.update s slot e) e.parent e.name = some slot := by
  have hothers := findEntry_eq_none.mp h.fresh
  cases hfind : findEntry (Function.update s slot e) e.parent e.name with
  | none =>
    have hslot := findEntry_eq_none.mp hfind slot
    rw [Function.update_self] at hslot
    exact absurd ⟨h.used, rfl, rfl⟩ hslot
  | some i =>
    by_cases hi : i = slot
    · rw [hi]
    · have hspec := findEntry_spec hfind
      rw [Function.update_of_ne hi] at hspec
      exact absurd hspec (hothers i)

theorem writeFile_atomic (h : writeFile s path content = some (t, b)) :
    t = s ∨ b = true ∧ OneEntry s t := by
  rcases writeFile_stages h with
    ⟨-, rfl⟩ | ⟨norm, parent, name, u, created, habs, hnorm, ⟨hsplit, htable⟩, hstore⟩
  · exact .inl rfl
  rcases htable with ⟨rfl, -⟩ | ⟨hnone, htouch⟩
  · -- The file was there.
    rcases hstore with ⟨rfl, -⟩ | ⟨idx, -, hstore⟩
    · exact .inl rfl
    rcases storeContent_cases u idx content with ⟨-, hrefused⟩ | ⟨e, hstored⟩
    · exact .inl (Prod.mk.inj (hstore.trans hrefused)).1
    · obtain ⟨rfl, rfl⟩ := Prod.mk.inj (hstore.trans hstored)
      exact .inr ⟨rfl, OneEntry.update u idx e⟩
  rcases touch_cases htouch with rfl | ⟨hcreated, norm', slot, parent', name', -, hnorm', hnew, rfl⟩
  · -- Nothing was created, so nothing is found.
    rcases hstore with ⟨rfl, -⟩ | ⟨idx, hfound, -⟩
    · exact .inl rfl
    · rw [hnone] at hfound
      cases hfound
  -- `touch` splits the normal form of what is in normal form, and stores the two strings searched.
  obtain ⟨-, hidem, -⟩ := normalizePath_absolute hnorm habs
  obtain rfl : norm = norm' := Option.some.inj (hidem.symm.trans hnorm')
  obtain ⟨rfl, rfl⟩ := Prod.mk.inj (Option.some.inj (hsplit.symm.trans hnew.split))
  have hfind := hnew.find
  rcases hstore with ⟨-, -, hgone⟩ | ⟨idx, hfound, hstore⟩
  · exact absurd (hfind.symm.trans (hgone hcreated)) (Option.some_ne_none slot)
  obtain rfl : slot = idx := Option.some.inj (hfind.symm.trans hfound)
  rcases storeContent_cases (Function.update s slot (fileEntry parent name)) slot content with
    ⟨htype, -⟩ | ⟨e, hstored⟩
  · rw [Function.update_self] at htype
    exact absurd rfl htype
  · obtain ⟨rfl, rfl⟩ := Prod.mk.inj (hstore.trans hstored)
    rw [Function.update_idem]
    exact .inr ⟨rfl, OneEntry.update s slot e⟩

/-! ## All calls -/

theorem mkdir_atomic (h : mkdir s path = some (t, b)) : t = s ∨ b = true ∧ OneEntry s t := by
  rcases mkdir_cases h with rfl | ⟨hb, norm, slot, parent, name, -, -, -, rfl⟩
  · exact .inl rfl
  · exact .inr ⟨hb, OneEntry.update s slot _⟩

theorem touch_atomic (h : touch s path = some (t, b)) : t = s ∨ b = true ∧ OneEntry s t := by
  rcases touch_cases h with rfl | ⟨hb, norm, slot, parent, name, -, -, -, rfl⟩
  · exact .inl rfl
  · exact .inr ⟨hb, OneEntry.update s slot _⟩

theorem rm_atomic (h : rm s path = some (t, b)) : t = s ∨ b = true ∧ OneEntry s t := by
  rcases rm_cases h with rfl | ⟨hb, norm, parent, name, idx, -, -, -, rfl, -⟩
  · exact .inl rfl
  · exact .inr ⟨hb, OneEntry.update s idx _⟩

theorem touch_existing (h : touch s path = some (t, b)) (hnames : NamesEntry s path) : t = s := by
  obtain ⟨norm, hnorm, hfound⟩ := hnames
  rcases touch_cases h with rfl | ⟨-, norm', slot, parent, name, -, hnorm', hnew, -⟩
  · rfl
  obtain rfl : norm = norm' := Option.some.inj (hnorm.symm.trans hnorm')
  rcases hfound with rfl | ⟨parent', name', hsplit, hfound⟩
  · obtain ⟨-, hname⟩ := Prod.mk.inj (Option.some.inj (splitPath_rootPath.symm.trans hnew.split))
    exact absurd hname.symm hnew.name_ne
  · obtain ⟨rfl, rfl⟩ := Prod.mk.inj (Option.some.inj (hsplit.symm.trans hnew.split))
    exact absurd hnew.fresh hfound

theorem step_reads {c : Call Str} {r : Result} (h : step s c = some (t, r)) (hreads : c.Reads) :
    t = s := by
  cases step_cases h with
  | readFile _ => rfl
  | ls _ => rfl
  | mkdir _ => exact hreads.elim
  | touch _ => exact hreads.elim
  | writeFile _ => exact hreads.elim
  | rm _ => exact hreads.elim

/-- The table stays as it is, or the call succeeds and changes one entry at most. -/
theorem step_atomic {c : Call Str} {r : Result} (h : step s c = some (t, r)) :
    t = s ∨ r = .flag true ∧ OneEntry s t := by
  have hflag : ∀ {b : Bool}, (t = s ∨ b = true ∧ OneEntry s t) →
      t = s ∨ Result.flag b = .flag true ∧ OneEntry s t :=
    fun h => h.imp id fun ⟨hb, hone⟩ => ⟨congrArg Result.flag hb, hone⟩
  cases step_cases h with
  | mkdir hcall => exact hflag (mkdir_atomic hcall)
  | touch hcall => exact hflag (touch_atomic hcall)
  | writeFile hcall => exact hflag (writeFile_atomic hcall)
  | readFile _ => exact .inl rfl
  | ls _ => exact .inl rfl
  | rm hcall => exact hflag (rm_atomic hcall)

/-- Every call that keeps inside its buffers is atomic and local, on any table and with any
path. -/
theorem calls_atomic {c : Call Str} {r : Result} (h : step s c = some (t, r)) :
    (r = .flag false → t = s) ∧ OneEntry s t ∧ (c.Reads → t = s) ∧
      ∀ path, c = .touch path → NamesEntry s path → t = s := by
  have hcases := step_atomic h
  refine ⟨?_, ?_, ?_, ?_⟩
  · rintro rfl
    rcases hcases with heq | ⟨hflag, -⟩
    · exact heq
    · cases hflag
  · rcases hcases with rfl | ⟨-, hone⟩
    · exact OneEntry.refl t
    · exact hone
  · exact step_reads h
  · rintro path rfl hnames
    cases step_cases h with
    | touch hcall => exact touch_existing hcall hnames

/-- A write to a name without a file creates it. -/
@[irreducible] def written : Entries × Result :=
  (step init (.writeFile pathA [104, 105])).get (by decide +kernel)

theorem step_written : step init (.writeFile pathA [104, 105]) = some (written.1, written.2) := by
  have hsome : step init (.writeFile pathA [104, 105]) = some written := by
    unfold written
    exact (Option.some_get _).symm
  exact hsome

theorem calls_atomic_written : written.2 = .flag true ∧ (written.1 1).size = 2 ∧
    OneEntry init written.1 :=
  ⟨by decide +kernel, by decide +kernel, (calls_atomic step_written).2.1⟩

end QuillOS.Filesystem
