import QuillOS.Filesystem.Atomic

/-!
# Names

`find_entry` compares the two strings of a path with what `mkdir` and `touch` stored, byte for
byte, so no pair is stored twice however many slashes the paths have. A name never holds a slash
and the root's is one, so no path leads to the root.
-/

namespace QuillOS.Filesystem

open Lib

variable {s t : Entries} {norm parent name path content : Str} {slot idx : Fin maxFiles}
  {e : FileEntry} {b : Bool}

/-- The strings of an entry below the root. -/
structure NameShape (e : FileEntry) : Prop where
  name_ne : e.name ≠ []
  name_free : slash ∉ e.name
  absolute : e.parent.head? = some slash

/-- The root is as `init` left it, and the strings of a used entry are proper and its own. -/
structure NamesInv (s : Entries) : Prop where
  root : s 0 = init 0
  shape : ∀ i, i ≠ 0 → (s i).IsUsed → NameShape (s i)
  unique : ∀ i j, (s i).IsUsed → (s j).IsUsed → (s i).parent = (s j).parent →
    (s i).name = (s j).name → i = j

theorem namesInv_init : NamesInv init := by
  have hfree : ∀ i, (init i).IsUsed → i = 0 := by
    intro i hi
    by_contra hne
    unfold init at hi
    rw [Function.update_of_ne hne] at hi
    exact hi rfl
  refine ⟨rfl, fun i hi hu => absurd (hfree i hu) hi, fun i j hi hj _ _ => ?_⟩
  rw [hfree i hi, hfree j hj]

namespace NamesInv

theorem root_used (inv : NamesInv s) : (s 0).IsUsed := by
  rw [inv.root]
  exact FileType.noConfusion

/-- What is found under a name without a slash is not the root. -/
theorem found_ne (inv : NamesInv s) (hfind : findEntry s parent name = some idx)
    (hfree : slash ∉ name) : idx ≠ 0 := by
  rintro rfl
  obtain ⟨-, hname, -⟩ := findEntry_spec hfind
  rw [inv.root] at hname
  rw [← hname] at hfree
  exact hfree (List.mem_singleton.mpr rfl)

theorem sameShape (inv : NamesInv s) (h : SameShape s t) (hroot : t 0 = s 0) : NamesInv t := by
  have hused : ∀ i, (t i).IsUsed → (s i).IsUsed := by
    intro i hi
    unfold FileEntry.IsUsed at hi
    rwa [(h i).1] at hi
  refine ⟨hroot.trans inv.root, fun i hi hu => ?_, fun i j hi hj hparent hname => ?_⟩
  · obtain ⟨hne, hfree, habs⟩ := inv.shape i hi (hused i hu)
    refine ⟨?_, ?_, ?_⟩
    · rwa [(h i).2.1]
    · rwa [(h i).2.1]
    · rwa [(h i).2.2]
  · apply inv.unique i j (hused i hi) (hused j hj)
    · rw [← (h i).2.2, ← (h j).2.2, hparent]
    · rw [← (h i).2.1, ← (h j).2.1, hname]

/-- An entry under strings that were not there. -/
theorem stored (inv : NamesInv s) (hnew : Creates s norm slot e) (hshape : NameShape e) :
    NamesInv (Function.update s slot e) := by
  have hslot : slot ≠ 0 := by
    rintro rfl
    exact hnew.free inv.root_used
  have hothers := findEntry_eq_none.mp hnew.fresh
  have hold : ∀ i, (Function.update s slot e i).IsUsed → i ≠ slot →
      Function.update s slot e i = s i ∧ (s i).IsUsed := by
    intro i hi hne
    rw [Function.update_of_ne hne] at hi ⊢
    exact ⟨rfl, hi⟩
  refine ⟨?_, fun i hi hu => ?_, fun i j hi hj hparent hname => ?_⟩
  · rw [Function.update_of_ne hslot.symm]
    exact inv.root
  · by_cases his : i = slot
    · rwa [his, Function.update_self]
    · obtain ⟨heq, hu'⟩ := hold i hu his
      rw [heq]
      exact inv.shape i hi hu'
  · by_cases his : i = slot
    · by_cases hjs : j = slot
      · rw [his, hjs]
      · obtain ⟨heq, hj'⟩ := hold j hj hjs
        rw [his, Function.update_self, heq] at hparent hname
        exact absurd ⟨hj', hname.symm, hparent.symm⟩ (hothers j)
    · obtain ⟨heq, hi'⟩ := hold i hi his
      by_cases hjs : j = slot
      · rw [hjs, Function.update_self, heq] at hparent hname
        exact absurd ⟨hi', hname, hparent⟩ (hothers i)
      · obtain ⟨heq', hj'⟩ := hold j hj hjs
        rw [heq, heq'] at hparent hname
        exact inv.unique i j hi' hj' hparent hname

theorem cleared (inv : NamesInv s) (hne : idx ≠ 0) :
    NamesInv (Function.update s idx FileEntry.cleared) := by
  have hold : ∀ i, (Function.update s idx FileEntry.cleared i).IsUsed →
      Function.update s idx FileEntry.cleared i = s i ∧ (s i).IsUsed := by
    intro i hi
    by_cases hidx : i = idx
    · rw [hidx, Function.update_self] at hi
      exact absurd rfl hi
    · rw [Function.update_of_ne hidx] at hi ⊢
      exact ⟨rfl, hi⟩
  refine ⟨?_, fun i hi hu => ?_, fun i j hi hj hparent hname => ?_⟩
  · rw [Function.update_of_ne hne.symm]
    exact inv.root
  · obtain ⟨heq, hu'⟩ := hold i hu
    rw [heq]
    exact inv.shape i hi hu'
  · obtain ⟨heq, hi'⟩ := hold i hi
    obtain ⟨heq', hj'⟩ := hold j hj
    rw [heq, heq'] at hparent hname
    exact inv.unique i j hi' hj' hparent hname

theorem contentStored (inv : NamesInv s) (hne : idx ≠ 0) (content : Str) :
    NamesInv (storeContent s idx content).1 := by
  apply inv.sameShape (storeContent_sameShape s idx content)
  rcases storeContent_cases s idx content with ⟨-, hrefused⟩ | ⟨e, hstored⟩
  · rw [hrefused]
  · rw [hstored]
    exact Function.update_of_ne hne.symm _ _

end NamesInv

/-- The parent string of an absolute path is absolute. -/
theorem Creates.nameShape (h : Creates s norm slot e) (habs : norm.head? = some slash)
    (hnorm : stripSlashes norm = norm) : NameShape e := by
  obtain ⟨-, hfree, -, hcut⟩ := splitPath_spec h.split
  rw [hnorm] at hcut
  refine ⟨h.name_ne, hfree, ?_⟩
  rcases hcut with ⟨-, hparent⟩ | ⟨p, hp, hparent⟩
  · rw [hparent]
    rfl
  · rw [hparent]
    cases p with
    | nil => rfl
    | cons c p =>
      rw [hp] at habs
      exact habs

/-! ## Every call keeps it -/

namespace NamesInv

theorem mkdir (inv : NamesInv s) (h : mkdir s path = some (t, b)) : NamesInv t := by
  rcases mkdir_cases h with rfl | ⟨-, norm, slot, parent, name, habs, hnorm, hnew, rfl⟩
  · exact inv
  · obtain ⟨habs', -, hidem⟩ := normalizePath_absolute hnorm habs
    exact inv.stored hnew (hnew.nameShape habs' hidem)

theorem touch (inv : NamesInv s) (h : touch s path = some (t, b)) : NamesInv t := by
  rcases touch_cases h with rfl | ⟨-, norm, slot, parent, name, habs, hnorm, hnew, rfl⟩
  · exact inv
  · obtain ⟨habs', -, hidem⟩ := normalizePath_absolute hnorm habs
    exact inv.stored hnew (hnew.nameShape habs' hidem)

theorem writeFile (inv : NamesInv s) (h : writeFile s path content = some (t, b)) :
    NamesInv t := by
  rcases writeFile_stages h with
    ⟨-, rfl⟩ | ⟨norm, parent, name, u, created, habs, hnorm, ⟨hsplit, htable⟩, hstore⟩
  · exact inv
  have hinv : NamesInv u := by
    rcases htable with ⟨rfl, -⟩ | ⟨-, htouch⟩
    · exact inv
    · exact inv.touch htouch
  rcases hstore with ⟨rfl, -⟩ | ⟨idx, hfind, hstore⟩
  · exact hinv
  · obtain rfl : t = _ := (Prod.mk.inj hstore).1
    exact hinv.contentStored (hinv.found_ne hfind (splitPath_spec hsplit).2.1) content

theorem rm (inv : NamesInv s) (h : rm s path = some (t, b)) : NamesInv t := by
  rcases rm_cases h with rfl | ⟨-, norm, parent, name, idx, -, hsplit, hidx, rfl, -⟩
  · exact inv
  · exact inv.cleared (inv.found_ne hidx (splitPath_spec hsplit).2.1)

theorem step {c : Call Str} {r : Result} (inv : NamesInv s) (h : step s c = some (t, r)) :
    NamesInv t := by
  cases step_cases h with
  | mkdir hcall => exact inv.mkdir hcall
  | touch hcall => exact inv.touch hcall
  | writeFile hcall => exact inv.writeFile hcall
  | readFile _ => exact inv
  | ls _ => exact inv
  | rm hcall => exact inv.rm hcall

end NamesInv

theorem namesInv_of_run {cs : List (Call Str)} (hrun : Run Step init cs s) : NamesInv s := by
  apply hrun.invariant NamesInv namesInv_init
  intro u c v inv hstep
  obtain ⟨⟨v, r⟩, hcall, rfl⟩ := Option.map_eq_some_iff.mp hstep
  exact inv.step hcall

/-- After any calls with any paths the root is what `init` made it, no path leads to it and no call
changes it; every other used entry has a name without a slash under an absolute parent string, and
no two have the same strings. -/
theorem names_unique {cs : List (Call Str)} (hrun : Run Step init cs s) :
    s 0 = { FileEntry.cleared with type := .directory, name := rootPath, parent := [] } ∧
      (∀ path parent name, splitPath path = some (parent, name) →
        findEntry s parent name ≠ some 0) ∧
      (∀ c t, Step s c t → t 0 = s 0) ∧
      (∀ i, i ≠ 0 → (s i).IsUsed → (s i).name ≠ [] ∧ slash ∉ (s i).name ∧
        (s i).parent.head? = some slash) ∧
      ∀ i j, (s i).IsUsed → (s j).IsUsed → (s i).parent = (s j).parent →
        (s i).name = (s j).name → i = j := by
  have inv := namesInv_of_run hrun
  refine ⟨inv.root, ?_, ?_, ?_, inv.unique⟩
  · intro path parent name hsplit hfind
    exact inv.found_ne hfind (splitPath_spec hsplit).2.1 rfl
  · intro c t hstep
    obtain ⟨⟨t, r⟩, hcall, rfl⟩ := Option.map_eq_some_iff.mp hstep
    exact (inv.step hcall).root.trans inv.root.symm
  · intro i hi hu
    obtain ⟨hne, hfree, habs⟩ := inv.shape i hi hu
    exact ⟨hne, hfree, habs⟩

/-- Also where a doubled slash has put `b` under the parent string `"/a/"`. -/
theorem names_unique_orphaned : (orphaned 2).parent = [47, 97, 47] ∧ (orphaned 2).name = [98] ∧
    orphaned 0 = { FileEntry.cleared with type := .directory, name := rootPath, parent := [] } :=
  ⟨by decide +kernel, by decide +kernel, (names_unique orphaned_run).1⟩

end QuillOS.Filesystem
