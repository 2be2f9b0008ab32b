import QuillOS.Filesystem.Atomic
import QuillOS.Filesystem.LongNames

/-!
# Contents of files

A regular file holds a C string of at most 1023 characters, with zeros behind it; `write_file` stores
one and `read_file` gives it back.
-/

namespace QuillOS.Filesystem

open Lib

variable {s t : Entries} {path content text : Str} {idx : Fin maxFiles} {b : Bool} {e : FileEntry}

/-- The entry is a file with this text, and zeros behind it. -/
structure FileEntry.Holds (e : FileEntry) (text : Str) : Prop where
  type : e.type = .regular
  size : e.size = text.length
  data : e.data.toList = text ++ List.replicate (maxFileData - text.length) 0

/-- The text of a file, its name and its parent are all there is to it. -/
theorem FileEntry.Holds.ext {e' : FileEntry} (h : e.Holds text) (h' : e'.Holds text)
    (hname : e.name = e'.name) (hparent : e.parent = e'.parent) : e = e' := by
  have hdata : e.data = e'.data := Vector.toList_inj.mp (h.data.trans h'.data.symm)
  have htype := h.type.trans h'.type.symm
  have hsize := h.size.trans h'.size.symm
  cases e
  cases e'
  simp_all

/-- The path leads to a file with this text. -/
def FileHolds (s : Entries) (path text : Str) : Prop :=
  ∃ idx, findPath s path = some idx ∧ (s idx).Holds text

/-! ## Stored texts -/

/-- The bytes `write_file` stores: the first 1023 of the content, then zeros. -/
theorem stored_data (content : Str) {len : ℕ}
    (hlen : len = if content.length ≥ maxFileData then maxFileData - 1 else content.length) :
    (Vector.ofFn fun i : Fin maxFileData =>
        if i.val < len then content.getD i.val 0 else 0).toList =
      content.take (maxFileData - 1) ++ List.replicate (maxFileData - len) 0 := by
  have hmin : len = min (maxFileData - 1) content.length := by
    unfold maxFileData at *
    split at hlen <;> omega
  have hle : len < maxFileData := by
    unfold maxFileData at *
    omega
  apply List.ext_getElem
  · rw [Vector.length_toList, List.length_append, List.length_take, List.length_replicate]
    omega
  · intro i hi hi'
    rw [Vector.length_toList] at hi
    rw [Vector.getElem_toList, Vector.getElem_ofFn]
    by_cases hilen : i < len
    · have hic : i < content.length := by omega
      rw [if_pos hilen, List.getElem_append_left (by rw [List.length_take]; omega),
        List.getElem_take]
      simp [hic]
    · rw [if_neg hilen, List.getElem_append_right (by rw [List.length_take]; omega),
        List.getElem_replicate]

/-- A regular file takes the content, and keeps its name. -/
theorem storeContent_holds (htype : (s idx).type = .regular) (content : Str) :
    ∃ e, storeContent s idx content = (Function.update s idx e, true) ∧
      e.Holds (content.take (maxFileData - 1)) ∧ e.name = (s idx).name ∧
      e.parent = (s idx).parent := by
  unfold storeContent
  rw [if_neg (not_not.mpr htype)]
  refine ⟨_, rfl, ⟨htype, ?_, ?_⟩, rfl, rfl⟩
  · rw [List.length_take]
    dsimp only
    unfold maxFileData
    split <;> omega
  · rw [stored_data content rfl, List.length_take]
    congr 2
    unfold maxFileData
    split <;> omega

/-- A file that is given the text it has is left as it is. -/
theorem storeContent_self (h : (s idx).Holds text) (hlt : text.length < maxFileData) :
    storeContent s idx text = (s, true) := by
  obtain ⟨e, hstore, he, hname, hparent⟩ := storeContent_holds h.type text
  rw [List.take_of_length_le (by omega)] at he
  rw [hstore, he.ext h hname hparent, Function.update_eq_self]

theorem findEntry_sameShape (h : SameShape s t) (parent name : Str) :
    findEntry t parent name = findEntry s parent name := by
  unfold findEntry
  congr 1
  funext i
  obtain ⟨htype, hname, hparent⟩ := h i
  refine decide_eq_decide.mpr ?_
  unfold FileEntry.IsUsed
  rw [htype, hname, hparent]

/-! ## Write and read -/

/-- After a successful write the path leads to a file with the content. -/
theorem writeFile_holds (hlen : path.length < maxPathLen)
    (h : writeFile s path content = some (t, true)) :
    FileHolds t path (content.take (maxFileData - 1)) := by
  rcases writeFile_stages h with
    ⟨habs, -⟩ | ⟨norm, parent, name, u, created, -, hnorm, htarget, hstore⟩
  · unfold writeFile at h
    rw [if_pos habs] at h
    cases h
  rw [normalizePath_eq hlen] at hnorm
  obtain rfl := Option.some.inj hnorm
  have hname := nameFits_of_split hlen htarget.split
  obtain ⟨rfl, rfl⟩ := Prod.mk.inj (Option.some.inj
    ((splitPath_strip hlen hname).symm.trans htarget.split))
  rcases hstore with ⟨-, hb, -⟩ | ⟨idx, hfind, hstore⟩
  · cases hb
  have hregular : (u idx).type = .regular := by
    by_contra hdir
    rw [storeContent, if_pos hdir] at hstore
    cases hstore
  obtain ⟨e, hstored, he, -, -⟩ := storeContent_holds hregular content
  have hshape := storeContent_sameShape u idx content
  rw [hstored] at hstore hshape
  obtain ⟨rfl, -⟩ := Prod.mk.inj hstore
  refine ⟨idx, ?_, by rwa [Function.update_self]⟩
  rw [findPath, findEntry_sameShape hshape]
  exact hfind

/-- Writing the text a file has changes nothing. -/
theorem writeFile_self (habs : path.head? = some slash) (hlen : path.length < maxPathLen)
    (hname : NameFits path) (h : FileHolds s path text) (hlt : text.length < maxFileData) :
    writeFile s path text = some (s, true) := by
  obtain ⟨idx, hfind, hholds⟩ := h
  rw [writeFile_of_found habs hlen hname hfind, storeContent_self hholds hlt]

/-- A buffer with room for the text and the terminator receives the text. -/
theorem readFile_of_holds {bufSize : UInt32} (habs : path.head? = some slash)
    (hlen : path.length < maxPathLen) (hname : NameFits path) (h : FileHolds s path text)
    (hlt : text.length < bufSize.toNat) : readFile s path bufSize = some (some text) := by
  obtain ⟨idx, hfind, hholds⟩ := h
  unfold findPath at hfind
  unfold readFile
  rw [if_neg (not_not.mpr habs), normalizePath_eq hlen]
  simp only [Option.bind_eq_bind, Option.bind_some, splitPath_strip hlen hname, hfind]
  rw [if_neg (not_not.mpr hholds.type), hholds.size, if_neg (Nat.not_le.mpr hlt), if_pos hlt,
    hholds.data, List.take_left' rfl]
  rfl

/-! ## Every file holds a text -/

/-- Each file holds a C string, with room for its terminator. -/
def TextFiles (s : Entries) : Prop :=
  ∀ i, (s i).type = .regular → ∃ text, text.length < maxFileData ∧ 0 ∉ text ∧ (s i).Holds text

/-- What a call writes is a C string. -/
def Call.WritesString {π : Type*} : Call π → Prop
  | .writeFile _ content => 0 ∉ content
  | _ => True

theorem textFiles_init : TextFiles init := by
  intro i hi
  rcases eq_or_ne i 0 with rfl | hne
  · cases hi
  · rw [init, Function.update_of_ne hne] at hi
    cases hi

namespace TextFiles

theorem update (h : TextFiles s)
    (he : e.type = .regular → ∃ text, text.length < maxFileData ∧ 0 ∉ text ∧ e.Holds text) :
    TextFiles (Function.update s idx e) := by
  intro i hi
  rcases eq_or_ne i idx with rfl | hne
  · rw [Function.update_self] at hi ⊢
    exact he hi
  · rw [Function.update_of_ne hne] at hi ⊢
    exact h i hi

theorem fileEntry_holds (parent name : Str) : (fileEntry parent name).Holds [] where
  type := rfl
  size := rfl
  data := by
    unfold fileEntry
    rw [Vector.toList_replicate]
    rfl

theorem mkdir (h : TextFiles s) (hcall : mkdir s path = some (t, b)) : TextFiles t := by
  rcases mkdir_cases hcall with rfl | ⟨-, -, slot, parent, name, -, -, -, rfl⟩
  · exact h
  · exact h.update fun hdir => nomatch hdir

theorem touch (h : TextFiles s) (hcall : touch s path = some (t, b)) : TextFiles t := by
  rcases touch_cases hcall with rfl | ⟨-, -, slot, parent, name, -, -, -, rfl⟩
  · exact h
  · exact h.update fun _ => ⟨[], by decide, List.not_mem_nil, fileEntry_holds parent name⟩

theorem storeContent (h : TextFiles s) (hcontent : 0 ∉ content) :
    TextFiles (storeContent s idx content).1 := by
  by_cases htype : (s idx).type = .regular
  · obtain ⟨e, hstore, he, -, -⟩ := storeContent_holds htype content
    rw [hstore]
    refine h.update fun _ => ⟨content.take (maxFileData - 1), ?_, ?_, he⟩
    · rw [List.length_take]
      exact (Nat.min_le_left _ _).trans_lt (by decide)
    · exact fun hmem => hcontent (List.mem_of_mem_take hmem)
  · rw [Filesystem.storeContent, if_pos htype]
    exact h

theorem writeFile (h : TextFiles s) (hcontent : 0 ∉ content)
    (hcall : writeFile s path content = some (t, b)) : TextFiles t := by
  rcases writeFile_stages hcall with
    ⟨-, rfl⟩ | ⟨norm, parent, name, u, created, -, -, htarget, hstore⟩
  · exact h
  have hu : TextFiles u := by
    rcases htarget.table with ⟨rfl, -⟩ | ⟨-, htouch⟩
    · exact h
    · exact h.touch htouch
  rcases hstore with ⟨rfl, -⟩ | ⟨idx, -, hstore⟩
  · exact hu
  · obtain rfl : t = _ := (Prod.mk.inj hstore).1
    exact hu.storeContent hcontent

theorem rm (h : TextFiles s) (hcall : rm s path = some (t, b)) : TextFiles t := by
  rcases rm_cases hcall with rfl | ⟨-, -, -, -, idx, -, -, -, rfl, -⟩
  · exact h
  · exact h.update fun hregular => nomatch hregular

theorem step {c : Call Str} {r : Result} (h : TextFiles s) (hc : c.WritesString)
    (hcall : step s c = some (t, r)) : TextFiles t := by
  cases step_cases hcall with
  | mkdir hmkdir => exact h.mkdir hmkdir
  | touch htouch => exact h.touch htouch
  | writeFile hwrite => exact h.writeFile hc hwrite
  | readFile _ => exact h
  | ls _ => exact h
  | rm hrm => exact h.rm hrm

end TextFiles

/-- In every reachable table each file holds a text. -/
theorem textFiles_of_run {cs : List (Call Str)}
    (hrun : Run (Where (fun _ c => c.WritesString) Step) init cs s) : TextFiles s :=
  hrun.invariant TextFiles textFiles_init fun a c b ha hstep => by
    obtain ⟨⟨u, r⟩, hcall, rfl⟩ := Option.map_eq_some_iff.mp hstep.2
    exact ha.step hstep.1 hcall

theorem namesFit_of_run {cs : List (Call Str)} (hrun : Run Step init cs s) : NamesFit s := by
  refine hrun.invariant NamesFit (fun i hi => ?_) fun a c u ha hstep => ?_
  · rcases eq_or_ne i 0 with rfl | hne
    · decide
    · rw [init, Function.update_of_ne hne] at hi
      exact absurd rfl hi
  · obtain ⟨⟨v, r⟩, hcall, rfl⟩ := Option.map_eq_some_iff.mp hstep
    exact ha.step hcall

end QuillOS.Filesystem
