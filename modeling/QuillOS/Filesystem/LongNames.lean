import QuillOS.Filesystem.Refinement
import QuillOS.Filesystem.Atomic

/-!
# Names that do not fit

`split_path` copies the last component of a path into a buffer of `MAX_NAME_LEN` bytes without
looking at its length, and the parent check of `mkdir` and `touch` does so with the last component
of the parent. A longer one is not refused but written past the end of the buffer.
-/

namespace QuillOS.Filesystem

variable {s t : Entries} {norm path content : Str} {existing b : Bool} {slot idx : Fin maxFiles}
  {e : FileEntry} {c : Call Str} {r : Result} {bufSize : UInt32}

/-! ## The two components -/

/-- What follows the last slash of a path without trailing slashes. -/
def lastComponent (path : Str) : Str :=
  match lastSlash (stripSlashes path) with
  | none => stripSlashes path
  | some k => (stripSlashes path).drop (k + 1)

/-- What precedes it. -/
def parentString (path : Str) : Str :=
  match lastSlash (stripSlashes path) with
  | none => rootPath
  | some 0 => rootPath
  | some k => path.take k

def NameFits (path : Str) : Prop := (lastComponent path).length < maxNameLen

def ParentFits (path : Str) : Prop := NameFits (parentString path)

instance (path : Str) : Decidable (NameFits path) := inferInstanceAs (Decidable (_ < _))

instance (path : Str) : Decidable (ParentFits path) := inferInstanceAs (Decidable (NameFits _))

theorem parentString_length (hlen : path.length < maxPathLen) :
    (parentString path).length < maxPathLen := by
  have hroot : rootPath.length < maxPathLen := by decide
  unfold parentString
  split
  · exact hroot
  · exact hroot
  · exact (List.length_take_le' _ _).trans_lt hlen

/-- A path of fitting length is split unless its last component is too long. -/
theorem splitPath_eq (hlen : path.length < maxPathLen) :
    splitPath path = (fits maxNameLen (lastComponent path)).map (Prod.mk (parentString path)) := by
  have hparent := parentString_length hlen
  unfold splitPath normalizePath lastComponent
  unfold parentString at hparent ⊢
  rw [fits_of_lt hlen]
  simp only [Option.map_some, Option.bind_eq_bind, Option.bind_some]
  cases hslash : lastSlash (stripSlashes path) with
  | none =>
    rw [hslash] at hparent
    simp only [fits_of_lt hparent, Option.bind_some, List.drop_zero]
    cases fits maxNameLen (stripSlashes path) <;> rfl
  | some k =>
    rw [hslash] at hparent
    cases k with
    | zero =>
      have hroot : rootPath.length < maxPathLen := hparent
      simp only [fits_of_lt hroot, Option.bind_some]
      cases fits maxNameLen ((stripSlashes path).drop (0 + 1)) <;> rfl
    | succ k =>
      have htake : (path.take (k + 1)).length < maxPathLen := hparent
      simp only [fits_of_lt htake, Option.bind_some]
      cases fits maxNameLen ((stripSlashes path).drop (k + 1 + 1)) <;> rfl

theorem splitPath_ne_none (hlen : path.length < maxPathLen) :
    splitPath path ≠ none ↔ NameFits path := by
  rw [splitPath_eq hlen, Ne, Option.map_eq_none_iff]
  unfold fits NameFits
  split
  · simp [*]
  · simp [*]

theorem lastComponent_strip (path : Str) :
    lastComponent (stripSlashes path) = lastComponent path := by
  unfold lastComponent
  rw [stripSlashes_idem]

theorem parentString_strip (path : Str) :
    parentString (stripSlashes path) = parentString path := by
  unfold parentString
  rw [stripSlashes_idem]
  split
  · rfl
  · rfl
  · next k _ hslash =>
    obtain ⟨hlt, -⟩ := lastSlashBelow_eq_some hslash
    obtain ⟨rest, hrest⟩ := stripSlashes_isPrefix path
    conv_rhs => rw [← hrest]
    rw [List.take_append_of_le_length hlt.le]

/-- Every operation splits the normal form of its path. -/
theorem splitPath_strip (hlen : path.length < maxPathLen) (hname : NameFits path) :
    splitPath (stripSlashes path) = some (parentString path, lastComponent path) := by
  have hlen' := (stripSlashes_length_le path).trans_lt hlen
  rw [splitPath_eq hlen', lastComponent_strip, parentString_strip, fits_of_lt hname]
  rfl

theorem nameFits_of_split {q : Str × Str} (hlen : path.length < maxPathLen)
    (h : splitPath (stripSlashes path) = some q) : NameFits path := by
  have hlen' := (stripSlashes_length_le path).trans_lt hlen
  have hname := (splitPath_ne_none hlen').mp (h ▸ Option.some_ne_none q)
  rwa [NameFits, lastComponent_strip] at hname

theorem stripSlashes_append_slash {p : Str} (hp : p ≠ []) :
    stripSlashes (p ++ [slash]) = stripSlashes p := by
  obtain ⟨d, r, hr⟩ := List.exists_cons_of_ne_nil (List.reverse_ne_nil_iff.mpr hp)
  unfold stripSlashes
  rw [List.reverse_append, hr]
  show (stripRev (slash :: d :: r)).reverse = _
  rw [stripRev, if_pos rfl]

/-- Only the path of the root ends in a slash once it is stripped. -/
theorem parentString_of_empty (h : lastComponent path = []) : parentString path = rootPath := by
  unfold lastComponent at h
  unfold parentString
  cases hslash : lastSlash (stripSlashes path) with
  | none => rfl
  | some k =>
    rw [hslash] at h
    cases k with
    | zero => rfl
    | succ k =>
      obtain ⟨hcut, -⟩ := lastSlash_eq_some hslash
      obtain ⟨hlt, -⟩ := lastSlashBelow_eq_some hslash
      have hdrop : (stripSlashes path).drop (k + 1 + 1) = [] := h
      rw [hdrop] at hcut
      have hne : (stripSlashes path).take (k + 1) ≠ [] := by
        rw [Ne, List.take_eq_nil_iff]
        rintro (hk | hq)
        · cases hk
        · rw [hq] at hlt
          exact absurd hlt (Nat.not_lt_zero _)
      have hidem := stripSlashes_idem path
      have hshort := stripSlashes_length_le ((stripSlashes path).take (k + 1))
      rw [← stripSlashes_append_slash hne, ← hcut, hidem, List.length_take] at hshort
      omega

/-! ## What the operations copy -/

/-- The entry a path leads to. -/
def findPath (s : Entries) (path : Str) : Option (Fin maxFiles) :=
  findEntry s (parentString path) (lastComponent path)

theorem normalizePath_eq (hlen : path.length < maxPathLen) :
    normalizePath path = some (stripSlashes path) := by
  rw [normalizePath, fits_of_lt hlen, Option.map_some]

theorem parentExists_ne_none (hlen : path.length < maxPathLen) :
    parentExists s (parentString path) ≠ none ↔ ParentFits path := by
  unfold parentExists
  split
  · next hroot =>
    have hfits : ParentFits path := by
      rw [ParentFits, hroot]
      decide
    simp [hfits]
  · rw [Ne, Option.map_eq_none_iff]
    exact splitPath_ne_none (parentString_length hlen)

/-- The creating part of `mkdir` and `touch` stays in its buffers if the parent's name does. -/
theorem createEntry_ne_none (entry : FileEntry → Str → Str → FileEntry)
    (hlen : path.length < maxPathLen) (hname : NameFits path) :
    createEntry s (stripSlashes path) existing entry ≠ none ↔ ParentFits path := by
  rw [← parentExists_ne_none (s := s) hlen]
  unfold createEntry
  rw [splitPath_strip hlen hname]
  simp only [Option.bind_eq_bind, Option.bind_some]
  split
  · next hempty =>
    rw [parentString_of_empty hempty]
    simp [parentExists]
  · cases parentExists s (parentString path) with
    | none => simp
    | some ok =>
      simp only [Option.bind_some, ne_eq, reduceCtorEq, not_false_eq_true, iff_true]
      split
      · exact Option.some_ne_none _
      · split
        · exact Option.some_ne_none _
        · split <;> exact Option.some_ne_none _

theorem createEntry_nameFits {q : Entries × Bool} {entry : FileEntry → Str → Str → FileEntry}
    (hlen : path.length < maxPathLen)
    (h : createEntry s (stripSlashes path) existing entry = some q) : NameFits path := by
  obtain ⟨p, hsplit, -⟩ := Option.bind_eq_some_iff.mp h
  exact nameFits_of_split hlen hsplit

/-- The root needs no buffer for a name. -/
theorem fits_of_root (h : stripSlashes path = rootPath) : NameFits path ∧ ParentFits path := by
  have hname : lastComponent path = [] := by
    rw [← lastComponent_strip, h]
    decide
  have hparent := parentString_of_empty hname
  constructor
  · rw [NameFits, hname]
    decide
  · rw [ParentFits, hparent]
    decide

theorem mkdir_ne_none (habs : path.head? = some slash) (hlen : path.length < maxPathLen) :
    mkdir s path ≠ none ↔ NameFits path ∧ ParentFits path := by
  rw [mkdir_eq, if_neg (not_not.mpr habs), normalizePath_eq hlen, Option.bind_some]
  split
  · next hroot => simp [fits_of_root hroot]
  · constructor
    · intro hsome
      obtain ⟨q, hq⟩ := Option.ne_none_iff_exists'.mp hsome
      have hname := createEntry_nameFits hlen hq
      exact ⟨hname, (createEntry_ne_none dirEntry hlen hname).mp hsome⟩
    · rintro ⟨hname, hparent⟩
      exact (createEntry_ne_none dirEntry hlen hname).mpr hparent

theorem touch_ne_none (habs : path.head? = some slash) (hlen : path.length < maxPathLen) :
    touch s path ≠ none ↔ NameFits path ∧ ParentFits path := by
  rw [touch_eq, if_neg (not_not.mpr habs), normalizePath_eq hlen, Option.bind_some]
  constructor
  · intro hsome
    obtain ⟨q, hq⟩ := Option.ne_none_iff_exists'.mp hsome
    have hname := createEntry_nameFits hlen hq
    exact ⟨hname, (createEntry_ne_none _ hlen hname).mp hsome⟩
  · rintro ⟨hname, hparent⟩
    exact (createEntry_ne_none _ hlen hname).mpr hparent

/-- `write_file` calls `touch` with the normal form of its path. -/
theorem touch_strip_ne_none (habs : path.head? = some slash) (hlen : path.length < maxPathLen) :
    touch s (stripSlashes path) ≠ none ↔ NameFits path ∧ ParentFits path := by
  obtain ⟨habs', -, -⟩ := normalizePath_absolute (normalizePath_eq hlen) habs
  have hlen' := (stripSlashes_length_le path).trans_lt hlen
  rw [touch_ne_none habs' hlen', NameFits, ParentFits, lastComponent_strip, parentString_strip]
  rfl

theorem writeFile_of_found (habs : path.head? = some slash) (hlen : path.length < maxPathLen)
    (hname : NameFits path) (hfind : findPath s path = some idx) :
    writeFile s path content = some (storeContent s idx content) := by
  unfold findPath at hfind
  unfold writeFile
  rw [if_neg (not_not.mpr habs), normalizePath_eq hlen]
  simp only [Option.bind_eq_bind, Option.bind_some, splitPath_strip hlen hname, hfind]
  rfl

theorem writeFile_of_missing (habs : path.head? = some slash) (hlen : path.length < maxPathLen)
    (hname : NameFits path) (hfind : findPath s path = none) :
    writeFile s path content ≠ none ↔ ParentFits path := by
  have htouch := touch_strip_ne_none (s := s) habs hlen
  unfold findPath at hfind
  unfold writeFile
  rw [if_neg (not_not.mpr habs), normalizePath_eq hlen]
  simp only [Option.bind_eq_bind, Option.bind_some, splitPath_strip hlen hname, hfind]
  rw [and_iff_right hname] at htouch
  rw [← htouch]
  cases touch s (stripSlashes path) with
  | none => simp
  | some q =>
    simp only [Option.bind_some, ne_eq, reduceCtorEq, not_false_eq_true, iff_true]
    split
    · exact Option.some_ne_none _
    · split <;> exact Option.some_ne_none _

theorem readFile_of_missing (habs : path.head? = some slash) (hlen : path.length < maxPathLen)
    (hname : NameFits path) (hfind : ∀ i, findPath s path = some i → (s i).type ≠ .regular) :
    readFile s path bufSize = some none := by
  unfold findPath at hfind
  unfold readFile
  rw [if_neg (not_not.mpr habs), normalizePath_eq hlen]
  simp only [Option.bind_eq_bind, Option.bind_some, splitPath_strip hlen hname]
  split
  · rfl
  · next i hi =>
    rw [if_pos (hfind i hi)]
    rfl

theorem readFile_of_regular (habs : path.head? = some slash) (hlen : path.length < maxPathLen)
    (hname : NameFits path) (hbuf : 1 ≤ bufSize.toNat) (hfind : findPath s path = some idx)
    (htype : (s idx).type = .regular) : ∃ out, readFile s path bufSize = some (some out) := by
  unfold findPath at hfind
  unfold readFile
  rw [if_neg (not_not.mpr habs), normalizePath_eq hlen]
  simp only [Option.bind_eq_bind, Option.bind_some, splitPath_strip hlen hname, hfind]
  have hsub : (bufSize - 1).toNat = bufSize.toNat - 1 :=
    UInt32.toNat_sub_of_le bufSize 1 (UInt32.le_iff_toNat_le.mpr hbuf)
  have hfits : (if (s idx).size ≥ bufSize.toNat then (bufSize - 1).toNat else (s idx).size) <
      bufSize.toNat := by
    split <;> omega
  rw [if_neg (not_not.mpr htype), if_pos hfits]
  exact ⟨_, rfl⟩

theorem readFile_ne_none (habs : path.head? = some slash) (hlen : path.length < maxPathLen)
    (hbuf : 1 ≤ bufSize.toNat) : readFile s path bufSize ≠ none ↔ NameFits path := by
  constructor
  · intro hsome
    obtain ⟨out, hread⟩ := Option.ne_none_iff_exists'.mp hsome
    unfold readFile at hread
    rw [if_neg (not_not.mpr habs), normalizePath_eq hlen] at hread
    simp only [Option.bind_eq_bind, Option.bind_some] at hread
    obtain ⟨q, hsplit, -⟩ := Option.bind_eq_some_iff.mp hread
    exact nameFits_of_split hlen hsplit
  · intro hname
    by_cases hregular : ∃ i, findPath s path = some i ∧ (s i).type = .regular
    · obtain ⟨i, hfind, htype⟩ := hregular
      obtain ⟨out, hout⟩ := readFile_of_regular habs hlen hname hbuf hfind htype
      rw [hout]
      exact Option.some_ne_none _
    · rw [readFile_of_missing habs hlen hname fun i hi htype => hregular ⟨i, hi, htype⟩]
      exact Option.some_ne_none _

/-- The full path `rm` puts together is no longer than the path it was given. -/
theorem joinPath_fits (habs : path.head? = some slash) (hlen : path.length < maxPathLen)
    (hname : NameFits path) :
    (joinPath (parentString path) (lastComponent path)).length < maxPathLen := by
  obtain ⟨habs', -, hidem⟩ := normalizePath_absolute (normalizePath_eq hlen) habs
  obtain ⟨hlen', hfree, -, hcut⟩ := splitPath_spec (splitPath_strip hlen hname)
  rw [hidem] at hcut
  rcases hcut with ⟨hwhole, -⟩ | ⟨p, hp, hparent⟩
  · rw [← hwhole] at hfree
    exact absurd (List.mem_of_mem_head? (habs' ▸ rfl)) hfree
  · rw [hparent]
    exact (joinPath_length_le p (lastComponent path)).trans_lt (hp ▸ hlen')

/-- The directory at `i` is one `rm` keeps. -/
def Occupied (s : Entries) (path : Str) (i : Fin maxFiles) : Prop :=
  (s i).type = .directory ∧
    hasChild s (joinPath (parentString path) (lastComponent path)) = true

instance (s : Entries) (path : Str) (i : Fin maxFiles) : Decidable (Occupied s path i) :=
  inferInstanceAs (Decidable (_ ∧ _))

theorem rm_of_kept (habs : path.head? = some slash) (hlen : path.length < maxPathLen)
    (hname : NameFits path) (hfind : ∀ i, findPath s path = some i → Occupied s path i) :
    rm s path = some (s, false) := by
  unfold findPath at hfind
  unfold rm
  rw [if_neg (not_not.mpr habs), normalizePath_eq hlen]
  simp only [Option.bind_eq_bind, Option.bind_some]
  split
  · rfl
  simp only [splitPath_strip hlen hname, Option.bind_some]
  split
  · rfl
  · next i hi =>
    obtain ⟨hdir, hchild⟩ := hfind i hi
    rw [if_pos hdir, fits_of_lt (joinPath_fits habs hlen hname), Option.bind_some, if_pos hchild]
    rfl

theorem rm_of_removed (habs : path.head? = some slash) (hlen : path.length < maxPathLen)
    (hname : NameFits path) (hroot : stripSlashes path ≠ rootPath)
    (hfind : findPath s path = some idx) (hfree : ¬Occupied s path idx) :
    rm s path = some (Function.update s idx FileEntry.cleared, true) := by
  unfold findPath at hfind
  unfold rm
  rw [if_neg (not_not.mpr habs), normalizePath_eq hlen]
  simp only [Option.bind_eq_bind, Option.bind_some, if_neg hroot, splitPath_strip hlen hname, hfind]
  split
  · next hdir =>
    have hchild : hasChild s (joinPath (parentString path) (lastComponent path)) ≠ true :=
      fun h => hfree ⟨hdir, h⟩
    rw [fits_of_lt (joinPath_fits habs hlen hname), Option.bind_some, if_neg hchild]
    rfl
  · rfl

/-- `rm` does not look at the parent. -/
theorem rm_ne_none (habs : path.head? = some slash) (hlen : path.length < maxPathLen)
    (hname : NameFits path) : rm s path ≠ none := by
  by_cases hkept : ∀ i, findPath s path = some i → Occupied s path i
  · rw [rm_of_kept habs hlen hname hkept]
    exact Option.some_ne_none _
  · simp only [not_forall, exists_prop] at hkept
    obtain ⟨i, hfind, hfree⟩ := hkept
    by_cases hroot : stripSlashes path = rootPath
    · unfold rm
      rw [if_neg (not_not.mpr habs), normalizePath_eq hlen]
      simp only [Option.bind_eq_bind, Option.bind_some, if_pos hroot]
      exact Option.some_ne_none _
    · rw [rm_of_removed habs hlen hname hroot hfind hfree]
      exact Option.some_ne_none _

/-! ## The names in the table -/

def NamesFit (s : Entries) : Prop := ∀ i, (s i).IsUsed → (s i).name.length < maxNameLen

theorem NamesFit.stored (h : NamesFit s) (hname : e.name.length < maxNameLen) :
    NamesFit (Function.update s slot e) := by
  intro i hi
  by_cases his : i = slot
  · rwa [his, Function.update_self]
  · rw [Function.update_of_ne his] at hi ⊢
    exact h i hi

theorem NamesFit.sameShape (h : NamesFit s) (hshape : SameShape s t) : NamesFit t := by
  intro i hi
  unfold FileEntry.IsUsed at hi
  rw [(hshape i).1] at hi
  rw [(hshape i).2.1]
  exact h i hi

theorem Creates.name_fits (h : Creates s norm slot e) : e.name.length < maxNameLen :=
  (splitPath_spec h.split).2.2.1

theorem NamesFit.touch (h : NamesFit s) (hcall : touch s path = some (t, b)) : NamesFit t := by
  rcases touch_cases hcall with rfl | ⟨-, norm, slot, parent, name, -, -, hnew, rfl⟩
  · exact h
  · exact h.stored hnew.name_fits

/-- A call that stays in its buffers stores no name that does not fit. -/
theorem NamesFit.step (h : NamesFit s) (hstep : step s c = some (t, r)) : NamesFit t := by
  cases step_cases hstep with
  | mkdir hcall =>
    rcases mkdir_cases hcall with rfl | ⟨-, norm, slot, parent, name, -, -, hnew, rfl⟩
    · exact h
    · exact h.stored hnew.name_fits
  | touch hcall => exact h.touch hcall
  | writeFile hcall =>
    obtain ⟨v, hshape, rfl | ⟨norm, created, -, -, htouch⟩⟩ := writeFile_cases hcall
    · exact h.sameShape hshape
    · exact (h.touch htouch).sameShape hshape
  | readFile _ => exact h
  | ls _ => exact h
  | rm hcall =>
    rcases rm_cases hcall with rfl | ⟨-, norm, parent, name, idx, -, -, -, rfl, -⟩
    · exact h
    · exact h.stored (by decide)

/-! ## Refusal -/

/-- The calls that split their path. -/
def Call.Splits {π : Type*} : Call π → Prop
  | .ls _ _ => False
  | _ => True

def Result.Refused : Result → Prop
  | .flag ok => ok = false
  | .bytes output => output = none
  | .count _ => False

/-- No buffer is overrun, a path with a component that is too long is refused, and no name that is
too long enters the table. -/
def RefusesLong (s : Entries) (c : Call Str) : Prop :=
  ∃ t r, step s c = some (t, r) ∧
    (¬(NameFits c.path ∧ ParentFits c.path) → r.Refused ∧ t = s) ∧ (NamesFit s → NamesFit t)

/-- The call fails on what its path leads to, before the parent is split. -/
def TurnedAway (s : Entries) : Call Str → Prop
  | .writeFile path _ => ∃ i, findPath s path = some i ∧ (s i).type ≠ .regular
  | .readFile path _ => ∀ i, findPath s path = some i → (s i).type ≠ .regular
  | .rm path => ∀ i, findPath s path = some i → Occupied s path i
  | _ => False

theorem nameFits_of_step (habs : c.path.head? = some slash) (hlen : c.path.length < maxPathLen)
    (hbuf : c.HasBuffer) (hsplits : c.Splits) (h : step s c = some (t, r)) : NameFits c.path := by
  cases step_cases h with
  | mkdir hcall => exact ((mkdir_ne_none habs hlen).mp (hcall ▸ Option.some_ne_none _)).1
  | touch hcall => exact ((touch_ne_none habs hlen).mp (hcall ▸ Option.some_ne_none _)).1
  | writeFile hcall =>
    rcases writeFile_stages hcall with
      ⟨hrel, -⟩ | ⟨norm, parent, name, v, created, -, hnorm, ⟨hsplit, -⟩, -⟩
    · exact absurd habs hrel
    · obtain rfl := (normalizePath_spec hnorm).2
      exact nameFits_of_split hlen hsplit
  | readFile hcall => exact (readFile_ne_none habs hlen hbuf).mp (hcall ▸ Option.some_ne_none _)
  | ls _ => exact hsplits.elim
  | @rm path t b hcall =>
    dsimp only [Call.path] at habs hlen
    unfold rm at hcall
    rw [if_neg (not_not.mpr habs), normalizePath_eq hlen] at hcall
    simp only [Option.bind_eq_bind, Option.bind_some] at hcall
    split at hcall
    · next hroot => exact (fits_of_root hroot).1
    · obtain ⟨p, hsplit, -⟩ := Option.bind_eq_some_iff.mp hcall
      exact nameFits_of_split hlen hsplit

/-- The names a call splits off its path fit. `write_file` looks at the parent only where there is
no entry to write. -/
def Call.Fits (s : Entries) : Call Str → Prop
  | .mkdir path | .touch path => NameFits path ∧ ParentFits path
  | .writeFile path _ => NameFits path ∧ (ParentFits path ∨ (findPath s path).isSome)
  | .readFile path _ | .rm path => NameFits path
  | .ls _ _ => True

instance (s : Entries) : (c : Call Str) → Decidable (c.Fits s)
  | .mkdir _ | .touch _ => inferInstanceAs (Decidable (_ ∧ _))
  | .writeFile _ _ => inferInstanceAs (Decidable (_ ∧ (_ ∨ _)))
  | .readFile path _ | .rm path => inferInstanceAs (Decidable (NameFits path))
  | .ls _ _ => isTrue trivial

/-- A call comes to an end exactly if its names fit. -/
theorem Call.fits_iff (s : Entries) (habs : c.path.head? = some slash)
    (hlen : c.path.length < maxPathLen) (hbuf : c.HasBuffer) : (step s c).isSome ↔ c.Fits s := by
  rw [Option.isSome_iff_ne_none]
  cases c with
  | mkdir path =>
    rw [step, Ne, Option.map_eq_none_iff]
    exact mkdir_ne_none habs hlen
  | touch path =>
    rw [step, Ne, Option.map_eq_none_iff]
    exact touch_ne_none habs hlen
  | writeFile path content =>
    constructor
    · intro hsome
      obtain ⟨⟨t, r⟩, hstep⟩ := Option.ne_none_iff_exists'.mp hsome
      have hname := nameFits_of_step habs hlen hbuf trivial hstep
      refine ⟨hname, ?_⟩
      cases hfind : findPath s path with
      | none =>
        rw [step, Ne, Option.map_eq_none_iff] at hsome
        exact .inl ((writeFile_of_missing habs hlen hname hfind).mp hsome)
      | some i => exact .inr rfl
    · rintro ⟨hname, hparent⟩
      dsimp only [Call.path] at habs hlen
      rw [step, Ne, Option.map_eq_none_iff]
      cases hfind : findPath s path with
      | none =>
        rw [hfind] at hparent
        exact (writeFile_of_missing habs hlen hname hfind).mpr
          (hparent.resolve_right Bool.false_ne_true)
      | some i =>
        rw [writeFile_of_found habs hlen hname hfind]
        exact Option.some_ne_none _
  | readFile path bufSize =>
    rw [step, Ne, Option.map_eq_none_iff]
    exact readFile_ne_none habs hlen hbuf
  | ls path bufSize =>
    dsimp only [Call.path] at hlen
    refine iff_of_true ?_ trivial
    rw [step, Filesystem.ls, Ne, Option.map_eq_none_iff, Option.map_eq_none_iff, normalizePath_eq hlen]
    exact Option.some_ne_none _
  | rm path =>
    constructor
    · intro hsome
      obtain ⟨⟨t, r⟩, hstep⟩ := Option.ne_none_iff_exists'.mp hsome
      exact nameFits_of_step habs hlen hbuf trivial hstep
    · intro hname
      rw [step, Ne, Option.map_eq_none_iff]
      exact rm_ne_none habs hlen hname

/-- Where both names fit the call stays in its buffers. -/
theorem step_ne_none (habs : c.path.head? = some slash) (hlen : c.path.length < maxPathLen)
    (hbuf : c.HasBuffer) (hname : NameFits c.path) (hparent : ParentFits c.path) :
    step s c ≠ none := by
  rw [← Option.isSome_iff_ne_none, c.fits_iff s habs hlen hbuf]
  cases c with
  | mkdir path | touch path => exact ⟨hname, hparent⟩
  | writeFile path content => exact ⟨hname, .inl hparent⟩
  | readFile path bufSize | rm path => exact hname
  | ls path bufSize => trivial

/-- A call that is turned away is refused whatever the parent's name. -/
theorem TurnedAway.refused (h : TurnedAway s c) (habs : c.path.head? = some slash)
    (hlen : c.path.length < maxPathLen) (hname : NameFits c.path) :
    ∃ r, step s c = some (s, r) ∧ r.Refused := by
  cases c with
  | mkdir path => exact h.elim
  | touch path => exact h.elim
  | writeFile path content =>
    dsimp only [Call.path] at habs hlen hname
    obtain ⟨i, hfind, htype⟩ := h
    refine ⟨.flag false, ?_, rfl⟩
    rw [step, writeFile_of_found habs hlen hname hfind, storeContent, if_pos htype]
    rfl
  | readFile path bufSize =>
    dsimp only [Call.path] at habs hlen hname
    refine ⟨.bytes none, ?_, rfl⟩
    rw [step, readFile_of_missing habs hlen hname h]
    rfl
  | ls path bufSize => exact h.elim
  | rm path =>
    dsimp only [Call.path] at habs hlen hname
    refine ⟨.flag false, ?_, rfl⟩
    rw [step, rm_of_kept habs hlen hname h]
    rfl

/-- If the parent's name does not fit, only a call that is turned away is refused. -/
theorem turnedAway_of_refused (habs : c.path.head? = some slash)
    (hlen : c.path.length < maxPathLen) (hbuf : c.HasBuffer) (hname : NameFits c.path)
    (hparent : ¬ParentFits c.path) (h : step s c = some (t, r)) (hrefused : r.Refused) :
    TurnedAway s c := by
  cases step_cases h with
  | mkdir hcall =>
    have hfits := (mkdir_ne_none habs hlen).mp (hcall ▸ Option.some_ne_none _)
    exact absurd hfits.2 hparent
  | touch hcall =>
    have hfits := (touch_ne_none habs hlen).mp (hcall ▸ Option.some_ne_none _)
    exact absurd hfits.2 hparent
  | @writeFile path content t b hcall =>
    dsimp only [Call.path] at habs hlen hname hparent
    cases hfind : findPath s path with
    | none =>
      have hfits := (writeFile_of_missing habs hlen hname hfind).mp
        (hcall ▸ Option.some_ne_none (t, b))
      exact absurd hfits hparent
    | some i =>
      refine ⟨i, hfind, fun htype => ?_⟩
      rw [writeFile_of_found habs hlen hname hfind, storeContent,
        if_neg (not_not.mpr htype)] at hcall
      obtain ⟨-, rfl⟩ := Prod.mk.inj (Option.some.inj hcall)
      cases hrefused
  | @readFile path bufSize output hcall =>
    dsimp only [Call.path] at habs hlen hname hparent
    intro i hfind htype
    obtain ⟨bytes, hread⟩ := readFile_of_regular habs hlen hname hbuf hfind htype
    obtain rfl := Option.some.inj (hcall.symm.trans hread)
    cases hrefused
  | ls _ => exact hrefused.elim
  | @rm path t b hcall =>
    dsimp only [Call.path] at habs hlen hname hparent
    intro i hfind
    by_contra hfree
    have hroot : stripSlashes path ≠ rootPath := fun hroot => hparent (fits_of_root hroot).2
    rw [rm_of_removed habs hlen hname hroot hfind hfree] at hcall
    obtain ⟨-, rfl⟩ := Prod.mk.inj (Option.some.inj hcall)
    cases hrefused

/-- `split_path` stays in its buffers exactly if the last component fits, and an operation that
splits its path refuses what is too long exactly if, besides, the parent's last component fits or
the operation fails before it looks at the parent. -/
theorem refusesLong_iff (s : Entries) (habs : c.path.head? = some slash)
    (hlen : c.path.length < maxPathLen) (hbuf : c.HasBuffer) (hsplits : c.Splits) :
    (splitPath c.path ≠ none ↔ NameFits c.path) ∧
      (RefusesLong s c ↔ NameFits c.path ∧ (ParentFits c.path ∨ TurnedAway s c)) := by
  refine ⟨splitPath_ne_none hlen, ?_, ?_⟩
  · rintro ⟨t, r, hstep, hlong, -⟩
    have hname := nameFits_of_step habs hlen hbuf hsplits hstep
    refine ⟨hname, ?_⟩
    by_cases hparent : ParentFits c.path
    · exact .inl hparent
    · obtain ⟨hrefused, -⟩ := hlong fun h => hparent h.2
      exact .inr (turnedAway_of_refused habs hlen hbuf hname hparent hstep hrefused)
  · rintro ⟨hname, hparent | haway⟩
    · obtain ⟨⟨t, r⟩, hstep⟩ :=
        Option.ne_none_iff_exists'.mp (step_ne_none (s := s) habs hlen hbuf hname hparent)
      exact ⟨t, r, hstep, fun h => absurd ⟨hname, hparent⟩ h, fun h => h.step hstep⟩
    · obtain ⟨r, hstep, hrefused⟩ := haway.refused habs hlen hname
      exact ⟨s, r, hstep, fun _ => ⟨hrefused, rfl⟩, id⟩

/-- `"/"` and forty times `'a'`. -/
def longPath : Str := slash :: List.replicate 40 97

theorem refusesLong_fits : RefusesLong init (.mkdir pathAB) :=
  ((refusesLong_iff init (c := .mkdir pathAB) rfl (by decide) trivial trivial).2).mpr
    ⟨by decide, .inl (by decide)⟩

/-- `touch` writes such a name past the end of its buffer. -/
theorem long_name_overruns : ¬∀ {c : Call Str} (s : Entries), c.path.head? = some slash →
    c.path.length < maxPathLen → c.HasBuffer → c.Splits → RefusesLong s c := by
  intro h
  obtain ⟨t, r, hstep, -⟩ := h (c := .touch longPath) init rfl (by decide) trivial trivial
  have hnone : step init (.touch longPath) = none := by decide +kernel
  rw [hnone] at hstep
  cases hstep

end QuillOS.Filesystem
