import Mathlib.Tactic

/-!
# Path strings

A C string is the list of its bytes before the terminator. The string helpers of `filesystem.cpp`
copy without looking at the destination; here a copy into a buffer of `cap` bytes is `fits cap`,
and `none` stands for a write past its end.
-/

namespace QuillOS.Filesystem

abbrev maxFiles : ℕ := 64

instance : NeZero maxFiles := ⟨by decide⟩

def maxNameLen : ℕ := 32
def maxPathLen : ℕ := 128
def maxFileData : ℕ := 1024

abbrev Str := List UInt8

/-- The character `'/'`. -/
abbrev slash : UInt8 := 47

def rootPath : Str := [slash]

/-- A string and its terminator stored in a buffer of `cap` bytes. -/
def fits (cap : ℕ) (s : Str) : Option Str := if s.length < cap then some s else none

/-- The loop of `normalize_path`, on the string read from its end. -/
def stripRev : Str → Str
  | c :: d :: r => if c = slash then stripRev (d :: r) else c :: d :: r
  | s => s

/-- Trailing slashes are dropped while more than one character is left. -/
def stripSlashes (s : Str) : Str := (stripRev s.reverse).reverse

def normalizePath (s : Str) : Option Str := (fits maxPathLen s).map stripSlashes

/-- The scan of `split_path` for the last `'/'`, below index `i`; `none` is its `-1`. -/
def lastSlashBelow (s : Str) : ℕ → Option ℕ
  | 0 => none
  | i + 1 => if s[i]? = some slash then some i else lastSlashBelow s i

def lastSlash (s : Str) : Option ℕ := lastSlashBelow s s.length

/-- `split_path`: the parent and the name, each in its own buffer. -/
def splitPath (path : Str) : Option (Str × Str) := do
  let clean ← normalizePath path
  let (parent, start) := match lastSlash clean with
    | none => (rootPath, 0)
    | some 0 => (rootPath, 1)
    | some k => (path.take k, k + 1)
  let parent ← fits maxPathLen parent
  let name ← fits maxNameLen (clean.drop start)
  return (parent, name)

/-- The full path `rm` builds from the two strings of an entry. -/
def joinPath (parent name : Str) : Str :=
  if parent = rootPath then slash :: name else parent ++ slash :: name

/-! ## Copies -/

theorem fits_eq_some {cap : ℕ} {s t : Str} : fits cap s = some t ↔ s.length < cap ∧ t = s := by
  unfold fits
  split
  · simp [*, eq_comm]
  · simp [*]

theorem fits_of_lt {cap : ℕ} {s : Str} (h : s.length < cap) : fits cap s = some s := if_pos h

/-! ## Stripping -/

theorem stripRev_cons_of_ne {c : UInt8} (h : c ≠ slash) (r : Str) : stripRev (c :: r) = c :: r := by
  cases r with
  | nil => rfl
  | cons d r => simp [stripRev, h]

theorem stripRev_suffix (s : Str) : stripRev s <:+ s := by
  induction s with
  | nil => exact List.suffix_refl _
  | cons c r ih =>
    cases r with
    | nil => exact List.suffix_refl _
    | cons d r =>
      unfold stripRev
      split
      · exact ih.trans (List.suffix_cons _ _)
      · exact List.suffix_refl _

/-- Only slashes are stripped, from the end. -/
theorem stripSlashes_isPrefix (s : Str) : stripSlashes s <+: s := by
  have h := List.reverse_prefix.mpr (stripRev_suffix s.reverse)
  rwa [List.reverse_reverse] at h

theorem stripSlashes_length_le (s : Str) : (stripSlashes s).length ≤ s.length :=
  (stripSlashes_isPrefix s).length_le

/-- A string that ends in another character keeps all but the slashes appended to it. -/
theorem stripSlashes_append_replicate {s : Str} {c : UInt8} (hc : c ≠ slash) (k : ℕ) :
    stripSlashes (s ++ [c] ++ List.replicate k slash) = s ++ [c] := by
  have hrev : ∀ j, stripRev (List.replicate j slash ++ c :: s.reverse) = c :: s.reverse := by
    intro j
    induction j with
    | zero => exact stripRev_cons_of_ne hc _
    | succ j ih =>
      rw [List.replicate_succ, List.cons_append]
      cases j with
      | zero => simpa [stripRev] using ih
      | succ j => simpa [List.replicate_succ, stripRev] using ih
  unfold stripSlashes
  rw [List.reverse_append, List.reverse_replicate, List.reverse_append]
  change (stripRev (List.replicate k slash ++ c :: s.reverse)).reverse = _
  rw [hrev]
  simp

theorem stripSlashes_of_getLast_ne {s : Str} {c : UInt8} (hc : c ≠ slash) :
    stripSlashes (s ++ [c]) = s ++ [c] := by
  simpa using stripSlashes_append_replicate (s := s) hc 0

theorem stripSlashes_replicate (k : ℕ) : stripSlashes (List.replicate (k + 1) slash) = rootPath := by
  have hrev : ∀ j, stripRev (List.replicate (j + 1) slash) = rootPath := by
    intro j
    induction j with
    | zero => rfl
    | succ j ih => simpa [List.replicate_succ, stripRev] using ih
  unfold stripSlashes
  rw [List.reverse_replicate, hrev]
  rfl

/-! ## The last slash -/

theorem lastSlashBelow_eq_some {s : Str} {k : ℕ} : ∀ {n : ℕ}, lastSlashBelow s n = some k →
    k < n ∧ s[k]? = some slash ∧ ∀ i, k < i → i < n → s[i]? ≠ some slash
  | n + 1, h => by
    unfold lastSlashBelow at h
    split at h
    · obtain rfl : n = k := by simpa using h
      exact ⟨by omega, by assumption, fun i h1 h2 => by omega⟩
    · obtain ⟨h1, h2, h3⟩ := lastSlashBelow_eq_some h
      refine ⟨by omega, h2, fun i hk hi => ?_⟩
      rcases Nat.lt_succ_iff_lt_or_eq.mp hi with hi | rfl
      · exact h3 i hk hi
      · assumption

theorem lastSlashBelow_eq_none {s : Str} : ∀ {n : ℕ}, lastSlashBelow s n = none →
    ∀ i < n, s[i]? ≠ some slash
  | n + 1, h, i, hi => by
    unfold lastSlashBelow at h
    split at h
    · cases h
    · rcases Nat.lt_succ_iff_lt_or_eq.mp hi with hi | rfl
      · exact lastSlashBelow_eq_none h i hi
      · assumption

/-- What `lastSlash` finds: the string is cut at it and no slash comes after. -/
theorem lastSlash_eq_some {s : Str} {k : ℕ} (h : lastSlash s = some k) :
    s = s.take k ++ slash :: s.drop (k + 1) ∧ slash ∉ s.drop (k + 1) := by
  obtain ⟨-, hk, hafter⟩ := lastSlashBelow_eq_some h
  obtain ⟨hlt, hget⟩ := List.getElem?_eq_some_iff.mp hk
  refine ⟨?_, fun hmem => ?_⟩
  · rw [← hget, ← List.drop_eq_getElem_cons hlt, List.take_append_drop]
  · obtain ⟨i, hi⟩ := List.mem_iff_getElem?.mp hmem
    rw [List.getElem?_drop] at hi
    obtain ⟨hbound, -⟩ := List.getElem?_eq_some_iff.mp hi
    exact hafter _ (by omega) hbound hi

theorem lastSlash_eq_none {s : Str} (h : lastSlash s = none) : slash ∉ s := fun hmem => by
  obtain ⟨i, hi⟩ := List.mem_iff_getElem?.mp hmem
  obtain ⟨hbound, -⟩ := List.getElem?_eq_some_iff.mp hi
  exact lastSlashBelow_eq_none h i hbound hi

/-- A string has at most one cut at a slash with none behind it. -/
theorem slash_cut_unique {p p' n n' : Str} (hn : slash ∉ n) (hn' : slash ∉ n')
    (h : p ++ slash :: n = p' ++ slash :: n') : p = p' ∧ n = n' := by
  rcases List.append_eq_append_iff.mp h with ⟨r, rfl, hr⟩ | ⟨r, rfl, hr⟩
  · cases r with
    | nil => simpa using hr
    | cons c r => exact absurd (by simp [(List.cons.inj hr).2]) hn
  · cases r with
    | nil => simpa [eq_comm] using hr
    | cons c r => exact absurd (by simp [(List.cons.inj hr).2]) hn'

theorem lastSlash_append {p n : Str} (hn : slash ∉ n) :
    lastSlash (p ++ slash :: n) = some p.length := by
  cases h : lastSlash (p ++ slash :: n) with
  | none => exact absurd (by simp) (lastSlash_eq_none h)
  | some k =>
    obtain ⟨hcut, hfree⟩ := lastSlash_eq_some h
    obtain ⟨hp, -⟩ := slash_cut_unique hn hfree hcut
    obtain ⟨hlt, -⟩ := lastSlashBelow_eq_some h
    have hlen := congrArg List.length hp
    rw [List.length_take] at hlen
    rw [hlen, Nat.min_eq_left hlt.le]

/-! ## Splitting and joining -/

/-- The parent string stored for a path whose last slash is preceded by `p`. -/
def parentOf (p : Str) : Str := if p = [] then rootPath else p

theorem parentOf_ne_nil (p : Str) : parentOf p ≠ [] := by
  unfold parentOf
  split
  · exact List.cons_ne_nil _ _
  · assumption

theorem stripSlashes_ne_nil {s : Str} (h : s ≠ []) : stripSlashes s ≠ [] := by
  have hrev : ∀ r : Str, r ≠ [] → stripRev r ≠ [] := by
    intro r hr
    induction r with
    | nil => exact absurd rfl hr
    | cons c r ih =>
      cases r with
      | nil => exact hr
      | cons d r =>
        unfold stripRev
        split
        · exact ih (List.cons_ne_nil _ _)
        · exact hr
  unfold stripSlashes
  rw [Ne, List.reverse_eq_nil_iff]
  exact hrev _ (by simpa using h)

/-- A path that does not end in a slash is its own normal form. -/
theorem stripSlashes_cut {p n : Str} (hn : slash ∉ n) (hne : n ≠ []) :
    stripSlashes (p ++ slash :: n) = p ++ slash :: n := by
  obtain ⟨m, c, rfl⟩ := (List.eq_nil_or_concat' n).resolve_left hne
  have hc : c ≠ slash := fun h => hn (by simp [h])
  have h := stripSlashes_of_getLast_ne (s := p ++ slash :: m) hc
  simpa using h

/-- `split_path` on the cut of the normal form. -/
theorem splitPath_of_cut {path p n : Str} (hcut : stripSlashes path = p ++ slash :: n)
    (hn : slash ∉ n) (hpath : path.length < maxPathLen) :
    splitPath path = (fits maxNameLen n).map fun n => (parentOf p, n) := by
  have hprefix : p ++ slash :: n <+: path := hcut ▸ stripSlashes_isPrefix path
  have hp : p.length < maxPathLen := by
    have := hprefix.length_le
    simp only [List.length_append, List.length_cons] at this
    omega
  have htake : path.take p.length = p := by
    obtain ⟨t, rfl⟩ := hprefix
    simp
  unfold splitPath normalizePath parentOf
  rw [fits_of_lt hpath]
  simp only [Option.map_some, Option.bind_eq_bind, Option.bind_some, hcut, lastSlash_append hn]
  cases p with
  | nil =>
    simp only [List.length_nil, List.nil_append, List.drop_succ_cons, List.drop_zero,
      fits_of_lt (show rootPath.length < maxPathLen by decide), Option.bind_some, if_true]
    cases fits maxNameLen n <;> rfl
  | cons c p =>
    simp only [List.length_cons] at htake hp ⊢
    have hdrop : (c :: p ++ slash :: n).drop (p.length + 1 + 1) = n := by simp
    simp only [htake, hdrop, fits_of_lt (show (c :: p).length < maxPathLen from hp),
      Option.bind_some, if_neg (List.cons_ne_nil c p)]
    cases fits maxNameLen n <;> rfl

theorem stripSlashes_idem (s : Str) : stripSlashes (stripSlashes s) = stripSlashes s := by
  have hrev : ∀ r : Str, stripRev (stripRev r) = stripRev r := by
    intro r
    induction r with
    | nil => rfl
    | cons c r ih =>
      cases r with
      | nil => rfl
      | cons d r =>
        by_cases hc : c = slash
        · simpa [stripRev, hc] using ih
        · rw [stripRev_cons_of_ne hc, stripRev_cons_of_ne hc]
  unfold stripSlashes
  rw [List.reverse_reverse, hrev]

/-- What a successful split says about its parts. -/
theorem splitPath_spec {path parent name : Str} (h : splitPath path = some (parent, name)) :
    path.length < maxPathLen ∧ slash ∉ name ∧ name.length < maxNameLen ∧
      ((stripSlashes path = name ∧ parent = rootPath) ∨
        ∃ p, stripSlashes path = p ++ slash :: name ∧ parent = parentOf p) := by
  have hpath : path.length < maxPathLen := by
    obtain ⟨clean, hclean, -⟩ := Option.bind_eq_some_iff.mp h
    obtain ⟨t, ht, -⟩ := Option.map_eq_some_iff.mp hclean
    exact (fits_eq_some.mp ht).1
  cases hk : lastSlash (stripSlashes path) with
  | some k =>
    obtain ⟨hcut, hfree⟩ := lastSlash_eq_some hk
    rw [splitPath_of_cut hcut hfree hpath] at h
    obtain ⟨n, hn, heq⟩ := Option.map_eq_some_iff.mp h
    obtain ⟨hlt, rfl⟩ := fits_eq_some.mp hn
    obtain ⟨rfl, rfl⟩ := Prod.mk.inj heq
    exact ⟨hpath, hfree, hlt, .inr ⟨_, hcut, rfl⟩⟩
  | none =>
    unfold splitPath normalizePath at h
    rw [fits_of_lt hpath] at h
    simp only [Option.map_some, Option.bind_eq_bind, Option.bind_some, hk, List.drop_zero,
      fits_of_lt (show rootPath.length < maxPathLen by decide)] at h
    obtain ⟨n, hn, heq⟩ := Option.bind_eq_some_iff.mp h
    obtain ⟨hlt, rfl⟩ := fits_eq_some.mp hn
    obtain ⟨rfl, rfl⟩ := Prod.mk.inj (Option.some.inj heq)
    exact ⟨hpath, lastSlash_eq_none hk, hlt, .inl ⟨rfl, rfl⟩⟩

theorem splitPath_rootPath : splitPath rootPath = some (rootPath, []) := by decide

/-- What `rm` joins is what `split_path` takes apart. -/
theorem joinPath_eq (parent name : Str) : ∃ p, joinPath parent name = p ++ slash :: name ∧
    (parent ≠ [] → parentOf p = parent) := by
  unfold joinPath parentOf
  split
  · rename_i h
    exact ⟨[], rfl, fun _ => by simp [h]⟩
  · exact ⟨parent, rfl, fun h => if_neg h⟩

theorem splitPath_joinPath {parent name : Str} (hparent : parent ≠ []) (hname : name ≠ [])
    (hn : slash ∉ name) (hlen : (joinPath parent name).length < maxPathLen) :
    splitPath (joinPath parent name) = (fits maxNameLen name).map fun n => (parent, n) := by
  obtain ⟨p, hp, hparent'⟩ := joinPath_eq parent name
  have hcut : stripSlashes (joinPath parent name) = p ++ slash :: name := by
    rw [hp]
    exact stripSlashes_cut hn hname
  have h := splitPath_of_cut hcut hn hlen
  rwa [hparent' hparent] at h

end QuillOS.Filesystem
