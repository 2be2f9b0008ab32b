import QuillOS.Filesystem.Model

/-!
# Canonical paths

A canonical path is the root or a list of components, each after a slash; slashes may follow.
-/

namespace QuillOS.Filesystem

/-- Components that stand between slashes. -/
def Canonical (p : List Str) : Prop := ∀ c ∈ p, c ≠ [] ∧ slash ∉ c

/-- `"/"` for the root, else `"/c1/…/cn"`. -/
def pathString (p : List Str) : Str := if p = [] then rootPath else p.flatMap (slash :: ·)

structure CanonicalPath where
  comps : List Str
  trailing : ℕ
  canonical : Canonical comps
  comps_fit : ∀ c ∈ comps, c.length ≤ 31
  fits : (pathString comps ++ List.replicate trailing slash).length ≤ 127

def CanonicalPath.toStr (p : CanonicalPath) : Str :=
  pathString p.comps ++ List.replicate p.trailing slash

theorem canonical_concat {q : List Str} {c : Str} :
    Canonical (q ++ [c]) ↔ Canonical q ∧ c ≠ [] ∧ slash ∉ c := by
  unfold Canonical
  rw [List.forall_mem_append, List.forall_mem_singleton]

theorem pathString_ne_nil (p : List Str) : pathString p ≠ [] := by
  unfold pathString
  split
  · exact List.cons_ne_nil _ _
  · rename_i h
    cases p with
    | nil => exact absurd rfl h
    | cons c p => exact List.cons_ne_nil _ _

theorem pathString_ne_rootPath {p : List Str} (hp : Canonical p) (hne : p ≠ []) :
    pathString p ≠ rootPath := by
  unfold pathString rootPath
  rw [if_neg hne]
  cases p with
  | nil => exact absurd rfl hne
  | cons c p =>
    rw [List.flatMap_cons, List.cons_append]
    intro h
    exact (hp c List.mem_cons_self).1 (List.append_eq_nil_iff.mp (List.cons.inj h).2).1

theorem pathString_eq_rootPath {p : List Str} (hp : Canonical p) :
    pathString p = rootPath ↔ p = [] := by
  refine ⟨fun h => ?_, by rintro rfl; rfl⟩
  by_contra hne
  exact pathString_ne_rootPath hp hne h

/-- The path of a component is what `rm` joins for it. -/
theorem pathString_concat {q : List Str} {c : Str} (hq : Canonical q) :
    pathString (q ++ [c]) = joinPath (pathString q) c := by
  unfold joinPath
  by_cases hne : q = []
  · subst hne
    simp [pathString]
  · rw [if_neg (pathString_ne_rootPath hq hne)]
    unfold pathString
    rw [if_neg hne, if_neg (by simp), List.flatMap_append, List.flatMap_singleton]

theorem exists_pathString_cut {q : List Str} {c : Str} (hq : Canonical q) :
    ∃ p, pathString (q ++ [c]) = p ++ slash :: c ∧ parentOf p = pathString q := by
  obtain ⟨p, hp, hparent⟩ := joinPath_eq (pathString q) c
  exact ⟨p, (pathString_concat hq).trans hp, hparent (pathString_ne_nil q)⟩

/-- Different canonical paths have different strings. -/
theorem pathString_inj {p q : List Str} (hp : Canonical p) (hq : Canonical q)
    (h : pathString p = pathString q) : p = q := by
  induction p using List.reverseRecOn generalizing q with
  | nil => exact ((pathString_eq_rootPath hq).mp h.symm).symm
  | append_singleton p c ih =>
    rcases List.eq_nil_or_concat' q with rfl | ⟨q, d, rfl⟩
    · exact (pathString_eq_rootPath hp).mp h
    obtain ⟨hp', -, hc⟩ := canonical_concat.mp hp
    obtain ⟨hq', -, hd⟩ := canonical_concat.mp hq
    obtain ⟨a, ha, hpa⟩ := exists_pathString_cut (c := c) hp'
    obtain ⟨b, hb, hqb⟩ := exists_pathString_cut (c := d) hq'
    obtain ⟨rfl, rfl⟩ := slash_cut_unique hc hd (ha ▸ hb ▸ h)
    rw [ih hp' hq' (hpa.symm.trans hqb)]

/-! ## What the string functions give on canonical paths -/

theorem pathString_head (p : List Str) : (pathString p).head? = some slash := by
  unfold pathString
  split
  · rfl
  · rename_i h
    cases p with
    | nil => exact absurd rfl h
    | cons c p => rfl

namespace CanonicalPath

variable (p : CanonicalPath)

theorem toStr_head : p.toStr.head? = some slash := by
  unfold toStr
  rw [List.head?_append, pathString_head, Option.some_or]

theorem toStr_lt : p.toStr.length < maxPathLen := Nat.lt_succ_of_le p.fits

theorem pathString_lt : (pathString p.comps).length < maxPathLen := by
  have h := p.fits
  rw [List.length_append] at h
  exact Nat.lt_succ_of_le (le_trans (Nat.le_add_right _ _) h)

theorem normalizePath_toStr : normalizePath p.toStr = some (pathString p.comps) := by
  unfold normalizePath
  rw [fits_of_lt p.toStr_lt, Option.map_some, Option.some_inj]
  unfold toStr
  rcases List.eq_nil_or_concat' p.comps with hnil | ⟨q, c, hq⟩
  · rw [hnil, show pathString [] = List.replicate 1 slash from rfl, ← List.replicate_add, add_comm]
    exact stripSlashes_replicate _
  · obtain ⟨hq', hc, hfree⟩ := canonical_concat.mp (hq ▸ p.canonical)
    obtain ⟨a, ha, -⟩ := exists_pathString_cut (c := c) hq'
    obtain ⟨m, d, rfl⟩ := (List.eq_nil_or_concat' c).resolve_left hc
    have hd : d ≠ slash := fun h => hfree (by simp [h])
    have h := stripSlashes_append_replicate (s := a ++ slash :: m) hd p.trailing
    rw [hq, ha]
    simpa using h

end CanonicalPath

theorem splitPath_pathString {q : List Str} {c : Str} (hq : Canonical q) (hfree : slash ∉ c)
    (hne : c ≠ []) (hc : c.length < maxNameLen) (hlen : (pathString (q ++ [c])).length < maxPathLen) :
    splitPath (pathString (q ++ [c])) = some (pathString q, c) := by
  obtain ⟨a, ha, hparent⟩ := exists_pathString_cut (c := c) hq
  rw [splitPath_of_cut (by rw [ha]; exact stripSlashes_cut hfree hne) hfree hlen, hparent,
    fits_of_lt hc, Option.map_some]

/-- The string of a shorter path is shorter. -/
theorem pathString_length_le {q : List Str} {c : Str} (hq : Canonical q) :
    (pathString q).length ≤ (pathString (q ++ [c])).length := by
  rw [pathString_concat hq]
  unfold joinPath
  split
  · rename_i h
    rw [h]
    simp [rootPath]
  · simp

end QuillOS.Filesystem
