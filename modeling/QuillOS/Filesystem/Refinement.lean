import QuillOS.Lib.Machine
import QuillOS.Lib.PathTree
import QuillOS.Filesystem.Canonical

/-!
# The entry table refines a tree

On canonical paths the table of entries answers every sequence of calls as a tree of directories
and files with room for 63 nodes does.
-/

namespace QuillOS.Filesystem

open Lib

abbrev FsTree := PathTree Str Str

def maxNodes : ℕ := 63

/-- The node an entry stands for. -/
def node (e : FileEntry) : Node Str :=
  if e.type = .directory then .dir else .file (e.data.toList.take e.size)

/-- A used entry is a file or a directory. -/
theorem FileEntry.IsUsed.directory {e : FileEntry} (h : e.IsUsed) (htype : e.type ≠ .regular) :
    e.type = .directory := by
  unfold FileEntry.IsUsed at h
  cases htyp : e.type with
  | unused => exact absurd htyp h
  | regular => exact absurd htyp htype
  | directory => rfl

theorem node_eq_dir {e : FileEntry} : node e = .dir ↔ e.type = .directory := by
  unfold node
  split
  · simp [*]
  · simp [*]

/-- Slot `i` holds the component `c` of the directory at path `q`. -/
structure Holds (s : Entries) (q : List Str) (c : Str) (i : Fin maxFiles) : Prop where
  ne_zero : i ≠ 0
  used : (s i).IsUsed
  canonical : Canonical (q ++ [c])
  parent : (s i).parent = pathString q
  name : (s i).name = c

/-- The table `s` holds exactly the nodes of the tree `t`, each in one slot. -/
structure Represents (s : Entries) (t : FsTree) : Prop where
  root_type : (s 0).type = .directory
  root_parent : (s 0).parent = []
  held : ∀ i, i ≠ 0 → (s i).IsUsed → ∃ q c, Holds s q c i
  lookup : ∀ q c n, t (q ++ [c]) = some n ↔ ∃ i, Holds s q c i ∧ node (s i) = n
  unique : ∀ q c i j, Holds s q c i → Holds s q c j → i = j
  closed : t.Closed

/-! ## Slots and paths -/

theorem Holds.left {s : Entries} {q : List Str} {c : Str} {i : Fin maxFiles} (h : Holds s q c i) :
    Canonical q := (canonical_concat.mp h.canonical).1

/-- A slot holds one path. -/
theorem Holds.inj {s : Entries} {q q' : List Str} {c c' : Str} {i : Fin maxFiles}
    (h : Holds s q c i) (h' : Holds s q' c' i) : q = q' ∧ c = c' :=
  ⟨pathString_inj h.left h'.left (h.parent.symm.trans h'.parent), h.name.symm.trans h'.name⟩

theorem holds_update_of_ne {s : Entries} {e : FileEntry} {q : List Str} {c : Str}
    {i j : Fin maxFiles} (hj : j ≠ i) : Holds (Function.update s i e) q c j ↔ Holds s q c j := by
  have heq : Function.update s i e j = s j := Function.update_of_ne hj _ _
  exact ⟨fun ⟨h1, h2, h3, h4, h5⟩ => ⟨h1, heq ▸ h2, h3, heq ▸ h4, heq ▸ h5⟩,
    fun ⟨h1, h2, h3, h4, h5⟩ => ⟨h1, heq ▸ h2, h3, heq ▸ h4, heq ▸ h5⟩⟩

theorem represents_init : Represents init PathTree.empty := by
  have hfree : ∀ i, i ≠ 0 → ¬(init i).IsUsed := by
    intro i hi
    unfold init
    rw [Function.update_of_ne hi]
    exact not_not.mpr rfl
  refine ⟨rfl, rfl, fun i hi hu => absurd hu (hfree i hi), fun q c n => ⟨fun h => ?_, ?_⟩, ?_,
    PathTree.closed_empty⟩
  · cases h
  · rintro ⟨i, hi, -⟩
    exact absurd hi.used (hfree i hi.ne_zero)
  · intro q c i j hi
    exact absurd hi.used (hfree i hi.ne_zero)

namespace Represents

variable {s : Entries} {t : FsTree} {q : List Str} {c : Str} {i : Fin maxFiles}

theorem holds_of_find (h : Represents s t) (hcanon : Canonical (q ++ [c]))
    (hfind : findEntry s (pathString q) c = some i) : Holds s q c i := by
  obtain ⟨hused, hname, hparent⟩ := findEntry_spec hfind
  refine ⟨?_, hused, hcanon, hparent, hname⟩
  rintro rfl
  exact pathString_ne_nil q (hparent.symm.trans h.root_parent)

theorem find_of_holds (h : Represents s t) (hi : Holds s q c i) :
    findEntry s (pathString q) c = some i := by
  cases hfind : findEntry s (pathString q) c with
  | none => exact absurd ⟨hi.used, hi.name, hi.parent⟩ (findEntry_eq_none.mp hfind i)
  | some j => rw [h.unique q c j i (h.holds_of_find hi.canonical hfind) hi]

theorem lookup_of_holds (h : Represents s t) (hi : Holds s q c i) :
    t (q ++ [c]) = some (node (s i)) := (h.lookup q c _).mpr ⟨i, hi, rfl⟩

theorem lookup_of_find (h : Represents s t) (hcanon : Canonical (q ++ [c])) :
    t (q ++ [c]) = (findEntry s (pathString q) c).map fun i => node (s i) := by
  cases hfind : findEntry s (pathString q) c with
  | some i => exact h.lookup_of_holds (h.holds_of_find hcanon hfind)
  | none =>
    cases hnode : t (q ++ [c]) with
    | none => rfl
    | some n =>
      obtain ⟨i, hi, -⟩ := (h.lookup q c n).mp hnode
      rw [h.find_of_holds hi] at hfind
      cases hfind

/-- The strings `split_path` gives for the root lead nowhere. -/
theorem find_root (h : Represents s t) : findEntry s rootPath [] = none := by
  rw [findEntry_eq_none]
  rintro i ⟨hu, hname, hparent⟩
  have hi : i ≠ 0 := by
    rintro rfl
    rw [h.root_parent] at hparent
    cases hparent
  obtain ⟨q, c, hq⟩ := h.held i hi hu
  exact (canonical_concat.mp hq.canonical).2.1 (hq.name.symm.trans hname)

/-- The nodes whose path meets `P` are as many as the slots that hold them. -/
theorem ncard_eq (h : Represents s t) {P : Set (List Str)} {Q : Set (Fin maxFiles)}
    (hPQ : ∀ q c i, Holds s q c i → (q ++ [c] ∈ P ↔ i ∈ Q)) :
    (t.support ∩ P).ncard = ({i | i ≠ 0 ∧ (s i).IsUsed} ∩ Q).ncard := by
  have hex : ∀ p ∈ t.support ∩ P, ∃ i, ∃ q c, p = q ++ [c] ∧ Holds s q c i := by
    rintro p ⟨hp, -⟩
    obtain ⟨n, hn⟩ := Option.ne_none_iff_exists'.mp hp
    rcases List.eq_nil_or_concat' p with rfl | ⟨q, c, rfl⟩
    · rw [h.closed.root] at hn
      cases hn
    · obtain ⟨i, hi, -⟩ := (h.lookup q c n).mp hn
      exact ⟨i, q, c, rfl, hi⟩
  -- Nodes and slots correspond one to one.
  choose! slot hslot using hex
  refine Set.ncard_congr (fun p _ => slot p) ?_ ?_ ?_
  · intro p hp
    obtain ⟨q, c, rfl, hi⟩ := hslot p hp
    exact ⟨⟨hi.ne_zero, hi.used⟩, (hPQ q c _ hi).mp hp.2⟩
  · intro p p' hp hp' heq
    obtain ⟨q, c, rfl, hi⟩ := hslot p hp
    obtain ⟨q', c', rfl, hi'⟩ := hslot p' hp'
    have heq : slot (q ++ [c]) = slot (q' ++ [c']) := heq
    obtain ⟨rfl, rfl⟩ := hi.inj (heq ▸ hi')
    rfl
  · rintro i ⟨⟨hi, hu⟩, hQ⟩
    obtain ⟨q, c, hq⟩ := h.held i hi hu
    have hmem : q ++ [c] ∈ t.support ∩ P :=
      ⟨by rw [PathTree.support, Set.mem_ofPred, h.lookup_of_holds hq]; exact Option.some_ne_none _,
        (hPQ q c i hq).mpr hQ⟩
    obtain ⟨q', c', heq, hi'⟩ := hslot _ hmem
    obtain ⟨rfl, rfl⟩ : q = q' ∧ c = c' := by simpa using List.append_inj' heq rfl
    exact ⟨_, hmem, h.unique q c _ _ hi' hq⟩

/-! ## Writing and clearing a slot -/

/-- Slot `i` is given an entry of the path `q`, `c` and no other slot holds that path. -/
theorem set (h : Represents s t) {e : FileEntry} (hi : i ≠ 0) (hcanon : Canonical (q ++ [c]))
    (hparent : e.parent = pathString q) (hname : e.name = c) (hused : e.IsUsed)
    (hold : (s i).IsUsed → Holds s q c i) (hothers : ∀ j, Holds s q c j → j = i)
    (hclosed : PathTree.Closed (Function.update t (q ++ [c]) (some (node e)))) :
    Represents (Function.update s i e) (Function.update t (q ++ [c]) (some (node e))) := by
  have hself : Holds (Function.update s i e) q c i := by
    refine ⟨hi, ?_, hcanon, ?_, ?_⟩ <;> rwa [Function.update_self]
  have hroot : Function.update s i e 0 = s 0 := Function.update_of_ne hi.symm _ _
  refine ⟨hroot ▸ h.root_type, hroot ▸ h.root_parent, fun j hj hu => ?_, fun q' c' n => ?_,
    fun q' c' j k hj hk => ?_, hclosed⟩
  · by_cases hji : j = i
    · exact ⟨q, c, hji ▸ hself⟩
    · rw [Function.update_of_ne hji] at hu
      obtain ⟨q', c', hq'⟩ := h.held j hj hu
      exact ⟨q', c', (holds_update_of_ne hji).mpr hq'⟩
  · by_cases hpath : q' ++ [c'] = q ++ [c]
    · obtain ⟨rfl, rfl⟩ : q' = q ∧ c' = c := by simpa using List.append_inj' hpath rfl
      rw [Function.update_self, Option.some_inj]
      refine ⟨fun hn => ⟨i, hself, by rw [Function.update_self, hn]⟩, ?_⟩
      rintro ⟨j, hj, hnode⟩
      obtain rfl : j = i := by
        by_contra hji
        exact hji (hothers j ((holds_update_of_ne hji).mp hj))
      rwa [Function.update_self] at hnode
    · rw [Function.update_of_ne hpath, h.lookup]
      constructor
      · rintro ⟨j, hj, hnode⟩
        have hji : j ≠ i := by
          rintro rfl
          obtain ⟨rfl, rfl⟩ := hj.inj (hold hj.used)
          exact hpath rfl
        exact ⟨j, (holds_update_of_ne hji).mpr hj, by rwa [Function.update_of_ne hji]⟩
      · rintro ⟨j, hj, hnode⟩
        have hji : j ≠ i := by
          rintro rfl
          obtain ⟨rfl, rfl⟩ := hj.inj hself
          exact hpath rfl
        exact ⟨j, (holds_update_of_ne hji).mp hj, by rwa [Function.update_of_ne hji] at hnode⟩
  · by_cases hji : j = i <;> by_cases hki : k = i
    · exact hji.trans hki.symm
    · subst hji
      obtain ⟨rfl, rfl⟩ := hj.inj hself
      exact absurd (hothers k ((holds_update_of_ne hki).mp hk)) hki
    · subst hki
      obtain ⟨rfl, rfl⟩ := hk.inj hself
      exact absurd (hothers j ((holds_update_of_ne hji).mp hj)) hji
    · exact h.unique q' c' j k ((holds_update_of_ne hji).mp hj) ((holds_update_of_ne hki).mp hk)

theorem clear (h : Represents s t) (hi : Holds s q c i)
    (hclosed : PathTree.Closed (Function.update t (q ++ [c]) none)) :
    Represents (Function.update s i FileEntry.cleared) (Function.update t (q ++ [c]) none) := by
  have hgone : ∀ {j}, (Function.update s i FileEntry.cleared j).IsUsed → j ≠ i := by
    rintro j hj rfl
    rw [Function.update_self] at hj
    exact hj rfl
  have hroot : Function.update s i FileEntry.cleared 0 = s 0 :=
    Function.update_of_ne hi.ne_zero.symm _ _
  refine ⟨hroot ▸ h.root_type, hroot ▸ h.root_parent, fun j hj hu => ?_, fun q' c' n => ?_,
    fun q' c' j k hj hk => ?_, hclosed⟩
  · have hji := hgone hu
    rw [Function.update_of_ne hji] at hu
    obtain ⟨q', c', hq'⟩ := h.held j hj hu
    exact ⟨q', c', (holds_update_of_ne hji).mpr hq'⟩
  · by_cases hpath : q' ++ [c'] = q ++ [c]
    · obtain ⟨rfl, rfl⟩ : q' = q ∧ c' = c := by simpa using List.append_inj' hpath rfl
      rw [Function.update_self]
      refine ⟨fun hn => (Option.some_ne_none n hn.symm).elim, ?_⟩
      rintro ⟨j, hj, -⟩
      have hji := hgone hj.used
      exact absurd (h.unique q' c' j i ((holds_update_of_ne hji).mp hj) hi) hji
    · rw [Function.update_of_ne hpath, h.lookup]
      constructor
      · rintro ⟨j, hj, hnode⟩
        have hji : j ≠ i := by
          rintro rfl
          obtain ⟨rfl, rfl⟩ := hj.inj hi
          exact hpath rfl
        exact ⟨j, (holds_update_of_ne hji).mpr hj, by rwa [Function.update_of_ne hji]⟩
      · rintro ⟨j, hj, hnode⟩
        have hji := hgone hj.used
        exact ⟨j, (holds_update_of_ne hji).mp hj, by rwa [Function.update_of_ne hji] at hnode⟩
  · have hji := hgone hj.used
    have hki := hgone hk.used
    exact h.unique q' c' j k ((holds_update_of_ne hji).mp hj) ((holds_update_of_ne hki).mp hk)

/-! ## Counting -/

theorem root_used (h : Represents s t) : (s 0).IsUsed := by
  unfold FileEntry.IsUsed
  rw [h.root_type]
  exact FileType.noConfusion

theorem support_ncard (h : Represents s t) :
    t.support.ncard = {i | i ≠ 0 ∧ (s i).IsUsed}.ncard := by
  simpa using h.ncard_eq (P := Set.univ) (Q := Set.univ) fun _ _ _ _ => by simp

/-- There is a free slot exactly when the tree has room. -/
theorem room_iff (h : Represents s t) :
    t.support.ncard < maxNodes ↔ findFreeSlot s ≠ none := by
  have hall : ({i : Fin maxFiles | i ≠ 0} : Set _).ncard = maxNodes := by
    rw [Set.ncard_eq_toFinset_card']
    decide
  have hsub : {i | i ≠ 0 ∧ (s i).IsUsed} ⊆ {i : Fin maxFiles | i ≠ 0} := fun i hi => hi.1
  rw [h.support_ncard, ← hall, Ne, findFreeSlot_eq_none]
  constructor
  · intro hlt hused
    refine hlt.ne (congrArg Set.ncard (Set.Subset.antisymm hsub fun i hi => ⟨hi, hused i⟩))
  · intro hfree
    push Not at hfree
    obtain ⟨i, hi⟩ := hfree
    refine Set.ncard_lt_ncard (LE.le.ssubset_of_mem_notMem hsub (?_ : i ∈ _) ?_)
    · rintro rfl
      exact hi h.root_used
    · exact fun hmem => hi hmem.2

/-- A slot is listed under a path when it holds a child of it. -/
theorem children_ncard (h : Represents s t) {p : List Str} (hp : Canonical p) :
    (t.children p).ncard = {i | (s i).IsUsed ∧ (s i).parent = pathString p}.ncard := by
  have hslots : {i | (s i).IsUsed ∧ (s i).parent = pathString p} =
      {i | i ≠ 0 ∧ (s i).IsUsed} ∩ {i | (s i).parent = pathString p} := by
    ext i
    refine ⟨fun ⟨hu, hpar⟩ => ⟨⟨?_, hu⟩, hpar⟩, fun ⟨⟨_, hu⟩, hpar⟩ => ⟨hu, hpar⟩⟩
    rintro rfl
    exact pathString_ne_nil p (hpar.symm.trans h.root_parent)
  have hpaths : t.support ∩ {r | ∃ c, r = p ++ [c]} = (fun c => p ++ [c]) '' t.children p := by
    ext r
    constructor
    · rintro ⟨hr, c, rfl⟩
      exact ⟨c, hr, rfl⟩
    · rintro ⟨c, hc, rfl⟩
      exact ⟨hc, c, rfl⟩
  rw [hslots, ← h.ncard_eq (P := {r | ∃ c, r = p ++ [c]}), hpaths, Set.ncard_image_of_injective]
  · intro c d hcd
    simpa using hcd
  · intro q c i hi
    constructor
    · rintro ⟨d, hd⟩
      obtain ⟨rfl, -⟩ : q = p ∧ c = d := by simpa using List.append_inj' hd rfl
      exact hi.parent
    · intro hpar
      rw [pathString_inj hi.left hp (hi.parent.symm.trans hpar)]
      exact ⟨c, rfl⟩

/-! ## The checks of the operations -/

theorem parentExists_iff (h : Represents s t) (hq : Canonical q)
    (hfit : ∀ d ∈ q, d.length < maxNameLen) (hlen : (pathString q).length < maxPathLen) :
    ∃ b, parentExists s (pathString q) = some b ∧ (b = true ↔ t.IsDir q) := by
  unfold parentExists PathTree.IsDir
  rcases List.eq_nil_or_concat' q with rfl | ⟨r, d, rfl⟩
  · exact ⟨true, rfl, by simp⟩
  obtain ⟨hr, hd, hfree⟩ := canonical_concat.mp hq
  rw [if_neg (pathString_ne_rootPath hq (by simp)),
    splitPath_pathString hr hfree hd (hfit d (by simp)) hlen, h.lookup_of_find hq]
  refine ⟨_, rfl, ?_⟩
  cases hfind : findEntry s (pathString r) d with
  | none => simp [hfind]
  | some i => simp [hfind, node_eq_dir]

theorem pathExists_iff (h : Represents s t) (hcanon : Canonical (q ++ [c])) :
    pathExists s (pathString q) c = true ↔ t (q ++ [c]) ≠ none := by
  unfold pathExists
  rw [h.lookup_of_find hcanon]
  cases findEntry s (pathString q) c <;> simp

theorem hasChild_iff (h : Represents s t) {p : List Str} (hp : Canonical p) :
    hasChild s (pathString p) = true ↔ t.children p ≠ ∅ := by
  unfold hasChild
  rw [decide_eq_true_iff, ← Set.nonempty_iff_ne_empty]
  constructor
  · rintro ⟨i, hu, hpar⟩
    have hi : i ≠ 0 := by
      rintro rfl
      exact pathString_ne_nil p (hpar.symm.trans h.root_parent)
    obtain ⟨q, c, hq⟩ := h.held i hi hu
    obtain rfl := pathString_inj hq.left hp (hq.parent.symm.trans hpar)
    exact ⟨c, by rw [PathTree.children, Set.mem_ofPred, h.lookup_of_holds hq]; simp⟩
  · rintro ⟨c, hc⟩
    obtain ⟨n, hn⟩ := Option.ne_none_iff_exists'.mp hc
    obtain ⟨i, hi, -⟩ := (h.lookup p c n).mp hn
    exact ⟨i, hi.used, hi.parent⟩

/-- A new entry in a free slot is a new node of the tree. -/
theorem create (h : Represents s t) {e : FileEntry} (hcan : t.CanCreate maxNodes (q ++ [c]))
    (hcanon : Canonical (q ++ [c])) (hslot : findFreeSlot s = some i)
    (hparent : e.parent = pathString q) (hname : e.name = c) (hused : e.IsUsed) :
    Represents (Function.update s i e) (Function.update t (q ++ [c]) (some (node e))) := by
  have hfree := findFreeSlot_spec hslot
  refine h.set ?_ hcanon hparent hname hused (fun hu => absurd hu hfree) (fun j hj => ?_)
    (h.closed.create hcan _)
  · rintro rfl
    exact hfree h.root_used
  · have hsome := h.lookup_of_holds hj
    rw [hcan.2.1] at hsome
    cases hsome

end Represents

/-! ## The tree's machine -/

noncomputable def treeStep (t : FsTree) : Call CanonicalPath → FsTree × Result
  | .mkdir p => Prod.map id .flag (t.mkdir maxNodes p.comps)
  | .touch p => Prod.map id .flag (t.touch maxNodes p.comps [])
  | .writeFile p content =>
    Prod.map id .flag (t.write maxNodes p.comps (content.take (maxFileData - 1)))
  | .readFile p bufSize => (t, .bytes ((t.read p.comps).map (List.take (bufSize.toNat - 1))))
  | .ls p _ => (t, .count (t.children p.comps).ncard)
  | .rm p => Prod.map id .flag (t.remove p.comps)

/-- The caller's buffer for `read_file` has at least the byte the terminator needs. -/
def Call.HasBuffer {π : Type*} : Call π → Prop
  | .readFile _ bufSize => 1 ≤ bufSize.toNat
  | _ => True

namespace CanonicalPath

variable {p : CanonicalPath} {q : List Str} {c : Str}

theorem concat (hp : p.comps = q ++ [c]) :
    Canonical (q ++ [c]) ∧ c ≠ [] ∧ pathString (q ++ [c]) ≠ rootPath ∧
      splitPath (pathString (q ++ [c])) = some (pathString q, c) := by
  have hcanon : Canonical (q ++ [c]) := hp ▸ p.canonical
  obtain ⟨hq, hc, hfree⟩ := canonical_concat.mp hcanon
  refine ⟨hcanon, hc, pathString_ne_rootPath hcanon (by simp), ?_⟩
  exact splitPath_pathString hq hfree hc
    (Nat.lt_succ_of_le (p.comps_fit c (by simp [hp]))) (hp ▸ p.pathString_lt)

theorem parentExists_iff {s : Entries} {t : FsTree} (h : Represents s t) (hp : p.comps = q ++ [c]) :
    ∃ b, parentExists s (pathString q) = some b ∧ (b = true ↔ t.IsDir q) := by
  obtain ⟨hq, -⟩ := canonical_concat.mp (hp ▸ p.canonical)
  refine h.parentExists_iff hq (fun d hd => Nat.lt_succ_of_le (p.comps_fit d ?_)) ?_
  · rw [hp]
    exact List.mem_append_left _ hd
  · exact (pathString_length_le hq).trans_lt (hp ▸ p.pathString_lt)

end CanonicalPath

theorem CanonicalPath.canCreate_iff {p : CanonicalPath} {q : List Str} {c : Str} {s : Entries}
    {t : FsTree} (h : Represents s t) (hp : p.comps = q ++ [c]) :
    t.CanCreate maxNodes (q ++ [c]) ↔ parentExists s (pathString q) = some true ∧
      pathExists s (pathString q) c = false ∧ findFreeSlot s ≠ none := by
  obtain ⟨b, hb, hdir⟩ := p.parentExists_iff h hp
  have hex := h.pathExists_iff (p.concat hp).1
  unfold PathTree.CanCreate
  rw [hb, Option.some_inj, hdir, List.dropLast_concat, ← h.room_iff, ← Bool.not_eq_true, hex,
    not_not]
  constructor
  · rintro ⟨-, hfree, hd, hroom⟩
    exact ⟨hd, hfree, hroom⟩
  · rintro ⟨hd, hfree, hroom⟩
    exact ⟨by simp, hfree, hd, hroom⟩

/-! ## Every call is answered alike -/

variable {s : Entries} {t : FsTree}

/-- The tail of `mkdir` and `touch`: the node is created where the tree allows it. Where the tree
does not, the entry may be there already, and then its parent is there too. -/
theorem createEntry_refines {p : CanonicalPath} {q : List Str} {c : Str} (h : Represents s t)
    (hp : p.comps = q ++ [c]) (existing : Bool) (entry : FileEntry → Str → Str → FileEntry)
    {n : Node Str}
    (hentry : ∀ old, (entry old (pathString q) c).parent = pathString q ∧
      (entry old (pathString q) c).name = c ∧ (entry old (pathString q) c).IsUsed ∧
      node (entry old (pathString q) c) = n) :
    (t.CanCreate maxNodes (q ++ [c]) ∧
      ∃ s', createEntry s (pathString (q ++ [c])) existing entry = some (s', true) ∧
        Represents s' (Function.update t (q ++ [c]) (some n))) ∨
    (¬t.CanCreate maxNodes (q ++ [c]) ∧ createEntry s (pathString (q ++ [c])) existing entry =
      some (s, existing && (t (q ++ [c])).isSome)) := by
  obtain ⟨hcanon, hc, -, hsplit⟩ := p.concat hp
  obtain ⟨b, hb, hdir⟩ := p.parentExists_iff h hp
  have hcan := p.canCreate_iff h hp
  have hexists := h.pathExists_iff hcanon
  unfold createEntry
  rw [hsplit]
  simp only [Option.bind_eq_bind, Option.bind_some, if_neg hc, hb]
  by_cases hcreate : t.CanCreate maxNodes (q ++ [c])
  · obtain ⟨hok, hex, hroom⟩ := hcan.mp hcreate
    obtain ⟨slot, hslot⟩ := Option.ne_none_iff_exists'.mp hroom
    obtain rfl : b = true := Option.some.inj (hb.symm.trans hok)
    obtain ⟨hparent, hname, hused, rfl⟩ := hentry (s slot)
    simp only [hex, hslot]
    exact .inl ⟨hcreate, _, rfl, h.create hcreate hcanon hslot hparent hname hused⟩
  · refine .inr ⟨hcreate, ?_⟩
    cases hex : pathExists s (pathString q) c with
    | true =>
      have hsome : t (q ++ [c]) ≠ none := hexists.mp hex
      -- The tree is closed, so the parent check was passed before.
      obtain rfl : b = true := hdir.mpr (h.closed.parent q c hsome)
      rw [Option.isSome_iff_ne_none.mpr hsome, Bool.and_true]
      rfl
    | false =>
      have hnone : t (q ++ [c]) = none := by
        by_contra hsome
        rw [hexists.mpr hsome] at hex
        cases hex
      rw [hnone, Option.isSome_none, Bool.and_false]
      cases b with
      | false => rfl
      | true =>
        cases hslot : findFreeSlot s with
        | none => rfl
        | some slot => exact absurd (hcan.mpr ⟨hb, hex, by simp [hslot]⟩) hcreate

theorem mkdir_refines (h : Represents s t) (p : CanonicalPath) :
    ∃ s', mkdir s p.toStr = some (s', (t.mkdir maxNodes p.comps).2) ∧
      Represents s' (t.mkdir maxNodes p.comps).1 := by
  rw [mkdir_eq, if_neg (not_not.mpr p.toStr_head), p.normalizePath_toStr, Option.bind_some]
  unfold PathTree.mkdir PathTree.create
  rcases List.eq_nil_or_concat' p.comps with hp | ⟨q, c, hp⟩
  · rw [hp, if_pos (show pathString [] = rootPath from rfl), if_neg (fun hcan => hcan.1 rfl)]
    exact ⟨s, rfl, h⟩
  obtain ⟨-, -, hroot, -⟩ := p.concat hp
  rw [hp, if_neg hroot]
  rcases createEntry_refines h hp false dirEntry (n := .dir)
    (fun _ => ⟨rfl, rfl, FileType.noConfusion, rfl⟩) with ⟨hcan, s', hcall, h'⟩ | ⟨hcan, hcall⟩
  · rw [if_pos hcan]
    exact ⟨s', hcall, h'⟩
  · rw [if_neg hcan]
    exact ⟨s, hcall, h⟩

theorem touch_refines (h : Represents s t) (p : CanonicalPath) :
    ∃ s', touch s p.toStr = some (s', (t.touch maxNodes p.comps []).2) ∧
      Represents s' (t.touch maxNodes p.comps []).1 := by
  rw [touch_eq, if_neg (not_not.mpr p.toStr_head), p.normalizePath_toStr, Option.bind_some]
  unfold PathTree.touch PathTree.create
  rcases List.eq_nil_or_concat' p.comps with hp | ⟨q, c, hp⟩
  · rw [hp, show pathString [] = rootPath from rfl, if_pos h.closed.root,
      if_neg (fun hcan => hcan.1 rfl)]
    exact ⟨s, rfl, h⟩
  rw [hp]
  rcases createEntry_refines h hp true (fun _ => fileEntry) (n := .file [])
    (fun _ => ⟨rfl, rfl, FileType.noConfusion, rfl⟩) with ⟨hcan, s', hcall, h'⟩ | ⟨hcan, hcall⟩
  · rw [if_pos hcan.2.1, if_pos hcan]
    exact ⟨s', hcall, h'⟩
  · refine ⟨s, ?_⟩
    rw [hcall, if_neg hcan]
    cases hnode : t (q ++ [c]) with
    | none => exact ⟨rfl, h⟩
    | some n => exact ⟨rfl, h⟩

/-- The bytes `write_file` stores are the first 1023 of the content. -/
theorem stored_bytes {content : Str} {len : ℕ}
    (hlen : len = if content.length ≥ maxFileData then maxFileData - 1 else content.length) :
    (Vector.ofFn fun i : Fin maxFileData =>
      if i.val < len then content.getD i.val 0 else 0).toList.take len =
      content.take (maxFileData - 1) := by
  have hmin : len = min (maxFileData - 1) content.length := by
    unfold maxFileData at *
    split at hlen <;> omega
  have hle : len ≤ maxFileData := by
    unfold maxFileData at *
    omega
  apply List.ext_getElem
  · simp [hmin, maxFileData]
  · intro i hi hi'
    rw [List.length_take] at hi hi'
    have hilen : i < len := by omega
    have hic : i < content.length := by omega
    simp [hilen, hic]

theorem store_refines {q : List Str} {c : Str} {i : Fin maxFiles} (h : Represents s t)
    (hi : Holds s q c i) (content : Str) :
    ((s i).type = .directory ∧ storeContent s i content = (s, false)) ∨
      ∃ old s', node (s i) = .file old ∧ storeContent s i content = (s', true) ∧
        Represents s' (Function.update t (q ++ [c])
          (some (.file (content.take (maxFileData - 1))))) := by
  unfold storeContent
  by_cases htype : (s i).type = .regular
  · refine .inr ⟨(s i).data.toList.take (s i).size, ?_⟩
    have hnode : node (s i) = .file ((s i).data.toList.take (s i).size) := by
      rw [node, htype, if_neg FileType.noConfusion]
    rw [if_neg (not_not.mpr htype)]
    refine ⟨_, hnode, rfl, ?_⟩
    rw [← stored_bytes rfl]
    have hnew : ∀ e : FileEntry, e.type = .regular → e.parent = (s i).parent →
        e.name = (s i).name → Represents (Function.update s i e)
          (Function.update t (q ++ [c]) (some (.file (e.data.toList.take e.size)))) := by
      intro e hetype hparent hname
      have henode : node e = .file (e.data.toList.take e.size) := by
        rw [node, hetype, if_neg FileType.noConfusion]
      rw [← henode]
      refine h.set hi.ne_zero hi.canonical (hparent.trans hi.parent) (hname.trans hi.name) ?_
        (fun _ => hi) (fun j hj => h.unique q c j i hj hi) ?_
      · unfold FileEntry.IsUsed
        rw [hetype]
        exact FileType.noConfusion
      · rw [henode]
        exact h.closed.replace (hnode ▸ h.lookup_of_holds hi)
    exact hnew _ htype rfl rfl
  · exact .inl ⟨hi.used.directory htype, if_pos htype⟩

/-- The same path without its trailing slashes. -/
def CanonicalPath.normal (p : CanonicalPath) : CanonicalPath where
  comps := p.comps
  trailing := 0
  canonical := p.canonical
  comps_fit := p.comps_fit
  fits := by
    rw [List.replicate_zero, List.append_nil]
    exact Nat.le_of_lt_succ p.pathString_lt

theorem CanonicalPath.normal_toStr (p : CanonicalPath) : p.normal.toStr = pathString p.comps :=
  List.append_nil _

theorem writeFile_refines (h : Represents s t) (p : CanonicalPath) (content : Str) :
    ∃ s', writeFile s p.toStr content =
        some (s', (t.write maxNodes p.comps (content.take (maxFileData - 1))).2) ∧
      Represents s' (t.write maxNodes p.comps (content.take (maxFileData - 1))).1 := by
  unfold writeFile PathTree.write
  rw [if_neg (not_not.mpr p.toStr_head), p.normalizePath_toStr]
  simp only [Option.bind_eq_bind, Option.bind_some]
  obtain ⟨s₁, htouch, h₁⟩ := touch_refines h p.normal
  rw [p.normal_toStr] at htouch
  unfold PathTree.touch PathTree.create at htouch h₁
  rw [show p.normal.comps = p.comps from rfl] at htouch h₁
  unfold PathTree.create
  rcases List.eq_nil_or_concat' p.comps with hp | ⟨q, c, hp⟩
  · rw [hp, if_pos h.closed.root, if_neg (fun hcan => hcan.1 rfl)] at htouch h₁
    rw [hp, show pathString [] = rootPath from rfl] at *
    simp only [splitPath_rootPath, Option.bind_some, h.find_root, htouch, h.closed.root,
      if_neg (show ¬t.CanCreate maxNodes [] from fun hcan => hcan.1 rfl)]
    exact ⟨s₁, rfl, h₁⟩
  obtain ⟨hcanon, hc, hroot, hsplit⟩ := p.concat hp
  rw [hp, hsplit]
  rw [hp] at htouch h₁
  simp only [Option.bind_some]
  cases hfind : findEntry s (pathString q) c with
  | some i =>
    have hi := h.holds_of_find hcanon hfind
    rw [h.lookup_of_holds hi]
    rcases store_refines h hi content with ⟨hdir, hstore⟩ | ⟨old, s', hold, hstore, h'⟩
    · rw [node_eq_dir.mpr hdir]
      exact ⟨s, congrArg some hstore, h⟩
    · rw [hold]
      exact ⟨s', congrArg some hstore, h'⟩
  | none =>
    have hfree : t (q ++ [c]) = none := by
      rw [h.lookup_of_find hcanon, hfind, Option.map_none]
    rw [if_pos hfree] at htouch h₁
    rw [hfree, htouch]
    by_cases hcreate : t.CanCreate maxNodes (q ++ [c])
    · rw [if_pos hcreate] at h₁
      simp only [if_pos hcreate, Option.bind_some]
      have hnode : Function.update t (q ++ [c]) (some (.file [])) (q ++ [c]) = some (.file []) :=
        Function.update_self _ _ _
      obtain ⟨i, hi, hfile⟩ := (h₁.lookup q c _).mp hnode
      rw [h₁.find_of_holds hi]
      rcases store_refines h₁ hi content with ⟨hdir, -⟩ | ⟨old, s', -, hstore, h'⟩
      · rw [node_eq_dir.mpr hdir] at hfile
        cases hfile
      · rw [Function.update_idem] at h'
        exact ⟨s', congrArg some hstore, h'⟩
    · rw [if_neg hcreate] at h₁
      simp only [if_neg hcreate, Option.bind_some]
      exact ⟨s₁, rfl, h₁⟩

theorem readFile_refines (h : Represents s t) (p : CanonicalPath) {bufSize : UInt32}
    (hbuf : 1 ≤ bufSize.toNat) :
    readFile s p.toStr bufSize =
      some ((t.read p.comps).map (List.take (bufSize.toNat - 1))) := by
  unfold readFile PathTree.read
  rw [if_neg (not_not.mpr p.toStr_head), p.normalizePath_toStr]
  simp only [Option.bind_eq_bind, Option.bind_some]
  rcases List.eq_nil_or_concat' p.comps with hp | ⟨q, c, hp⟩
  · rw [hp, show pathString [] = rootPath from rfl, splitPath_rootPath]
    simp only [Option.bind_some, h.find_root, h.closed.root]
    rfl
  obtain ⟨hcanon, hc, hroot, hsplit⟩ := p.concat hp
  rw [hp, hsplit]
  simp only [Option.bind_some, h.lookup_of_find hcanon]
  cases hfind : findEntry s (pathString q) c with
  | none => rfl
  | some i =>
    have hi := h.holds_of_find hcanon hfind
    simp only [Option.map_some]
    by_cases htype : (s i).type = .regular
    · have hlen : (if (s i).size ≥ bufSize.toNat then (bufSize - 1).toNat else (s i).size) =
          min (bufSize.toNat - 1) (s i).size := by
        have hsub : (bufSize - 1).toNat = bufSize.toNat - 1 :=
          UInt32.toNat_sub_of_le bufSize 1 (UInt32.le_iff_toNat_le.mpr hbuf)
        split <;> omega
      rw [if_neg (not_not.mpr htype), hlen, if_pos (by omega), node, htype,
        if_neg FileType.noConfusion]
      simp only [Option.map_some, List.take_take]
      rfl
    · have hdir : node (s i) = .dir := node_eq_dir.mpr (hi.used.directory htype)
      rw [if_pos htype, hdir]
      rfl

/-- The loop of `ls` counts the entries it lists. -/
theorem ls_count (s : Entries) (norm : Str) (bufSize : UInt32) (l : List (Fin maxFiles))
    (acc : ℕ × Str) :
    (l.foldl (fun acc i => lsEntry norm bufSize acc (s i)) acc).1 =
      acc.1 + l.countP fun i => listedIn norm (s i) := by
  induction l generalizing acc with
  | nil => rfl
  | cons i l ih =>
    rw [List.foldl_cons, List.countP_cons, ih, lsEntry]
    split
    · simp only [*]
      omega
    · simp [*]

theorem countP_finRange (f : Fin maxFiles → Bool) :
    (List.finRange maxFiles).countP f = {i | f i = true}.ncard := by
  rw [Set.ncard_eq_toFinset_card', Set.toFinset_ofPred, Finset.card_def, Finset.filter_val,
    Fin.univ_def, ← Multiset.countP_eq_card_filter, Multiset.coe_countP]
  simp only [Bool.decide_eq_true]

theorem listedIn_iff (norm : Str) (e : FileEntry) :
    listedIn norm e = true ↔ e.IsUsed ∧ e.parent = norm := by
  unfold listedIn
  rw [decide_eq_true_iff]
  split
  · simp [*]
  · rfl

theorem ls_refines (h : Represents s t) (p : CanonicalPath) (bufSize : UInt32) :
    (ls s p.toStr bufSize).map Prod.fst = some (t.children p.comps).ncard := by
  unfold ls
  rw [p.normalizePath_toStr, h.children_ncard p.canonical]
  rw [Option.map_some, Option.map_some, Option.some_inj, ls_count, Nat.zero_add, countP_finRange]
  simp only [listedIn_iff]

theorem rm_refines (h : Represents s t) (p : CanonicalPath) :
    ∃ s', rm s p.toStr = some (s', (t.remove p.comps).2) ∧ Represents s' (t.remove p.comps).1 := by
  unfold rm PathTree.remove
  rw [if_neg (not_not.mpr p.toStr_head), p.normalizePath_toStr]
  simp only [Option.bind_eq_bind, Option.bind_some]
  rcases List.eq_nil_or_concat' p.comps with hp | ⟨q, c, hp⟩
  · rw [hp, if_pos (show pathString [] = rootPath from rfl), h.closed.root]
    exact ⟨s, rfl, h⟩
  obtain ⟨hcanon, hc, hroot, hsplit⟩ := p.concat hp
  have hlookup := h.lookup_of_find hcanon
  rw [hp, if_neg hroot, hsplit]
  simp only [Option.bind_some]
  cases hfind : findEntry s (pathString q) c with
  | none =>
    rw [hlookup, hfind]
    exact ⟨s, rfl, h⟩
  | some i =>
    have hi := h.holds_of_find hcanon hfind
    have hfull : joinPath (pathString q) c = pathString (q ++ [c]) :=
      (pathString_concat hi.left).symm
    have hfits : fits maxPathLen (pathString (q ++ [c])) = some (pathString (q ++ [c])) :=
      fits_of_lt (hp ▸ p.pathString_lt)
    rw [h.lookup_of_holds hi]
    simp only [hfull, hfits, Option.bind_some]
    by_cases hdir : (s i).type = .directory
    · rw [node_eq_dir.mpr hdir, if_pos hdir]
      by_cases hempty : t.children (q ++ [c]) = ∅
      · have hchild : hasChild s (pathString (q ++ [c])) = false := by
          rw [← Bool.not_eq_true, h.hasChild_iff hcanon]
          exact not_not.mpr hempty
        simp only [hchild, if_pos hempty]
        exact ⟨_, rfl, h.clear hi (h.closed.erase fun _ => hempty)⟩
      · simp only [(h.hasChild_iff hcanon).mpr hempty, if_neg hempty]
        exact ⟨s, rfl, h⟩
    · have hnode : node (s i) = .file ((s i).data.toList.take (s i).size) := if_neg hdir
      rw [hnode, if_neg hdir]
      refine ⟨_, rfl, h.clear hi (h.closed.erase fun hdir' => ?_)⟩
      rw [h.lookup_of_holds hi, hnode] at hdir'
      cases hdir'

theorem step_refines (h : Represents s t) {c : Call CanonicalPath} (hc : c.HasBuffer) :
    ∃ s', step s (c.map CanonicalPath.toStr) = some (s', (treeStep t c).2) ∧
      Represents s' (treeStep t c).1 := by
  cases c with
  | mkdir p =>
    obtain ⟨s', hs', h'⟩ := mkdir_refines h p
    exact ⟨s', congrArg (Option.map _) hs', h'⟩
  | touch p =>
    obtain ⟨s', hs', h'⟩ := touch_refines h p
    exact ⟨s', congrArg (Option.map _) hs', h'⟩
  | writeFile p content =>
    obtain ⟨s', hs', h'⟩ := writeFile_refines h p content
    exact ⟨s', congrArg (Option.map _) hs', h'⟩
  | readFile p bufSize =>
    exact ⟨s, congrArg (Option.map _) (readFile_refines h p hc), h⟩
  | ls p bufSize =>
    obtain ⟨⟨count, out⟩, hls, hcount⟩ := Option.map_eq_some_iff.mp (ls_refines h p bufSize)
    refine ⟨s, ?_, h⟩
    rw [Call.map, step, hls, treeStep, ← hcount]
    rfl
  | rm p =>
    obtain ⟨s', hs', h'⟩ := rm_refines h p
    exact ⟨s', congrArg (Option.map _) hs', h'⟩

/-! ## Whole sequences of calls -/

def Call.path {π : Type*} : Call π → π
  | .mkdir p | .touch p | .writeFile p _ | .readFile p _ | .ls p _ | .rm p => p

/-- A call of the tree changes no path but its own. -/
theorem treeStep_frame (t : FsTree) (c : Call CanonicalPath) {r : List Str}
    (hr : r ≠ c.path.comps) : (treeStep t c).1 r = t r := by
  have hcreate : ∀ (t : FsTree) p n, r ≠ p → (t.create maxNodes p n).1 r = t r := by
    intro t p n hp
    unfold PathTree.create
    split
    · exact Function.update_of_ne hp _ _
    · rfl
  cases c with
  | mkdir p => exact hcreate t _ _ hr
  | touch p =>
    change (t.touch maxNodes p.comps []).1 r = t r
    unfold PathTree.touch
    split
    · exact hcreate t _ _ hr
    · rfl
  | writeFile p content =>
    change (t.write maxNodes p.comps _).1 r = t r
    unfold PathTree.write
    split
    · exact hcreate t _ _ hr
    · rfl
    · exact Function.update_of_ne hr _ _
  | readFile p bufSize => rfl
  | ls p bufSize => rfl
  | rm p =>
    change (t.remove p.comps).1 r = t r
    unfold PathTree.remove
    split
    · rfl
    · split
      · exact Function.update_of_ne hr _ _
      · rfl
    · exact Function.update_of_ne hr _ _

theorem Represents.support_le (h : Represents s t) : t.support.ncard ≤ maxNodes := by
  have hall : ({i : Fin maxFiles | i ≠ 0} : Set _).ncard = maxNodes := by
    rw [Set.ncard_eq_toFinset_card']
    decide
  rw [h.support_ncard, ← hall]
  exact Set.ncard_le_ncard fun i hi => hi.1

/-- From `init` every sequence of calls on canonical paths is answered as the tree answers it; the
tree never has more than 63 nodes, and a call changes no path but its own. -/
theorem table_refines_tree (cs : List (Call CanonicalPath)) (hcs : ∀ c ∈ cs, c.HasBuffer) :
    (∃ s, answers step init (cs.map (Call.map CanonicalPath.toStr)) =
        some (s, (replies treeStep PathTree.empty cs).2)) ∧
      (replies treeStep PathTree.empty cs).1.support.ncard ≤ maxNodes ∧
      ∀ (t : FsTree) (c : Call CanonicalPath) r, r ≠ c.path.comps → (treeStep t c).1 r = t r := by
  obtain ⟨s, hs, hrep⟩ := answers_eq_replies Represents Call.HasBuffer
    (fun s t c h hc => step_refines h hc) represents_init hcs
  exact ⟨⟨s, hs⟩, hrep.support_le, fun t c r hr => treeStep_frame t c hr⟩

/-- The path `"/a"`. -/
def canonicalA : CanonicalPath where
  comps := [[97]]
  trailing := 0
  canonical := by unfold Canonical; decide
  comps_fit := by decide
  fits := by decide

theorem table_refines_tree_read :
    (∃ s, answers step init ([.touch canonicalA, .readFile canonicalA 8].map
        (Call.map CanonicalPath.toStr)) = some (s, (replies treeStep PathTree.empty
          [.touch canonicalA, .readFile canonicalA 8]).2)) ∧
      (replies treeStep PathTree.empty [.touch canonicalA, .readFile canonicalA 8]).1.support.ncard
        ≤ maxNodes ∧
      ∀ (t : FsTree) (c : Call CanonicalPath) r, r ≠ c.path.comps → (treeStep t c).1 r = t r :=
  table_refines_tree [.touch canonicalA, .readFile canonicalA 8] fun c hc => by
    rcases List.mem_cons.mp hc with rfl | hc
    · exact trivial
    · rw [List.mem_singleton.mp hc]
      exact show 1 ≤ (8 : UInt32).toNat by decide

end QuillOS.Filesystem
