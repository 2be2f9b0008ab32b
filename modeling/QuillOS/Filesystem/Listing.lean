import QuillOS.Filesystem.Refinement

/-!
# Directory listings

`ls` guards every character it writes by the room left in the buffer. A character put into a
truncated text is the truncation of the text with that character, and so the five guarded writes of
a line, and then the whole loop, produce a truncation of the full listing.
-/

namespace QuillOS.Filesystem

open Lib

/-- The line a listing has for an entry, with nothing cut off. -/
def FileEntry.line (e : FileEntry) : Str :=
  (if e.type = .directory then 100 else 102) :: 32 :: (e.name ++ [10])

/-- The listing of the directory with full path `norm`, with nothing cut off. -/
def listing (s : Entries) (norm : Str) : Str :=
  ((List.finRange maxFiles).filter fun i => listedIn norm (s i)).flatMap fun i => (s i).line

/-- The used entries with parent `norm`. -/
def entriesIn (s : Entries) (norm : Str) : Set (Fin maxFiles) :=
  {i | (s i).IsUsed ∧ (s i).parent = norm}

/-- `ls` stays in its buffers, counts the entries of the directory, and leaves in the output as
much of the listing as there is room for beside the terminator. -/
def ListsExactly (s : Entries) (path : Str) (bufSize : UInt32) : Prop :=
  ls s path bufSize = some ((entriesIn s (stripSlashes path)).ncard,
    some ((listing s (stripSlashes path)).take
      (min (listing s (stripSlashes path)).length (bufSize.toNat - 1))))

/-! ## Truncated writes -/

theorem put_take (bufSize : UInt32) (full : Str) (c : UInt8) :
    put bufSize (full.take (bufSize - 1).toNat) c = (full ++ [c]).take (bufSize - 1).toNat := by
  unfold put
  rw [List.length_take]
  by_cases hroom : full.length < (bufSize - 1).toNat
  · rw [if_pos (by omega), List.take_of_length_le hroom.le, List.take_of_length_le]
    rw [List.length_append]
    exact hroom
  · rw [if_neg (by omega), List.take_append_of_le_length (not_lt.mp hroom)]

theorem foldl_put_take (bufSize : UInt32) (full cs : Str) :
    cs.foldl (put bufSize) (full.take (bufSize - 1).toNat) =
      (full ++ cs).take (bufSize - 1).toNat := by
  induction cs generalizing full with
  | nil => simp
  | cons c cs ih => rw [List.foldl_cons, put_take, ih, List.append_assoc, List.singleton_append]

/-- The five write points of a line, wherever the room runs out. -/
theorem putLine_take (bufSize : UInt32) (full : Str) (e : FileEntry) :
    putLine bufSize (full.take (bufSize - 1).toNat) e =
      (full ++ e.line).take (bufSize - 1).toNat := by
  unfold putLine FileEntry.line
  dsimp only
  rw [put_take, put_take, foldl_put_take, put_take]
  simp

theorem lsEntry_take (norm : Str) (bufSize : UInt32) (s : Entries) (l : List (Fin maxFiles))
    (count : ℕ) (full : Str) :
    (l.foldl (fun acc i => lsEntry norm bufSize acc (s i))
      (count, full.take (bufSize - 1).toNat)).2 =
      (full ++ (l.filter fun i => listedIn norm (s i)).flatMap fun i => (s i).line).take
        (bufSize - 1).toNat := by
  induction l generalizing count full with
  | nil => simp
  | cons i l ih =>
    rw [List.foldl_cons, lsEntry]
    split
    · rw [putLine_take, ih, List.filter_cons_of_pos (by assumption), List.flatMap_cons,
        List.append_assoc]
    · rw [ih, List.filter_cons_of_neg (by assumption)]

/-! ## The listing -/

/-- `buf_size - 1` does not wrap for a buffer with room for the terminator. -/
theorem lastIndex_toNat {bufSize : UInt32} (h : 1 ≤ bufSize) :
    (bufSize - 1).toNat = bufSize.toNat - 1 := by
  rw [UInt32.toNat_sub_of_le _ _ h]
  rfl

theorem ls_of_normalize {s : Entries} {path norm : Str} {bufSize : UInt32} (hbuf : 1 ≤ bufSize)
    (hnorm : normalizePath path = some norm) :
    ls s path bufSize =
      some ((entriesIn s norm).ncard, some ((listing s norm).take (bufSize.toNat - 1))) := by
  have hpos : 1 ≤ bufSize.toNat := UInt32.le_iff_toNat_le.mp hbuf
  have hout := lsEntry_take norm bufSize s (List.finRange maxFiles) 0 []
  rw [lastIndex_toNat hbuf, List.take_nil, List.nil_append] at hout
  have hroom : ((listing s norm).take (bufSize.toNat - 1)).length < bufSize.toNat := by
    rw [List.length_take]
    omega
  unfold ls entriesIn
  rw [hnorm, Option.map_some]
  dsimp only
  rw [ls_count, Nat.zero_add, countP_finRange, hout, ← listing, if_pos hroom]
  simp only [listedIn_iff]

/-- The one thing that goes wrong: a path that does not fit `norm` is copied past its end. -/
theorem listsExactly_iff (s : Entries) (path : Str) (bufSize : UInt32) (hbuf : 1 ≤ bufSize) :
    ListsExactly s path bufSize ↔ path.length < maxPathLen := by
  unfold ListsExactly
  constructor
  · intro h
    by_contra hlong
    unfold ls normalizePath fits at h
    rw [if_neg hlong] at h
    cases h
  · intro hlen
    have hnorm : normalizePath path = some (stripSlashes path) := by
      unfold normalizePath
      rw [fits_of_lt hlen, Option.map_some]
    rw [ls_of_normalize hbuf hnorm, min_comm, ← List.take_eq_take_min]

/-- The directory `docs` and the file `log`. -/
def twoEntries : Entries :=
  Function.update (Function.update init 1 (dirEntry (init 1) rootPath [100, 111, 99, 115])) 2
    (fileEntry rootPath [108, 111, 103])

/-- The room runs out in the second name. -/
theorem listsExactly_iff_root : ListsExactly twoEntries rootPath 12 ∧
    ls twoEntries rootPath 12 = some (2, some [100, 32, 100, 111, 99, 115, 10, 102, 32, 108, 111]) :=
  ⟨(listsExactly_iff twoEntries rootPath 12 (by decide)).mpr (by decide), by decide +kernel⟩

/-- A slash and 127 characters leave no room for the terminator. -/
theorem long_path_overruns :
    ¬ListsExactly init (slash :: List.replicate 127 97) 4096 := by
  have hls : ls init (slash :: List.replicate 127 97) 4096 = none := by decide +kernel
  unfold ListsExactly
  rw [hls]
  exact (Option.some_ne_none _).symm

/-! ## The listing of a tree -/

/-- The line for the name `c` in the directory `q`. -/
def lineOf (t : FsTree) (q : List Str) (c : Str) : Str :=
  (match t (q ++ [c]) with
    | some .dir => 100
    | _ => 102) :: 32 :: (c ++ [10])

namespace Represents

variable {s : Entries} {t : FsTree} {q : List Str} {i : Fin maxFiles}

theorem holds_of_listed (h : Represents s t) (hq : Canonical q)
    (hi : listedIn (pathString q) (s i) = true) : Holds s q (s i).name i := by
  obtain ⟨hused, hparent⟩ := (listedIn_iff _ _).mp hi
  have hne : i ≠ 0 := by
    rintro rfl
    exact pathString_ne_nil q (hparent.symm.trans h.root_parent)
  obtain ⟨q', c, hheld⟩ := h.held i hne hused
  obtain rfl := pathString_inj hheld.left hq (hheld.parent.symm.trans hparent)
  rwa [hheld.name]

theorem listedIn_of_holds {c : Str} (hi : Holds s q c i) : listedIn (pathString q) (s i) = true :=
  (listedIn_iff _ _).mpr ⟨hi.used, hi.parent⟩

theorem line_eq (h : Represents s t) (hq : Canonical q)
    (hi : listedIn (pathString q) (s i) = true) : (s i).line = lineOf t q (s i).name := by
  have hnode := h.lookup_of_holds (h.holds_of_listed hq hi)
  unfold FileEntry.line lineOf
  rw [hnode, node]
  split_ifs <;> rfl

/-- The listing has one line for each name in the directory. -/
theorem listing_eq (h : Represents s t) (hq : Canonical q) : ∃ names : List Str,
    names.Nodup ∧ (∀ c, c ∈ names ↔ c ∈ t.children q) ∧
      names.length = (entriesIn s (pathString q)).ncard ∧
      listing s (pathString q) = names.flatMap (lineOf t q) := by
  let slots := (List.finRange maxFiles).filter fun i => listedIn (pathString q) (s i)
  have hslots : ∀ i, i ∈ slots ↔ listedIn (pathString q) (s i) = true := by
    intro i
    rw [List.mem_filter]
    exact and_iff_right (List.mem_finRange i)
  have hnodup : slots.Nodup := (List.nodup_finRange maxFiles).filter _
  refine ⟨slots.map fun i => (s i).name, ?_, fun c => ?_, ?_, ?_⟩
  · refine List.Nodup.map_on (fun i hi j hj hname => ?_) hnodup
    have hi' := h.holds_of_listed hq ((hslots i).mp hi)
    have hj' := h.holds_of_listed hq ((hslots j).mp hj)
    exact h.unique q _ i j hi' (hname ▸ hj')
  · rw [List.mem_map, PathTree.children, Set.mem_ofPred]
    constructor
    · rintro ⟨i, hi, rfl⟩
      rw [h.lookup_of_holds (h.holds_of_listed hq ((hslots i).mp hi))]
      exact Option.some_ne_none _
    · intro hc
      obtain ⟨n, hn⟩ := Option.ne_none_iff_exists'.mp hc
      obtain ⟨i, hi, -⟩ := (h.lookup q c n).mp hn
      exact ⟨i, (hslots i).mpr (listedIn_of_holds hi), hi.name⟩
  · rw [List.length_map, ← List.toFinset_card_of_nodup hnodup, ← Set.ncard_coe_finset]
    congr 1
    ext i
    rw [Finset.mem_coe, List.mem_toFinset, hslots, listedIn_iff]
    rfl
  · rw [List.flatMap_map]
    exact List.flatMap_congr fun i hi => h.line_eq hq ((hslots i).mp hi)

end Represents

end QuillOS.Filesystem
