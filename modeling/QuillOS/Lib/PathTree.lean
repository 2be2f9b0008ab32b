import Mathlib.Data.Set.Card
import Mathlib.Tactic

/-!
# Trees of directories and files

A directory tree as a partial map from paths to nodes: a path is the list of its components from
the root, and the root itself is not in the map. The operations are those of a filesystem with
room for a bounded number of nodes.
-/

namespace Lib

variable {α β : Type*}

inductive Node (β : Type*)
  | dir
  | file (content : β)

abbrev PathTree (α β : Type*) := List α → Option (Node β)

namespace PathTree

def empty : PathTree α β := fun _ => none

def IsDir (t : PathTree α β) (p : List α) : Prop := p = [] ∨ t p = some .dir

/-- Every node below the root has a directory above it. -/
structure Closed (t : PathTree α β) : Prop where
  root : t [] = none
  parent : ∀ p c, t (p ++ [c]) ≠ none → t.IsDir p

def support (t : PathTree α β) : Set (List α) := {p | t p ≠ none}

/-- The names of the direct children of a path. -/
def children (t : PathTree α β) (p : List α) : Set α := {c | t (p ++ [c]) ≠ none}

/-- The path is free, its parent is a directory, and there is room for one more node. -/
def CanCreate (cap : ℕ) (t : PathTree α β) (p : List α) : Prop :=
  p ≠ [] ∧ t p = none ∧ t.IsDir p.dropLast ∧ t.support.ncard < cap

variable {cap : ℕ} {t : PathTree α β} {p : List α}

theorem closed_empty : (empty : PathTree α β).Closed := ⟨rfl, fun _ _ h => absurd rfl h⟩

theorem Closed.ne_nil (h : t.Closed) (hp : t p ≠ none) : p ≠ [] := by
  rintro rfl
  exact hp h.root

/-! ## Operations -/

variable [DecidableEq α]

open Classical in
noncomputable def create (cap : ℕ) (t : PathTree α β) (p : List α) (n : Node β) :
    PathTree α β × Bool :=
  if t.CanCreate cap p then (Function.update t p (some n), true) else (t, false)

noncomputable def mkdir (cap : ℕ) (t : PathTree α β) (p : List α) : PathTree α β × Bool :=
  t.create cap p .dir

open Classical in
/-- Nothing happens to an existing path. -/
noncomputable def touch (cap : ℕ) (t : PathTree α β) (p : List α) (content : β) :
    PathTree α β × Bool :=
  if t p = none then t.create cap p (.file content) else (t, true)

noncomputable def write (cap : ℕ) (t : PathTree α β) (p : List α) (content : β) :
    PathTree α β × Bool :=
  match t p with
  | none => t.create cap p (.file content)
  | some .dir => (t, false)
  | some (.file _) => (Function.update t p (some (.file content)), true)

def read (t : PathTree α β) (p : List α) : Option β :=
  match t p with
  | some (.file content) => some content
  | _ => none

open Classical in
/-- Removes a file or an empty directory. -/
noncomputable def remove (t : PathTree α β) (p : List α) : PathTree α β × Bool :=
  match t p with
  | none => (t, false)
  | some .dir => if t.children p = ∅ then (Function.update t p none, true) else (t, false)
  | some (.file _) => (Function.update t p none, true)

/-! ## Closed trees stay closed -/

theorem Closed.create (h : t.Closed) (hp : t.CanCreate cap p) (n : Node β) :
    Closed (Function.update t p (some n)) := by
  obtain ⟨hne, hfree, hdir, -⟩ := hp
  have hkeep : ∀ q, t q = some .dir → Function.update t p (some n) q = some .dir := by
    intro q hq
    rwa [Function.update_of_ne]
    rintro rfl
    simp [hfree] at hq
  refine ⟨by rw [Function.update_of_ne hne.symm, h.root], fun q c hq => ?_⟩
  by_cases hpq : q ++ [c] = p
  · subst hpq
    rw [List.dropLast_concat] at hdir
    exact hdir.imp id (hkeep q)
  · rw [Function.update_of_ne hpq] at hq
    exact (h.parent q c hq).imp id (hkeep q)

/-- A file keeps its place when its content changes. -/
theorem Closed.replace (h : t.Closed) {old new : β} (hp : t p = some (.file old)) :
    Closed (Function.update t p (some (.file new))) := by
  refine ⟨?_, fun q c hq => ?_⟩
  · rw [Function.update_of_ne, h.root]
    exact (h.ne_nil (by simp [hp])).symm
  · have hq' : t (q ++ [c]) ≠ none := by
      by_cases hpq : q ++ [c] = p
      · simp [hpq, hp]
      · rwa [Function.update_of_ne hpq] at hq
    refine (h.parent q c hq').imp id fun hdir => ?_
    rwa [Function.update_of_ne]
    rintro rfl
    simp [hp] at hdir

theorem Closed.erase (h : t.Closed) (hp : t p = some .dir → t.children p = ∅) :
    Closed (Function.update t p none) := by
  have hmem : ∀ q, Function.update t p none q ≠ none → q ≠ p ∧ t q ≠ none := by
    intro q hq
    by_cases hqp : q = p
    · simp [hqp] at hq
    · exact ⟨hqp, by rwa [Function.update_of_ne hqp] at hq⟩
  refine ⟨?_, fun q c hq => ?_⟩
  · by_contra hne
    exact (hmem [] hne).2 h.root
  · obtain ⟨-, hq'⟩ := hmem _ hq
    refine (h.parent q c hq').imp id fun hdir => ?_
    rwa [Function.update_of_ne]
    rintro rfl
    have hc : c ∈ t.children q := hq'
    rw [hp hdir] at hc
    exact hc

/-! ## What the files hold -/

/-- The contents of all files meet `P`. -/
def Files (P : β → Prop) (t : PathTree α β) : Prop :=
  ∀ p content, t p = some (.file content) → P content

variable {P : β → Prop}

omit [DecidableEq α] in
theorem files_empty : (empty : PathTree α β).Files P := nofun

theorem Files.update (h : t.Files P) (p : List α) {n : Option (Node β)}
    (hn : ∀ content, n = some (.file content) → P content) : Files P (Function.update t p n) := by
  intro q content hq
  by_cases hqp : q = p
  · subst hqp
    rw [Function.update_self] at hq
    exact hn content hq
  · rw [Function.update_of_ne hqp] at hq
    exact h q content hq

omit [DecidableEq α] in
theorem Files.read (h : t.Files P) {content : β} (hread : t.read p = some content) : P content := by
  unfold PathTree.read at hread
  split at hread
  · next hp => exact h p content (Option.some.inj hread ▸ hp)
  · cases hread

theorem Files.create (h : t.Files P) (p : List α) {n : Node β}
    (hn : ∀ content, n = .file content → P content) : (t.create cap p n).1.Files P := by
  unfold PathTree.create
  split
  · exact h.update p fun content heq => hn content (Option.some.inj heq)
  · exact h

theorem Files.mkdir (h : t.Files P) (p : List α) : (t.mkdir cap p).1.Files P :=
  h.create p nofun

theorem Files.write (h : t.Files P) (p : List α) {content : β} (hc : P content) :
    (t.write cap p content).1.Files P := by
  have hnode : ∀ c, Node.file content = .file c → P c := fun c heq => Node.file.inj heq ▸ hc
  unfold PathTree.write
  split
  · exact h.create p hnode
  · exact h
  · exact h.update p fun c heq => hnode c (Option.some.inj heq)

theorem Files.touch (h : t.Files P) (p : List α) {content : β} (hc : P content) :
    (t.touch cap p content).1.Files P := by
  unfold PathTree.touch
  split
  · exact h.create p fun c heq => Node.file.inj heq ▸ hc
  · exact h

theorem Files.remove (h : t.Files P) (p : List α) : (t.remove p).1.Files P := by
  unfold PathTree.remove
  split
  · exact h
  · split
    · exact h.update p nofun
    · exact h
  · exact h.update p nofun

end PathTree
end Lib
