import Mathlib.Logic.Function.Basic
import QuillOS.Lib.Run

/-!
# A medium with losses

Parties share a medium. What a party gives waits with it until it is submitted, waits in its queue
until it is transmitted, is then on the way to every party for any time, and waits where it arrives
until it is taken. It may be lost where it is submitted and where it arrives; what comes through
comes through once and in order.
-/

namespace Lib

/-- The stages, and the logs of what was given and of what was taken, with its sender. -/
structure Medium (ι α : Type*) where
  given : ι → List α
  todo : ι → List α
  queue : ι → List α
  flight : ι → ι → List α
  inbox : ι → List (ι × α)
  taken : ι → List (ι × α)

/-- The steps of the medium itself. -/
inductive Move (ι : Type*)
  | submit (i : ι) (lost : Bool)
  | transmit (i : ι)
  | arrive (i j : ι) (lost : Bool)

namespace Medium

variable {ι α : Type*}

/-- Nothing was given. -/
def idle : Medium ι α where
  given _ := []
  todo _ := []
  queue _ := []
  flight _ _ := []
  inbox _ := []
  taken _ := []

variable [DecidableEq ι]

def give (m : Medium ι α) (i : ι) (as : List α) : Medium ι α :=
  { m with
    given := Function.update m.given i (m.given i ++ as)
    todo := Function.update m.todo i (m.todo i ++ as) }

def submit (m : Medium ι α) (i : ι) (lost : Bool) : Option (Medium ι α) :=
  match m.todo i with
  | [] => none
  | a :: rest =>
    some
      { m with
        todo := Function.update m.todo i rest
        queue := if lost then m.queue else Function.update m.queue i (m.queue i ++ [a]) }

def transmit (m : Medium ι α) (i : ι) : Option (Medium ι α) :=
  match m.queue i with
  | [] => none
  | a :: rest =>
    some
      { m with
        queue := Function.update m.queue i rest
        flight := Function.update m.flight i fun j => m.flight i j ++ [a] }

/-- What `i` transmitted first arrives at `j`. -/
def arrive (m : Medium ι α) (i j : ι) (lost : Bool) : Option (Medium ι α) :=
  match m.flight i j with
  | [] => none
  | a :: rest =>
    some
      { m with
        flight := Function.update m.flight i (Function.update (m.flight i) j rest)
        inbox := if lost then m.inbox else Function.update m.inbox j (m.inbox j ++ [(i, a)]) }

def move (m : Medium ι α) : Move ι → Option (Medium ι α)
  | .submit i lost => m.submit i lost
  | .transmit i => m.transmit i
  | .arrive i j lost => m.arrive i j lost

def take (m : Medium ι α) (j : ι) : Option ((ι × α) × Medium ι α) :=
  match m.inbox j with
  | [] => none
  | p :: rest =>
    some (p,
      { m with
        inbox := Function.update m.inbox j rest
        taken := Function.update m.taken j (m.taken j ++ [p]) })

section

variable {m : Medium ι α} {i j : ι} {a : α} {rest : List α} {p : ι × α}

theorem submit_cons (h : m.todo i = a :: rest) (lost : Bool) :
    m.submit i lost =
      some
        { m with
          todo := Function.update m.todo i rest
          queue := if lost then m.queue else Function.update m.queue i (m.queue i ++ [a]) } := by
  rw [submit, h]

theorem transmit_cons (h : m.queue i = a :: rest) :
    m.transmit i =
      some
        { m with
          queue := Function.update m.queue i rest
          flight := Function.update m.flight i fun j => m.flight i j ++ [a] } := by
  rw [transmit, h]

theorem arrive_cons (h : m.flight i j = a :: rest) (lost : Bool) :
    m.arrive i j lost =
      some
        { m with
          flight := Function.update m.flight i (Function.update (m.flight i) j rest)
          inbox := if lost then m.inbox
            else Function.update m.inbox j (m.inbox j ++ [(i, a)]) } := by
  rw [arrive, h]

theorem take_cons {rest : List (ι × α)} (h : m.inbox j = p :: rest) :
    m.take j =
      some (p,
        { m with
          inbox := Function.update m.inbox j rest
          taken := Function.update m.taken j (m.taken j ++ [p]) }) := by
  rw [take, h]

end

/-! ## Order -/

/-- What came from `i`. -/
def sentBy (i : ι) (l : List (ι × α)) : List α := (l.filter fun p => p.1 = i).map Prod.snd

@[simp] theorem sentBy_nil (i : ι) : sentBy i ([] : List (ι × α)) = [] := rfl

theorem sentBy_append (i : ι) (l l' : List (ι × α)) :
    sentBy i (l ++ l') = sentBy i l ++ sentBy i l' := by
  rw [sentBy, List.filter_append, List.map_append]
  rfl

@[simp] theorem sentBy_self (i : ι) (a : α) : sentBy i [(i, a)] = [a] := by
  simp [sentBy]

@[simp] theorem sentBy_of_ne {i k : ι} (h : k ≠ i) (a : α) : sentBy i [(k, a)] = [] := by
  simp [sentBy, h]

theorem mem_sentBy {i : ι} {a : α} {l : List (ι × α)} : a ∈ sentBy i l ↔ (i, a) ∈ l := by
  simp [sentBy]

/-- What `i` gave and may still come to `j` or has come there, the oldest first. -/
def path (m : Medium ι α) (i j : ι) : List α :=
  sentBy i (m.taken j) ++ (sentBy i (m.inbox j) ++ (m.flight i j ++ (m.queue i ++ m.todo i)))

/-- Between any two parties nothing is overtaken, doubled or made up. -/
def Ordered (m : Medium ι α) : Prop := ∀ i j, (m.path i j).Sublist (m.given i)

theorem ordered_idle : (idle : Medium ι α).Ordered := fun _ _ => List.Sublist.slnil

theorem Ordered.mem_given {m : Medium ι α} (h : m.Ordered) {i j : ι} {a : α} (ha : a ∈ m.path i j) :
    a ∈ m.given i := (h i j).subset ha

/-- A step that gives nothing and at most loses something keeps the order. -/
theorem Ordered.lose {m m' : Medium ι α} (h : m.Ordered) (hgiven : m'.given = m.given)
    (hpath : ∀ i j, (m'.path i j).Sublist (m.path i j)) : m'.Ordered := by
  intro i j
  rw [hgiven]
  exact (hpath i j).trans (h i j)

theorem Ordered.give {m : Medium ι α} (h : m.Ordered) (k : ι) (as : List α) :
    (m.give k as).Ordered := by
  intro i j
  by_cases hi : i = k
  · subst hi
    have hpath : (m.give i as).path i j = m.path i j ++ as := by
      simp only [path, Medium.give, Function.update_self, List.append_assoc]
    rw [hpath]
    simpa only [Medium.give, Function.update_self] using (h i j).append_right as
  · simpa only [path, Medium.give, Function.update_of_ne hi] using h i j

theorem Ordered.submit {m m' : Medium ι α} {k : ι} {lost : Bool} (h : m.Ordered)
    (hstep : m.submit k lost = some m') : m'.Ordered := by
  unfold Medium.submit at hstep
  split at hstep
  · cases hstep
  · rename_i a rest htodo
    obtain rfl := Option.some.inj hstep
    refine h.lose rfl fun i j => ?_
    by_cases hi : i = k
    · subst hi
      cases lost
      · simp [path, htodo]
      · simp only [path, Function.update_self, if_true, htodo]
        exact (((((List.sublist_cons_self a rest).append_left _).append_left _).append_left _)).append_left _
    · cases lost <;> simp [path, Function.update_of_ne hi]

theorem Ordered.transmit {m m' : Medium ι α} {k : ι} (h : m.Ordered)
    (hstep : m.transmit k = some m') : m'.Ordered := by
  unfold Medium.transmit at hstep
  split at hstep
  · cases hstep
  · rename_i a rest hqueue
    obtain rfl := Option.some.inj hstep
    refine h.lose rfl fun i j => ?_
    by_cases hi : i = k
    · subst hi
      simp [path, hqueue]
    · simp [path, Function.update_of_ne hi]

theorem Ordered.arrive {m m' : Medium ι α} {k l : ι} {lost : Bool} (h : m.Ordered)
    (hstep : m.arrive k l lost = some m') : m'.Ordered := by
  unfold Medium.arrive at hstep
  split at hstep
  · cases hstep
  · rename_i a rest hflight
    obtain rfl := Option.some.inj hstep
    refine h.lose rfl fun i j => ?_
    by_cases hj : j = l
    · subst hj
      by_cases hi : i = k
      · subst hi
        cases lost
        · simp [path, hflight, sentBy_append]
        · simp only [path, Function.update_self, if_true, hflight]
          exact (((List.sublist_cons_self a rest).append_right _).append_left _).append_left _
      · have hk : k ≠ i := fun heq => hi heq.symm
        cases lost <;> simp [path, Function.update_of_ne hi, sentBy_append, sentBy_of_ne hk]
    · -- The step is about another receiver.
      have hsame : Function.update m.flight k (Function.update (m.flight k) l rest) i j =
          m.flight i j := by
        by_cases hi : i = k
        · subst hi
          rw [Function.update_self, Function.update_of_ne hj]
        · rw [Function.update_of_ne hi]
      cases lost <;> simp [path, Function.update_of_ne hj, hsame]

theorem Ordered.move {m m' : Medium ι α} {e : Move ι} (h : m.Ordered) (hstep : m.move e = some m') :
    m'.Ordered := by
  cases e with
  | submit i lost => exact h.submit hstep
  | transmit i => exact h.transmit hstep
  | arrive i j lost => exact h.arrive hstep

theorem Ordered.take {m m' : Medium ι α} {k : ι} {p : ι × α} (h : m.Ordered)
    (hstep : m.take k = some (p, m')) : m'.Ordered := by
  unfold Medium.take at hstep
  split at hstep
  · cases hstep
  · rename_i q rest hinbox
    obtain ⟨rfl, rfl⟩ := Prod.mk.inj (Option.some.inj hstep)
    refine h.lose rfl fun i j => ?_
    by_cases hj : j = k
    · subst hj
      have hsplit : sentBy i (q :: rest) = sentBy i [q] ++ sentBy i rest :=
        sentBy_append i [q] rest
      simp [path, hinbox, hsplit, sentBy_append]
    · simp [path, Function.update_of_ne hj]

theorem move_given {m m' : Medium ι α} {e : Move ι} (hstep : m.move e = some m') :
    m'.given = m.given ∧ m'.taken = m.taken := by
  cases e with
  | submit i lost =>
    simp only [Medium.move, Medium.submit] at hstep
    split at hstep
    · cases hstep
    · obtain rfl := Option.some.inj hstep
      exact ⟨rfl, rfl⟩
  | transmit i =>
    simp only [Medium.move, Medium.transmit] at hstep
    split at hstep
    · cases hstep
    · obtain rfl := Option.some.inj hstep
      exact ⟨rfl, rfl⟩
  | arrive i j lost =>
    simp only [Medium.move, Medium.arrive] at hstep
    split at hstep
    · cases hstep
    · obtain rfl := Option.some.inj hstep
      exact ⟨rfl, rfl⟩

theorem take_eq {m m' : Medium ι α} {j : ι} {p : ι × α} (hstep : m.take j = some (p, m')) :
    p ∈ m.inbox j ∧ m'.given = m.given ∧
      m'.taken = Function.update m.taken j (m.taken j ++ [p]) := by
  unfold Medium.take at hstep
  split at hstep
  · cases hstep
  · rename_i q rest hinbox
    obtain ⟨rfl, rfl⟩ := Prod.mk.inj (Option.some.inj hstep)
    exact ⟨by rw [hinbox]; exact List.mem_cons_self, rfl, rfl⟩

/-- What is taken was given by its sender. -/
theorem Ordered.take_mem {m m' : Medium ι α} {j : ι} {p : ι × α} (h : m.Ordered)
    (hstep : m.take j = some (p, m')) : p.2 ∈ m.given p.1 := by
  apply h.mem_given (j := j)
  have hmem := (take_eq hstep).1
  simp only [path, List.mem_append, mem_sentBy]
  exact .inr (.inl hmem)

/-- What was taken came through in order. -/
theorem Ordered.taken {m : Medium ι α} (h : m.Ordered) (i j : ι) :
    (sentBy i (m.taken j)).Sublist (m.given i) :=
  (List.sublist_append_left _ _).trans (h i j)

end Medium

end Lib
