import Mathlib.Tactic.Common

/-!
# Runs of a labelled step relation

A run is the list of labels a system goes through from one state to another. What holds
initially and is kept by every step holds after every run, and a run whose steps all meet a
side condition is a run of the restricted relation.
-/

namespace Lib

variable {σ ℓ : Type*}

/-- `Run step s ls t`: the labels `ls`, in order, lead from `s` to `t`. -/
inductive Run (step : σ → ℓ → σ → Prop) : σ → List ℓ → σ → Prop
  | nil (s : σ) : Run step s [] s
  | snoc {s t u : σ} {ls : List ℓ} {l : ℓ} : Run step s ls t → step t l u → Run step s (ls ++ [l]) u

/-- The steps of `step` that are taken in a state and with a label meeting `cond`. -/
def Where (cond : σ → ℓ → Prop) (step : σ → ℓ → σ → Prop) : σ → ℓ → σ → Prop :=
  fun s l t => cond s l ∧ step s l t

namespace Run

variable {step : σ → ℓ → σ → Prop} {s t u : σ} {ls : List ℓ}

theorem single {l : ℓ} (h : step s l t) : Run step s [l] t := snoc (nil s) h

/-- The invariant rule: what every step keeps, every run keeps. -/
theorem invariant (inv : σ → Prop) (hrun : Run step s ls t) (h0 : inv s)
    (hstep : ∀ a l b, inv a → step a l b → inv b) : inv t := by
  induction hrun with
  | nil => exact h0
  | snoc _ hl ih => exact hstep _ _ _ ih hl

theorem mono {step' : σ → ℓ → σ → Prop} (hrun : Run step s ls t)
    (h : ∀ a l b, step a l b → step' a l b) : Run step' s ls t := by
  induction hrun with
  | nil => exact nil _
  | snoc _ hl ih => exact snoc ih (h _ _ _ hl)

theorem trans {ls' : List ℓ} (h : Run step s ls t) (h' : Run step t ls' u) :
    Run step s (ls ++ ls') u := by
  induction h' with
  | nil => simpa using h
  | snoc _ hl ih => rw [← List.append_assoc]; exact snoc ih hl

theorem cons {l : ℓ} (hl : step s l t) (h : Run step t ls u) : Run step s (l :: ls) u :=
  (single hl).trans h

/-- A run of the restricted relation is a run. -/
theorem of_where {cond : σ → ℓ → Prop} (h : Run (Where cond step) s ls t) : Run step s ls t :=
  h.mono fun _ _ _ hs => hs.2

end Run

/-- The run of a step that is a function. -/
theorem run_foldl (f : σ → ℓ → σ) (s : σ) (ls : List ℓ) :
    Run (fun a l b => b = f a l) s ls (ls.foldl f s) := by
  induction ls generalizing s with
  | nil => exact Run.nil s
  | cons l ls ih => exact Run.cons rfl (ih (f s l))

/-! ## Executable runs -/

/-- Runs a partial step function over a list of labels. -/
def exec (f : σ → ℓ → Option σ) : σ → List ℓ → Option σ
  | s, [] => some s
  | s, l :: ls => (f s l).bind fun t => exec f t ls

/-- A step that is defined wherever the invariant holds, and the same for every parameter, can be
executed to the end. -/
theorem exec_total {ι : Type*} {f : ι → σ → ℓ → Option σ} (inv : σ → Prop)
    (hstep : ∀ s l, inv s → ∃ t, (∀ i, f i s l = some t) ∧ inv t) {s : σ} (h : inv s)
    (ls : List ℓ) : ∃ t, (∀ i, exec (f i) s ls = some t) ∧ inv t := by
  induction ls generalizing s with
  | nil => exact ⟨s, fun _ => rfl, h⟩
  | cons l ls ih =>
    obtain ⟨u, hu, hinv⟩ := hstep s l h
    obtain ⟨t, ht, hinv'⟩ := ih hinv
    refine ⟨t, fun i => ?_, hinv'⟩
    rw [exec, hu, Option.bind_some, ht]

/-- An executed sequence of labels is a run. -/
theorem run_of_exec {f : σ → ℓ → Option σ} {s t : σ} {ls : List ℓ} (h : exec f s ls = some t) :
    Run (fun a l b => f a l = some b) s ls t := by
  induction ls generalizing s with
  | nil =>
    obtain rfl : s = t := by simpa [exec] using h
    exact Run.nil s
  | cons l ls ih =>
    obtain ⟨a, ha, ht⟩ := Option.bind_eq_some_iff.mp h
    exact Run.cons ha (ih ht)

/-- The state an executed sequence of labels ends in is reached by a run. -/
theorem run_get {f : σ → ℓ → Option σ} {s : σ} {ls : List ℓ} (h : (exec f s ls).isSome = true) :
    Run (fun a l b => f a l = some b) s ls ((exec f s ls).get h) :=
  run_of_exec (Option.some_get h).symm

/-- The step function that refuses a label where `cond` fails. -/
def guarded (cond : σ → ℓ → Prop) [∀ s l, Decidable (cond s l)] (f : σ → ℓ → Option σ) (s : σ)
    (l : ℓ) : Option σ :=
  if cond s l then f s l else none

theorem run_where_get {cond : σ → ℓ → Prop} [∀ s l, Decidable (cond s l)] {f : σ → ℓ → Option σ}
    {s : σ} {ls : List ℓ} (h : (exec (guarded cond f) s ls).isSome = true) :
    Run (Where cond fun a l b => f a l = some b) s ls ((exec (guarded cond f) s ls).get h) :=
  (run_get h).mono fun a l b hab => by
    unfold guarded at hab
    split at hab
    · exact ⟨‹_›, hab⟩
    · cases hab

theorem exec_append (f : σ → ℓ → Option σ) (s : σ) (ls ls' : List ℓ) :
    exec f s (ls ++ ls') = (exec f s ls).bind fun t => exec f t ls' := by
  induction ls generalizing s with
  | nil => rfl
  | cons l ls ih =>
    rw [List.cons_append, exec, exec, Option.bind_assoc]
    exact congrArg _ (funext ih)

/-- Every label meets `cond` in the state it is executed in, as long as the execution goes on. -/
def Meets (cond : σ → ℓ → Prop) (f : σ → ℓ → Option σ) : σ → List ℓ → Prop
  | _, [] => True
  | s, l :: ls => cond s l ∧ ∀ t ∈ f s l, Meets cond f t ls

instance {cond : σ → ℓ → Prop} [∀ s l, Decidable (cond s l)] {f : σ → ℓ → Option σ} :
    ∀ s ls, Decidable (Meets cond f s ls)
  | _, [] => isTrue trivial
  | s, l :: ls =>
    have (t : σ) : Decidable (Meets cond f t ls) := instDecidableMeets t ls
    inferInstanceAs (Decidable (cond s l ∧ ∀ t ∈ f s l, Meets cond f t ls))

theorem meets_of_forall {cond : σ → ℓ → Prop} (f : σ → ℓ → Option σ) (h : ∀ s l, cond s l) (s : σ)
    (ls : List ℓ) : Meets cond f s ls := by
  induction ls generalizing s with
  | nil => trivial
  | cons l ls ih => exact ⟨h s l, fun t _ => ih t⟩

/-- Where a step is defined exactly if its label meets `cond`, labels are executed to the end
exactly if all of them do. `ok` is what is taken for granted of the labels, `inv` what holds of the
states. -/
theorem exec_isSome_iff {f : σ → ℓ → Option σ} {ok cond : σ → ℓ → Prop} (inv : σ → Prop)
    (hstep : ∀ s l, inv s → ok s l → ((f s l).isSome ↔ cond s l))
    (hinv : ∀ s l t, inv s → f s l = some t → inv t) {s : σ} (h : inv s) {ls : List ℓ}
    (hok : Meets ok f s ls) : (exec f s ls).isSome ↔ Meets cond f s ls := by
  induction ls generalizing s with
  | nil => exact iff_of_true rfl trivial
  | cons l ls ih =>
    have hfirst := hstep s l h hok.1
    unfold exec Meets
    rw [← hfirst]
    cases ht : f s l with
    | none => simp
    | some t => simpa using ih (hinv s l t h ht) (hok.2 t ht)

/-! ## Histories -/

/-- Each event of a history meets `p` with what came before it. -/
def Throughout (p : List ℓ → ℓ → Prop) (log : List ℓ) : Prop :=
  ∀ before e after, log = before ++ e :: after → p before e

theorem throughout_nil (p : List ℓ → ℓ → Prop) : Throughout p [] := by
  intro before e after h
  simp at h

/-- A history goes on by an event that meets `p`. -/
theorem Throughout.snoc {p : List ℓ → ℓ → Prop} {log : List ℓ} {e : ℓ} (h : Throughout p log)
    (he : p log e) : Throughout p (log ++ [e]) := by
  intro before f after heq
  -- Either the event is the new one, or it lies in the history there was.
  rcases List.eq_nil_or_concat after with rfl | ⟨mid, last, rfl⟩
  · obtain ⟨rfl, hlast⟩ := List.append_inj' heq rfl
    obtain rfl : e = f := by simpa using hlast
    exact he
  · rw [List.concat_eq_append, ← List.cons_append, ← List.append_assoc] at heq
    obtain ⟨hlog, -⟩ := List.append_inj' heq rfl
    exact h before f mid hlog

theorem throughout_snoc {p : List ℓ → ℓ → Prop} {log : List ℓ} {e : ℓ} :
    Throughout p (log ++ [e]) ↔ Throughout p log ∧ p log e := by
  constructor
  · intro h
    refine ⟨fun before f after heq => ?_, h log e [] rfl⟩
    apply h before f (after ++ [e])
    rw [heq, List.append_assoc, List.cons_append]
  · rintro ⟨h, he⟩
    exact h.snoc he

end Lib
