import Mathlib.Tactic.Common

/-!
# Machines that answer their calls

A machine takes a state and a call to a new state and an answer. A partial machine refines a total
one when related states answer related calls alike; whole sequences of calls are then answered
alike.
-/

namespace Lib

variable {σ τ ι κ ρ : Type*}

/-- Runs a list of calls and collects the answers; `none` when a call has none. -/
def answers (step : σ → ι → Option (σ × ρ)) : σ → List ι → Option (σ × List ρ)
  | s, [] => some (s, [])
  | s, c :: cs => do
    let (t, r) ← step s c
    let (u, rs) ← answers step t cs
    return (u, r :: rs)

/-- Runs a list of calls of a total machine and collects the answers. -/
def replies (spec : τ → κ → τ × ρ) : τ → List κ → τ × List ρ
  | t, [] => (t, [])
  | t, c :: cs =>
    ((replies spec (spec t c).1 cs).1, (spec t c).2 :: (replies spec (spec t c).1 cs).2)

/-- The refinement rule: a relation kept by every pair of matching calls is kept by sequences of
calls, and the answers agree. -/
theorem answers_eq_replies {step : σ → ι → Option (σ × ρ)} {spec : τ → κ → τ × ρ}
    (rel : σ → τ → Prop) {f : κ → ι} (ok : κ → Prop)
    (hstep : ∀ s t c, rel s t → ok c →
      ∃ s', step s (f c) = some (s', (spec t c).2) ∧ rel s' (spec t c).1)
    {s : σ} {t : τ} (h0 : rel s t) {cs : List κ} (hok : ∀ c ∈ cs, ok c) :
    ∃ s', answers step s (cs.map f) = some (s', (replies spec t cs).2) ∧
      rel s' (replies spec t cs).1 := by
  induction cs generalizing s t with
  | nil => exact ⟨s, rfl, h0⟩
  | cons c cs ih =>
    obtain ⟨hc, hcs⟩ := List.forall_mem_cons.mp hok
    obtain ⟨s', hs', hrel⟩ := hstep s t c h0 hc
    obtain ⟨u, hu, hrel'⟩ := ih hrel hcs
    refine ⟨u, ?_, hrel'⟩
    simp only [List.map_cons, answers, hs', Option.bind_eq_bind, Option.bind_some, hu]
    rfl

/-! ## Answers within a description -/

/-- Each call is in order where it is made; `next` is what a call does. -/
def Admits (ok : τ → κ → Prop) (next : τ → κ → τ) : τ → List κ → Prop
  | _, [] => True
  | t, c :: cs => ok t c ∧ Admits ok next (next t c) cs

/-- Each answer is one that is allowed where its call is made. -/
def Described (allowed : τ → κ → ρ → Prop) (next : τ → κ → τ) : τ → List κ → List ρ → Prop
  | _, [], [] => True
  | t, c :: cs, r :: rs => allowed t c r ∧ Described allowed next (next t c) cs rs
  | _, _, _ => False

/-- The refinement rule for a machine whose answers are only described. -/
theorem answers_described {step : σ → κ → Option (σ × ρ)} {ok : τ → κ → Prop}
    {allowed : τ → κ → ρ → Prop} {next : τ → κ → τ} (rel : σ → τ → Prop)
    (hstep : ∀ s t c, rel s t → ok t c →
      ∃ s' r, step s c = some (s', r) ∧ allowed t c r ∧ rel s' (next t c))
    {s : σ} {t : τ} (h0 : rel s t) {cs : List κ} (hok : Admits ok next t cs) :
    ∃ s' rs, answers step s cs = some (s', rs) ∧ Described allowed next t cs rs ∧
      rel s' (cs.foldl next t) := by
  induction cs generalizing s t with
  | nil => exact ⟨s, [], rfl, trivial, h0⟩
  | cons c cs ih =>
    obtain ⟨hc, hcs⟩ := hok
    obtain ⟨s', r, hs', hallowed, hrel⟩ := hstep s t c h0 hc
    obtain ⟨u, rs, hu, hdescribed, hrel'⟩ := ih hrel hcs
    refine ⟨u, r :: rs, ?_, ⟨hallowed, hdescribed⟩, hrel'⟩
    simp only [answers, hs', Option.bind_eq_bind, Option.bind_some, hu]
    rfl

end Lib
