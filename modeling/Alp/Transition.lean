import Mathlib.Data.List.Basic

/-!
# Runs of a labelled step function

A concurrent program is a step function `step : σ → α → Option σ`, where the
action says which party moves (and how, where the environment has a choice) and
`none` means that it cannot.  `Reach step init allowed s` says that `s` is
reached by a run all of whose steps satisfy `allowed`; with `fun _ _ => True`
these are all runs.

`Reach.invariant` is the one induction over runs, and `Reach.of_exec` turns an
executed list of actions into a run.

`Inevitable step allowed goal s` says that a run from `s` cannot avoid `goal`: until it
is there, some allowed step is possible, and whichever is taken leads on.  Nothing is
assumed about which of the parties moves how often, so no fairness enters.  The rule for
proving it is `Inevitable.of_variant`: a number that every allowed step makes smaller, and
no state where the run is stuck.
-/

set_option autoImplicit false

namespace Transition

variable {σ α : Type*} {step : σ → α → Option σ} {init goal : σ → Prop} {allowed : σ → α → Prop}

/-- States reached by runs whose steps are all allowed. -/
inductive Reach (step : σ → α → Option σ) (init : σ → Prop) (allowed : σ → α → Prop) :
    σ → Prop
  | start {s : σ} (h : init s) : Reach step init allowed s
  | next {s t : σ} {a : α} (hs : Reach step init allowed s) (ha : allowed s a)
      (hstep : step s a = some t) : Reach step init allowed t

/-- Every action is allowed. -/
def anyStep : σ → α → Prop := fun _ _ => True

/-- **Invariants.**  What holds at the start and is kept by every allowed step from
a reached state holds in every state reached. -/
theorem Reach.invariant {inv : σ → Prop}
    (hinit : ∀ s, init s → inv s)
    (hstep : ∀ s a t, Reach step init allowed s → inv s → allowed s a →
      step s a = some t → inv t)
    {s : σ} (h : Reach step init allowed s) : inv s := by
  induction h with
  | start h => exact hinit _ h
  | next hs ha hstep' ih => exact hstep _ _ _ hs ih ha hstep'

/-- Run a list of actions, checking each against `ok`. -/
def exec (step : σ → α → Option σ) (ok : σ → α → Bool) : σ → List α → Option σ
  | s, [] => some s
  | s, a :: rest =>
    if ok s a then
      match step s a with
      | some t => exec step ok t rest
      | none => none
    else none

/-- An executed list of actions is a run. -/
theorem Reach.of_exec {ok : σ → α → Bool}
    (hok : ∀ s a, ok s a = true → allowed s a) {s t : σ} {actions : List α}
    (hs : Reach step init allowed s) (h : exec step ok s actions = some t) :
    Reach step init allowed t := by
  induction actions generalizing s with
  | nil =>
      cases h
      exact hs
  | cons a rest ih =>
      simp only [exec] at h
      split at h
      · next ha =>
          split at h
          · next u hu => exact ih (hs.next (hok s a ha) hu) h
          · cases h
      · cases h

/-- Every run of allowed steps gets to the goal. -/
inductive Inevitable (step : σ → α → Option σ) (allowed : σ → α → Prop) (goal : σ → Prop) :
    σ → Prop
  | here {s : σ} (h : goal s) : Inevitable step allowed goal s
  | later {s : σ} (hmove : ∃ a t, allowed s a ∧ step s a = some t)
      (hall : ∀ a t, allowed s a → step s a = some t → Inevitable step allowed goal t) :
      Inevitable step allowed goal s

/-- **Variants.**  Where an invariant rules out being stuck short of the goal, and each
step makes the variant smaller, the goal is inevitable. -/
theorem Inevitable.of_variant {inv : σ → Prop} (variant : σ → Nat)
    (hmove : ∀ s, inv s → ¬ goal s → ∃ a t, allowed s a ∧ step s a = some t)
    (hstep : ∀ s a t, inv s → ¬ goal s → allowed s a → step s a = some t →
      inv t ∧ variant t < variant s)
    {s : σ} (h : inv s) : Inevitable step allowed goal s := by
  -- strong induction on the variant
  have hall : ∀ n s, variant s < n → inv s → Inevitable step allowed goal s := by
    intro n
    induction n with
    | zero => exact fun s hlt => absurd hlt (Nat.not_lt_zero _)
    | succ n ih =>
        intro s hlt hs
        by_cases hgoal : goal s
        · exact .here hgoal
        · refine .later (hmove s hs hgoal) fun a t ha hst => ?_
          obtain ⟨ht, hless⟩ := hstep s a t hs hgoal ha hst
          exact ih t (by omega) ht
  exact hall _ s (Nat.lt_succ_self _) h

end Transition
