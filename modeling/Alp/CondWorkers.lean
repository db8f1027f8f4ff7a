import Alp.Transition

/-!
# Two workers on one condition variable

This file embeds `thread4_func`, `thread5_func` and `test_cond` of `thread/thread.c`.  Each
section under the mutex is one step: a worker that finds no activation waits, and a
broadcast wakes every worker that waits.  `pthread_cond_wait` may also return without a
broadcast.

A worker that comes out of `pthread_cond_wait` does not look at `thread_active` again, so
of two that were woken the second one works without an activation (`onActivation_iff`).
-/

set_option autoImplicit false

namespace ThreadCond

open Transition

inductive Worker
  | thread4
  | thread5
  deriving DecidableEq

def Worker.other : Worker → Worker
  | .thread4 => .thread5
  | .thread5 => .thread4

/-- Points of a worker. -/
inductive Pc
  /-- `pthread_mutex_lock` -/
  | lock
  /-- in `pthread_cond_wait` -/
  | waiting
  /-- in `pthread_cond_wait`, woken, without the mutex -/
  | woken
  /-- outside the critical section -/
  | work
  deriving DecidableEq

/-- Points of `test_cond`, after the threads are created. -/
inductive MainPc
  /-- `thread_active = 0` -/
  | store
  | loop
  deriving DecidableEq

/-- The shared variable and the threads.  No step looks at `activations`, `rounds` and
`unprompted` (the rounds begun without an activation). -/
structure State where
  active : Nat
  main : MainPc
  pc : Worker → Pc
  activations : Nat
  rounds : Nat
  unprompted : Nat

def State.goto (s : State) (w : Worker) (pc : Pc) : State :=
  { s with pc := fun v => if v = w then pc else s.pc v }

/-- `thread_active = 0`, and out of the critical section. -/
def State.takeRound (s : State) (w : Worker) : State :=
  { s.goto w .work with
    active := 0
    rounds := s.rounds + 1
    unprompted := if s.active = 1 then s.unprompted else s.unprompted + 1 }

/-- A step of a worker; it has none in `pthread_cond_wait`. -/
def threadFunc (w : Worker) (s : State) : Option State :=
  match s.pc w with
  | .lock => some (if s.active = 0 then s.goto w .waiting else s.takeRound w)
  | .waiting => none
  | .woken => some (s.takeRound w)
  | .work => some (s.goto w .lock)

/-- `thread4_func`. -/
def thread4Func : State → Option State :=
  threadFunc .thread4

/-- `thread5_func`. -/
def thread5Func : State → Option State :=
  threadFunc .thread5

/-- `pthread_cond_broadcast`. -/
def State.broadcast (s : State) : State :=
  { s with pc := fun w => if s.pc w = .waiting then .woken else s.pc w }

/-- A step of `test_cond`. -/
def testCond (s : State) : State :=
  match s.main with
  | .store => { s with active := 0, main := .loop }
  | .loop => { s.broadcast with active := 1, activations := s.activations + 1 }

inductive Action
  | thread (w : Worker)
  /-- `pthread_cond_wait` returns without a broadcast. -/
  | spurious (w : Worker)
  | main

def step (s : State) : Action → Option State
  | .thread .thread4 => thread4Func s
  | .thread .thread5 => thread5Func s
  | .spurious w => if s.pc w = .waiting then some (s.goto w .woken) else none
  | .main => some (testCond s)

/-- The threads are created. -/
def start : State :=
  ⟨0, .store, fun _ => .lock, 0, 0, 0⟩

/-- Every round was begun on an activation, so there are no more rounds than activations. -/
structure OnActivation (s : State) : Prop where
  prompted : s.unprompted = 0
  rounds_le : s.rounds ≤ s.activations

/-- No worker takes an activation while the other one is woken, and none is woken without
one. -/
def Alone (s : State) : Action → Prop
  | .thread w => s.pc w = .woken ∨ s.pc w = .lock ∧ s.active ≠ 0 → s.pc w.other ≠ .woken
  | .spurious _ => s.active = 1
  | .main => True

instance (s : State) : (a : Action) → Decidable (Alone s a)
  | .thread _ => inferInstanceAs (Decidable (_ ∨ _ ∧ _ → _))
  | .spurious _ => inferInstanceAs (Decidable (_ = _))
  | .main => inferInstanceAs (Decidable True)

/-- A worker that is woken will find an activation. -/
structure Inv (s : State) : Prop where
  woken : ∀ w, s.pc w = .woken → s.active = 1
  active_le : s.active ≤ 1
  idle : s.main = .store → s.active = 0
  prompted : s.unprompted = 0
  rounds_le : s.rounds + s.active ≤ s.activations

/-- Under the invariant every round was an activation's. -/
theorem Inv.onActivation {s : State} (h : Inv s) : OnActivation s := by
  have hrounds := h.rounds_le
  exact ⟨h.prompted, by omega⟩

/-- The invariant holds at the start. -/
theorem start_inv : Inv start := by
  constructor <;> simp [start]

@[simp] theorem goto_same (s : State) (w : Worker) (pc : Pc) : (s.goto w pc).pc w = pc :=
  if_pos rfl

/-- Moving one worker leaves the other where it is. -/
theorem goto_other (s : State) {v w : Worker} (h : v ≠ w) (pc : Pc) :
    (s.goto w pc).pc v = s.pc v :=
  if_neg h

/-- No worker is its own other. -/
theorem other_ne (w : Worker) : w.other ≠ w := by
  cases w <;> decide

/-- There are two workers. -/
theorem eq_other {v w : Worker} (h : v ≠ w) : v = w.other := by
  cases v <;> cases w <;> first | rfl | exact absurd rfl h

/-- A step of a worker is its thread function's. -/
theorem step_thread (s : State) (w : Worker) : step s (.thread w) = threadFunc w s := by
  cases w <;> rfl

/-- A worker that takes a round. -/
theorem threadFunc_takes {s : State} {w : Worker}
    (h : s.pc w = .woken ∨ s.pc w = .lock ∧ s.active ≠ 0) :
    threadFunc w s = some (s.takeRound w) := by
  rcases h with hpc | ⟨hpc, hactive⟩
  · rw [threadFunc, hpc]
  · rw [threadFunc, hpc]
    dsimp only
    rw [if_neg hactive]

/-- What a worker can do. -/
theorem threadFunc_cases {s t : State} {w : Worker} (h : threadFunc w s = some t) :
    (s.pc w = .lock ∧ s.active = 0 ∧ t = s.goto w .waiting) ∨
      (s.pc w = .work ∧ t = s.goto w .lock) ∨
      ((s.pc w = .woken ∨ s.pc w = .lock ∧ s.active ≠ 0) ∧ t = s.takeRound w) := by
  cases hpc : s.pc w with
  | lock =>
      by_cases hactive : s.active = 0
      · rw [threadFunc, hpc] at h
        dsimp only at h
        rw [if_pos hactive] at h
        cases h
        exact Or.inl ⟨rfl, hactive, rfl⟩
      · rw [threadFunc_takes (Or.inr ⟨hpc, hactive⟩)] at h
        cases h
        exact Or.inr (Or.inr ⟨Or.inr ⟨rfl, hactive⟩, rfl⟩)
  | waiting =>
      rw [threadFunc, hpc] at h
      cases h
  | woken =>
      rw [threadFunc_takes (Or.inl hpc)] at h
      cases h
      exact Or.inr (Or.inr ⟨Or.inl rfl, rfl⟩)
  | work =>
      rw [threadFunc, hpc] at h
      cases h
      exact Or.inr (Or.inl ⟨rfl, rfl⟩)

/-- A worker that moves without taking a round, and is not woken by that. -/
theorem Inv.goto {s : State} (h : Inv s) (w : Worker) {pc : Pc} (hpc : pc ≠ .woken) :
    Inv (s.goto w pc) := by
  refine ⟨?_, h.active_le, h.idle, h.prompted, h.rounds_le⟩
  intro v hv
  by_cases hvw : v = w
  · rw [hvw, goto_same] at hv
    exact absurd hv hpc
  · rw [goto_other s hvw] at hv
    exact h.woken v hv

/-- A round on an activation. -/
theorem takeRound_onActivation {s : State} (h : Inv s) (w : Worker) (hactive : s.active = 1) :
    OnActivation (s.takeRound w) := by
  have hrounds := h.rounds_le
  constructor
  · rw [State.takeRound]
    exact (if_pos hactive).trans h.prompted
  · show s.rounds + 1 ≤ s.activations
    omega

/-- It keeps the invariant if nobody else is woken. -/
theorem Inv.takeRound {s : State} (h : Inv s) {w : Worker} (hactive : s.active = 1)
    (hother : s.pc w.other ≠ .woken) : Inv (s.takeRound w) := by
  obtain ⟨hprompted, hrounds⟩ := takeRound_onActivation h w hactive
  refine ⟨?_, Nat.zero_le _, fun _ => rfl, hprompted, hrounds⟩
  intro v hv
  have hv' : (s.goto w .work).pc v = .woken := hv
  by_cases hvw : v = w
  · rw [hvw, goto_same] at hv'
    cases hv'
  · rw [goto_other s hvw, eq_other hvw] at hv'
    exact absurd hv' hother

/-- A worker that takes a round finds an activation. -/
theorem Inv.active_of_takes {s : State} (h : Inv s) {w : Worker}
    (htakes : s.pc w = .woken ∨ s.pc w = .lock ∧ s.active ≠ 0) : s.active = 1 := by
  rcases htakes with hpc | ⟨-, hactive⟩
  · exact h.woken w hpc
  · have hle := h.active_le
    omega

/-- A step of a worker that meets the condition keeps the invariant. -/
theorem thread_inv {s t : State} {w : Worker} (h : Inv s) (halone : Alone s (.thread w))
    (hstep : threadFunc w s = some t) : Inv t := by
  obtain ⟨-, -, rfl⟩ | ⟨-, rfl⟩ | ⟨htakes, rfl⟩ := threadFunc_cases hstep
  · exact h.goto w (by decide)
  · exact h.goto w (by decide)
  · exact h.takeRound (h.active_of_takes htakes) (halone htakes)

/-- A step of the tester keeps the invariant. -/
theorem testCond_inv {s : State} (h : Inv s) : Inv (testCond s) := by
  cases hmain : s.main with
  | store =>
      rw [testCond, hmain]
      have hidle := h.idle hmain
      refine ⟨?_, Nat.zero_le _, fun _ => rfl, h.prompted, ?_⟩
      · intro w hw
        rw [← hidle]
        exact h.woken w hw
      · rw [← hidle]
        exact h.rounds_le
  | loop =>
      rw [testCond, hmain]
      have hrounds := h.rounds_le
      refine ⟨fun _ _ => rfl, Nat.le_refl 1, fun hstore => ?_, h.prompted, ?_⟩
      · have hstore' : s.main = .store := hstore
        rw [hmain] at hstore'
        cases hstore'
      · show s.rounds + 1 ≤ s.activations + 1
        omega

/-- A step that meets the condition keeps the invariant. -/
theorem step_inv {s t : State} {a : Action} (h : Inv s) (halone : Alone s a)
    (hstep : step s a = some t) : Inv t := by
  cases a with
  | thread w =>
      rw [step_thread] at hstep
      exact thread_inv h halone hstep
  | spurious w =>
      rw [step] at hstep
      split at hstep
      · cases hstep
        exact ⟨fun _ _ => halone, h.active_le, h.idle, h.prompted, h.rounds_le⟩
      · cases hstep
  | main =>
      cases hstep
      exact testCond_inv h

/-- In a run in which workers take activations alone. -/
theorem run_inv {s : State} (h : Reach step (· = start) Alone s) : Inv s := by
  apply h.invariant
  · rintro s rfl
    exact start_inv
  · intro s a t _ hs halone hstep
    exact step_inv hs halone hstep

/-- Moving a worker makes no round. -/
theorem OnActivation.goto {s : State} (h : OnActivation s) (w : Worker) (pc : Pc) :
    OnActivation (s.goto w pc) :=
  ⟨h.prompted, h.rounds_le⟩

/-- From such a state one more step begins no round without an activation. -/
theorem thread_onActivation {s t : State} {w : Worker} (h : Inv s)
    (hstep : threadFunc w s = some t) : OnActivation t := by
  obtain ⟨-, -, rfl⟩ | ⟨-, rfl⟩ | ⟨htakes, rfl⟩ := threadFunc_cases hstep
  · exact h.onActivation.goto w _
  · exact h.onActivation.goto w _
  · exact takeRound_onActivation h w (h.active_of_takes htakes)

/-- One step after the invariant every round is still an activation's. -/
theorem next_onActivation {s t : State} {a : Action} (h : Inv s) (hstep : step s a = some t) :
    OnActivation t := by
  cases a with
  | thread w =>
      rw [step_thread] at hstep
      exact thread_onActivation h hstep
  | spurious w =>
      rw [step] at hstep
      split at hstep
      · cases hstep
        exact h.onActivation.goto w _
      · cases hstep
  | main =>
      cases hstep
      exact (testCond_inv h).onActivation

/-- A worker that is woken while there is no activation begins a round without one. -/
theorem woken_unprompted {s : State} {w : Worker} (hpc : s.pc w = .woken)
    (hactive : s.active ≠ 1) : ∃ t, step s (.thread w) = some t ∧ ¬ OnActivation t := by
  refine ⟨s.takeRound w, ?_, ?_⟩
  · rw [step_thread, threadFunc_takes (Or.inl hpc)]
  · intro h
    have hprompted : (if s.active = 1 then s.unprompted else s.unprompted + 1) = 0 := h.prompted
    rw [if_neg hactive] at hprompted
    cases hprompted

/-- Where a round is taken while the other worker is woken, that one is left without. -/
theorem takeRound_leaves {s : State} {w : Worker} (hother : s.pc w.other = .woken) :
    ∃ b u, step (s.takeRound w) b = some u ∧ ¬ OnActivation u := by
  have hpc : (s.takeRound w).pc w.other = .woken := (goto_other s (other_ne w) .work).trans hother
  obtain ⟨u, hstep, hu⟩ := woken_unprompted hpc (by decide : (0 : Nat) ≠ 1)
  exact ⟨_, u, hstep, hu⟩

/-- After a step that is not allowed the next one can begin a round without an activation. -/
theorem not_alone_leaves {s t : State} {a : Action} (halone : ¬ Alone s a)
    (hstep : step s a = some t) : ∃ b u, step t b = some u ∧ ¬ OnActivation u := by
  cases a with
  | thread w =>
      rw [step_thread] at hstep
      simp only [Alone, not_forall, not_not] at halone
      obtain ⟨htakes, hother⟩ := halone
      rw [threadFunc_takes htakes] at hstep
      cases hstep
      exact takeRound_leaves hother
  | spurious w =>
      rw [step] at hstep
      split at hstep
      · cases hstep
        obtain ⟨u, hu, hbad⟩ := woken_unprompted (goto_same s w .woken) halone
        exact ⟨_, u, hu, hbad⟩
      · cases hstep
  | main => exact absurd trivial halone

/-- **Activations.**  In every state of a run in which workers take activations alone every
round was begun on one; after the first step that breaks this the next one can begin a round
without. -/
theorem onActivation_iff {s : State} (hs : Reach step (· = start) Alone s) :
    OnActivation s ∧ ∀ a t, step s a = some t →
      ((∀ b u, step t b = some u → OnActivation u) ↔ Alone s a) := by
  refine ⟨(run_inv hs).onActivation, fun a t hstep => ?_⟩
  constructor
  · intro hall
    by_contra halone
    obtain ⟨b, u, hu, hbad⟩ := not_alone_leaves halone hstep
    exact hbad (hall b u hu)
  · intro halone b u hu
    exact next_onActivation (step_inv (run_inv hs) halone hstep) hu

/-- One worker waits for the first activation, and the other one finds the second. -/
def twoActivations : List Action :=
  [.main, .thread .thread4, .main, .thread .thread4, .main, .thread .thread5]

/-- Two activations and their two rounds. -/
theorem twoActivations_onActivation :
    ∃ s, exec step (fun s a => decide (Alone s a)) start twoActivations = some s ∧
      s.rounds = 2 ∧ OnActivation s := by
  have hrun : (exec step (fun s a => decide (Alone s a)) start twoActivations).map
      State.rounds = some 2 := by
    decide +kernel
  obtain ⟨s, hexec, hrounds⟩ := Option.map_eq_some_iff.mp hrun
  have hstart : Reach step (· = start) Alone start := .start rfl
  have hreach : Reach step (· = start) Alone s :=
    hstart.of_exec (fun _ _ hok => of_decide_eq_true hok) hexec
  exact ⟨s, hexec, hrounds, (onActivation_iff hreach).1⟩

/-- Both workers wait, and one broadcast sends both to work. -/
theorem one_activation_two_rounds :
    ∃ s, Reach step (· = start) anyStep s ∧ s.activations = 1 ∧ s.rounds = 2 ∧
      s.unprompted = 1 := by
  have hrun : (exec step (fun _ _ => true) start [.main, .thread .thread4, .thread .thread5,
      .main, .thread .thread4, .thread .thread5]).map
        (fun s => (s.activations, s.rounds, s.unprompted)) = some (1, 2, 1) := by
    decide +kernel
  obtain ⟨s, hexec, hcounts⟩ := Option.map_eq_some_iff.mp hrun
  have hstart : Reach step (· = start) anyStep start := .start rfl
  have hreach : Reach step (· = start) anyStep s := hstart.of_exec (fun _ _ _ => trivial) hexec
  exact ⟨s, hreach, congrArg (·.1) hcounts, congrArg (·.2.1) hcounts,
    congrArg (·.2.2) hcounts⟩

end ThreadCond
