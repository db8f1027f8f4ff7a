import Alp.Transition

/-!
# Waiting for a signal

This file embeds the signals of `ipc/ipc.c`.  The parent posts a signal with every message,
and the child waits for them one after another in `user_signal_wait`.  A post is delivered
at once: the handler runs between two steps of the child.

The child looks at `recv_signal`, suspends itself and copies and resets the variable in
steps of their own.  A signal that comes between the look and the suspension does not wake
it, and one that comes between the copy and the reset is gone (`no_loss_iff`).
-/

set_option autoImplicit false

namespace Ipc

open Transition

/-- `XSIG`. -/
def xsig : Int := 10

/-- The signal is not 0. -/
theorem xsig_ne : xsig ≠ 0 := by decide

/-- Points of `recv_message` and of `user_signal_wait`, after `user_signal_init`. -/
inductive Pc
  /-- `if (recv_signal == 0)` -/
  | test
  /-- `printf("suspend process")` -/
  | suspend
  /-- `pause()` -/
  | pause
  /-- in `pause()` -/
  | paused
  /-- `printf("wake up process")` -/
  | wake
  /-- `signal = recv_signal` -/
  | copy
  /-- `recv_signal = 0` -/
  | reset
  /-- `return signal` -/
  | ret
  deriving DecidableEq

/-- The child.  No step looks at `posts`, `since` (the signals since the copy), `discarded`
(those of them that a reset took back) and `returned`. -/
structure State where
  pc : Pc
  recvSignal : Int
  signal : Int
  posts : Nat
  since : Nat
  discarded : Nat
  returned : List Int
  deriving DecidableEq

/-- `user_signal_handler`; `pause` returns after it. -/
def userSignalHandler (s : State) (signal : Int) : State :=
  { s with
    recvSignal := signal
    pc := if s.pc = .paused then .wake else s.pc }

/-- `user_signal_post`. -/
def userSignalPost (s : State) : State :=
  { userSignalHandler s xsig with
    posts := s.posts + 1
    since := if s.pc = .reset then s.since + 1 else s.since }

/-- A step of the child; it has none while it is suspended. -/
def userSignalWait (s : State) : Option State :=
  match s.pc with
  | .test => some { s with pc := if s.recvSignal = 0 then .suspend else .copy }
  | .suspend => some { s with pc := .pause }
  | .pause => some { s with pc := .paused }
  | .paused => none
  | .wake => some { s with pc := .copy }
  | .copy => some { s with signal := s.recvSignal, since := 0, pc := .reset }
  | .reset =>
    some { s with recvSignal := 0, discarded := s.discarded + s.since, since := 0, pc := .ret }
  | .ret => some { s with returned := s.returned ++ [s.signal], pc := .test }

inductive Action
  | post
  | child
  deriving DecidableEq

def step (s : State) : Action → Option State
  | .post => some (userSignalPost s)
  | .child => userSignalWait s

/-- The child after `user_signal_init`. -/
def start : State :=
  ⟨.test, 0, 0, 0, 0, 0, []⟩

/-- The child is not suspended while there is a signal, and no reset took one back. -/
structure NoLoss (s : State) : Prop where
  awake : s.pc = .paused → s.recvSignal = 0
  kept : s.discarded = 0

/-- No signal comes between a look that found none and the suspension, or between the copy
and the reset. -/
def OutsideWindows (s : State) (a : Action) : Prop :=
  a = .post → s.pc ≠ .suspend ∧ s.pc ≠ .pause ∧ s.pc ≠ .reset

/-- What the child knows at its points. -/
structure Inv (s : State) : Prop where
  seen : s.pc = .suspend ∨ s.pc = .pause ∨ s.pc = .paused → s.recvSignal = 0
  woken : s.pc = .wake ∨ s.pc = .copy ∨ s.pc = .reset → s.recvSignal = xsig
  copied : s.pc = .reset ∨ s.pc = .ret → s.signal = xsig
  value : s.recvSignal = 0 ∨ s.recvSignal = xsig
  since : s.since = 0
  kept : s.discarded = 0
  returned : ∀ r ∈ s.returned, r = xsig
  count : s.returned.length + (if s.pc = .ret then 1 else 0) +
    (if s.recvSignal = 0 then 0 else 1) ≤ s.posts

/-- The invariant holds at the start. -/
theorem start_inv : Inv start := by
  constructor <;> simp [start]

/-- A signal outside the windows. -/
theorem post_inv {s : State} (h : Inv s) (hout : OutsideWindows s .post) :
    Inv (userSignalPost s) := by
  obtain ⟨hsuspend, hpause, hreset⟩ := hout rfl
  have hcount := h.count
  have hsince : (userSignalPost s).since = 0 := by
    simp only [userSignalPost, if_neg hreset]
    exact h.since
  by_cases hpaused : s.pc = .paused
  · have hpc : (userSignalPost s).pc = .wake := by
      simp [userSignalPost, userSignalHandler, hpaused]
    refine ⟨?_, fun _ => rfl, ?_, Or.inr rfl, hsince, h.kept, h.returned, ?_⟩
    · simp [hpc]
    · simp [hpc]
    · rw [hpc]
      simp only [hpaused, userSignalPost, userSignalHandler, xsig_ne, reduceCtorEq,
        if_false] at hcount ⊢
      omega
  · have hpc : (userSignalPost s).pc = s.pc := by
      simp [userSignalPost, userSignalHandler, hpaused]
    refine ⟨?_, fun _ => rfl, ?_, Or.inr rfl, hsince, h.kept, h.returned, ?_⟩
    · rw [hpc]
      rintro (hs | hs | hs)
      · exact absurd hs hsuspend
      · exact absurd hs hpause
      · exact absurd hs hpaused
    · rw [hpc]
      exact h.copied
    · rw [hpc]
      simp only [userSignalPost, userSignalHandler, xsig_ne, if_false] at hcount ⊢
      omega

/-- A step of the child. -/
theorem child_inv {s t : State} (h : Inv s) (hstep : userSignalWait s = some t) : Inv t := by
  have hcount := h.count
  cases hpc : s.pc with
  | test =>
      rw [userSignalWait, hpc] at hstep
      cases hstep
      rw [hpc] at hcount
      by_cases hzero : s.recvSignal = 0
      · refine { h with seen := fun _ => hzero, woken := ?_, copied := ?_, count := ?_ }
        · simp [hzero]
        · simp [hzero]
        · simpa [hzero] using hcount
      · refine { h with seen := ?_, woken := ?_, copied := ?_, count := ?_ }
        · simp [hzero]
        · exact fun _ => h.value.resolve_left hzero
        · simp [hzero]
        · simpa [hzero] using hcount
  | suspend =>
      rw [userSignalWait, hpc] at hstep
      cases hstep
      rw [hpc] at hcount
      exact { h with
        seen := fun _ => h.seen (Or.inl hpc), woken := by simp, copied := by simp,
        count := hcount }
  | pause =>
      rw [userSignalWait, hpc] at hstep
      cases hstep
      rw [hpc] at hcount
      exact { h with
        seen := fun _ => h.seen (Or.inr (Or.inl hpc)), woken := by simp, copied := by simp,
        count := hcount }
  | paused =>
      rw [userSignalWait, hpc] at hstep
      cases hstep
  | wake =>
      rw [userSignalWait, hpc] at hstep
      cases hstep
      rw [hpc] at hcount
      exact { h with
        seen := by simp, woken := fun _ => h.woken (Or.inl hpc), copied := by simp,
        count := hcount }
  | copy =>
      rw [userSignalWait, hpc] at hstep
      cases hstep
      rw [hpc] at hcount
      exact { h with
        seen := by simp, woken := fun _ => h.woken (Or.inr (Or.inl hpc)),
        copied := fun _ => h.woken (Or.inr (Or.inl hpc)),
        since := rfl, count := hcount }
  | reset =>
      rw [userSignalWait, hpc] at hstep
      cases hstep
      have hrecv := h.woken (Or.inr (Or.inr hpc))
      rw [hpc, hrecv] at hcount
      exact { h with
        seen := by simp, woken := by simp, copied := fun _ => h.copied (Or.inl hpc),
        value := Or.inl rfl, since := rfl, kept := by simp [h.kept, h.since],
        count := hcount }
  | ret =>
      rw [userSignalWait, hpc] at hstep
      cases hstep
      rw [hpc] at hcount
      refine { h with
        seen := by simp, woken := by simp, copied := by simp, returned := ?_, count := ?_ }
      · intro r hmem
        rcases List.mem_append.mp hmem with hold | hnew
        · exact h.returned r hold
        · rw [List.mem_singleton.mp hnew]
          exact h.copied (Or.inr hpc)
      · simpa using hcount

/-- In a run without signals in the windows. -/
theorem run_inv {s : State} (h : Reach step (· = start) OutsideWindows s) : Inv s := by
  apply h.invariant
  · rintro s rfl
    exact start_inv
  · intro s a t _ hs hout hstep
    cases a with
    | post =>
        cases hstep
        exact post_inv hs hout
    | child => exact child_inv hs hstep

/-- Under the invariant no message is lost. -/
theorem Inv.noLoss {s : State} (h : Inv s) : NoLoss s :=
  ⟨fun hpc => h.seen (Or.inr (Or.inr hpc)), h.kept⟩

/-- In such a run every wait returns a signal, and there are no more of them than posts. -/
theorem waits_returned {s : State} (h : Reach step (· = start) OutsideWindows s) :
    (∀ r ∈ s.returned, r = xsig) ∧ s.returned.length ≤ s.posts := by
  have hinv := run_inv h
  have hcount := hinv.count
  exact ⟨hinv.returned, by omega⟩

/-- States that the child reaches without any more signals. -/
def ByChild (s t : State) : Prop :=
  Reach step (· = s) (fun _ a => a = .child) t

/-- The child has reached the state it is in. -/
theorem ByChild.refl (s : State) : ByChild s s :=
  .start rfl

/-- A step of the child leads on. -/
theorem ByChild.next {s t u : State} (h : ByChild s t) (hstep : userSignalWait t = some u) :
    ByChild s u :=
  Reach.next (a := .child) h rfl hstep

/-- A child that calls `pause` while there is a signal. -/
theorem pause_loses {s t : State} (h : ByChild s t) (hpc : t.pc = .pause)
    (hrecv : t.recvSignal ≠ 0) : ∃ u, ByChild s u ∧ ¬ NoLoss u := by
  have hstep : userSignalWait t = some { t with pc := .paused } := by rw [userSignalWait, hpc]
  refine ⟨_, h.next hstep, ?_⟩
  intro hno
  exact hrecv (hno.awake rfl)

/-- A signal in a window is lost, whatever else happens. -/
theorem post_loses {s : State}
    (hpc : s.pc = .suspend ∨ s.pc = .pause ∨ s.pc = .reset) :
    ∃ u, ByChild (userSignalPost s) u ∧ ¬ NoLoss u := by
  have hsame : (userSignalPost s).pc = s.pc := by
    rcases hpc with hpc | hpc | hpc <;> simp [userSignalPost, userSignalHandler, hpc]
  rcases hpc with hpc | hpc | hpc
  · have hstep : userSignalWait (userSignalPost s) =
        some { userSignalPost s with pc := .pause } := by
      rw [userSignalWait, hsame, hpc]
    exact pause_loses ((ByChild.refl _).next hstep) rfl xsig_ne
  · exact pause_loses (ByChild.refl _) (hsame.trans hpc) xsig_ne
  · let t := userSignalPost s
    have hstep : userSignalWait t = some { t with
        recvSignal := 0, discarded := t.discarded + t.since, since := 0, pc := .ret } := by
      rw [userSignalWait, hsame, hpc]
    refine ⟨_, (ByChild.refl t).next hstep, ?_⟩
    intro hno
    have hkept : s.discarded + t.since = 0 := hno.kept
    have hsince : t.since = s.since + 1 := if_pos hpc
    omega

/-- **Wake-ups.**  In every state of a run without a signal in one of the windows the child
is not suspended while there is a signal, and no reset has taken one back; the first signal
in a window is one that the child loses by its own next steps. -/
theorem no_loss_iff {s : State} (hs : Reach step (· = start) OutsideWindows s) :
    NoLoss s ∧ ∀ a t, step s a = some t →
      ((∀ u, ByChild t u → NoLoss u) ↔ OutsideWindows s a) := by
  refine ⟨(run_inv hs).noLoss, fun a t hstep => ?_⟩
  constructor
  · rintro hall rfl
    cases hstep
    have hsafe : ¬ (s.pc = .suspend ∨ s.pc = .pause ∨ s.pc = .reset) := by
      intro hpc
      obtain ⟨u, hu, hloss⟩ := post_loses hpc
      exact hloss (hall u hu)
    exact ⟨fun h => hsafe (Or.inl h), fun h => hsafe (Or.inr (Or.inl h)),
      fun h => hsafe (Or.inr (Or.inr h))⟩
  · intro hout u hu
    have ht := hs.next hout hstep
    have hreach : Reach step (· = start) OutsideWindows u := by
      induction hu with
      | start h =>
          subst h
          exact ht
      | next _ ha hnext ih =>
          refine ih.next ?_ hnext
          intro hpost
          rw [ha] at hpost
          cases hpost
    exact (run_inv hreach).noLoss

/-- Two messages: the first wakes the child, the second is there when it looks. -/
def twoMessages : List Action :=
  [.child, .child, .child, .post, .child, .child, .child, .child, .post, .child, .child,
    .child, .child]

/-- Both waits return, and no signal is lost. -/
theorem twoMessages_noLoss :
    ∃ s, Reach step (· = start) OutsideWindows s ∧ s.posts = 2 ∧ s.returned = [10, 10] ∧
      NoLoss s := by
  let ok : State → Action → Bool := fun s a =>
    a != .post || (s.pc != .suspend && s.pc != .pause && s.pc != .reset)
  have hrun : exec step ok start twoMessages = some ⟨.test, 0, 10, 2, 0, 0, [10, 10]⟩ := by
    decide +kernel
  have hok : ∀ s a, ok s a = true → OutsideWindows s a := by
    rintro s _ hs rfl
    simpa [ok, and_assoc] using hs
  have hstart : Reach step (· = start) OutsideWindows start := .start rfl
  have hreach := hstart.of_exec hok hrun
  exact ⟨_, hreach, rfl, rfl, (no_loss_iff hreach).1⟩

/-- A signal after the look leaves the child suspended with `recv_signal` set, and one after
the copy is gone when the child looks again. -/
theorem signals_lost :
    (∃ s, Reach step (· = start) anyStep s ∧ s.pc = .paused ∧ s.recvSignal = 10) ∧
    (∃ s, Reach step (· = start) anyStep s ∧ s.posts = 2 ∧ s.returned = [10] ∧
      s.recvSignal = 0 ∧ s.discarded = 1) := by
  have hstart : Reach step (· = start) anyStep start := .start rfl
  have hany : ∀ (s : State) (a : Action), true = true → anyStep s a := fun _ _ _ => trivial
  constructor
  · have hrun : exec step (fun _ _ => true) start [.child, .post, .child, .child] =
        some ⟨.paused, 10, 0, 1, 0, 0, []⟩ := by decide +kernel
    exact ⟨_, hstart.of_exec hany hrun, rfl, rfl⟩
  · have hrun : exec step (fun _ _ => true) start
        [.post, .child, .child, .post, .child, .child] =
        some ⟨.test, 0, 10, 2, 0, 1, [10]⟩ := by decide +kernel
    exact ⟨_, hstart.of_exec hany hrun, rfl, rfl, rfl, rfl⟩

end Ipc
