import Alp.SerialWorker

/-!
# The shutdown of the device

`serial_dev_destroy` sets the stop flag and then posts `active`, and joins the
worker.  The worker tests the flag at two places, and tokens of commands whose read
gave up may still be in the semaphore.

Once the flag is set, a worker that has a token leaves its loop at the next test
(`WorkerPc.leaving`), and the token of the stop is taken by nobody else; `StopInv`
is that argument for every interleaving.
-/

set_option autoImplicit false

namespace Serial

open CString Transition

/-- `serial_send_stop` is over: the client joins the worker, or has joined it. -/
def ClientPc.joining : ClientPc → Bool
  | .destroy .join | .gone => true
  | _ => false

/-- The shutdown cannot get stuck. -/
structure ShutsDown (debug : Bool) (s : State) : Prop where
  /-- The worker does not sleep for good. -/
  awake : s.client.joining = true → s.worker = .done ∨ s.worker ≠ .idleWait ∨ 0 < s.active
  /-- Until it has left its loop the worker can go on. -/
  moves : s.client.joining = true → s.worker ≠ .done → (serialRun debug s).isSome
  /-- The reset branch is never taken. -/
  island : s.land = .idle ∨ s.land = .tx ∨ s.land = .rx
  /-- The worker leaves its loop only after the flag was set. -/
  stopped : s.worker = .done → s.stop = true

/-- The stop flag is set. -/
def ClientPc.stopSet : ClientPc → Bool
  | .destroy .post | .destroy .join | .gone => true
  | _ => false

/-- The worker is between taking a token and the head of the loop, or out of it. -/
def WorkerPc.leaving : WorkerPc → Bool
  | .idleStop | .idleRead | .idleClear _ | .idleRet | .done => true
  | _ => false

/-- The stop flag, its token and the worker. -/
structure StopInv (s : State) : Prop where
  flag : s.stop = s.client.stopSet
  token : s.client.joining = true → 0 < s.active ∨ s.worker.leaving = true
  done : s.worker = .done → s.stop = true

/-- The invariant of the shutdown holds when the serial was created. -/
theorem stopInv_created {s : State} (h : Created s) : StopInv s := by
  obtain ⟨rxchan, txchan, pbuf, rfl⟩ := h
  exact ⟨rfl, nofun, nofun⟩

section Steps

variable {debug : Bool} {s t : State}

/-- A client that waits for the worker has set `stop`. -/
theorem ClientPc.stopSet_of_joining {pc : ClientPc} (h : pc.joining = true) :
    pc.stopSet = true := by
  unfold ClientPc.joining at h
  split at h
  · rfl
  · rfl
  · cases h

/-- A step of the client outside `serial_dev_destroy`. -/
theorem StopInv.calling (h : StopInv s) (hbefore : s.client.stopSet = false)
    (hafter : t.client.stopSet = false) (hstop : t.stop = s.stop) (hworker : t.worker = s.worker) :
    StopInv t where
  flag := by rw [hstop, h.flag, hbefore, hafter]
  token := fun hjoin => by
    rw [ClientPc.stopSet_of_joining hjoin] at hafter
    cases hafter
  done := by
    rw [hworker, hstop]
    exact h.done

/-- A step of `serial_dev_destroy`. -/
theorem stopInv_destroy {pc : StPc} (h : StopInv s) (hc : s.client = .destroy pc)
    (hstep : serialDevDestroy s pc = some t) : StopInv t := by
  cases pc with
  | set =>
      cases hstep
      exact ⟨rfl, nofun, fun _ => rfl⟩
  | post =>
      have hflag : s.stop = true := by rw [h.flag, hc]; rfl
      cases hstep
      exact ⟨hflag, fun _ => Or.inl (Nat.succ_pos _), h.done⟩
  | join =>
      have hflag : s.stop = true := by rw [h.flag, hc]; rfl
      simp only [serialDevDestroy] at hstep
      split at hstep
      · next hdone =>
          cases hstep
          exact ⟨hflag, fun _ => Or.inr (by rw [hdone]; rfl), h.done⟩
      · cases hstep

/-- A move of the client keeps the invariant of the shutdown. -/
theorem StopInv.client (h : StopInv s) (hmove : ClientMove s t) : StopInv t := by
  cases hmove with
  | write pbuf len pc hc hrun =>
      have hbefore : s.client.stopSet = false := by rw [hc]; rfl
      cases pc <;> simp only [serialDevWrite] at hrun <;> (try split at hrun) <;>
        cases hrun <;> exact h.calling hbefore rfl rfl rfl
  | read len tmSec pc hc hrun =>
      have hbefore : s.client.stopSet = false := by rw [hc]; rfl
      cases pc <;> simp only [serialDevRead] at hrun <;> (try split at hrun) <;>
        cases hrun <;> exact h.calling hbefore rfl rfl rfl
  | destroy pc hc hrun => exact stopInv_destroy h hc hrun

/-- A step of the worker leaves the flag and the client alone, and leaves its loop
only with the flag set.  Once the flag is set, a worker with a token only leaves. -/
theorem serialRun_stop (hstep : serialRun debug s = some t) :
    t.stop = s.stop ∧ t.client = s.client ∧ (t.worker = .done → s.stop = true) ∧
      (s.stop = true → 0 < s.active ∨ s.worker.leaving = true →
        0 < t.active ∨ t.worker.leaving = true) := by
  -- at most places the worker takes no token and is not about to leave
  have hstay : ∀ u : State, s.worker.leaving = false → u.active = s.active →
      (s.stop = true → 0 < s.active ∨ s.worker.leaving = true →
        0 < u.active ∨ u.worker.leaving = true) := by
    intro u hleave hactive _ htoken
    rw [hleave] at htoken
    rw [hactive]
    exact Or.inl (htoken.resolve_right (by simp))
  cases serialRun_moves hstep with
  | reset hw hl =>
      refine ⟨rfl, rfl, fun hdone => ?_, hstay _ (by rw [hw]; rfl) rfl⟩
      rw [show s.worker = .done from hdone] at hw
      cases hw
  | toRx hw hl =>
      refine ⟨rfl, rfl, fun hdone => ?_, hstay _ (by rw [hw]; rfl) rfl⟩
      cases debug <;> cases hdone
  | wake hw ha => exact ⟨rfl, rfl, (fun hdone => by cases hdone), fun _ _ => Or.inr rfl⟩
  | look hw =>
      refine ⟨rfl, rfl, fun hdone => ?_, fun _ _ => Or.inr ?_⟩
      · cases hs : s.stop <;> simp [hs] at hdone
      · cases hs : s.stop <;> rfl
  | take hw => exact ⟨rfl, rfl, (fun hdone => by cases hdone), fun _ _ => Or.inr rfl⟩
  | clear c hw => exact ⟨rfl, rfl, (fun hdone => by cases hdone), fun _ _ => Or.inr rfl⟩
  | back hw =>
      refine ⟨rfl, rfl, fun hdone => ?_, fun hs _ => Or.inr ?_⟩
      · cases hs : s.stop
        · simp [hs] at hdone
        · rfl
      · simp [hs, WorkerPc.leaving]
  | toIdle hw | toTx hw | sent hw | rxLen hw | rxLoad len i hw | rxCount len i hw
  | rxStore len i b hw | received hw =>
      exact ⟨rfl, rfl, (fun hdone => by cases hdone), hstay _ (by rw [hw]; rfl) rfl⟩

/-- A step of the worker keeps the invariant of the shutdown. -/
theorem StopInv.worker (h : StopInv s) (hstep : serialRun debug s = some t) : StopInv t := by
  obtain ⟨hstop, hclient, hdone, htoken⟩ := serialRun_stop hstep
  refine ⟨by rw [hstop, hclient]; exact h.flag, fun hjoin => ?_, fun hw => hstop ▸ hdone hw⟩
  rw [hclient] at hjoin
  have hset : s.stop = true := by rw [h.flag]; exact ClientPc.stopSet_of_joining hjoin
  exact htoken hset (h.token hjoin)

/-- A step keeps the invariant of the shutdown. -/
theorem stopInv_step {a : Action} (h : StopInv s) (hstep : step debug s a = some t) :
    StopInv t := by
  cases step_cases hstep with
  | call c hc => exact h.calling (by rw [hc]; rfl) (by cases c <;> rfl) rfl rfl
  | client hmove => exact h.client hmove
  | timeout len tmSec hc hready => exact h.calling (by rw [hc]; rfl) rfl rfl rfl
  | clockError len tmSec hc => exact h.calling (by rw [hc]; rfl) rfl rfl rfl
  | worker hrun => exact h.worker hrun

/-- Only a worker that waits for a token, or is done, has no step. -/
theorem serialRun_isSome (hwait : s.worker = .idleWait → 0 < s.active) (hdone : s.worker ≠ .done) :
    (serialRun debug s).isSome = true := by
  unfold serialRun
  split
  · split <;> rfl
  · next hw => rw [if_pos (hwait hw)]; rfl
  all_goals first | rfl | (split <;> rfl) | contradiction

end Steps

/-- **The join ends.**  In every state of every run the shutdown can go on. -/
theorem shutsDown_of_reach {debug : Bool} {s : State}
    (h : Reach (step debug) Created anyStep s) : ShutsDown debug s := by
  have hinv : StopInv s :=
    h.invariant (fun _ => stopInv_created) fun _ _ _ _ hs _ hstep => stopInv_step hs hstep
  have hland := landOk_reach h
  have hawake : s.client.joining = true → s.worker = .idleWait → 0 < s.active := by
    intro hjoin hw
    have htoken := hinv.token hjoin
    rw [hw] at htoken
    exact htoken.resolve_right (by simp [WorkerPc.leaving])
  refine ⟨fun hjoin => ?_, fun hjoin => serialRun_isSome (hawake hjoin), ?_, hinv.done⟩
  · by_cases hw : s.worker = .idleWait
    · exact Or.inr (Or.inr (hawake hjoin hw))
    · exact Or.inr (Or.inl hw)
  · unfold State.LandOk at hland
    cases hl : s.land with
    | null => split at hland <;> simp [hl] at hland
    | idle => exact Or.inl rfl
    | tx => exact Or.inr (Or.inl rfl)
    | rx => exact Or.inr (Or.inr rfl)

/-- A read that times out leaves its token behind; the shutdown adds its own. -/
def abandonedRun : List Action :=
  .call (.read 1 1) :: List.replicate 6 .client ++ [.timeout, .call .destroy, .client, .client]

/-- The worker is joined while a token of the read that gave up is still there. -/
theorem shutsDown_abandonedRun :
    ∃ s, Reach (step true) Created anyStep s ∧ s.client.joining = true ∧ s.active = 2 ∧
      ShutsDown true s := by
  obtain ⟨t, hrun, hjoin, hactive⟩ : ∃ t,
      exec (step true) (fun _ _ => true) blank abandonedRun = some t ∧
        t.client.joining = true ∧ t.active = 2 := ⟨_, rfl, rfl, rfl⟩
  have hreach : Reach (step true) Created anyStep t :=
    Reach.of_exec (fun _ _ _ => trivial) (.start created_blank) hrun
  exact ⟨t, hreach, hjoin, hactive, shutsDown_of_reach hreach⟩

end Serial
