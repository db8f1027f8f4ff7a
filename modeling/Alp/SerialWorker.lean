import Alp.SerialThread

/-!
# What the worker does to a command

A command posted by `serial_send_cmd` is first the word in `ctrl->cmd`
(`pending`), then in the worker's hands (`held`), and last among the TX and RX
steps the worker has completed (`ran`).  `serialRun_cases` says what one step of
`serial_run` does to these three and to the semaphores; the rest of the worker's
steps only move it along (`WorkerMove.inside`).
-/

set_option autoImplicit false

namespace Serial

open CString Transition

/-- The command in the worker's hands: read from the mailbox, its step not
completed.  A worker that leaves its loop keeps it. -/
def State.held (s : State) : List (Nat × SerCmd) :=
  match s.worker with
  | .idleClear .null => []
  | .idleClear cmd => [(s.wTag, cmd)]
  | .idleRet | .loop | .done =>
    match s.land with
    | .tx => [(s.wTag, .wr)]
    | .rx => [(s.wTag, .rd)]
    | _ => []
  | .txPost => [(s.wTag, .wr)]
  | .rxLen | .rxLoad _ _ | .rxStore _ _ _ | .rxPost => [(s.wTag, .rd)]
  | .idleWait | .idleStop | .idleRead => []

/-- The command waiting in the mailbox.  Between reading and clearing the word the
worker already holds it, unless another was stored on top. -/
def State.pending (s : State) : List (Nat × SerCmd) :=
  if s.cmd = .null then []
  else
    match s.worker with
    | .idleClear cmd =>
      if cmd = s.cmd ∧ s.wTag = s.cmdTag then [] else [(s.cmdTag, s.cmd)]
    | _ => [(s.cmdTag, s.cmd)]

/-- The worker has taken a token and not yet cleared the word. -/
def WorkerPc.taking : WorkerPc → Bool
  | .idleStop | .idleRead | .idleClear _ => true
  | _ => false

/-- The islands the worker can be on at each point. -/
def State.LandOk (s : State) : Prop :=
  match s.worker with
  | .loop | .idleRet | .done => s.land ≠ .null
  | _ => s.land = .idle

/-- Where `cmd` is null nothing is pending. -/
theorem State.pending_of_null {s : State} (h : s.cmd = .null) : s.pending = [] := by
  simp [State.pending, h]

/-- A command in the box is pending as long as the worker is not taking it. -/
theorem State.pending_of_not_taking {s : State} (hcmd : s.cmd ≠ .null)
    (h : s.worker.taking = false) : s.pending = [(s.cmdTag, s.cmd)] := by
  unfold State.pending
  rw [if_neg hcmd]
  cases hw : s.worker <;> simp_all [WorkerPc.taking]

/-- The steps of the worker. -/
inductive WorkerMove (s : State) : State → Prop
  /-- It takes a token of `active`. -/
  | wake (hw : s.worker = .idleWait) (hland : s.land = .idle) (ha : 0 < s.active) :
      WorkerMove s { s with worker := .idleStop, active := s.active - 1 }
  /-- It looks at the stop flag. -/
  | look (hw : s.worker = .idleStop) (hland : s.land = .idle) :
      WorkerMove s { s with worker := if s.stop then .idleRet else .idleRead }
  /-- It reads the word. -/
  | take (hw : s.worker = .idleRead) (hland : s.land = .idle) :
      WorkerMove s { s with worker := .idleClear s.cmd, wTag := s.cmdTag }
  /-- It clears the word. -/
  | clear (c : SerCmd) (hw : s.worker = .idleClear c) (hland : s.land = .idle) :
      WorkerMove s { s with worker := .idleRet, cmd := .null, land := idleLand .idle c }
  /-- It completes a TX step. -/
  | sent (hw : s.worker = .txPost) (hland : s.land = .idle) :
      WorkerMove s { s with
        worker := .loop, txReady := s.txReady + 1, ran := s.ran ++ [(s.wTag, .wr)] }
  /-- It completes an RX step. -/
  | received (hw : s.worker = .rxPost) (hland : s.land = .idle) :
      WorkerMove s { s with
        worker := .loop, rxReady := s.rxReady + 1, ran := s.ran ++ [(s.wTag, .rd)] }
  /-- It goes on, the command in its hands (if any) staying there. -/
  | inside (worker : WorkerPc) (land : Island) (rxchan : Chan)
      (hbefore : s.worker.taking = false) (hafter : worker.taking = false)
      (hheld : State.held { s with worker := worker, land := land, rxchan := rxchan } = s.held)
      (hok : State.LandOk { s with worker := worker, land := land, rxchan := rxchan }) :
      WorkerMove s { s with worker := worker, land := land, rxchan := rxchan }

variable {debug : Bool} {s t : State}

theorem takeShip_idle_rx : takeShip .idle .idleToRx = .rx := by decide

theorem takeShip_idle_tx : takeShip .idle .idleToTx = .tx := by decide

theorem takeShip_rx_idle : takeShip .rx .rxToIdle = .idle := by decide

theorem takeShip_tx_idle : takeShip .tx .txToIdle = .idle := by decide

/-- The step of the worker, by what it does to commands and tokens. -/
theorem serialRun_cases (hland : s.LandOk) (hstep : serialRun debug s = some t) :
    WorkerMove s t := by
  unfold State.LandOk at hland
  cases serialRun_moves hstep with
  | toIdle hw hl =>
      exact .inside .idleWait s.land s.rxchan (by rw [hw]; rfl) rfl (by simp [State.held, hw, hl])
        (by simp [State.LandOk, hl])
  | toTx hw hl =>
      exact .inside .txPost _ s.rxchan (by rw [hw]; rfl) rfl (by simp [State.held, hw, hl])
        (by simp [State.LandOk, hl, takeShip_tx_idle])
  | toRx hw hl =>
      refine .inside _ _ s.rxchan (by rw [hw]; rfl) ?_ ?_ ?_
      · cases debug <;> rfl
      · cases debug <;> simp [State.held, hw, hl]
      · cases debug <;> simp [State.LandOk, hl, takeShip_rx_idle]
  | reset hw hl => exact absurd hl (by simpa [hw] using hland)
  | wake hw ha => exact .wake hw (by simpa [hw] using hland) ha
  | look hw => exact .look hw (by simpa [hw] using hland)
  | take hw => exact .take hw (by simpa [hw] using hland)
  | clear c hw =>
      have hl : s.land = .idle := by simpa [hw] using hland
      rw [hl]
      exact .clear c hw hl
  | back hw =>
      have hl : s.land ≠ .null := by simpa [hw] using hland
      refine .inside _ s.land s.rxchan (by rw [hw]; rfl) ?_ ?_ ?_
      · split <;> rfl
      · split <;> simp [State.held, hw]
      · split <;> simpa [State.LandOk] using hl
  | sent hw => exact .sent hw (by simpa [hw] using hland)
  | rxLen hw =>
      have hl : s.land = .idle := by simpa [hw] using hland
      exact .inside _ s.land s.rxchan (by rw [hw]; rfl) rfl (by simp [State.held, hw])
        (by simpa [State.LandOk] using hl)
  | rxLoad len i hw hlt =>
      have hl : s.land = .idle := by simpa [hw] using hland
      exact .inside _ s.land s.rxchan (by rw [hw]; rfl) rfl (by simp [State.held, hw])
        (by simpa [State.LandOk] using hl)
  | rxCount len i hw hge =>
      have hl : s.land = .idle := by simpa [hw] using hland
      exact .inside _ s.land _ (by rw [hw]; rfl) rfl (by simp [State.held, hw])
        (by simpa [State.LandOk] using hl)
  | rxStore len i b hw =>
      have hl : s.land = .idle := by simpa [hw] using hland
      exact .inside _ s.land _ (by rw [hw]; rfl) rfl (by simp [State.held, hw])
        (by simpa [State.LandOk] using hl)
  | received hw => exact .received hw (by simpa [hw] using hland)

/-- After a move of the worker it is on an island that its point allows. -/
theorem WorkerMove.landOk (h : WorkerMove s t) : t.LandOk := by
  cases h with
  | wake hw hl ha => simpa [State.LandOk] using hl
  | look hw hl => cases hs : s.stop <;> simp [State.LandOk, hl]
  | take hw hl => simpa [State.LandOk] using hl
  | clear c hw hl =>
      cases c <;> simp [State.LandOk, idleLand, takeShip_idle_rx, takeShip_idle_tx]
  | sent hw hl => simp [State.LandOk, hl]
  | received hw hl => simp [State.LandOk, hl]
  | inside worker land rxchan hbefore hafter hheld hok => exact hok

/-- The worker's steps leave the client and what only the client writes alone. -/
theorem WorkerMove.frame (h : WorkerMove s t) :
    t.client = s.client ∧ t.txchan = s.txchan ∧ t.calls = s.calls ∧ t.returns = s.returns ∧
      t.cur = s.cur := by
  cases h <;> exact ⟨rfl, rfl, rfl, rfl, rfl⟩

/-- The client's steps leave the worker's variables and its record alone. -/
theorem ClientMove.frame (h : ClientMove s t) :
    t.worker = s.worker ∧ t.land = s.land ∧ t.wTag = s.wTag ∧ t.ran = s.ran := by
  cases h with
  | write pbuf len pc hc hrun =>
      cases pc <;> simp only [serialDevWrite] at hrun <;> (try split at hrun) <;>
        cases hrun <;> exact ⟨rfl, rfl, rfl, rfl⟩
  | read len tmSec pc hc hrun =>
      cases pc <;> simp only [serialDevRead] at hrun <;> (try split at hrun) <;>
        cases hrun <;> exact ⟨rfl, rfl, rfl, rfl⟩
  | destroy pc hc hrun =>
      cases pc <;> simp only [serialDevDestroy] at hrun <;> (try split at hrun) <;>
        cases hrun <;> exact ⟨rfl, rfl, rfl, rfl⟩

/-- So do all steps but the worker's own. -/
theorem step_frame {a : Action} (hstep : step debug s a = some t) :
    (t.worker = s.worker ∧ t.land = s.land ∧ t.wTag = s.wTag ∧ t.ran = s.ran) ∨
      serialRun debug s = some t := by
  cases step_cases hstep with
  | call c hc => exact Or.inl ⟨rfl, rfl, rfl, rfl⟩
  | client hmove => exact Or.inl hmove.frame
  | timeout len tmSec hc hready => exact Or.inl ⟨rfl, rfl, rfl, rfl⟩
  | clockError len tmSec hc => exact Or.inl ⟨rfl, rfl, rfl, rfl⟩
  | worker hrun => exact Or.inr hrun

/-- While the worker takes no token, the mailbox is what its two words say. -/
theorem State.pending_congr (hs : s.worker.taking = false) (ht : t.worker.taking = false)
    (hcmd : s.cmd = t.cmd) (htag : s.cmdTag = t.cmdTag) : s.pending = t.pending := by
  by_cases hn : s.cmd = .null
  · rw [State.pending_of_null hn, State.pending_of_null (hcmd ▸ hn)]
  · rw [State.pending_of_not_taking hn hs, State.pending_of_not_taking (hcmd ▸ hn) ht, hcmd, htag]

/-- Only `idle` islands while the worker serves a step or waits. -/
theorem landOk_step {a : Action} (h : s.LandOk) (hstep : step debug s a = some t) : t.LandOk := by
  rcases step_frame hstep with ⟨hw, hl, -, -⟩ | hrun
  · simpa only [State.LandOk, hw, hl] using h
  · exact (serialRun_cases h hrun).landOk

/-- When the serial was created the worker is on the idle island. -/
theorem landOk_created (h : Created s) : s.LandOk := by
  obtain ⟨rxchan, txchan, pbuf, rfl⟩ := h
  simp [State.LandOk, serialDevCreate]

/-- In every state reached the worker is on an island that its point allows. -/
theorem landOk_reach {allowed : State → Action → Prop}
    (h : Reach (step debug) Created allowed s) : s.LandOk :=
  h.invariant (fun _ => landOk_created) fun _ _ _ _ hland _ hstep => landOk_step hland hstep

end Serial
