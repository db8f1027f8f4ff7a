import Alp.SerialWorker

/-!
# A read answered by its own command

`serial_dev_read` takes any token of `rx_ready` for its own.  A read that gave up
waiting leaves the worker owing one, and the next read may take it before the
worker has run its own RX step.  When every read sends its command with no token
there and no earlier `SER_CMD_RD` in the worker's hands (`SendsRdAfresh`), the
token a read takes is that of its own RX step: `AnswerInv`.
-/

set_option autoImplicit false

namespace Serial

open CString Transition

/-- Whenever a read returned a count, the worker had run the RX step of that very
call. -/
def AnsweredByOwn (s : State) : Prop :=
  ∀ n r bs, Ret.read n r bs ∈ s.returns → 0 ≤ r → (n, SerCmd.rd) ∈ s.ran

/-- The worker owes no completion of an earlier `SER_CMD_RD`: no token is there and
none is to come for a command it has taken. -/
def State.OwesNoRx (s : State) : Prop :=
  s.rxReady = 0 ∧ ∀ e ∈ s.held, e.2 ≠ SerCmd.rd

/-- The client's next step stores `SER_CMD_RD`. -/
def ClientPc.storingRd : ClientPc → Bool
  | .read _ _ .cmd => true
  | _ => false

/-- The condition on a step: `SER_CMD_RD` is stored only while no earlier one is
owed a completion. -/
def SendsRdAfresh (s : State) : Action → Prop
  | .client => s.client.storingRd = true → s.OwesNoRx
  | _ => True

instance (s : State) : Decidable s.OwesNoRx :=
  inferInstanceAs (Decidable (_ ∧ _))

instance (s : State) : (a : Action) → Decidable (SendsRdAfresh s a)
  | .client => inferInstanceAs (Decidable (s.client.storingRd = true → s.OwesNoRx))
  | .call _ | .timeout | .clockError | .worker => .isTrue trivial

/-- The read has sent its command and waits for a token of `rx_ready`. -/
def ClientPc.awaitingRx : ClientPc → Bool
  | .read _ _ .post | .read _ _ .clock | .read _ _ .wait => true
  | _ => false

/-- The read has taken its token. -/
def ClientPc.answered : ClientPc → Bool
  | .read _ _ .get | .read _ _ (.copy _ _) => true
  | _ => false

/-- While a read waits, every `SER_CMD_RD` around is its own. -/
structure OnlyOwn (s : State) : Prop where
  mailbox : s.cmd = .rd → s.cmdTag = s.cur
  worker : ∀ e ∈ s.held, e.2 = SerCmd.rd → e.1 = s.cur
  token : 0 < s.rxReady → (s.cur, SerCmd.rd) ∈ s.ran

/-- Who the completions belong to. -/
structure AnswerInv (s : State) : Prop where
  awaiting : s.client.awaitingRx = true → OnlyOwn s
  answered : s.client.answered = true → (s.cur, SerCmd.rd) ∈ s.ran
  own : AnsweredByOwn s

/-- The invariant of answers holds when the serial was created. -/
theorem answerInv_created {s : State} (h : Created s) : AnswerInv s := by
  obtain ⟨rxchan, txchan, pbuf, rfl⟩ := h
  constructor <;>
    simp [serialDevCreate, ClientPc.awaitingRx, ClientPc.answered, AnsweredByOwn]

section Steps

variable {s t : State}

/-- A step that takes the client out of the waiting part of a read, returning at
most a failure or an answered read. -/
theorem AnswerInv.away (h : AnswerInv s) (hawait : t.client.awaitingRx = false)
    (hanswered : t.client.answered = false) (hran : t.ran = s.ran)
    (hret : ∀ n r bs, Ret.read n r bs ∈ t.returns →
      Ret.read n r bs ∈ s.returns ∨ r < 0 ∨ (n, SerCmd.rd) ∈ s.ran) : AnswerInv t where
  awaiting := by simp [hawait]
  answered := by simp [hanswered]
  own := by
    intro n r bs hmem hr
    rw [hran]
    rcases hret n r bs hmem with hold | hneg | hown
    · exact h.own n r bs hold hr
    · omega
    · exact hown

/-- A step of the read that has taken its token. -/
theorem AnswerInv.hold (h : AnswerInv s) (hown : (s.cur, SerCmd.rd) ∈ s.ran)
    (hawait : t.client.awaitingRx = false) (hcur : t.cur = s.cur) (hran : t.ran = s.ran)
    (hret : t.returns = s.returns) : AnswerInv t where
  awaiting := by simp [hawait]
  answered := fun _ => by rw [hcur, hran]; exact hown
  own := by simpa only [AnsweredByOwn, hran, hret] using h.own

/-- A step of the worker: its own command, once sent, is taken, held and completed
under its number. -/
theorem AnswerInv.worker (h : AnswerInv s) (hmove : WorkerMove s t) : AnswerInv t := by
  have hkeep : t.client = s.client ∧ t.cur = s.cur ∧ t.cmdTag = s.cmdTag ∧
      t.returns = s.returns := by
    cases hmove <;> exact ⟨rfl, rfl, rfl, rfl⟩
  obtain ⟨hclient, hcur, htag, hreturns⟩ := hkeep
  have hran : ∀ e ∈ s.ran, e ∈ t.ran := by
    intro e he
    cases hmove <;> simp [he]
  refine ⟨?_, ?_, ?_⟩
  · intro hawait
    rw [hclient] at hawait
    obtain ⟨hmail, hheld, htoken⟩ := h.awaiting hawait
    rw [← hcur] at hmail hheld htoken
    rw [← htag] at hmail
    cases hmove with
    | wake hw hl ha => exact ⟨hmail, by simp [State.held], htoken⟩
    | look hw hl =>
        refine ⟨hmail, ?_, htoken⟩
        cases hs : s.stop <;> simp [State.held, hl]
    | take hw hl =>
        refine ⟨hmail, ?_, htoken⟩
        cases hc : s.cmd with
        | null => simp [State.held]
        | rd => simpa [State.held] using hmail hc
        | wr => simp [State.held]
    | clear c hw hl =>
        refine ⟨by simp, ?_, htoken⟩
        cases c with
        | null => simp [State.held, idleLand]
        | rd => simpa [State.held, hw, idleLand, takeShip_idle_rx] using hheld
        | wr => simp [State.held, idleLand, takeShip_idle_tx]
    | sent hw hl =>
        exact ⟨hmail, by simp [State.held, hl], fun ha => hran _ (htoken ha)⟩
    | received hw hl =>
        have htag' : s.wTag = s.cur := hheld (s.wTag, .rd) (by simp [State.held, hw]) rfl
        refine ⟨hmail, by simp [State.held, hl], fun _ => ?_⟩
        simp [htag']
    | inside worker land rxchan hbefore hafter hsame hok =>
        exact ⟨hmail, by rw [hsame]; exact hheld, htoken⟩
  · intro hanswered
    rw [hclient] at hanswered
    rw [hcur]
    exact hran _ (h.answered hanswered)
  · intro n r bs hmem hr
    rw [hreturns] at hmem
    exact hran _ (h.own n r bs hmem hr)

end Steps

/-- Every step of the client keeps the invariant, as long as reads send their
command afresh. -/
theorem AnswerInv.client {s t : State} (h : AnswerInv s) (hok : SendsRdAfresh s .client)
    (hmove : ClientMove s t) : AnswerInv t := by
  cases hmove with
  | write pbuf len pc hc hstep =>
      cases pc <;> simp only [serialDevWrite] at hstep <;> (try split at hstep) <;>
        cases hstep <;> refine h.away rfl rfl rfl ?_ <;> intro n r bs hmem <;>
        simpa [State.finish, State.storeCmd, or_assoc] using Or.inl hmem
  | read len tmSec pc hc hstep =>
      cases pc with
      | cnt | len | timeout =>
          cases hstep
          exact h.away rfl rfl rfl fun _ _ _ hmem => Or.inl hmem
      | cmd =>
          obtain ⟨hready, hheld⟩ := hok (by rw [hc]; rfl)
          cases hstep
          refine ⟨fun _ => ⟨fun _ => rfl, ?_, ?_⟩, by simp [ClientPc.answered], h.own⟩
          · intro e he hrd
            exact absurd hrd (hheld e he)
          · intro hpos
            exact absurd hready (Nat.pos_iff_ne_zero.mp hpos)
      | post =>
          cases hstep
          obtain ⟨hmail, hheld, htoken⟩ := h.awaiting (by rw [hc]; rfl)
          exact ⟨fun _ => ⟨hmail, hheld, htoken⟩, by simp [ClientPc.answered], h.own⟩
      | clock =>
          cases hstep
          obtain ⟨hmail, hheld, htoken⟩ := h.awaiting (by rw [hc]; rfl)
          exact ⟨fun _ => ⟨hmail, hheld, htoken⟩, by simp [ClientPc.answered], h.own⟩
      | wait =>
          simp only [serialDevRead] at hstep
          split at hstep
          · next hpos =>
              cases hstep
              exact h.hold ((h.awaiting (by rw [hc]; rfl)).token hpos) rfl rfl rfl rfl
          · cases hstep
      | get =>
          have hown := h.answered (by rw [hc]; rfl)
          simp only [serialDevRead] at hstep
          split at hstep <;> cases hstep
          · refine h.away rfl rfl rfl ?_
            intro n r bs hmem
            rcases List.mem_append.mp hmem with hold | hnew
            · exact Or.inl hold
            · obtain ⟨rfl, rfl, rfl⟩ : n = s.cur ∧ r = 0 ∧ bs = [] := by simpa using hnew
              exact Or.inr (Or.inr hown)
          · exact h.hold hown rfl rfl rfl rfl
      | copy cnt i =>
          have hown := h.answered (by rw [hc]; rfl)
          simp only [serialDevRead] at hstep
          split at hstep <;> cases hstep
          · exact h.hold hown rfl rfl rfl rfl
          · refine h.away rfl rfl rfl ?_
            intro n r bs hmem
            rcases List.mem_append.mp hmem with hold | hnew
            · exact Or.inl hold
            · obtain ⟨rfl, -⟩ : n = s.cur ∧ _ := by simpa using hnew
              exact Or.inr (Or.inr hown)
  | destroy pc hc hstep =>
      cases pc <;> simp only [serialDevDestroy] at hstep <;> (try split at hstep) <;>
        cases hstep <;> exact h.away rfl rfl rfl fun _ _ _ hmem => Or.inl hmem

/-- A read that fails returns no count. -/
theorem AnswerInv.readFails {s : State} (h : AnswerInv s) : AnswerInv s.readFails := by
  refine h.away rfl rfl rfl ?_
  intro n r bs hmem
  rcases List.mem_append.mp hmem with hold | hnew
  · exact Or.inl hold
  · obtain ⟨-, rfl, -⟩ : n = s.cur ∧ r = -1 ∧ bs = [] := by simpa using hnew
    exact Or.inr (Or.inl (by omega))

/-- A step that meets the condition keeps the invariant of answers. -/
theorem answerInv_step {debug : Bool} {s t : State} {a : Action} (hland : s.LandOk)
    (h : AnswerInv s) (hok : SendsRdAfresh s a) (hstep : step debug s a = some t) :
    AnswerInv t := by
  cases step_cases hstep with
  | call c hc => cases c <;> exact h.away rfl rfl rfl fun _ _ _ hmem => Or.inl hmem
  | client hmove => exact h.client hok hmove
  | timeout len tmSec hc hready => exact h.readFails
  | clockError len tmSec hc => exact h.readFails
  | worker hrun => exact h.worker (serialRun_cases hland hrun)

/-- **A read is answered by its own command.**  In every run in which each read sends
`SER_CMD_RD` while no completion of an earlier one is owed, a read that returned a
count was answered by the RX step of its own command. -/
theorem answeredByOwn_of_afresh {debug : Bool} {s : State}
    (h : Reach (step debug) Created SendsRdAfresh s) : AnsweredByOwn s :=
  have hinv : AnswerInv s :=
    h.invariant (fun _ => answerInv_created) fun _ _ _ hs => answerInv_step (landOk_reach hs)
  hinv.own

/-- A read after a write, answered by its own RX step. -/
theorem answeredByOwn_writeReadRun :
    ∃ s, Reach (step true) Created SendsRdAfresh s ∧ Ret.read 1 1 [7] ∈ s.returns ∧
      AnsweredByOwn s := by
  obtain ⟨t, hrun, hret⟩ : ∃ t,
      exec (step true) (fun s a => decide (SendsRdAfresh s a)) blank writeReadRun = some t ∧
        t.returns = [.wrote 0 1, .read 1 1 [7]] := ⟨_, rfl, rfl⟩
  have hreach : Reach (step true) Created SendsRdAfresh t :=
    Reach.of_exec (fun _ _ => of_decide_eq_true) (.start created_blank) hrun
  exact ⟨t, hreach, by simp [hret], answeredByOwn_of_afresh hreach⟩

/-- A read gives up, the worker completes its RX step afterwards, and the next read
takes that token at once. -/
def staleRun : List Action :=
  .call (.read 1 1) :: List.replicate 6 .client ++ [.timeout] ++ List.replicate 8 .worker ++
    [.call (.read 1 1)] ++ List.replicate 8 .client

/-- Without the condition a read is answered by the command of an earlier one. -/
theorem answered_by_earlier :
    ¬ ∀ (debug : Bool) (s : State), Reach (step debug) Created anyStep s →
      AnsweredByOwn s := by
  intro hclaim
  obtain ⟨t, hrun, hret, hran⟩ : ∃ t,
      exec (step false) (fun _ _ => true) blank staleRun = some t ∧
        t.returns = [.read 0 (-1) [], .read 1 0 []] ∧ t.ran = [(0, .rd)] := ⟨_, rfl, rfl, rfl⟩
  have hreach : Reach (step false) Created anyStep t :=
    Reach.of_exec (fun _ _ _ => trivial) (.start created_blank) hrun
  have hown := hclaim false t hreach 1 0 [] (by simp [hret]) (by decide)
  simp [hran] at hown

end Serial
