import Alp.SerialBounds
import Alp.SerialMailbox
import Alp.SerialShutdown

/-!
# Every call comes to its end, or hangs

`serial_dev_write` waits for `tx_ready` without a time limit, so a write whose command
is lost waits for good: the worker sleeps, and nobody posts either semaphore again
(`Hung`).  That is the only way for a call not to return, as long as the calls keep to the
channel buffers (`CallFits`): behind `txchan` lie the device's own function pointers.
Whatever the order of the steps, a call that has begun either returns or ends up hung, and
a call is stuck in no other state (`call_ends`); a write that hangs is short of a TX step.
As long as commands are stored into an empty mailbox only, every call returns
(`call_returns`).

The steps of a call are counted: each step of either thread leaves less to do
(`State.work`), with each token of `active` counted as one more round of the worker.
-/

set_option autoImplicit false

namespace Serial

open CString Transition

/-- A call has begun and not returned. -/
def ClientPc.calling : ClientPc → Bool
  | .idle | .gone => false
  | _ => true

/-- The condition on the calls: a write fits the TX buffer, and in a build with `DEBUG` a
read finds no more in the TX channel than fits the RX buffer and the caller's.  Without
`DEBUG` a read copies nothing. -/
def CallFits (debug : Bool) (s : State) : Action → Prop
  | .call (.write _ len) => len.toNat ≤ serialChanBufSize
  | .call (.read len _) => debug = true →
    s.txchan.copyLen ≤ serialChanBufSize ∧ s.txchan.copyLen ≤ len.toNat
  | _ => True

instance (debug : Bool) (s : State) : (a : Action) → Decidable (CallFits debug s a)
  | .call (.write _ len) => inferInstanceAs (Decidable (len.toNat ≤ serialChanBufSize))
  | .call (.read len _) =>
    inferInstanceAs (Decidable (debug = true →
      s.txchan.copyLen ≤ serialChanBufSize ∧ s.txchan.copyLen ≤ len.toNat))
  | .call .destroy | .client | .timeout | .clockError | .worker => .isTrue trivial

/-- Calls that fit, and commands stored into an empty mailbox only. -/
def Orderly (debug : Bool) (s : State) (a : Action) : Prop :=
  StoresIntoEmpty s a ∧ CallFits debug s a

instance (debug : Bool) (s : State) (a : Action) : Decidable (Orderly debug s a) :=
  inferInstanceAs (Decidable (_ ∧ _))

/-- In the `DEBUG` build these are the calls whose copies stay in their buffers. -/
theorem callFits_iff (s : State) (a : Action) : CallFits true s a ↔ ChannelOk s a := by
  cases a with
  | call c =>
      cases c with
      | read len tmSec => exact forall_prop_of_true rfl
      | write pbuf len => exact Iff.rfl
      | destroy => exact Iff.rfl
  | client | timeout | clockError | worker => exact Iff.rfl

/-- While a call is under way no other begins. -/
theorem callFits_of_step {debug : Bool} {s t : State} {a : Action}
    (hcall : s.client.calling = true) (h : step debug s a = some t) : CallFits debug s a := by
  cases a with
  | call c =>
      simp only [step] at h
      split at h
      · next hc => simp [hc, ClientPc.calling] at hcall
      · cases h
  | client | timeout | clockError | worker => trivial

/-- A write waits for `tx_ready` while the worker waits for `active`, and there is no
token of either. -/
structure Hung (s : State) : Prop where
  client : ∃ pbuf len, s.client = .write pbuf len .wait
  txReady : s.txReady = 0
  worker : s.worker = .idleWait
  active : s.active = 0

/-- Nothing is possible in a state where a write hangs. -/
theorem Hung.stuck {debug : Bool} {s : State} (h : Hung s) (a : Action) :
    step debug s a = none := by
  obtain ⟨pbuf, len, hc⟩ := h.client
  cases a with
  | call c | timeout | clockError => simp only [step, hc]
  | client => simp [step, clientStep, hc, serialDevWrite, h.txReady]
  | worker => simp [step, serialRun, h.worker, h.active]

/-- The rounds of the worker's copy loop are fewer than this. -/
def rxRounds : Nat := 4294967296

/-- `memcpy` moves fewer bytes than this. -/
def copyRounds : Nat := 18446744073709551616

/-- Steps of a call that are left, at most. -/
def ClientPc.left : ClientPc → Nat
  | .idle | .gone => 0
  | .write _ len pc =>
    match pc with
    | .cnt => 7 + len.toNat
    | .len => 6 + len.toNat
    | .copy i => 5 + (len.toNat - i)
    | .cmd => 4
    | .post => 3
    | .wait => 2
    | .ret => 1
  | .read _ _ pc =>
    match pc with
    | .cnt => 9 + copyRounds
    | .len => 8 + copyRounds
    | .timeout => 7 + copyRounds
    | .cmd => 6 + copyRounds
    | .post => 5 + copyRounds
    | .clock => 4 + copyRounds
    | .wait => 3 + copyRounds
    | .get => 2 + copyRounds
    | .copy cnt i => 1 + (memcpyLen cnt - i)
  | .destroy pc =>
    match pc with
    | .set => 3
    | .post => 2
    | .join => 1

/-- Steps of the worker that are left until it waits for a token, at most. -/
def WorkerPc.left (land : Island) : WorkerPc → Nat
  | .done | .idleWait => 0
  | .loop =>
    match land with
    | .idle => 1
    | .null => 2
    | .tx | .rx => 5 + rxRounds
  | .txPost | .rxPost => 2
  | .rxLoad len i => 3 + 2 * (len - i).toNat
  | .rxStore len i _ => 4 + 2 * (len - (i + 1)).toNat
  | .rxLen => 4 + rxRounds
  | .idleRet => 6 + rxRounds
  | .idleClear _ => 7 + rxRounds
  | .idleRead => 8 + rxRounds
  | .idleStop => 9 + rxRounds

/-- A token of `active` is a round of the worker. -/
def round : Nat := 10 + rxRounds

/-- What is left to do until the call under way is over and the worker sleeps. -/
def State.work (s : State) : Nat :=
  (round + 1) * s.client.left + round * s.active + s.worker.left s.land

/-- A copy is shorter than its rounds. -/
theorem memcpyLen_lt (cnt : BitVec 32) : memcpyLen cnt < copyRounds :=
  (cnt.signExtend 64).isLt

/-- A client in a call has something left to do. -/
theorem ClientPc.left_pos {pc : ClientPc} (h : pc.calling = true) : 0 < pc.left := by
  cases pc with
  | idle | gone => cases h
  | write pbuf len pc => cases pc <;> simp only [ClientPc.left] <;> omega
  | read len tmSec pc => cases pc <;> simp only [ClientPc.left] <;> omega
  | destroy pc => cases pc <;> simp only [ClientPc.left] <;> omega

section Steps

variable {debug : Bool} {s t : State}

/-- A step of the client leaves less of its call, and posts `active` once at most. -/
theorem ClientMove.left (h : ClientMove s t) :
    t.client.left < s.client.left ∧ t.active ≤ s.active + 1 := by
  cases h with
  | write pbuf len pc hc hrun =>
      cases pc with
      | cnt | len | cmd | post | ret =>
          cases hrun
          simp [hc, ClientPc.left, State.finish, State.storeCmd]
      | copy i =>
          simp only [serialDevWrite] at hrun
          split at hrun <;> cases hrun <;> simp only [hc, ClientPc.left] <;> omega
      | wait =>
          simp only [serialDevWrite] at hrun
          split at hrun <;> cases hrun
          simp [hc, ClientPc.left]
  | read len tmSec pc hc hrun =>
      cases pc with
      | cnt | len | timeout | cmd | post | clock =>
          cases hrun
          simp [hc, ClientPc.left, State.storeCmd]
      | wait =>
          simp only [serialDevRead] at hrun
          split at hrun <;> cases hrun
          simp [hc, ClientPc.left]
      | get =>
          have hcopy := memcpyLen_lt s.rxchan.cnt
          simp only [serialDevRead] at hrun
          split at hrun <;> cases hrun <;> simp only [hc, ClientPc.left, State.finish] <;> omega
      | copy cnt i =>
          simp only [serialDevRead] at hrun
          split at hrun <;> cases hrun <;> simp only [hc, ClientPc.left, State.finish] <;> omega
  | destroy pc hc hrun =>
      cases pc with
      | set | post =>
          cases hrun
          simp [hc, ClientPc.left]
      | join =>
          simp only [serialDevDestroy] at hrun
          split at hrun <;> cases hrun
          simp [hc, ClientPc.left]

/-- A step of the worker takes a token, or leaves less of its round. -/
theorem serialRun_left (hland : s.LandOk) (h : serialRun debug s = some t) :
    round * t.active + t.worker.left t.land < round * s.active + s.worker.left s.land := by
  cases serialRun_moves h with
  | toIdle hw hl | reset hw hl => simp [hw, hl, WorkerPc.left]
  | toTx hw hl =>
      simp only [hw, hl, WorkerPc.left]
      omega
  | toRx hw hl =>
      simp only [hw, hl]
      split <;> simp only [WorkerPc.left] <;> omega
  | wake hw ha =>
      obtain ⟨n, hn⟩ : ∃ n, s.active = n + 1 := ⟨s.active - 1, by omega⟩
      have hround : 9 + rxRounds < round := Nat.lt_succ_self _
      simp only [hw, hn, WorkerPc.left, Nat.add_sub_cancel, Nat.mul_succ]
      omega
  | look hw => cases hs : s.stop <;> simp [hw, WorkerPc.left]
  | take hw => simp [hw, WorkerPc.left]
  | clear c hw => simp [hw, WorkerPc.left]
  | back hw =>
      have hloop : WorkerPc.loop.left s.land ≤ 5 + rxRounds := by
        cases s.land <;> simp [WorkerPc.left, rxRounds]
      have hback : WorkerPc.idleRet.left s.land = 6 + rxRounds := rfl
      have hdone : WorkerPc.done.left s.land = 0 := rfl
      simp only [hw]
      split <;> omega
  | sent hw | received hw =>
      have hl : s.land = .idle := by simpa [State.LandOk, hw] using hland
      simp [hw, hl, WorkerPc.left]
  | rxLen hw =>
      have hlen : (s.txchan.len.toInt - (0 : Nat)).toNat < 2147483648 := by
        have := s.txchan.len.toInt_lt
        omega
      simp only [hw, WorkerPc.left, rxRounds]
      omega
  | rxLoad len i hw hlt =>
      simp only [hw, WorkerPc.left]
      omega
  | rxCount len i hw hge =>
      simp only [hw, WorkerPc.left]
      omega
  | rxStore len i b hw =>
      simp only [hw, WorkerPc.left, Int.natCast_add, Int.natCast_one]
      omega

/-- Each step during a call leaves less to do. -/
theorem step_work {a : Action} (hland : s.LandOk) (hcall : s.client.calling = true)
    (h : step debug s a = some t) : t.work < s.work := by
  have hless : ∀ u : State, u.client.left < s.client.left → u.active ≤ s.active + 1 →
      u.worker = s.worker → u.land = s.land → u.work < s.work := by
    intro u hleft hactive hworker hl
    have hrounds : (round + 1) * u.client.left + (round + 1) ≤ (round + 1) * s.client.left := by
      rw [← Nat.mul_succ]
      exact Nat.mul_le_mul_left _ hleft
    have htokens : round * u.active ≤ round * s.active + round := by
      rw [← Nat.mul_succ]
      exact Nat.mul_le_mul_left _ hactive
    rw [State.work, State.work, hworker, hl]
    omega
  cases step_cases h with
  | call c hc => simp [hc, ClientPc.calling] at hcall
  | client hmove =>
      obtain ⟨hw, hl, -, -⟩ := hmove.frame
      exact hless t hmove.left.1 hmove.left.2 hw hl
  | timeout len tmSec hc hready =>
      exact hless s.readFails (ClientPc.left_pos hcall) (Nat.le_succ _) rfl rfl
  | clockError len tmSec hc =>
      exact hless s.readFails (ClientPc.left_pos hcall) (Nat.le_succ _) rfl rfl
  | worker hrun =>
      have hleft := serialRun_left hland hrun
      have hclient : t.client = s.client := by
        obtain ⟨-, hclient, -, -⟩ := serialRun_stop hrun
        exact hclient
      rw [State.work, State.work, hclient]
      omega

/-- During a call that does not hang, one of the threads can move. -/
theorem step_of_not_hung (hstop : StopInv s) (hcall : s.client.calling = true)
    (hnot : ¬ Hung s) : ∃ a t, step debug s a = some t := by
  have hworker : (s.worker = .idleWait → 0 < s.active) → s.worker ≠ .done →
      ∃ a t, step debug s a = some t := by
    intro hwait hdone
    obtain ⟨t, ht⟩ : ∃ t, serialRun debug s = some t :=
      Option.isSome_iff_exists.mp (serialRun_isSome hwait hdone)
    exact ⟨.worker, t, ht⟩
  have hclient : (clientStep s).isSome = true → ∃ a t, step debug s a = some t := by
    intro hsome
    obtain ⟨t, ht⟩ := Option.isSome_iff_exists.mp hsome
    exact ⟨.client, t, ht⟩
  cases hc : s.client with
  | idle | gone => simp [hc, ClientPc.calling] at hcall
  | write pbuf len pc =>
      by_cases hwait : pc = .wait ∧ s.txReady = 0
      · obtain ⟨rfl, hready⟩ := hwait
        refine hworker (fun hw => ?_) fun hdone => ?_
        · by_contra hzero
          exact hnot ⟨⟨pbuf, len, hc⟩, hready, hw, by omega⟩
        · have hflag := hstop.flag.symm.trans (hstop.done hdone)
          simp [hc, ClientPc.stopSet] at hflag
      · refine hclient ?_
        cases pc with
        | wait =>
            have hready : 0 < s.txReady := Nat.pos_of_ne_zero fun h0 => hwait ⟨rfl, h0⟩
            simp [clientStep, hc, serialDevWrite, hready]
        | copy i =>
            simp only [clientStep, hc, serialDevWrite]
            split <;> rfl
        | cnt | len | cmd | post | ret => simp [clientStep, hc, serialDevWrite]
  | read len tmSec pc =>
      by_cases hwait : pc = .wait ∧ s.rxReady = 0
      · obtain ⟨rfl, hready⟩ := hwait
        exact ⟨.timeout, s.readFails, by simp [step, hc, hready]⟩
      · refine hclient ?_
        cases pc with
        | wait =>
            have hready : 0 < s.rxReady := Nat.pos_of_ne_zero fun h0 => hwait ⟨rfl, h0⟩
            simp [clientStep, hc, serialDevRead, hready]
        | get | copy cnt i =>
            simp only [clientStep, hc, serialDevRead]
            split <;> rfl
        | cnt | len | timeout | cmd | post | clock => simp [clientStep, hc, serialDevRead]
  | destroy pc =>
      cases pc with
      | set | post => exact hclient (by simp [clientStep, hc, serialDevDestroy])
      | join =>
          by_cases hdone : s.worker = .done
          · exact hclient (by simp [clientStep, hc, serialDevDestroy, hdone])
          · refine hworker (fun hw => ?_) hdone
            have htoken := hstop.token (by rw [hc]; rfl)
            rw [hw] at htoken
            exact htoken.resolve_right (by simp [WorkerPc.leaving])

/-- The write commands in a record of the mailbox or of the worker. -/
def writes (l : List (Nat × SerCmd)) : Nat :=
  l.countP fun e => e.2 == .wr

/-- A finished write. -/
def Ret.isWrote : Ret → Bool
  | .wrote _ _ => true
  | .read _ _ _ => false

/-- The client has stored the command of the write it is in. -/
def ClientPc.wroteCmd : ClientPc → Bool
  | .write _ _ .post | .write _ _ .wait | .write _ _ .ret => true
  | _ => false

/-- The client has taken the token of the write it is in. -/
def ClientPc.tookTx : ClientPc → Bool
  | .write _ _ .ret => true
  | _ => false

/-- Each write command stored is that of a write finished or under way, and each TX
step has left a token, or its write has taken it. -/
structure TxInv (s : State) : Prop where
  sent : writes s.sent = s.returns.countP Ret.isWrote + s.client.wroteCmd.toNat
  ran : writes s.ran = s.txReady + s.returns.countP Ret.isWrote + s.client.tookTx.toNat

/-- The invariant of the channel holds when the serial was created. -/
theorem txInv_created (h : Created s) : TxInv s := by
  obtain ⟨rxchan, txchan, pbuf, rfl⟩ := h
  exact ⟨rfl, rfl⟩

/-- A step away from the write commands and their tokens. -/
theorem TxInv.away (h : TxInv s) (hsent : writes t.sent = writes s.sent)
    (hran : writes t.ran = writes s.ran) (hready : t.txReady = s.txReady)
    (hreturns : t.returns.countP Ret.isWrote = s.returns.countP Ret.isWrote)
    (hcmd : t.client.wroteCmd = s.client.wroteCmd) (htook : t.client.tookTx = s.client.tookTx) :
    TxInv t where
  sent := by rw [hsent, hreturns, hcmd, h.sent]
  ran := by rw [hran, hready, hreturns, htook, h.ran]

/-- A move of the client keeps the invariant of the channel. -/
theorem TxInv.client (h : TxInv s) (hmove : ClientMove s t) : TxInv t := by
  cases hmove with
  | write pbuf len pc hc hrun =>
      have hsent := h.sent
      have hran := h.ran
      rw [hc] at hsent hran
      cases pc with
      | cnt | len | post =>
          cases hrun
          exact ⟨hsent, hran⟩
      | copy i =>
          simp only [serialDevWrite] at hrun
          split at hrun <;> cases hrun <;> exact ⟨hsent, hran⟩
      | cmd =>
          cases hrun
          refine ⟨?_, hran⟩
          simp only [State.storeCmd, writes, List.countP_append, ClientPc.wroteCmd,
            Bool.toNat_false] at hsent ⊢
          rw [hsent]
          rfl
      | wait =>
          simp only [serialDevWrite] at hrun
          split at hrun <;> cases hrun
          refine ⟨hsent, ?_⟩
          simp only [ClientPc.tookTx, Bool.toNat_false, Bool.toNat_true] at hran ⊢
          omega
      | ret =>
          cases hrun
          constructor
          · simp only [State.finish, List.countP_append, ClientPc.wroteCmd,
              Bool.toNat_true] at hsent ⊢
            exact hsent
          · simp only [State.finish, List.countP_append, ClientPc.tookTx, Bool.toNat_true] at hran ⊢
            exact hran
  | read len tmSec pc hc hrun =>
      cases pc with
      | cnt | len | timeout | post | clock =>
          cases hrun
          exact h.away rfl rfl rfl rfl (by rw [hc]; rfl) (by rw [hc]; rfl)
      | cmd =>
          cases hrun
          refine h.away ?_ rfl rfl rfl (by rw [hc]; rfl) (by rw [hc]; rfl)
          simp [State.storeCmd, writes]
      | wait =>
          simp only [serialDevRead] at hrun
          split at hrun <;> cases hrun
          exact h.away rfl rfl rfl rfl (by rw [hc]; rfl) (by rw [hc]; rfl)
      | get | copy cnt i =>
          simp only [serialDevRead] at hrun
          split at hrun <;> cases hrun <;>
            exact h.away rfl rfl rfl (by simp [State.finish, Ret.isWrote]) (by rw [hc]; rfl)
              (by rw [hc]; rfl)
  | destroy pc hc hrun =>
      cases pc with
      | set | post =>
          cases hrun
          exact h.away rfl rfl rfl rfl (by rw [hc]; rfl) (by rw [hc]; rfl)
      | join =>
          simp only [serialDevDestroy] at hrun
          split at hrun <;> cases hrun
          exact h.away rfl rfl rfl rfl (by rw [hc]; rfl) (by rw [hc]; rfl)

/-- A step of the worker keeps the invariant of the channel. -/
theorem TxInv.worker (h : TxInv s) (hrun : serialRun debug s = some t) : TxInv t := by
  cases serialRun_moves hrun with
  | sent hw =>
      refine ⟨h.sent, ?_⟩
      have hran := h.ran
      simp only [writes, List.countP_append] at hran ⊢
      rw [hran]
      show _ + 1 = _
      omega
  | received hw =>
      refine h.away rfl ?_ rfl rfl rfl rfl
      simp [writes]
  | toIdle | toTx | toRx | reset | wake | look | take | clear | back | rxLen | rxLoad | rxCount
  | rxStore => exact ⟨h.sent, h.ran⟩

/-- A step keeps the invariant of the channel. -/
theorem txInv_step {a : Action} (h : TxInv s) (hstep : step debug s a = some t) : TxInv t := by
  cases step_cases hstep with
  | call c hc =>
      exact h.away rfl rfl rfl rfl (by rw [hc]; cases c <;> rfl) (by rw [hc]; cases c <;> rfl)
  | client hmove => exact h.client hmove
  | timeout len tmSec hc hready | clockError len tmSec hc =>
      exact h.away rfl rfl rfl (by simp [State.readFails, State.finish, Ret.isWrote])
        (by rw [hc]; rfl) (by rw [hc]; rfl)
  | worker hrun => exact h.worker hrun

/-- A write that hangs is short of one TX step. -/
theorem TxInv.hung (h : TxInv s) (hung : Hung s) : writes s.sent = writes s.ran + 1 := by
  obtain ⟨pbuf, len, hc⟩ := hung.client
  have hsent := h.sent
  have hran := h.ran
  simp only [hc, hung.txReady, ClientPc.wroteCmd, ClientPc.tookTx, Bool.toNat_true,
    Bool.toNat_false] at hsent hran
  omega

/-- Where no command is lost, no write hangs. -/
theorem MailInv.not_hung (h : MailInv s) (htx : TxInv s) : ¬ Hung s := by
  intro hung
  obtain ⟨pbuf, len, hc⟩ := hung.client
  have hrun : s.stop = false := by
    have hiff := h.stop_iff
    simpa [hc, ClientPc.stopping] using hiff
  -- without a token the mailbox is empty, and an idle worker holds nothing
  have htoken := h.token hrun
  have hcmd : s.cmd = .null := by
    by_contra hne
    rw [hung.active, hung.worker, hc, if_neg hne] at htoken
    cases htoken
  have hlost := htx.hung hung
  have hran : s.sent = s.ran := by
    have hcons := h.conserved
    simpa [State.held, State.pending, hung.worker, hcmd] using hcons
  rw [hran] at hlost
  omega

end Steps

section Runs

variable {debug : Bool} {s : State}

/-- The invariant of the shutdown holds in every state reached. -/
theorem stopInv_reach {allowed : State → Action → Prop} (h : Reach (step debug) Created allowed s) :
    StopInv s :=
  h.invariant (fun _ => stopInv_created) fun _ _ _ _ hs _ hstep => stopInv_step hs hstep

/-- The invariant of the channel holds in every state reached. -/
theorem txInv_reach {allowed : State → Action → Prop} (h : Reach (step debug) Created allowed s) :
    TxInv s :=
  h.invariant (fun _ => txInv_created) fun _ _ _ _ hs _ hstep => txInv_step hs hstep

/-- In the `DEBUG` build the calls of such a run keep to the buffers. -/
theorem channelBounds_callFits (h : Reach (step true) Created (CallFits true) s) :
    ChannelBounds s := by
  have hinv : BoundsInv s := by
    apply h.invariant
    · exact fun s hs => ⟨writeInv_created hs, lenInv_created hs⟩
    · intro s a t hs hinv hok hstep
      exact boundsInv_step hinv (landOk_reach hs) ((callFits_iff s a).mp hok) hstep
  exact hinv.len.channelBounds

/-- **Calls end or hang.**  In every run whose calls fit the buffers, whatever the order of
the steps, a call that has begun returns or ends up hung; it is stuck only when it is hung,
and then a write command was stored whose TX step never runs. -/
theorem call_ends (h : Reach (step debug) Created (CallFits debug) s) :
    Inevitable (step debug) (CallFits debug) (fun t => t.client.calling = false ∨ Hung t) s ∧
      (s.client.calling = true → ((∀ a, step debug s a = none) ↔ Hung s)) ∧
      (Hung s → writes s.sent = writes s.ran + 1) := by
  refine ⟨Inevitable.of_variant State.work ?_ ?_ h, fun hcall => ⟨fun hnone => ?_, Hung.stuck⟩,
    (txInv_reach h).hung⟩
  · intro t ht hgoal
    have hcall : t.client.calling = true := eq_true_of_ne_false fun hc => hgoal (Or.inl hc)
    obtain ⟨a, u, hstep⟩ : ∃ a u, step debug t a = some u :=
      step_of_not_hung (stopInv_reach ht) hcall fun hung => hgoal (Or.inr hung)
    exact ⟨a, u, callFits_of_step hcall hstep, hstep⟩
  · intro t a u ht hgoal hok hstep
    have hcall : t.client.calling = true := eq_true_of_ne_false fun hc => hgoal (Or.inl hc)
    exact ⟨ht.next hok hstep, step_work (landOk_reach ht) hcall hstep⟩
  · by_contra hnot
    obtain ⟨a, t, hstep⟩ : ∃ a t, step debug s a = some t :=
      step_of_not_hung (stopInv_reach h) hcall hnot
    rw [hnone a] at hstep
    cases hstep

/-- A write stores its command between the worker's reading and clearing that of a read
which has given up. -/
def hangingRun : List Action :=
  .call (.read 1 1) :: List.replicate 6 .client ++ List.replicate 4 .worker ++
    [.timeout, .call (.write (fun _ => 0) 1)] ++ List.replicate 5 .client ++
    List.replicate 5 .worker ++ [.client] ++ List.replicate 6 .worker

/-- The write hangs. -/
theorem call_ends_hangingRun :
    ∃ s, Reach (step false) Created (CallFits false) s ∧ Hung s ∧
      (∀ a, step false s a = none) ∧ writes s.sent = writes s.ran + 1 := by
  obtain ⟨t, hrun, hc, hready, hw, ha⟩ : ∃ t,
      exec (step false) (fun s a => decide (CallFits false s a)) blank hangingRun = some t ∧
        (∃ pbuf len, t.client = .write pbuf len .wait) ∧ t.txReady = 0 ∧
        t.worker = .idleWait ∧ t.active = 0 := ⟨_, rfl, ⟨_, _, rfl⟩, rfl, rfl, rfl⟩
  have hreach : Reach (step false) Created (CallFits false) t :=
    Reach.of_exec (fun _ _ => of_decide_eq_true) (.start created_blank) hrun
  have hung : Hung t := ⟨hc, hready, hw, ha⟩
  obtain ⟨-, hstuck, hlost⟩ := call_ends hreach
  have hcall : t.client.calling = true := by
    obtain ⟨pbuf, len, hc⟩ := hc
    rw [hc]
    rfl
  exact ⟨t, hreach, hung, (hstuck hcall).mpr hung, hlost hung⟩

/-- The bookkeeping of the mailbox in orderly runs. -/
theorem mailInv_reach (h : Reach (step debug) Created (Orderly debug) s) : MailInv s :=
  h.invariant (fun _ => mailInv_created) fun _ _ _ hs hinv hok =>
    mailInv_step (landOk_reach hs) hinv hok.1

/-- During a call there is a step that does not store over a command. -/
theorem MailInv.allowed_step (h : MailInv s) (hstop : StopInv s) (htx : TxInv s)
    (hcall : s.client.calling = true) : ∃ a t, StoresIntoEmpty s a ∧ step debug s a = some t := by
  by_cases hover : s.client.storing = true ∧ s.cmd ≠ .null
  · -- the command in the way has a token, or the worker has taken it already
    obtain ⟨hstoring, hcmd⟩ := hover
    have hbefore : s.client.posting = false ∧ s.client.stopping = false := by
      unfold ClientPc.storing at hstoring
      split at hstoring
      · next hc => exact ⟨by rw [hc]; rfl, by rw [hc]; rfl⟩
      · next hc => exact ⟨by rw [hc]; rfl, by rw [hc]; rfl⟩
      · cases hstoring
    have hrun : s.stop = false := by
      have hiff := h.stop_iff
      simpa [hbefore.2] using hiff
    have htoken := h.token hrun
    rw [if_neg hcmd, hbefore.1] at htoken
    have hwait : s.worker = .idleWait → 0 < s.active := by
      intro hw
      rw [hw] at htoken
      simp [WorkerPc.taking] at htoken
      omega
    have hdone : s.worker ≠ .done := fun hd => by simp [hstop.done hd] at hrun
    obtain ⟨t, ht⟩ : ∃ t, serialRun debug s = some t :=
      Option.isSome_iff_exists.mp (serialRun_isSome hwait hdone)
    exact ⟨.worker, t, trivial, ht⟩
  · obtain ⟨a, t, hstep⟩ : ∃ a t, step debug s a = some t :=
      step_of_not_hung hstop hcall (h.not_hung htx)
    refine ⟨a, t, ?_, hstep⟩
    cases a with
    | client => exact fun hstoring => by_contra fun hcmd => hover ⟨hstoring, hcmd⟩
    | call c | timeout | clockError | worker => trivial

/-- **Calls return.**  In every run whose calls fit the buffers and which stores commands
into an empty mailbox only, whatever the order of the steps, every call that has begun
returns. -/
theorem call_returns (h : Reach (step debug) Created (Orderly debug) s) :
    Inevitable (step debug) (Orderly debug) (fun t => t.client.calling = false) s := by
  refine Inevitable.of_variant State.work ?_ ?_ h
  · intro t ht hgoal
    have hcall : t.client.calling = true := eq_true_of_ne_false hgoal
    obtain ⟨a, u, hok, hstep⟩ : ∃ a u, StoresIntoEmpty t a ∧ step debug t a = some u :=
      (mailInv_reach ht).allowed_step (stopInv_reach ht) (txInv_reach ht) hcall
    exact ⟨a, u, ⟨hok, callFits_of_step hcall hstep⟩, hstep⟩
  · intro t a u ht hgoal hok hstep
    exact ⟨ht.next hok hstep, step_work (landOk_reach ht) (eq_true_of_ne_false hgoal) hstep⟩

/-- A read that has stored its command, with a timed-out read before it. -/
theorem call_returns_abandoned :
    ∃ s, Reach (step true) Created (Orderly true) s ∧ s.client.calling = true ∧ s.active = 1 ∧
      Inevitable (step true) (Orderly true) (fun t => t.client.calling = false) s := by
  obtain ⟨t, hrun, hcall, ha⟩ : ∃ t,
      exec (step true) (fun s a => decide (Orderly true s a)) blank
        (.call (.read 1 1) :: List.replicate 6 .client ++ [.timeout] ++
          List.replicate 9 .worker ++ .call (.read 1 1) :: List.replicate 5 .client) = some t ∧
        t.client.calling = true ∧ t.active = 1 := ⟨_, rfl, rfl, rfl⟩
  have hreach : Reach (step true) Created (Orderly true) t :=
    Reach.of_exec (fun _ _ => of_decide_eq_true) (.start created_blank) hrun
  exact ⟨t, hreach, hcall, ha, call_returns hreach⟩

end Runs

end Serial
